import Metakernel.GuardedRuns
import Metakernel.PointUpdates

/-!
# The spin word of a condition variable

Steps of `do_wait`, `cond_signal` and `cond_broadcast` on one condition variable, by threads that
are never put to sleep. The sections under `num_mutex` are single steps, except for the one of
`cond_broadcast`, which waits for `type_mutex` inside of it. The mutex that `do_wait` unlocks and
the empty queue of sleepers do not touch the words of the condition variable.
-/
namespace ConditionWord

open GuardedRuns PointUpdates

inductive Instr where
  -- do_wait
  | register
  | mutexUnlock
  | spinLock
  | wake
  | unlockType
  -- cond_signal
  | testSpin
  | wakeSleeper
  -- cond_broadcast
  | lockNum
  | forSpinner (i : BitVec 32)
  | clearSpin
  -- both
  | lockType
  | openWord (broadcast : Bool)
  deriving DecidableEq, Repr

def doWait : List Instr := [.register, .mutexUnlock, .spinLock, .wake, .unlockType]

def condSignal : List Instr := [.testSpin]

def condBroadcast : List Instr := [.lockNum, .forSpinner 0]

/-- `credit` is bookkeeping: the wake-ups that the call has issued and not yet released. -/
structure Thread where
  code : List Instr
  credit : ℕ
  deriving DecidableEq, Repr

/-- `issued`, `released` and `passed` are bookkeeping: the wake-ups issued, the unlocks of `word`
carried out for them, and the waits that have got past `spin_lock(cond->mutex)`. -/
structure State (τ : Type) where
  threads : τ → Thread
  word : Bool
  numMutex : Bool
  typeMutex : Bool
  numSpin : BitVec 32
  broadcast : Bool
  issued : ℕ
  released : ℕ
  passed : ℕ

inductive Call where
  | wait | signal | broadcast
  deriving DecidableEq, Repr

def Call.code : Call → List Instr
  | .wait => doWait
  | .signal => condSignal
  | .broadcast => condBroadcast

inductive Event (τ : Type) where
  | call (t : τ) (c : Call)
  | exec (t : τ)
  deriving DecidableEq, Repr

variable {τ : Type} [DecidableEq τ]

def State.setThread (s : State τ) (t : τ) (code : List Instr) (credit : ℕ) : State τ :=
  { s with threads := Function.update s.threads t ⟨code, credit⟩ }

def State.goto (s : State τ) (t : τ) (code : List Instr) : State τ :=
  s.setThread t code (s.threads t).credit

def perform (s : State τ) (t : τ) : Option (State τ) :=
  match (s.threads t).code with
  | [] => none
  | .register :: code =>
    if s.numMutex then none else some { s.goto t code with numSpin := s.numSpin + 1 }
  | .mutexUnlock :: code => some (s.goto t code)
  | .spinLock :: code =>
    if s.word then none else some { s.goto t code with word := true, passed := s.passed + 1 }
  | .wake :: code => some (s.goto t code)
  | .unlockType :: code => some { s.goto t code with typeMutex := false }
  | .testSpin :: code =>
    if s.numMutex then none
    else if s.numSpin ≠ 0 then
      some { s.setThread t (.lockType :: .openWord false :: code) 1 with
        numSpin := s.numSpin - 1, issued := s.issued + 1 }
    else some (s.goto t (.wakeSleeper :: code))
  | .wakeSleeper :: code => some (s.goto t code)
  | .lockNum :: code =>
    if s.numMutex then none
    else some { s.setThread t code s.numSpin.toNat with
      numMutex := true, issued := s.issued + s.numSpin.toNat }
  | .forSpinner i :: code =>
    if i < s.numSpin then
      some (s.goto t (.lockType :: .openWord true :: .forSpinner (i + 1) :: code))
    else some (s.goto t (.clearSpin :: code))
  | .clearSpin :: code => some { s.goto t code with numSpin := 0, numMutex := false }
  | .lockType :: code =>
    if s.typeMutex then none else some { s.goto t code with typeMutex := true }
  | .openWord broadcast :: code =>
    some { s.setThread t code ((s.threads t).credit - 1) with
      broadcast := broadcast, word := false, released := s.released + 1 }

def next (s : State τ) : Event τ → Option (State τ)
  | .call t c => if (s.threads t).code = [] then some (s.setThread t c.code 0) else none
  | .exec t => perform s t

/-- After `cond_init`. -/
def start : State τ := ⟨fun _ => ⟨[], 0⟩, false, false, false, 0, false, 0, 0, 0⟩

def WordPromised (s : State τ) : Event τ → Prop
  | .exec t => (s.threads t).code.head? = some .spinLock → 0 < s.released
  | .call _ _ => True

instance (s : State τ) (e : Event τ) : Decidable (WordPromised s e) := by
  cases e <;> unfold WordPromised <;> infer_instance

inductive Shape (numSpin : BitVec 32) : List Instr → ℕ → Prop where
  | wait (k : ℕ) : Shape numSpin (doWait.drop k) 0
  | signal : Shape numSpin condSignal 0
  | signalLock : Shape numSpin [.lockType, .openWord false] 1
  | signalOpen : Shape numSpin [.openWord false] 1
  | sleeper : Shape numSpin [.wakeSleeper] 0
  | broadcast : Shape numSpin condBroadcast 0
  | loop {i c} : c + i.toNat = numSpin.toNat → Shape numSpin [.forSpinner i] c
  | loopLock {i c} : i < numSpin → c + i.toNat = numSpin.toNat →
      Shape numSpin [.lockType, .openWord true, .forSpinner (i + 1)] c
  | loopOpen {i c} : i < numSpin → c + i.toNat = numSpin.toNat →
      Shape numSpin [.openWord true, .forSpinner (i + 1)] c
  | clear : Shape numSpin [.clearSpin] 0

/-- Inside the section of a broadcast under `num_mutex`. -/
def inLoop : List Instr → Bool
  | [.forSpinner _] | [.lockType, .openWord _, .forSpinner _] | [.openWord _, .forSpinner _]
  | [.clearSpin] => true
  | _ => false

theorem Shape.change {n n' : BitVec 32} {code : List Instr} {c : ℕ} (h : Shape n code c)
    (hl : inLoop code = false) : Shape n' code c := by
  cases h with
  | wait k => exact .wait k
  | signal => exact .signal
  | signalLock => exact .signalLock
  | signalOpen => exact .signalOpen
  | sleeper => exact .sleeper
  | broadcast => exact .broadcast
  | loop => cases hl
  | loopLock => cases hl
  | loopOpen => cases hl
  | clear => cases hl

section Invariant

variable [Fintype τ]

structure Inv (s : State τ) : Prop where
  shape : ∀ t, Shape s.numSpin (s.threads t).code (s.threads t).credit
  locked : ∀ t, inLoop (s.threads t).code = true → s.numMutex = true
  alone : ∀ t u, inLoop (s.threads t).code = true → inLoop (s.threads u).code = true → t = u
  balance : s.issued = s.released + ∑ t, (s.threads t).credit
  taken : s.word = true → s.passed ≤ s.released
  free : s.word = false → s.passed + 1 ≤ s.released ∨ (s.released = 0 ∧ s.passed = 0)

variable {s s' : State τ} {t : τ}

omit [DecidableEq τ] in
theorem start_inv : Inv (start : State τ) where
  shape _ := .wait 5
  locked _ h := by cases h
  alone _ _ h := by cases h
  balance := by simp [start]
  taken h := by cases h
  free _ := Or.inr ⟨rfl, rfl⟩

/-- A step of `t`, by what it does to the locks and to the counts. -/
theorem Inv.move (h : Inv s) {code : List Instr} {credit : ℕ}
    (hthreads : s'.threads = Function.update s.threads t ⟨code, credit⟩)
    (hshape : Shape s'.numSpin code credit)
    (hspin : s'.numSpin = s.numSpin ∨ ∀ u, u ≠ t → inLoop (s.threads u).code = false)
    (hlocked : inLoop code = true →
      s'.numMutex = true ∧ (inLoop (s.threads t).code = true ∨ s.numMutex = false))
    (hmutex : s'.numMutex = s.numMutex ∨ s'.numMutex = true ∨ inLoop (s.threads t).code = true)
    (hbalance : s'.issued + s.released + (s.threads t).credit = s.issued + s'.released + credit)
    (htaken : s'.word = true → s'.passed ≤ s'.released)
    (hfree : s'.word = false →
      s'.passed + 1 ≤ s'.released ∨ (s'.released = 0 ∧ s'.passed = 0)) : Inv s' := by
  have hself : s'.threads t = ⟨code, credit⟩ := by rw [hthreads, Function.update_self]
  have hne : ∀ u, u ≠ t → s'.threads u = s.threads u := by
    intro u hu
    rw [hthreads, Function.update_of_ne hu]
  have hapart : inLoop code = true → ∀ u, u ≠ t → inLoop (s.threads u).code = false := by
    intro hl u hu
    rcases (hlocked hl).2 with ht | hfree
    · exact Bool.eq_false_iff.mpr fun hlu => hu (h.alone u t hlu ht)
    · exact Bool.eq_false_iff.mpr fun hlu => by simp [h.locked u hlu] at hfree
  constructor
  · intro u
    by_cases hu : u = t
    · rwa [hu, hself]
    · rw [hne u hu]
      rcases hspin with hspin | hspin
      · rw [hspin]
        exact h.shape u
      · exact (h.shape u).change (hspin u hu)
  · intro u hl
    by_cases hu : u = t
    · rw [hu, hself] at hl
      exact (hlocked hl).1
    · rw [hne u hu] at hl
      rcases hmutex with hm | hm | ht
      · rw [hm]
        exact h.locked u hl
      · exact hm
      · exact absurd (h.alone u t hl ht) hu
  · intro u v hlu hlv
    by_cases hu : u = t <;> by_cases hv : v = t
    · rw [hu, hv]
    · rw [hu, hself] at hlu
      rw [hne v hv, hapart hlu v hv] at hlv
      cases hlv
    · rw [hv, hself] at hlv
      rw [hne u hu, hapart hlv u hu] at hlu
      cases hlu
    · rw [hne u hu] at hlu
      rw [hne v hv] at hlv
      exact h.alone u v hlu hlv
  · have hsum := sum_change (f := fun u => (s.threads u).credit)
      (g := fun u => (s'.threads u).credit) (i := t) fun u hu => by rw [hne u hu]
    have hold := h.balance
    simp only [hself] at hsum
    omega
  · exact htaken
  · exact hfree

/-- A step that leaves the word, the counts and `num_mutex` alone. -/
theorem Inv.goto (h : Inv s) {code : List Instr} {typeMutex : Bool}
    (hshape : Shape s.numSpin code (s.threads t).credit)
    (hl : inLoop code = inLoop (s.threads t).code) :
    Inv { s.goto t code with typeMutex := typeMutex } := by
  refine h.move rfl hshape (Or.inl rfl) ?_ (Or.inl rfl) rfl h.taken h.free
  intro hc
  rw [hl] at hc
  exact ⟨h.locked t hc, Or.inl hc⟩

omit [DecidableEq τ] in
theorem no_loop_of_free (h : Inv s) (hfree : s.numMutex = false) (u : τ) :
    inLoop (s.threads u).code = false := by
  by_contra hl
  rw [h.locked u (Bool.eq_true_of_not_eq_false hl)] at hfree
  cases hfree

theorem toNat_succ_of_lt {i n : BitVec 32} (h : i < n) : (i + 1).toNat = i.toNat + 1 := by
  have hone : (1 : BitVec 32).toNat = 1 := rfl
  have hlt : i.toNat < n.toNat := h
  have hbound := n.isLt
  rw [BitVec.toNat_add, hone]
  omega

theorem wait_preserves_inv {k : ℕ} (h : Inv s) (hcode : (s.threads t).code = doWait.drop k)
    (hcredit : (s.threads t).credit = 0) (hg : WordPromised s (.exec t))
    (hn : perform s t = some s') : Inv s' := by
  have hshape : ∀ j, Shape s.numSpin (doWait.drop j) (s.threads t).credit := by
    intro j
    rw [hcredit]
    exact .wait j
  have hl : inLoop (s.threads t).code = false := by
    rw [hcode]
    rcases k with _ | _ | _ | _ | _ | k
    all_goals first | rfl | skip
    rw [List.drop_eq_nil_of_le (by simp [doWait])]
    rfl
  rcases k with _ | _ | _ | _ | _ | k
  · simp only [perform, hcode, doWait, List.drop] at hn
    split at hn
    · cases hn
    · rename_i hfree
      cases hn
      have hnone := no_loop_of_free h (Bool.eq_false_iff.mpr hfree)
      refine h.move rfl (by rw [hcredit]; exact .wait 1) (Or.inr fun u _ => hnone u) ?_ (Or.inl rfl)
        rfl h.taken h.free
      intro hc
      cases hc
  · simp only [perform, hcode, doWait, List.drop] at hn
    cases hn
    exact h.goto (hshape 2) (by rw [hl]; rfl)
  · have hpromise := hg (by rw [hcode]; rfl)
    simp only [perform, hcode, doWait, List.drop] at hn
    split at hn
    · cases hn
    · rename_i hword
      cases hn
      have hfree := h.free (Bool.eq_false_iff.mpr hword)
      refine h.move rfl (hshape 3) (Or.inl rfl) (fun hc => by cases hc) (Or.inl rfl) rfl
        (fun _ => ?_) fun hf => by cases hf
      rcases hfree with hlt | ⟨hz, -⟩
      · exact hlt
      · rw [hz] at hpromise
        cases hpromise
  · simp only [perform, hcode, doWait, List.drop] at hn
    cases hn
    exact h.goto (hshape 4) (by rw [hl]; rfl)
  · simp only [perform, hcode, doWait, List.drop] at hn
    cases hn
    exact h.goto (hshape 5) (by rw [hl]; rfl)
  · simp [perform, hcode, doWait] at hn

omit [DecidableEq τ] in
theorem Inv.passed_le (h : Inv s) : s.passed ≤ s.released := by
  cases hword : s.word
  · rcases h.free hword with hlt | ⟨-, hz⟩
    · exact Nat.le_of_succ_le hlt
    · rw [hz]
      exact Nat.zero_le _
  · exact h.taken hword

theorem Inv.opens (h : Inv s) {code : List Instr} {broadcast : Bool}
    (hshape : Shape s.numSpin code ((s.threads t).credit - 1)) (hcredit : 0 < (s.threads t).credit)
    (hl : inLoop code = inLoop (s.threads t).code) :
    Inv { s.setThread t code ((s.threads t).credit - 1) with
      broadcast := broadcast, word := false, released := s.released + 1 } := by
  have hle := h.passed_le
  refine h.move rfl hshape (Or.inl rfl) (fun hc => ?_) (Or.inl rfl) ?_ (fun hf => by cases hf)
    fun _ => Or.inl (Nat.succ_le_succ hle)
  · rw [hl] at hc
    exact ⟨h.locked t hc, Or.inl hc⟩
  · change s.issued + s.released + _ = s.issued + (s.released + 1) + ((s.threads t).credit - 1)
    omega

theorem perform_preserves_inv (h : Inv s) (hg : WordPromised s (.exec t))
    (hn : perform s t = some s') : Inv s' := by
  have hshape := h.shape t
  generalize hcode : (s.threads t).code = code at hshape
  generalize hcredit : (s.threads t).credit = credit at hshape
  cases hshape with
  | wait k => exact wait_preserves_inv h hcode hcredit hg hn
  | signal =>
    simp only [perform, hcode, condSignal] at hn
    split at hn
    · cases hn
    · rename_i hfree
      have hnone := no_loop_of_free h (Bool.eq_false_iff.mpr hfree)
      split at hn
      · cases hn
        refine h.move rfl .signalLock (Or.inr fun u _ => hnone u) (fun hc => by cases hc)
          (Or.inl rfl) ?_ h.taken h.free
        dsimp only
        change s.issued + 1 + s.released + _ = s.issued + s.released + 1
        omega
      · cases hn
        exact h.goto (by rw [hcredit]; exact .sleeper) (by rw [hcode]; rfl)
  | signalLock =>
    simp only [perform, hcode] at hn
    split at hn
    · cases hn
    · cases hn
      exact h.goto (by rw [hcredit]; exact .signalOpen) (by rw [hcode]; rfl)
  | signalOpen =>
    simp only [perform, hcode] at hn
    cases hn
    exact h.opens (by rw [hcredit]; exact .wait 5) (by rw [hcredit]; exact Nat.one_pos)
      (by rw [hcode]; rfl)
  | sleeper =>
    simp only [perform, hcode] at hn
    cases hn
    exact h.goto (by rw [hcredit]; exact .wait 5) (by rw [hcode]; rfl)
  | broadcast =>
    simp only [perform, hcode, condBroadcast] at hn
    split at hn
    · cases hn
    · rename_i hfree
      cases hn
      refine h.move rfl (.loop (Nat.add_zero _)) (Or.inl rfl)
        (fun _ => ⟨rfl, Or.inr (Bool.eq_false_iff.mpr hfree)⟩) (Or.inr (Or.inl rfl)) ?_ h.taken
        h.free
      change s.issued + s.numSpin.toNat + s.released + _ = s.issued + s.released + s.numSpin.toNat
      omega
  | loop hbalance =>
    simp only [perform, hcode] at hn
    split at hn
    · rename_i hlt
      cases hn
      exact h.goto (by rw [hcredit]; exact .loopLock hlt hbalance) (by rw [hcode]; rfl)
    · rename_i hge
      cases hn
      have hle : s.numSpin.toNat ≤ _ := BitVec.not_lt.mp hge
      have hzero : credit = 0 := by omega
      exact h.goto (by rw [hcredit, hzero]; exact .clear) (by rw [hcode]; rfl)
  | loopLock hlt hbalance =>
    simp only [perform, hcode] at hn
    split at hn
    · cases hn
    · cases hn
      exact h.goto (by rw [hcredit]; exact .loopOpen hlt hbalance) (by rw [hcode]; rfl)
  | loopOpen hlt hbalance =>
    simp only [perform, hcode] at hn
    cases hn
    have hsucc := toNat_succ_of_lt hlt
    have hlt' := BitVec.lt_def.mp hlt
    refine h.opens (.loop ?_) (by rw [hcredit]; omega) (by rw [hcode]; rfl)
    rw [hcredit, hsucc]
    omega
  | clear =>
    simp only [perform, hcode] at hn
    cases hn
    have hin : inLoop (s.threads t).code = true := by
      rw [hcode]
      rfl
    refine h.move rfl (by rw [hcredit]; exact .wait 5) (Or.inr fun u hu => ?_)
      (fun hc => by cases hc) (Or.inr (Or.inr hin)) rfl h.taken h.free
    exact Bool.eq_false_iff.mpr fun hl => hu (h.alone u t hl hin)

theorem step_preserves_inv {e : Event τ} (h : Inv s) (hg : WordPromised s e)
    (hn : next s e = some s') : Inv s' := by
  cases e with
  | call t c =>
    simp only [next] at hn
    split at hn
    · rename_i hidle
      cases hn
      have hcredit : (s.threads t).credit = 0 := by
        have hshape := h.shape t
        rw [hidle] at hshape
        generalize hc : ([] : List Instr) = code at hshape
        generalize (s.threads t).credit = credit at hshape
        cases hshape <;> first | rfl | cases hc
      refine h.move rfl ?_ (Or.inl rfl) ?_ (Or.inl rfl) (by rw [hcredit]; rfl) h.taken h.free
      · cases c with
        | wait => exact .wait 0
        | signal => exact .signal
        | broadcast => exact .broadcast
      · cases c <;> exact fun hc => by cases hc
    · cases hn
  | exec t => exact perform_preserves_inv h hg hn

/-- When no wait takes the word before the first wake-up has unlocked it, no more waits get past
it than wake-ups are issued, and from then on the word is locked whenever no wake-up is
undelivered. -/
theorem waits_within_wakeups (h : Execution next WordPromised start s) :
    s.passed ≤ s.issued ∧ (0 < s.released → s.passed = s.issued → s.word = true) := by
  have hI : Inv s := h.preserves (fun _ _ _ hI hg hn => step_preserves_inv hI hg hn) start_inv
  have hle := hI.passed_le
  have hbalance := hI.balance
  refine ⟨by omega, fun hpos heq => ?_⟩
  by_contra hword
  rcases hI.free (Bool.eq_false_iff.mpr hword) with hlt | ⟨hz, -⟩ <;> omega

end Invariant

def signalFirst {n : ℕ} (t u : Fin n) : List (Event (Fin n)) :=
  [.call t .wait, .exec t, .exec t, .call u .signal, .exec u, .exec u, .exec u, .exec t]

theorem waits_within_wakeups_signalled : ∃ s : State (Fin 2),
    Execution next WordPromised start s ∧ s.passed = 1 ∧ s.passed ≤ s.issued ∧
      s.word = true := by
  have hrun : (follow next WordPromised start (signalFirst 0 1)).map
      (fun s : State (Fin 2) => decide (s.passed = 1 ∧ s.issued = 1 ∧ s.released = 1)) =
        some true := by
    decide +kernel
  obtain ⟨s, hs, hfacts⟩ := Option.map_eq_some_iff.mp hrun
  obtain ⟨hpassed, hissued, hreleased⟩ := of_decide_eq_true hfacts
  have hwaits := waits_within_wakeups (execution_of_follow hs)
  exact ⟨s, execution_of_follow hs, hpassed, hwaits.1,
    hwaits.2 (by omega) (hpassed.trans hissued.symm)⟩

/-- A single wait gets past the word that `cond_init` has left clear. -/
theorem wait_without_wakeup : ¬ ∀ s : State (Fin 2),
    Execution next (fun _ _ => True) start s → s.passed ≤ s.issued := by
  intro hall
  have hrun : (follow next (fun _ _ => True) start
      [.call 0 .wait, .exec 0, .exec 0, .exec 0]).map
        (fun s : State (Fin 2) => decide (s.passed = 1 ∧ s.issued = 0)) = some true := by
    decide +kernel
  obtain ⟨s, hs, hfacts⟩ := Option.map_eq_some_iff.mp hrun
  obtain ⟨hpassed, hissued⟩ := of_decide_eq_true hfacts
  have hle := hall s (execution_of_follow hs)
  omega

end ConditionWord
