import Mathlib.Data.BitVec
import Mathlib.Tactic.LinearCombination
import Metakernel.MutualExclusion
import Metakernel.PointUpdates

/-!
# The balance of `timer_count`

An unlock that finds `num_spin` nonzero leaves the timer disabled for the spinner that takes the
lock word next. The balance is kept exactly as long as such a word is taken by a thread that spins
on it, and a word that was cleared with the timer restored is not.
-/
namespace Synchronization

open GuardedRuns PointUpdates

variable {τ κ : Type} [DecidableEq τ] [DecidableEq κ]

/-- `left` records that the lock word was cleared with the timer left disabled and has not been
taken since. -/
structure TimedRun (τ κ : Type) where
  state : State τ Unit κ
  left : Bool

def leftAfter (r : TimedRun τ κ) : Event τ Unit κ → Bool
  | .exec t _ =>
    match (r.state.threads t).code.head? with
    | some (.unlockSpun _) => true
    | some (.firstTry _) | some (.secondTry _) | some (.spinLock _) =>
      r.left && (r.state.mutexes ()).word
    | _ => r.left
  | _ => r.left

def timedNext (r : TimedRun τ κ) (e : Event τ Unit κ) : Option (TimedRun τ κ) :=
  (next r.state e).map fun s => ⟨s, leftAfter r e⟩

/-- Calls of `mutex_lock` and `mutex_unlock`, and no timer interrupt that could put a thread to
sleep. -/
def OnlyLocks : Event τ Unit κ → Prop
  | .call _ c => c = .mutexLock () ∨ c = .mutexUnlock ()
  | .tick _ => False
  | .exec _ _ => True

def TakenAsLeft (r : TimedRun τ κ) : Event τ Unit κ → Prop
  | .exec t _ =>
    match (r.state.threads t).code.head? with
    | some (.firstTry _) | some (.secondTry _) => (r.state.mutexes ()).word = false → r.left = false
    | some (.spinLock _) => (r.state.mutexes ()).word = false → r.left = true
    | _ => True
  | _ => True

instance (e : Event τ Unit κ) : Decidable (OnlyLocks e) :=
  match e with
  | .call _ _ => inferInstanceAs (Decidable (_ ∨ _))
  | .tick _ => inferInstanceAs (Decidable False)
  | .exec _ _ => inferInstanceAs (Decidable True)

instance (r : TimedRun τ κ) (e : Event τ Unit κ) : Decidable (TakenAsLeft r e) := by
  cases e with
  | call t c => exact inferInstanceAs (Decidable True)
  | tick t => exact inferInstanceAs (Decidable True)
  | exec t stale =>
    unfold TakenAsLeft
    dsimp only
    split <;> infer_instance

/-- How often an instruction will have restored the timer more than disabled it. Taking the word by
spinning brings a disabled timer along, and `unlockSpun` leaves one behind. -/
def Instr.owed {μ : Type} : Instr τ μ κ → BitVec 16
  | .timerDisable | .spinLock _ => -1
  | .timerRestore | .unlockSpun _ | .testSpin false _ => 1
  | _ => 0

def owed (code : List (Instr τ Unit κ)) : BitVec 16 := (code.map Instr.owed).sum

section

omit [DecidableEq τ] [DecidableEq κ]

@[simp] theorem owed_nil : owed ([] : List (Instr τ Unit κ)) = 0 := rfl

@[simp] theorem owed_cons (i : Instr τ Unit κ) (code : List (Instr τ Unit κ)) :
    owed (i :: code) = i.owed + owed code := List.sum_cons

theorem owed_append (l r : List (Instr τ Unit κ)) : owed (l ++ r) = owed l + owed r := by
  simp [owed]

abbrev lateBoost : List (Instr τ Unit κ) := [.priorityBoost (), .numSpinDec (), .timerRestore]

/-- What is left of a call of `mutex_lock` or `mutex_unlock`, with whether `num_spin` counts the
thread and whether it owns the mutex. -/
inductive LockCode : Option Unit → Bool → List (Instr τ Unit κ) → Prop where
  | idle (o) : LockCode none o []
  | firstTry (o) : LockCode none o [.firstTry ()]
  | staleBoost (o) : LockCode none o [.staleBoost ()]
  | staleAdjust (o w p) : LockCode none o [.adjustPriority w p]
  | staleNull (o) : LockCode none o [.fault]
  | setWaitObj (o) : LockCode none o (slowPath ())
  | disable (o) : LockCode none o
      (.timerDisable :: .setWaitType .mutex :: .numSpinInc () :: .secondTry () :: lateBoost)
  | setWaitType (o) : LockCode none o
      (.setWaitType .mutex :: .numSpinInc () :: .secondTry () :: lateBoost)
  | register (o) : LockCode none o (.numSpinInc () :: .secondTry () :: lateBoost)
  | retry (o) : LockCode (some ()) o (.secondTry () :: lateBoost)
  | back (o) : LockCode (some ()) o (.timerRestore :: .spinLock () :: lateBoost)
  | spin (o) : LockCode (some ()) o (.spinLock () :: lateBoost)
  | boost : LockCode (some ()) true lateBoost
  | adjust (w p) : LockCode (some ()) true [.adjustPriority w p, .numSpinDec (), .timerRestore]
  | withdraw : LockCode (some ()) true [.numSpinDec (), .timerRestore]
  | restore (o) : LockCode none o [.timerRestore]
  | unlock : LockCode none true [.timerDisable, .testSpin false ()]
  | testSpin : LockCode none true [.testSpin false ()]
  | unlockSpun : LockCode none true [.unlockSpun ()]
  | testQueue : LockCode none true [.testQueue false (), .timerRestore]
  | clearHolder : LockCode none true [.clearHolder (), .unlockFree (), .timerRestore]
  | unlockFree : LockCode none true [.unlockFree (), .timerRestore]

def Seeking (code : List (Instr τ Unit κ)) : Prop :=
  code = .secondTry () :: lateBoost ∨ code = .timerRestore :: .spinLock () :: lateBoost ∨
    code = .spinLock () :: lateBoost

theorem LockCode.seeking {o : Bool} {code : List (Instr τ Unit κ)}
    (h : LockCode (some ()) o code) (ho : o = false) : Seeking code := by
  cases h with
  | retry => exact Or.inl rfl
  | back => exact Or.inr (Or.inl rfl)
  | spin => exact Or.inr (Or.inr rfl)
  | boost => cases ho
  | adjust => cases ho
  | withdraw => cases ho

end

def counts (th : Thread τ Unit κ) : BitVec 32 := if th.counted = some () then 1 else 0

variable [Fintype τ]

structure Balanced (start : BitVec 16) (r : TimedRun τ κ) : Prop where
  exclusive : Exclusive r.state
  code : ∀ t, LockCode (r.state.threads t).counted (r.state.owns t ()) (r.state.threads t).code
  queue : (r.state.mutexes ()).queue = none
  numSpin : (r.state.mutexes ()).numSpin = ∑ t, counts (r.state.threads t)
  timer : r.state.timerCount =
    start + ∑ t, owed (r.state.threads t).code + if r.left then 1 else 0
  left : r.left = true → (r.state.mutexes ()).word = false ∧
    ∃ t, Seeking (r.state.threads t).code
  spun : ∀ t, (r.state.threads t).code = [.unlockSpun ()] → ∃ u, Seeking (r.state.threads u).code

omit [DecidableEq τ] [DecidableEq κ] in
theorem balanced_initial {s : State τ Unit κ} (h : Initial s) :
    Balanced s.timerCount (⟨s, false⟩ : TimedRun τ κ) := by
  have hcode : ∀ t, (s.threads t).code = [] := fun t => (h.thread t).1
  have hcounted : ∀ t, (s.threads t).counted = none := fun t => (h.thread t).2.2.2.2.2
  constructor
  · exact exclusive_initial h
  · intro t
    rw [hcode, hcounted]
    exact .idle _
  · simp [h.mutex]
  · simp [h.mutex, counts, hcounted]
  · simp [hcode]
  · intro hf
    cases hf
  · intro t ht
    simp [hcode] at ht

/-- `t` takes a step, and nothing of the other threads that the balance speaks of changes. -/
structure Apart (s : State τ Unit κ) (t : τ) (s' : State τ Unit κ) : Prop where
  code : ∀ u, (s'.threads u).code = (s.threads u).code
  counted : ∀ u, u ≠ t → (s'.threads u).counted = (s.threads u).counted
  owns : ∀ u, u ≠ t → s'.owns u () = s.owns u ()

section Steps

variable {start : BitVec 16} {r : TimedRun τ κ} {t : τ} {s₁ : State τ Unit κ}
  {code : List (Instr τ Unit κ)} {left : Bool}

omit [DecidableEq κ] [Fintype τ] in
theorem Apart.setCode_threads (ha : Apart r.state t s₁) {u : τ} (hu : u ≠ t) :
    ((setCode s₁ t code).threads u).code = (r.state.threads u).code ∧
      ((setCode s₁ t code).threads u).counted = (r.state.threads u).counted := by
  simp [setCode, hu, ha.code u, ha.counted u hu]

omit [DecidableEq κ] in
theorem Balanced.moved (h : Balanced start r) (hex : Exclusive (setCode s₁ t code))
    (ha : Apart r.state t s₁) (ht : LockCode (s₁.threads t).counted (s₁.owns t ()) code)
    (hq : (s₁.mutexes ()).queue = none)
    (hn : (s₁.mutexes ()).numSpin + counts (r.state.threads t) =
      (r.state.mutexes ()).numSpin + counts (s₁.threads t))
    (htimer : s₁.timerCount + owed (r.state.threads t).code + (if r.left then 1 else 0) =
      r.state.timerCount + owed code + if left then 1 else 0)
    (hleft : left = true → (s₁.mutexes ()).word = false ∧
      ∃ u, Seeking ((setCode s₁ t code).threads u).code)
    (hspun : ∀ u, ((setCode s₁ t code).threads u).code = [.unlockSpun ()] →
      ∃ v, Seeking ((setCode s₁ t code).threads v).code) :
    Balanced start (⟨setCode s₁ t code, left⟩ : TimedRun τ κ) := by
  have hself : ((setCode s₁ t code).threads t).code = code ∧
      counts ((setCode s₁ t code).threads t) = counts (s₁.threads t) := by
    simp [setCode, counts]
  constructor
  · exact hex
  · intro u
    by_cases hu : u = t
    · subst hu
      simpa [setCode] using ht
    · obtain ⟨hc, hk⟩ : ((setCode s₁ t code).threads u).code = _ ∧
          ((setCode s₁ t code).threads u).counted = _ := ha.setCode_threads hu
      show LockCode _ (s₁.owns u ()) _
      rw [hc, hk, ha.owns u hu]
      exact h.code u
  · exact hq
  · have hsum := sum_change (f := fun u => counts (r.state.threads u))
      (g := fun u => counts ((setCode s₁ t code).threads u)) (i := t) fun u hu => by
        dsimp only [counts]
        rw [(ha.setCode_threads hu).2]
    rw [hself.2, ← h.numSpin] at hsum
    show (s₁.mutexes ()).numSpin = _
    linear_combination hn - hsum
  · have hsum := sum_change (f := fun u => owed (r.state.threads u).code)
      (g := fun u => owed ((setCode s₁ t code).threads u).code) (i := t) fun u hu => by
        rw [(ha.setCode_threads hu).1]
    rw [hself.1] at hsum
    have hold := h.timer
    show s₁.timerCount = _
    linear_combination htimer - hsum + hold
  · exact hleft
  · exact hspun

omit [DecidableEq κ] in
theorem Balanced.quiet (h : Balanced start r) (hex : Exclusive (setCode s₁ t code))
    (ha : Apart r.state t s₁) (ht : LockCode (s₁.threads t).counted (s₁.owns t ()) code)
    (hq : (s₁.mutexes ()).queue = none)
    (hn : (s₁.mutexes ()).numSpin + counts (r.state.threads t) =
      (r.state.mutexes ()).numSpin + counts (s₁.threads t))
    (htimer : s₁.timerCount + owed (r.state.threads t).code = r.state.timerCount + owed code)
    (hw : (s₁.mutexes ()).word = (r.state.mutexes ()).word)
    (hseek : Seeking (r.state.threads t).code → Seeking code)
    (hspun : code = [.unlockSpun ()] → ∃ u, u ≠ t ∧ Seeking (r.state.threads u).code) :
    Balanced start (⟨setCode s₁ t code, r.left⟩ : TimedRun τ κ) := by
  have hkeep : (∃ u, Seeking (r.state.threads u).code) →
      ∃ u, Seeking ((setCode s₁ t code).threads u).code := by
    rintro ⟨u, hu⟩
    refine ⟨u, ?_⟩
    by_cases hut : u = t
    · subst hut
      simpa [setCode] using hseek hu
    · rwa [(ha.setCode_threads hut).1]
  apply h.moved hex ha ht hq hn
  · rw [htimer]
  · intro hl
    rw [hw]
    exact ⟨(h.left hl).1, hkeep (h.left hl).2⟩
  · intro u hu
    by_cases hut : u = t
    · subst hut
      obtain ⟨v, -, hv⟩ := hspun (by simpa [setCode] using hu)
      exact hkeep ⟨v, hv⟩
    · rw [(ha.setCode_threads hut).1] at hu
      exact hkeep (h.spun u hu)

omit [DecidableEq τ] [DecidableEq κ] in
theorem Balanced.spun_owns (h : Balanced start r) {u : τ}
    (hu : (r.state.threads u).code = [.unlockSpun ()]) : r.state.owns u () = true := by
  have hc := h.code u
  rw [hu] at hc
  generalize (r.state.threads u).counted = k, r.state.owns u () = o at hc ⊢
  cases hc
  rfl

omit [DecidableEq τ] [DecidableEq κ] in
theorem Balanced.owner_word (h : Balanced start r) (ht : r.state.owns t () = true) :
    (r.state.mutexes ()).word = true ∧ r.left = false := by
  have hw := (h.exclusive.word ()).mpr ⟨t, ht⟩
  refine ⟨hw, ?_⟩
  by_contra hl
  have hclear := (h.left (by simpa using hl)).1
  rw [hw] at hclear
  cases hclear

omit [DecidableEq κ] in
theorem Balanced.taken (h : Balanced start r)
    (hex : Exclusive (setCode (acquire r.state t ()) t code))
    (hw : (r.state.mutexes ()).word = false)
    (ht : LockCode (r.state.threads t).counted true code)
    (htimer : owed (r.state.threads t).code + (if r.left then 1 else 0) = owed code)
    (hspun : code ≠ [.unlockSpun ()]) :
    Balanced start (⟨setCode (acquire r.state t ()) t code, false⟩ : TimedRun τ κ) := by
  have ha : Apart r.state t (acquire r.state t ()) := by
    refine ⟨fun _ => rfl, fun _ _ => rfl, fun u hu => ?_⟩
    simp [acquire, hu]
  apply h.moved hex ha
  · simpa [acquire] using ht
  · simpa [acquire] using h.queue
  · simp [acquire]
  · show r.state.timerCount + _ + _ = r.state.timerCount + _ + 0
    linear_combination htimer
  · intro hl
    cases hl
  · intro u hu
    by_cases hut : u = t
    · subst hut
      exact absurd (by simpa [setCode] using hu) hspun
    · rw [(ha.setCode_threads hut).1] at hu
      have hset := (h.owner_word (h.spun_owns hu)).1
      rw [hw] at hset
      cases hset

omit [DecidableEq κ] in
/-- The word is cleared by its owner, with the timer left disabled or not. -/
theorem Balanced.cleared (h : Balanced start r)
    (hex : Exclusive (setCode (release r.state t ()) t code)) (hown : r.state.owns t () = true)
    (ht : LockCode (r.state.threads t).counted false code)
    (htimer : owed (r.state.threads t).code = owed code + if left then 1 else 0)
    (hspun : code ≠ [.unlockSpun ()])
    (hleft : left = true → ∃ u, u ≠ t ∧ Seeking (r.state.threads u).code) :
    Balanced start (⟨setCode (release r.state t ()) t code, left⟩ : TimedRun τ κ) := by
  have ha : Apart r.state t (release r.state t ()) := by
    refine ⟨fun _ => rfl, fun _ _ => rfl, fun u hu => ?_⟩
    simp [release, hu]
  apply h.moved hex ha
  · simpa [release] using ht
  · simpa [release] using h.queue
  · simp [release]
  · rw [(h.owner_word hown).2]
    show r.state.timerCount + _ + 0 = _
    linear_combination htimer
  · intro hl
    obtain ⟨u, hu, hs⟩ := hleft hl
    refine ⟨by simp [release], u, ?_⟩
    rwa [(ha.setCode_threads hu).1]
  · intro u hu
    by_cases hut : u = t
    · subst hut
      exact absurd (by simpa [setCode] using hu) hspun
    · rw [(ha.setCode_threads hut).1] at hu
      exact absurd (h.exclusive.unique u t () (h.spun_owns hu) hown) hut

omit [DecidableEq τ] [DecidableEq κ] in
/-- When `num_spin` is nonzero while `t` holds the mutex, another thread still seeks it. -/
theorem Balanced.seeker (h : Balanced start r) (hown : r.state.owns t () = true)
    (ht : (r.state.threads t).counted = none) (hn : (r.state.mutexes ()).numSpin ≠ 0) :
    ∃ u, u ≠ t ∧ Seeking (r.state.threads u).code := by
  rw [h.numSpin] at hn
  obtain ⟨u, -, hu⟩ := Finset.exists_ne_zero_of_sum_ne_zero hn
  have hc : (r.state.threads u).counted = some () := by
    by_contra hne
    exact hu (if_neg hne)
  have hut : u ≠ t := by
    rintro rfl
    rw [ht] at hc
    cases hc
  have hcode := h.code u
  rw [hc] at hcode
  refine ⟨u, hut, hcode.seeking ?_⟩
  by_contra ho
  exact hut (h.exclusive.unique u t () (by simpa using ho) hown)

omit [DecidableEq κ] in
theorem Balanced.reprioritized (h : Balanced start r) (hr : Reprioritized r.state s₁)
    (hex : Exclusive (setCode s₁ t code))
    (ht : LockCode (r.state.threads t).counted (r.state.owns t ()) code)
    (htimer : owed (r.state.threads t).code = owed code)
    (hseek : Seeking (r.state.threads t).code → Seeking code)
    (hspun : code = [.unlockSpun ()] → ∃ u, u ≠ t ∧ Seeking (r.state.threads u).code) :
    Balanced start (⟨setCode s₁ t code, r.left⟩ : TimedRun τ κ) := by
  have hthread : ∀ u, (s₁.threads u).code = (r.state.threads u).code ∧
      (s₁.threads u).counted = (r.state.threads u).counted := by
    intro u
    obtain ⟨p, hp⟩ := hr.thread u
    simp [hp]
  obtain ⟨p, hp⟩ := hr.mutex ()
  apply h.quiet hex
  · refine ⟨fun u => (hthread u).1, fun u _ => (hthread u).2, fun u _ => ?_⟩
    rw [hr.owns]
  · rwa [(hthread t).2, hr.owns]
  · rw [hp]
    exact h.queue
  · simp [hp, counts, (hthread t).2]
  · rw [hr.timerCount, htimer]
  · rw [hp]
  · exact hseek
  · exact hspun

/-- A step that writes to the acting thread and the mutex, and not to the word. -/
theorem Balanced.wrote (h : Balanced start r) {stale : Option τ} {i : Instr τ Unit κ}
    {rest fresh : List (Instr τ Unit κ)} (hcode : (r.state.threads t).code = i :: rest)
    (hp : perform r.state t stale i = some (s₁, fresh)) (hi : ∀ w, i ≠ .awaken w)
    (hex : Exclusive (setCode s₁ t (fresh ++ rest))) (howns : s₁.owns = r.state.owns)
    (hw : (s₁.mutexes ()).word = (r.state.mutexes ()).word)
    (hq : (s₁.mutexes ()).queue = (r.state.mutexes ()).queue)
    (hn : (s₁.mutexes ()).numSpin + counts (r.state.threads t) =
      (r.state.mutexes ()).numSpin + counts (s₁.threads t))
    (ht : LockCode (s₁.threads t).counted (r.state.owns t ()) (fresh ++ rest))
    (htimer : s₁.timerCount + i.owed = r.state.timerCount + owed fresh)
    (hseek : Seeking (i :: rest) → Seeking (fresh ++ rest))
    (hspun : fresh ++ rest ≠ [.unlockSpun ()]) :
    Balanced start (⟨setCode s₁ t (fresh ++ rest), r.left⟩ : TimedRun τ κ) := by
  apply h.quiet hex
  · refine ⟨perform_code hp, fun u hu => ?_, fun u _ => by rw [howns]⟩
    obtain ⟨o, a, b, p, st, hu⟩ := perform_touched hp hi hu
    rw [hu]
  · rwa [howns]
  · rw [hq]
    exact h.queue
  · exact hn
  · rw [hcode, owed_cons, owed_append]
    linear_combination htimer
  · exact hw
  · rwa [hcode]
  · intro hc
    exact absurd hc hspun

theorem Balanced.exec (h : Balanced start r) {stale : Option τ} {i : Instr τ Unit κ}
    {rest fresh : List (Instr τ Unit κ)} (hcode : (r.state.threads t).code = i :: rest)
    (hg : TakenAsLeft r (.exec t stale)) (hp : perform r.state t stale i = some (s₁, fresh))
    (hex : Exclusive (setCode s₁ t (fresh ++ rest))) :
    Balanced start (⟨setCode s₁ t (fresh ++ rest), leftAfter r (.exec t stale)⟩ :
      TimedRun τ κ) := by
  have hlc := h.code t
  rw [hcode] at hlc
  simp only [TakenAsLeft, hcode, List.head?_cons] at hg
  generalize hk : (r.state.threads t).counted = k, ho : r.state.owns t () = o at hlc
  cases hlc with
  | firstTry =>
    have hp' := hp
    simp only [perform] at hp
    split at hp <;> rename_i hw <;> cases hp
    · have hl : leftAfter r (.exec t stale) = r.left := by simp [leftAfter, hcode, hw]
      rw [hl]
      apply h.wrote hcode hp' (by simp) hex rfl rfl rfl rfl
      · simpa [hk] using .setWaitObj _
      · simp [slowPath, Instr.owed]
      · simp [Seeking]
      · simp [slowPath]
    · have hw := Bool.eq_false_iff.mpr hw
      have hl : leftAfter r (.exec t stale) = false := by simp [leftAfter, hcode, hw]
      rw [hl]
      apply h.taken hex hw
      · simpa [hk] using .staleBoost _
      · simp [hcode, Instr.owed, hg hw]
      · simp
  | retry =>
    have hp' := hp
    simp only [perform] at hp
    split at hp <;> rename_i hw <;> cases hp
    · have hl : leftAfter r (.exec t stale) = r.left := by simp [leftAfter, hcode, hw]
      rw [hl]
      apply h.wrote hcode hp' (by simp) hex rfl rfl rfl rfl
      · simpa [hk] using .back _
      · simp [Instr.owed]
      · simp [Seeking]
      · simp
    · have hw := Bool.eq_false_iff.mpr hw
      have hl : leftAfter r (.exec t stale) = false := by simp [leftAfter, hcode, hw]
      rw [hl]
      apply h.taken hex hw
      · simpa [hk] using .boost
      · simp [hcode, Instr.owed, hg hw]
      · simp
  | spin =>
    simp only [perform] at hp
    split at hp <;> rename_i hw <;> cases hp
    have hw := Bool.eq_false_iff.mpr hw
    have hl : leftAfter r (.exec t stale) = false := by simp [leftAfter, hcode, hw]
    rw [hl]
    apply h.taken hex hw
    · simpa [hk] using .boost
    · simp [hcode, Instr.owed, hg hw]
    · simp
  | unlockSpun =>
    cases hp
    have hl : leftAfter r (.exec t stale) = true := by simp [leftAfter, hcode]
    rw [hl]
    apply h.cleared hex ho
    · simpa [hk] using .idle _
    · simp [hcode, Instr.owed]
    · simp
    · intro _
      obtain ⟨u, hu⟩ := h.spun t hcode
      refine ⟨u, ?_, hu⟩
      rintro rfl
      simp [Seeking, hcode] at hu
  | unlockFree =>
    cases hp
    have hl : leftAfter r (.exec t stale) = false := by
      simp [leftAfter, hcode, (h.owner_word ho).2]
    rw [hl]
    apply h.cleared hex ho
    · simpa [hk] using .restore _
    · simp [hcode, Instr.owed]
    · simp
    · simp
  | staleNull => cases hp
  | staleBoost =>
    have hl : leftAfter r (.exec t stale) = r.left := by simp [leftAfter, hcode]
    rw [hl]
    have hp' := hp
    cases stale with
    | none =>
      cases hp
      apply h.wrote hcode hp' (by simp) hex rfl rfl rfl rfl
      · simpa [hk] using .staleNull _
      · simp [Instr.owed]
      · simp [Seeking]
      · simp
    | some x =>
      cases hp
      have hkeep : ((((r.state.setMutex () fun mx => { mx with holder := some x }).setThread x
          fun th => { th with waitObj := .none }).threads t).counted) =
          (r.state.threads t).counted := by
        by_cases hx : t = x <;> simp [hx]
      apply h.wrote hcode hp' (by simp) hex rfl rfl rfl
      · rw [counts, counts, hkeep]
        simp
      · rw [hkeep, hk]
        exact .staleAdjust _ _ _
      · simp [Instr.owed]
      · simp [Seeking]
      · simp
  | staleAdjust =>
    obtain ⟨hs', rfl⟩ := adjustPriority_cases hp
    have hl : leftAfter r (.exec t stale) = r.left := by simp [leftAfter, hcode]
    rw [hl]
    apply h.reprioritized (threadAdjustPriority_reprioritized hs') hex
    · simpa [hk] using .idle _
    · simp [hcode, Instr.owed]
    · simp [hcode, Seeking]
    · simp
  | adjust =>
    obtain ⟨hs', rfl⟩ := adjustPriority_cases hp
    have hl : leftAfter r (.exec t stale) = r.left := by simp [leftAfter, hcode]
    rw [hl]
    apply h.reprioritized (threadAdjustPriority_reprioritized hs') hex
    · simpa [hk, ho] using .withdraw
    · simp [hcode, Instr.owed]
    · simp [hcode, Seeking]
    · simp
  | testSpin =>
    obtain ⟨s', ⟨⟨⟩, -⟩ | ⟨-, hs'⟩, hend⟩ := testSpin_cases hp
    have hr : Reprioritized r.state s' := threadAdjustPriority_reprioritized hs'
    have hl : leftAfter r (.exec t stale) = r.left := by simp [leftAfter, hcode]
    rw [hl]
    rcases hend with ⟨hn, rfl, rfl⟩ | ⟨hn, rfl, rfl⟩
    · apply h.reprioritized hr hex
      · simpa [hk, ho] using .unlockSpun
      · simp [hcode, Instr.owed]
      · simp [hcode, Seeking]
      · intro _
        exact h.seeker ho hk hn
    · apply h.reprioritized hr hex
      · simpa [hk, ho] using .testQueue
      · simp [hcode, Instr.owed]
      · simp [hcode, Seeking]
      · simp
  | testQueue =>
    have hp' := hp
    simp only [perform, h.queue] at hp
    cases hp
    have hl : leftAfter r (.exec t stale) = r.left := by simp [leftAfter, hcode]
    rw [hl]
    apply h.wrote hcode hp' (by simp) hex rfl rfl rfl rfl
    · simpa [hk, ho] using .clearHolder
    · simp [Instr.owed]
    · simp [Seeking]
    · simp
  | setWaitObj | disable | setWaitType | register | back | boost | withdraw | restore | unlock
  | clearHolder =>
    have hl : leftAfter r (.exec t stale) = r.left := by simp [leftAfter, hcode]
    have hp' := hp
    cases hp
    rw [hl]
    apply h.wrote hcode hp' (by simp) hex rfl rfl rfl
    · simp [counts, hk]
    · simp only [State.setThread_threads, State.setMutex_threads, if_true, hk, ho]
      constructor
    · simp [Instr.owed, add_assoc]
    · simp [Seeking]
    · simp

omit [DecidableEq κ] in
theorem Balanced.call (h : Balanced start r) {c : Call Unit κ} (hc : OnlyLocks (.call t c))
    (hcode : (r.state.threads t).code = []) (hown : ∀ m ∈ c.unlocks, r.state.owns t m = true)
    (hex : Exclusive (setCode r.state t c.code)) :
    Balanced start (⟨setCode r.state t c.code, r.left⟩ : TimedRun τ κ) := by
  have hk : (r.state.threads t).counted = none := by
    have hlc := h.code t
    rw [hcode] at hlc
    generalize (r.state.threads t).counted = k, r.state.owns t () = o at hlc ⊢
    cases hlc
    rfl
  have hseek : Seeking (r.state.threads t).code → Seeking (c.code : List (Instr τ Unit κ)) := by
    simp [hcode, Seeking]
  have ha : Apart r.state t r.state := ⟨fun _ => rfl, fun _ _ => rfl, fun _ _ => rfl⟩
  obtain rfl | rfl := hc
  · apply h.quiet hex ha _ h.queue rfl _ rfl hseek
    · simp [Call.code, mutexLock]
    · rw [hk]
      exact .firstTry _
    · simp [hcode, Call.code, mutexLock, Instr.owed]
  · apply h.quiet hex ha _ h.queue rfl _ rfl hseek
    · simp [Call.code, mutexUnlock]
    · rw [hk, hown () rfl]
      exact .unlock
    · simp [hcode, Call.code, mutexUnlock, Instr.owed]

theorem step_preserves_balanced {r' : TimedRun τ κ} {e : Event τ Unit κ} (h : Balanced start r)
    (hg : OnlyLocks e ∧ TakenAsLeft r e) (he : timedNext r e = some r') : Balanced start r' := by
  obtain ⟨s', hs', rfl⟩ := Option.map_eq_some_iff.mp he
  have hex := step_preserves_exclusive h.exclusive hs'
  obtain ⟨t, c, rfl, hcode, hown, rfl⟩ | ⟨t, rfl, -, rfl⟩ |
    ⟨t, stale, i, rest, s₁, fresh, rfl, hcode, hp, rfl⟩ := next_cases hs'
  · exact h.call hg.1 hcode hown hex
  · exact hg.1.elim
  · have hi : i ≠ .schedule := by
      rintro rfl
      have hlc := h.code t
      rw [hcode] at hlc
      generalize (r.state.threads t).counted = k, r.state.owns t () = o at hlc
      cases hlc
    rw [if_neg hi] at hex ⊢
    exact h.exec hcode hg.2 hp hex

end Steps

/-- Whenever no thread is inside `mutex_lock` or `mutex_unlock`, `timer_count` has its initial
value and no timer is left disabled for a thread that is still to come. -/
theorem timer_balance {s₀ : State τ Unit κ} {r : TimedRun τ κ} (h₀ : Initial s₀)
    (h : Execution timedNext (fun r e => OnlyLocks e ∧ TakenAsLeft r e) ⟨s₀, false⟩ r)
    (hidle : ∀ t, (r.state.threads t).code = []) :
    r.state.timerCount = s₀.timerCount ∧ r.left = false := by
  have hb : Balanced s₀.timerCount r := h.preserves
    (fun _ _ _ hI hg he => step_preserves_balanced hI hg he) (balanced_initial h₀)
  have hleft : r.left = false := by
    by_contra hl
    obtain ⟨-, t, ht⟩ := hb.left (by simpa using hl)
    simp [Seeking, hidle] at ht
  refine ⟨?_, hleft⟩
  have htimer := hb.timer
  simpa [hidle, hleft] using htimer

def spinnerTakesWord (t u : τ) : List (Event τ Unit Unit) :=
  .call t (.mutexLock ()) :: List.replicate 3 (.exec t (some t)) ++
  .call u (.mutexLock ()) :: List.replicate 7 (.exec u none) ++
  .call t (.mutexUnlock ()) :: List.replicate 3 (.exec t none) ++
  List.replicate 5 (.exec u none)

theorem timer_balance_spinner : ∃ r : TimedRun (Fin 2) Unit,
    Execution timedNext (fun r e => OnlyLocks e ∧ TakenAsLeft r e) ⟨start, false⟩ r ∧
      (∀ t, (r.state.threads t).code = []) ∧ r.state.owns 1 () = true ∧
      r.state.timerCount = 0 ∧ r.left = false := by
  have hrun : (follow timedNext (fun r e => OnlyLocks e ∧ TakenAsLeft r e) ⟨start, false⟩
      (spinnerTakesWord (0 : Fin 2) 1)).map (fun r => decide ((∀ t, (r.state.threads t).code = []) ∧
        r.state.owns 1 () = true)) = some true := by decide +kernel
  obtain ⟨r, hr, hd⟩ := Option.map_eq_some_iff.mp hrun
  obtain ⟨hidle, hown⟩ := of_decide_eq_true hd
  have hexec := execution_of_follow hr
  exact ⟨r, hexec, hidle, hown, timer_balance start_initial hexec hidle⟩

/-- The unlocker sees thread `u` registered and leaves the timer disabled; `u` then gets the word
with its second try, on which it had disabled the timer itself. -/
def takenOnSecondTry (t u : τ) : List (Event τ Unit Unit) :=
  .call t (.mutexLock ()) :: List.replicate 3 (.exec t (some t)) ++
  .call u (.mutexLock ()) :: List.replicate 5 (.exec u none) ++
  .call t (.mutexUnlock ()) :: List.replicate 3 (.exec t none) ++
  List.replicate 5 (.exec u none)

theorem timer_left_disabled : ∃ s : State (Fin 2) Unit Unit,
    Execution next (fun _ e => OnlyLocks e) start s ∧
      (∀ t, (s.threads t).code = []) ∧
      s.timerCount ≠ (start : State (Fin 2) Unit Unit).timerCount := by
  have hrun : (follow next (fun _ e => OnlyLocks e) start (takenOnSecondTry (0 : Fin 2) 1)).map
      (fun s => decide ((∀ t, (s.threads t).code = []) ∧ s.timerCount = 1)) = some true := by
    decide +kernel
  obtain ⟨s, hs, hd⟩ := Option.map_eq_some_iff.mp hrun
  obtain ⟨hidle, htimer⟩ := of_decide_eq_true hd
  refine ⟨s, execution_of_follow hs, hidle, ?_⟩
  rw [htimer]
  decide

end Synchronization
