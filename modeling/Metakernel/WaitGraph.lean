import Metakernel.WaitChains
import Metakernel.WaitStates

/-!
# The graph that deadlock detection walks

A thread that is registered for a mutex points to the mutex, and a mutex to its recorded holder.
`detect_deadlock` comes to an end when every registered thread leads to a holder that waits for no
mutex. A step keeps that if it registers a thread only on a way that does not come back to it, and
removes no holder that somebody waits for.
-/
namespace WaitStates

open Synchronization GuardedRuns LinkedNodes

variable {τ μ κ : Type} [DecidableEq τ] [DecidableEq μ] [DecidableEq κ]

def RegisteredOn (s : State τ μ κ) (x : τ) (m : μ) : Prop :=
  (s.threads x).waitType = .mutex ∧ (s.threads x).waitObj = .mutex m

/-- From `m` the holders lead to one that waits for no mutex, and it is in `P`. -/
inductive LeadsTo (s : State τ μ κ) (P : τ → Prop) : μ → Prop where
  | idle {m h} : (s.mutexes m).holder = some h → (s.threads h).waitType ≠ .mutex → P h →
      LeadsTo s P m
  | step {m h n} : (s.mutexes m).holder = some h → RegisteredOn s h n → LeadsTo s P n →
      LeadsTo s P m

/-- Every call of `detect_deadlock` that `sync_check` is about to make returns, and so does what
is left of one. -/
structure DetectionReturns (s : State τ μ κ) : Prop where
  call : ∀ t rest, (s.threads t).code = .syncCheck :: rest → (s.threads t).waitType = .mutex →
    ∃ m, (s.threads t).waitObj = .mutex m ∧ ∃ fuel b, detectDeadlock fuel s t m = some b
  pass : ∀ t m rest, (s.threads t).code = .detectDeadlock m :: rest →
    ∃ fuel b, detectDeadlock fuel s t m = some b

/-- A thread registers itself only where the holders do not lead back to it, and no mutex that
somebody waits for gets a null holder. -/
def KeepsRoot (s : State τ μ κ) (t : τ) (stale : Option τ) : Instr τ μ κ → Prop
  | .setWaitType .mutex => ∀ m, (s.threads t).waitObj = .mutex m → LeadsTo s (· ≠ t) m
  | .staleBoost m => stale = none → ∀ x, ¬ RegisteredOn s x m
  | .clearHolder m => ∀ x, ¬ RegisteredOn s x m
  | _ => True

def KeepsRoots (s : State τ μ κ) : Event τ μ κ → Prop
  | .exec t stale => ∀ i ∈ (s.threads t).code.head?, KeepsRoot s t stale i
  | _ => True

section Graph

variable {s s' s'' : State τ μ κ} {P Q : τ → Prop} {t x : τ} {m n : μ}

omit [DecidableEq μ] [DecidableEq κ] in
/-- The walk of `detect_deadlock` takes the same way, unless it meets its own thread before. -/
theorem LeadsTo.holderChain (h : LeadsTo s P m) (t : τ) : ∃ l, HolderChain s t m l := by
  induction h with
  | @idle m h hholder hidle _ =>
    by_cases hself : h = t
    · subst hself
      exact ⟨[m], .self hholder⟩
    · exact ⟨[m], .idle hholder hself hidle⟩
  | @step m h n hholder hreg _ ih =>
    by_cases hself : h = t
    · subst hself
      exact ⟨[m], .self hholder⟩
    · obtain ⟨l, hl⟩ := ih
      exact ⟨m :: l, .step hholder hself hreg.1 hreg.2 hl⟩

/-- From `s` to `s'` nobody begins or ends to wait for a mutex, and a mutex that somebody waits for
keeps its holder or gets one that waits for none. -/
structure Rehung (s s' : State τ μ κ) : Prop where
  thread : ∀ u, (s'.threads u).waitType = (s.threads u).waitType ∧
      (s'.threads u).waitObj = (s.threads u).waitObj ∨
    (s.threads u).waitType ≠ .mutex ∧ (s'.threads u).waitType ≠ .mutex
  holder : ∀ m, (s'.mutexes m).holder = (s.mutexes m).holder ∨
    (∃ x, (s'.mutexes m).holder = some x ∧ (s.threads x).waitType ≠ .mutex) ∨
    ∀ x, ¬ RegisteredOn s x m

/-- From `s` to `s'` the thread `t` begins to wait for `m`. -/
structure Registers (s s' : State τ μ κ) (t : τ) (m : μ) : Prop where
  fresh : (s.threads t).waitType ≠ .mutex
  registered : RegisteredOn s' t m
  other : ∀ u, u ≠ t → (s'.threads u).waitType = (s.threads u).waitType ∧
    (s'.threads u).waitObj = (s.threads u).waitObj
  holder : ∀ n, (s'.mutexes n).holder = (s.mutexes n).holder

section

omit [DecidableEq τ] [DecidableEq μ] [DecidableEq κ]

theorem Rehung.registeredOn (h : Rehung s s') : RegisteredOn s' x m ↔ RegisteredOn s x m := by
  rcases h.thread x with ⟨htype, hobj⟩ | ⟨hne, hne'⟩
  · rw [RegisteredOn, RegisteredOn, htype, hobj]
  · exact iff_of_false (fun hr => hne' hr.1) fun hr => hne hr.1

theorem Rehung.idle (h : Rehung s s') (hx : (s.threads x).waitType ≠ .mutex) :
    (s'.threads x).waitType ≠ .mutex := by
  rcases h.thread x with ⟨htype, -⟩ | ⟨-, hne⟩
  · rwa [htype]
  · exact hne

theorem LeadsTo.rehung (hl : LeadsTo s P m) (h : Rehung s s') (hx : RegisteredOn s x m) :
    LeadsTo s' (fun _ => True) m := by
  induction hl generalizing x with
  | @idle m h₁ hholder hidle _ =>
    rcases h.holder m with hsame | ⟨y, hy, hyidle⟩ | hnone
    · exact .idle (hsame.trans hholder) (h.idle hidle) trivial
    · exact .idle hy (h.idle hyidle) trivial
    · exact absurd hx (hnone x)
  | @step m h₁ n hholder hreg _ ih =>
    rcases h.holder m with hsame | ⟨y, hy, hyidle⟩ | hnone
    · exact .step (hsame.trans hholder) (h.registeredOn.mpr hreg) (ih hreg)
    · exact .idle hy (h.idle hyidle) trivial
    · exact absurd hx (hnone x)

theorem Registers.keeps (h : Registers s s' t m) (hx : RegisteredOn s x n) :
    RegisteredOn s' x n := by
  have hne : x ≠ t := by
    rintro rfl
    exact h.fresh hx.1
  obtain ⟨htype, hobj⟩ := h.other x hne
  exact ⟨htype.trans hx.1, hobj.trans hx.2⟩

theorem Registers.way (h : Registers s s' t m) (hl : LeadsTo s (· ≠ t) n) :
    LeadsTo s' (fun _ => True) n := by
  induction hl with
  | idle hholder hidle hne =>
    refine .idle ((h.holder _).trans hholder) ?_ trivial
    rwa [(h.other _ hne).1]
  | step hholder hreg _ ih => exact .step ((h.holder _).trans hholder) (h.keeps hreg) ih

end

omit [DecidableEq μ] [DecidableEq κ] in
theorem LeadsTo.registers (hl : LeadsTo s P n) (h : Registers s s' t m)
    (hclear : LeadsTo s (· ≠ t) m) : LeadsTo s' (fun _ => True) n := by
  induction hl with
  | @idle n h₁ hholder hidle _ =>
    have hholder' := (h.holder n).trans hholder
    by_cases hself : h₁ = t
    · subst hself
      exact .step hholder' h.registered (h.way hclear)
    · refine .idle hholder' ?_ trivial
      rwa [(h.other h₁ hself).1]
  | step hholder hreg _ ih => exact .step ((h.holder _).trans hholder) (h.keeps hreg) ih

/-- Every thread that waits for a mutex leads to a holder that waits for none. -/
def AllRooted (s : State τ μ κ) : Prop :=
  ∀ x m, RegisteredOn s x m → LeadsTo s (fun _ => True) m

omit [DecidableEq τ] [DecidableEq μ] [DecidableEq κ] in
theorem AllRooted.rehung (hs : AllRooted s) (h : Rehung s s') : AllRooted s' := by
  intro x m hx
  have hold := h.registeredOn.mp hx
  exact (hs x m hold).rehung h hold

omit [DecidableEq μ] [DecidableEq κ] in
theorem AllRooted.registers (hs : AllRooted s) (h : Registers s s' t m)
    (hclear : LeadsTo s (· ≠ t) m) : AllRooted s' := by
  intro x n hx
  by_cases hself : x = t
  · subst hself
    have hobj := hx.2.symm.trans h.registered.2
    cases hobj
    exact h.way hclear
  · obtain ⟨htype, hobj⟩ := h.other x hself
    have hold : RegisteredOn s x n := ⟨htype.symm.trans hx.1, hobj.symm.trans hx.2⟩
    exact (hs x n hold).registers h hclear

end Graph

/-- The instructions that write `wait_type`, `wait_obj` or a recorded holder. -/
def writesGraph : Instr τ μ κ → Bool
  | .setWaitObj _ | .setWaitType _ | .staleBoost _ | .priorityBoost _ | .recordHolder _
  | .clearHolder _ | .testQueue _ _ | .condWake _ | .awaken _ => true
  | _ => false

section Kept

variable {s s' s₁ : State τ μ κ} {t u w : τ} {stale : Option τ} {i : Instr τ μ κ} {m n : μ}
  {code rest : List (Instr τ μ κ)}

structure Kept (s s' : State τ μ κ) : Prop where
  thread : ∀ u, (s'.threads u).waitType = (s.threads u).waitType ∧
    (s'.threads u).waitObj = (s.threads u).waitObj
  holder : ∀ m, (s'.mutexes m).holder = (s.mutexes m).holder

section

omit [DecidableEq τ] [DecidableEq μ] [DecidableEq κ]

theorem Kept.refl (s : State τ μ κ) : Kept s s := ⟨fun _ => ⟨rfl, rfl⟩, fun _ => rfl⟩

theorem Kept.trans {s'' : State τ μ κ} (h : Kept s s') (h' : Kept s' s'') : Kept s s'' where
  thread u := ⟨(h'.thread u).1.trans (h.thread u).1, (h'.thread u).2.trans (h.thread u).2⟩
  holder m := (h'.holder m).trans (h.holder m)

theorem Kept.rehung (h : Kept s s') : Rehung s s' :=
  ⟨fun u => Or.inl (h.thread u), fun m => Or.inl (h.holder m)⟩

theorem Rehung.kept {s'' : State τ μ κ} (h : Rehung s s') (h' : Kept s' s'') : Rehung s s'' where
  thread u := by
    obtain ⟨htype, hobj⟩ := h'.thread u
    rw [htype, hobj]
    exact h.thread u
  holder m := by
    rw [h'.holder m]
    exact h.holder m

theorem Registers.kept {s'' : State τ μ κ} (h : Registers s s' t m) (h' : Kept s' s'') :
    Registers s s'' t m where
  fresh := h.fresh
  registered := ⟨(h'.thread t).1.trans h.registered.1, (h'.thread t).2.trans h.registered.2⟩
  other u hu := ⟨(h'.thread u).1.trans (h.other u hu).1, (h'.thread u).2.trans (h.other u hu).2⟩
  holder n := (h'.holder n).trans (h.holder n)

end

omit [DecidableEq μ] [DecidableEq κ] in
theorem kept_setThread (s : State τ μ κ) (w : τ) (f : Thread τ μ κ → Thread τ μ κ)
    (hf : (f (s.threads w)).waitType = (s.threads w).waitType ∧
      (f (s.threads w)).waitObj = (s.threads w).waitObj) : Kept s (s.setThread w f) where
  thread u := by
    rw [State.setThread_threads]
    split
    · rename_i hu
      exact hu ▸ hf
    · exact ⟨rfl, rfl⟩
  holder _ := rfl

omit [DecidableEq τ] [DecidableEq κ] in
theorem kept_setMutex (s : State τ μ κ) (m : μ) (f : Mutex τ → Mutex τ)
    (hf : (f (s.mutexes m)).holder = (s.mutexes m).holder) : Kept s (s.setMutex m f) where
  thread _ := ⟨rfl, rfl⟩
  holder n := by
    rw [State.setMutex_mutexes]
    split
    · rename_i hn
      exact hn ▸ hf
    · rfl

omit [DecidableEq τ] [DecidableEq μ] [DecidableEq κ] in
theorem kept_relinked {threads : τ → Thread τ μ κ} (h : Relinked s.threads threads) :
    Kept s { s with threads := threads } where
  thread u := by
    obtain ⟨a, b, hab⟩ := h u
    simp [hab]
  holder _ := rfl

section

omit [DecidableEq κ]

theorem kept_adjust {priority : BitVec 32} {fuel : ℕ}
    (h : threadAdjustPriority fuel s w priority = some s') : Kept s s' := by
  have hr := threadAdjustPriority_reprioritized h
  constructor
  · intro u
    obtain ⟨p, hp⟩ := hr.thread u
    rw [hp]
    exact ⟨rfl, rfl⟩
  · intro m
    obtain ⟨p, hp⟩ := hr.mutex m
    rw [hp]

theorem kept_acquire (s : State τ μ κ) (t : τ) (m : μ) : Kept s (acquire s t m) := by
  have h := kept_setMutex s m (fun mx => { mx with word := true }) rfl
  exact ⟨h.thread, h.holder⟩

theorem kept_release (s : State τ μ κ) (t : τ) (m : μ) : Kept s (release s t m) := by
  have h := kept_setMutex s m (fun mx => { mx with word := false }) rfl
  exact ⟨h.thread, h.holder⟩

end

omit [DecidableEq μ] [DecidableEq κ] in
theorem kept_setCode (s : State τ μ κ) (t : τ) (code : List (Instr τ μ κ)) :
    Kept s (setCode s t code) := kept_setThread s t _ ⟨rfl, rfl⟩

omit [DecidableEq μ] [DecidableEq κ] in
theorem kept_resumed (s : State τ μ κ) (t : τ) (rest : List (Instr τ μ κ)) :
    Kept s (resumed s t rest) := by
  rw [resumed]
  split
  · exact (kept_setCode s t _).trans (kept_setThread _ t _ ⟨rfl, rfl⟩)
  · exact kept_setCode s t _

theorem perform_kept (h : perform s t stale i = some (s₁, code)) (hi : writesGraph i = false) :
    Kept s s₁ := by
  cases i with
  | setWaitObj | setWaitType | staleBoost | priorityBoost | recordHolder | clearHolder | testQueue
  | condWake | awaken => cases hi
  | adjustPriority w priority =>
    exact kept_adjust (adjustPriority_cases h).1
  | testSpin async m =>
    obtain ⟨s₂, h₂, hend⟩ := testSpin_cases h
    have hkept : Kept s s₂ := by
      rcases h₂ with ⟨-, rfl⟩ | ⟨-, h₂⟩
      · exact .refl _
      · exact kept_adjust h₂
    rcases hend with ⟨-, -, rfl⟩ | ⟨-, -, rfl⟩
    · cases async <;> exact hkept.trans ⟨fun _ => ⟨rfl, rfl⟩, fun _ => rfl⟩
    · exact hkept
  | takeSleeper c =>
    simp only [perform] at h
    split at h
    · cases h
      exact (kept_relinked (threadQueueRemove_relinked _ _)).trans
        ⟨fun _ => ⟨rfl, rfl⟩, fun _ => rfl⟩
    · split at h <;> cases h <;> exact .refl s
  | enqueue m =>
    cases h
    exact (kept_relinked (threadQueueInsert_relinked _ _ _)).trans (kept_setMutex _ m _ rfl)
  | condEnqueue c =>
    cases h
    exact (kept_relinked (threadQueueInsert_relinked _ _ _)).trans
      ⟨fun _ => ⟨rfl, rfl⟩, fun _ => rfl⟩
  | boostHolder m =>
    rcases (boostHolder_cases h).2 with ⟨-, rfl⟩ | ⟨x, -, h₂⟩
    · exact .refl _
    · exact kept_adjust h₂
  | detectDeadlock m =>
    obtain ⟨-, rfl⟩ := detectDeadlock_cases h
    exact .refl _
  | numSpinInc m | numSpinDec m =>
    cases h
    exact (kept_setMutex s m _ rfl).trans (kept_setThread _ t _ ⟨rfl, rfl⟩)
  | lockSleep =>
    simp only [perform] at h
    split at h <;> cases h
    · exact (kept_setMutex s _ _ rfl).trans (kept_setThread _ t _ ⟨rfl, rfl⟩)
    · exact .refl s
  | sleepStatus =>
    cases h
    exact kept_setThread s t _ ⟨rfl, rfl⟩
  | restart w =>
    cases h
    exact kept_setThread s w _ ⟨rfl, rfl⟩
  | unlockSpun m | unlockFree m =>
    cases h
    exact kept_release s t m
  | _ =>
    simp only [perform] at h
    repeat' split at h
    all_goals cases h
    all_goals first
      | exact .refl s
      | exact kept_acquire s t _
      | exact ⟨fun _ => ⟨rfl, rfl⟩, fun _ => rfl⟩

end Kept

/-- The instructions of `mutex_trylock`, and of the handler that may stand in front of them. -/
def triesOnly : Instr τ μ κ → Bool
  | .timerDisable | .timerRestore | .tryWord _ | .recordHolder _ | .adjustPriority _ _
  | .syncCheck | .schedule => true
  | _ => false

def records : Instr τ μ κ → Bool
  | .tryWord _ | .recordHolder _ => true
  | _ => false

/-- Neither a part of `mutex_trylock` that records a holder nor of `detect_deadlock`. -/
def plain : Instr τ μ κ → Bool
  | .tryWord _ | .recordHolder _ | .detectDeadlock _ => false
  | _ => true

/-- A thread that is about to record itself as a holder is inside `mutex_trylock`. -/
def Trying (s : State τ μ κ) : Prop :=
  ∀ t, (∃ i ∈ (s.threads t).code, records i = true) → ∀ i ∈ (s.threads t).code, triesOnly i = true

section Codes

variable {s s₁ : State τ μ κ} {t : τ} {stale : Option τ} {i j : Instr τ μ κ} {p : Phase μ κ}
  {code rest r : List (Instr τ μ κ)}

omit [DecidableEq τ] [DecidableEq μ] [DecidableEq κ] in
theorem plain_records (h : plain j = true) : records j = false := by
  cases j <;> first | rfl | cases h

omit [DecidableEq τ] [DecidableEq μ] [DecidableEq κ] in
theorem Main.tries (h : Main r p) (hr : ∀ i ∈ r, triesOnly i = true) : p = .outside := by
  induction h with
  | nil => rfl
  | pass _ _ ih => exact ih fun i hi => hr i (List.mem_cons_of_mem _ hi)
  | _ => exact absurd (hr _ List.mem_cons_self) (by simp [triesOnly])

/-- Only three instructions put others than plain ones in front of the rest. -/
theorem perform_plain (h : perform s t stale i = some (s₁, code)) (hi : plain i = true)
    (hsync : i ≠ .syncCheck) : ∀ j ∈ code, plain j = true := by
  cases i with
  | tryWord | recordHolder | detectDeadlock => cases hi
  | syncCheck => exact absurd rfl hsync
  | adjustPriority w priority =>
    obtain ⟨-, rfl⟩ := adjustPriority_cases h
    simp
  | testSpin async m =>
    obtain ⟨s₂, -, ⟨-, rfl, -⟩ | ⟨-, rfl, -⟩⟩ := testSpin_cases h
    · simp [plain]
    · cases async <;> simp [plain]
  | testQueue async m =>
    rcases testQueue_cases h with ⟨w, -, -, rfl⟩ | ⟨-, -, rfl⟩
    · simp [plain]
    · cases async <;> simp [plain]
  | boostHolder m =>
    obtain ⟨rfl, -⟩ := boostHolder_cases h
    simp
  | takeSleeper c =>
    simp only [perform] at h
    split at h
    · cases h
      simp [plain]
    · split at h <;> cases h <;> simp [plain]
  | staleBoost m =>
    simp only [perform] at h
    split at h <;> cases h <;> simp [plain]
  | condWake c =>
    cases h
    split <;> simp [plain]
  | _ =>
    simp only [perform] at h
    repeat' split at h
    all_goals cases h
    all_goals simp [plain, slowPath]

/-- Only `mutex_trylock` comes to record a holder. -/
theorem perform_records (h : perform s t stale i = some (s₁, code)) (hj : j ∈ code)
    (hr : records j = true) : records i = true := by
  by_cases hsync : i = .syncCheck
  · subst hsync
    simp only [perform] at h
    repeat' split at h
    all_goals cases h
    all_goals simp at hj
    all_goals rcases hj with rfl | rfl | rfl <;> cases hr
  · cases i with
    | tryWord | recordHolder => rfl
    | detectDeadlock m =>
      obtain rfl | rfl | rfl | ⟨n, rfl⟩ := detectAt_code (detectDeadlock_cases h).1
      · cases hj
      all_goals obtain rfl := List.mem_singleton.mp hj
      all_goals cases hr
    | _ =>
      have hplain := plain_records (perform_plain h rfl hsync j hj)
      rw [hplain] at hr
      cases hr

/-- What `sync_check` and `detect_deadlock` go on to has a waiter. -/
theorem perform_asked {n : μ} (h : perform s t stale i = some (s₁, code))
    (hn : .detectDeadlock n ∈ code) : ∃ x, RegisteredOn s x n := by
  by_cases hsync : i = .syncCheck
  · subst hsync
    simp only [perform] at h
    split at h
    · cases h
      cases hn
    · rename_i htype
      split at h <;> cases h
      · rename_i m hobj
        simp only [List.mem_singleton, Instr.detectDeadlock.injEq] at hn
        subst hn
        exact ⟨t, htype, hobj⟩
      · simp at hn
    · split at h <;> cases h <;> simp at hn
  · cases i with
    | detectDeadlock m =>
      obtain ⟨queued, -, rfl⟩ := Option.map_eq_some_iff.mp (detectDeadlock_cases h).1
      split at hn
      · cases hn
      · split at hn
        · simp at hn
        · rename_i x _
          split at hn
          · cases hn
          · split at hn
            · simp at hn
            · rename_i htype
              split at hn
              · rename_i m' hobj
                simp only [List.mem_singleton, Instr.detectDeadlock.injEq] at hn
                subst hn
                exact ⟨x, not_not.mp htype, hobj⟩
              · simp at hn
    | tryWord m =>
      simp only [perform] at h
      split at h <;> cases h <;> simp at hn
    | recordHolder m =>
      cases h
      simp at hn
    | _ => exact absurd (perform_plain h rfl hsync _ hn) (by simp [plain])

/-- A part of `mutex_trylock` goes on with parts of it, if it waits for nothing. -/
theorem perform_tries (h : perform s t stale i = some (s₁, code)) (hi : triesOnly i = true)
    (hidle : (s.threads t).waitType = .none) : ∀ j ∈ code, triesOnly j = true := by
  cases i with
  | timerDisable | timerRestore =>
    cases h
    simp
  | schedule =>
    simp only [perform] at h
    split at h <;> cases h
    simp
  | tryWord m =>
    simp only [perform] at h
    split at h <;> cases h <;> simp [triesOnly]
  | recordHolder m =>
    cases h
    simp [triesOnly]
  | adjustPriority w priority =>
    obtain ⟨-, rfl⟩ := adjustPriority_cases h
    simp
  | syncCheck =>
    simp only [perform, hidle] at h
    cases h
    simp
  | _ => cases hi

end Codes

section Steps

variable {s s' s₁ : State τ μ κ} {place : τ → Place μ κ} {ring : WaitObj μ κ → List τ} {t u w : τ}
  {stale : Option τ} {i : Instr τ μ κ} {m : μ} {code rest : List (Instr τ μ κ)}

def GraphStep (s s' : State τ μ κ) : Prop :=
  Rehung s s' ∨ ∃ t m, Registers s s' t m ∧ LeadsTo s (· ≠ t) m

omit [DecidableEq τ] [DecidableEq μ] [DecidableEq κ] in
theorem GraphStep.kept {s'' : State τ μ κ} (h : GraphStep s s') (h' : Kept s' s'') :
    GraphStep s s'' := by
  rcases h with hre | ⟨t, m, hreg, hclear⟩
  · exact Or.inl (hre.kept h')
  · exact Or.inr ⟨t, m, hreg.kept h', hclear⟩

omit [DecidableEq μ] [DecidableEq κ] in
theorem GraphStep.rooted (h : GraphStep s s') (hs : AllRooted s) : AllRooted s' := by
  rcases h with hre | ⟨t, m, hreg, hclear⟩
  · exact hs.rehung hre
  · exact hs.registers hreg hclear

omit [DecidableEq τ] [DecidableEq μ] [DecidableEq κ] in
theorem GraphStep.keeps (h : GraphStep s s') (hx : RegisteredOn s u m) : RegisteredOn s' u m := by
  rcases h with hre | ⟨t, n, hreg, -⟩
  · exact hre.registeredOn.mpr hx
  · exact hreg.keeps hx

omit [DecidableEq τ] [DecidableEq κ] in
theorem rehung_setHolder {o : Option τ}
    (h : (∃ x, o = some x ∧ (s.threads x).waitType ≠ .mutex) ∨ ∀ x, ¬ RegisteredOn s x m) :
    Rehung s (s.setMutex m fun mx => { mx with holder := o }) where
  thread _ := Or.inl ⟨rfl, rfl⟩
  holder n := by
    by_cases hn : n = m
    · subst hn
      simpa using Or.inr h
    · simp [hn]

section

omit [DecidableEq μ] [DecidableEq κ]

theorem rehung_setThread {f : Thread τ μ κ → Thread τ μ κ}
    (hidle : (s.threads w).waitType ≠ .mutex) (hf : (f (s.threads w)).waitType ≠ .mutex) :
    Rehung s (s.setThread w f) where
  thread u := by
    by_cases hu : u = w
    · subst hu
      exact Or.inr ⟨hidle, by simpa using hf⟩
    · simp [hu]
  holder _ := Or.inl rfl

/-- A thread with a null `wait_obj` waits for no mutex. -/
theorem Placed.idle_of_null (h : Placed s place ring) (hobj : (s.threads u).waitObj = .none) :
    (s.threads u).waitType ≠ .mutex := by
  intro htype
  have hwaits := h.waits u
  rw [htype] at hwaits
  obtain ⟨m, hm, -⟩ := hwaits
  rw [hobj] at hm
  cases hm

theorem Placed.idle_of_taken (h : Placed s place ring) (hw : place w = .taken) :
    (s.threads w).waitType ≠ .mutex := by
  have hat := h.at_place w
  generalize hk : core (s.threads w) = k at hat
  have htype : (s.threads w).waitType = k.waitType := congrArg Core.waitType hk
  rw [hw] at hat
  rw [htype]
  cases hat
  nofun

/-- A thread inside `mutex_trylock` waits for nothing. -/
theorem Placed.tries_idle (h : Placed s place ring)
    (hall : ∀ i ∈ (s.threads t).code, triesOnly i = true) : (s.threads t).waitType = .none := by
  have hat := h.at_place t
  generalize hk : core (s.threads t) = k at hat
  generalize place t = pl at hat
  have hcode : (s.threads t).code = k.code := congrArg Core.code hk
  have htype : (s.threads t).waitType = k.waitType := congrArg Core.waitType hk
  rw [hcode] at hall
  rw [htype]
  have hrest : ∀ {r : List (Instr τ μ κ)} {q : Phase μ κ} {wt : WaitType} {o : WaitObj μ κ},
      Main r q → q.Fits wt o → (∀ i ∈ r, i ∈ k.code) → wt = .none := by
    intro r q wt o hr hf hsub
    obtain rfl := hr.tries fun i hi => hall i (hsub i hi)
    exact hf
  cases hat with
  | main hr hf => exact hrest hr hf fun i hi => hi
  | syncCheck hr hf => exact hrest hr hf fun i hi => by simp [hi]
  | schedule hr hf => exact hrest hr hf fun i hi => by simp [hi]
  | asleep hr =>
    have := hr.tries fun i hi => hall i (by simp [hi])
    cases this
  | condAsleep hr | taken hr =>
    have := hr.tries fun i hi => hall i (by simp [hi])
    cases this
  | awakened => rfl
  | _ => exact absurd (hall _ List.mem_cons_self) (by simp [triesOnly])

end

/-- Where `wait_type`, `wait_obj` or a holder is written. -/
theorem Placed.writes_step (h : Placed s place ring) (htry : Trying s)
    (hcode : (s.threads t).code = i :: rest) (hw : writesGraph i = true)
    (hg : KeepsWait s stale i) (hr : KeepsRoot s t stale i)
    (hp : perform s t stale i = some (s₁, code)) : GraphStep s s₁ := by
  have hin : i.inHandler = false ∧ i ≠ .fault := by
    cases i with
    | setWaitObj | setWaitType | staleBoost | priorityBoost | recordHolder | clearHolder
    | testQueue | condWake | awaken => exact ⟨rfl, by simp⟩
    | _ => cases hw
  obtain ⟨haway, p, hmain, hfits, -⟩ := (h.at_place t).uninterrupted fun j hj => by
    have hhead : (core (s.threads t)).code.head? = some i := by simp [core, hcode]
    obtain rfl := Option.some_inj.mp (hhead.symm.trans hj)
    exact hin
  have hmain' : Main (i :: rest) p := hcode ▸ hmain
  have hwt : (core (s.threads t)).waitType = (s.threads t).waitType := rfl
  rw [hwt] at hfits
  cases hmain' with
  | pass hsilent _ =>
    cases i with
    | recordHolder m =>
      cases hp
      have hidle := h.tries_idle (htry t ⟨.recordHolder m, by simp [hcode], rfl⟩)
      exact Or.inl (rehung_setHolder (Or.inl ⟨t, rfl, by simp [hidle]⟩))
    | clearHolder m =>
      cases hp
      exact Or.inl (rehung_setHolder (Or.inr hr))
    | testQueue async m =>
      have hnone : (s.mutexes m).queue = none := hg
      simp only [perform, hnone] at hp
      cases hp
      exact Or.inl (Kept.refl s).rehung
    | setWaitObj | setWaitType | staleBoost | priorityBoost | condWake | awaken => cases hsilent
    | _ => cases hw
  | staleBoost m =>
    simp only [perform] at hp
    split at hp <;> cases hp
    · rename_i x
      have hnull : (s.threads x).waitObj = .none := hg x rfl
      have hset : Rehung s (s.setMutex m fun mx => { mx with holder := some x }) :=
        rehung_setHolder (Or.inl ⟨x, rfl, h.idle_of_null hnull⟩)
      exact Or.inl (hset.kept (kept_setThread _ x _ ⟨rfl, hnull.symm⟩))
    · exact Or.inl (rehung_setHolder (Or.inr (hr rfl)))
  | setWaitObj m r | condObj =>
    cases hp
    have hidle : (s.threads t).waitType = .none := hfits
    exact Or.inl (rehung_setThread (by simp [hidle]) (by simp [hidle]))
  | setWaitType m r =>
    cases hp
    have hidle : (s.threads t).waitType = .none := hfits.1
    have hobj : (s.threads t).waitObj = .mutex m := hfits.2
    refine Or.inr ⟨t, m, ⟨by simp [hidle], ?_, fun u hu => ?_, fun _ => rfl⟩, hr m hobj⟩
    · simp [RegisteredOn, hobj]
    · simp [hu]
  | condType =>
    cases hp
    have hidle : (s.threads t).waitType = .none := hfits.1
    exact Or.inl (rehung_setThread (by simp [hidle]) (by simp))
  | condWake =>
    have hidle : (s.threads t).waitType = .none := hfits
    simp only [perform] at hp
    cases hp
    exact Or.inl (rehung_setThread (by simp [hidle]) (by simp [hidle]))
  | awaken w =>
    cases hp
    have htaken := h.awaken t w (by simp [hcode])
    exact Or.inl (rehung_setThread (h.idle_of_taken htaken) (by simp))
  | _ => cases hw

theorem Placed.graph_step (h : Placed s place ring) (htry : Trying s)
    (hcode : (s.threads t).code = i :: rest) (hg : KeepsWait s stale i)
    (hr : KeepsRoot s t stale i) (hp : perform s t stale i = some (s₁, code)) :
    GraphStep s s₁ := by
  cases hw : writesGraph i with
  | true => exact h.writes_step htry hcode hw hg hr hp
  | false => exact Or.inl (perform_kept hp hw).rehung

omit [DecidableEq μ] [DecidableEq κ] in
theorem resumed_code (s : State τ μ κ) (t : τ) (rest : List (Instr τ μ κ)) :
    ((resumed s t rest).threads t).code <:+ rest ∨
      ((resumed s t rest).threads t).code = [.fault] := by
  rw [resumed]
  split
  · rw [State.setThread_threads, if_pos rfl]
    dsimp only
    rw [code_setCode, if_pos rfl]
    unfold reenter
    split
    · exact Or.inl (List.suffix_cons _ _)
    · exact Or.inl (List.suffix_cons _ _)
    · exact Or.inr rfl
  · rw [code_setCode, if_pos rfl]
    exact Or.inl List.suffix_rfl

omit [DecidableEq μ] [DecidableEq κ] in
theorem resumed_code_other (hu : u ≠ t) :
    ((resumed s t rest).threads u).code = (s.threads u).code := by
  rw [resumed]
  split <;> simp [setCode, hu]

omit [DecidableEq τ] [DecidableEq μ] [DecidableEq κ] in
theorem call_tries (c : Call μ κ) (hc : ∃ i ∈ (c.code : List (Instr τ μ κ)), records i = true) :
    ∀ i ∈ (c.code : List (Instr τ μ κ)), triesOnly i = true := by
  cases c with
  | mutexTrylock m => simp [Call.code, mutexTrylock, triesOnly]
  | _ =>
    simp [Call.code, mutexLock, asyncMutexTrylock, mutexUnlock, asyncMutexUnlock, condWait, doWait,
      condSignal, records] at hc

omit [DecidableEq τ] [DecidableEq μ] [DecidableEq κ] in
theorem call_asks (c : Call μ κ) (n : μ) :
    .detectDeadlock n ∉ (c.code : List (Instr τ μ κ)) := by
  cases c <;> simp [Call.code, mutexLock, mutexTrylock, asyncMutexTrylock, mutexUnlock,
    asyncMutexUnlock, condWait, doWait, condSignal]

/-- Only `mutex_trylock` records a holder, on to the next instruction. -/
theorem Placed.trying_exec (h : Placed s place ring) (htry : Trying s)
    (hcode : (s.threads t).code = i :: rest) (hp : perform s t stale i = some (s₁, code))
    (hrec : ∃ j ∈ code ++ rest, records j = true) : ∀ j ∈ code ++ rest, triesOnly j = true := by
  -- a part of mutex_trylock was there before
  have hold : ∃ j ∈ (s.threads t).code, records j = true := by
    obtain ⟨j, hj, hjr⟩ := hrec
    rcases List.mem_append.mp hj with hnew | hrest
    · exact ⟨i, by simp [hcode], perform_records hp hnew hjr⟩
    · exact ⟨j, by simp [hcode, hrest], hjr⟩
  have hall := htry t hold
  have hidle := h.tries_idle hall
  rw [hcode] at hall
  have hnew := perform_tries hp (hall i List.mem_cons_self) hidle
  intro j hj
  rcases List.mem_append.mp hj with hj | hj
  · exact hnew j hj
  · exact hall j (List.mem_cons_of_mem _ hj)

theorem step_preserves_trying {e : Event τ μ κ} (h : Placed s place ring) (htry : Trying s)
    (he : next s e = some s') : Trying s' := by
  intro u hrec
  obtain ⟨t, c, -, -, -, rfl⟩ | ⟨t, -, -, rfl⟩ | ⟨t, stale, i, rest, s₁, code, -, hcode, hp, rfl⟩ :=
    next_cases he
  · rw [code_setCode] at hrec ⊢
    split at hrec
    · rw [if_pos ‹_›]
      exact call_tries c hrec
    · rw [if_neg ‹_›]
      exact htry u hrec
  · rw [code_setCode] at hrec ⊢
    split at hrec
    · rename_i hu
      subst hu
      rw [if_pos rfl]
      have hall := htry u (by simpa [records] using hrec)
      simpa [triesOnly] using hall
    · rw [if_neg ‹_›]
      exact htry u hrec
  · have hsame := perform_code hp
    have hold : ∀ {v}, (∃ j ∈ (s₁.threads v).code, records j = true) →
        ∀ j ∈ (s₁.threads v).code, triesOnly j = true := by
      intro v hv
      rw [hsame] at hv ⊢
      exact htry v hv
    by_cases hu : u = t
    · subst hu
      split at hrec
      · rename_i hi
        rw [if_pos hi]
        rcases resumed_code s₁ u rest with hsub | hfault
        · obtain ⟨j, hj, hjr⟩ := hrec
          have hall := htry u ⟨j, by simp [hcode, hsub.subset hj], hjr⟩
          rw [hcode] at hall
          exact fun k hk => hall k (List.mem_cons_of_mem _ (hsub.subset hk))
        · rw [hfault] at hrec
          simp [records] at hrec
      · rename_i hi
        rw [if_neg hi, code_setCode, if_pos rfl]
        rw [code_setCode, if_pos rfl] at hrec
        exact h.trying_exec htry hcode hp hrec
    · split at hrec
      · rename_i hi
        rw [if_pos hi]
        rw [resumed_code_other hu] at hrec ⊢
        exact hold hrec
      · rename_i hi
        rw [if_neg hi]
        rw [code_setCode, if_neg hu] at hrec ⊢
        exact hold hrec

/-- Everything that `detect_deadlock` is to go on to has been asked for by somebody. -/
def Asked (s : State τ μ κ) : Prop :=
  ∀ t n, .detectDeadlock n ∈ (s.threads t).code → ∃ x, RegisteredOn s x n

theorem step_preserves_asked {e : Event τ μ κ} (hgraph : GraphStep s s') (hask : Asked s)
    (he : next s e = some s') : Asked s' := by
  intro u n hn
  have hsome : ∃ x, RegisteredOn s x n := by
    obtain ⟨t, c, -, -, -, rfl⟩ | ⟨t, -, -, rfl⟩ |
      ⟨t, stale, i, rest, s₁, code, -, hcode, hp, rfl⟩ := next_cases he
    · rw [code_setCode] at hn
      split at hn
      · exact absurd hn (call_asks c n)
      · exact hask u n hn
    · rw [code_setCode] at hn
      split at hn
      · rename_i hu
        subst hu
        exact hask u n (by simpa using hn)
      · exact hask u n hn
    · by_cases hu : u = t
      · subst hu
        split at hn
        · rcases resumed_code s₁ u rest with hsub | hfault
          · exact hask u n (by simp [hcode, hsub.subset hn])
          · simp [hfault] at hn
        · rw [code_setCode, if_pos rfl] at hn
          rcases List.mem_append.mp hn with hnew | hrest
          · exact perform_asked hp hnew
          · exact hask u n (by simp [hcode, hrest])
      · have hsame : .detectDeadlock n ∈ (s₁.threads u).code := by
          split at hn
          · rwa [resumed_code_other hu] at hn
          · rwa [code_setCode, if_neg hu] at hn
        rw [perform_code hp] at hsame
        exact hask u n hsame
  obtain ⟨x, hx⟩ := hsome
  exact ⟨x, hgraph.keeps hx⟩

theorem Placed.step_graph {e : Event τ μ κ} (h : Placed s place ring) (htry : Trying s)
    (hg : KeepsWaits s e) (hr : KeepsRoots s e) (he : next s e = some s') : GraphStep s s' := by
  obtain ⟨t, c, -, -, -, rfl⟩ | ⟨t, -, -, rfl⟩ |
    ⟨t, stale, i, rest, s₁, code, rfl, hcode, hp, rfl⟩ := next_cases he
  · exact Or.inl (kept_setCode s t _).rehung
  · exact Or.inl (kept_setCode s t _).rehung
  · have hhead : i ∈ (s.threads t).code.head? := by simp [hcode]
    have hgraph := h.graph_step htry hcode (hg i hhead) (hr i hhead) hp
    split
    · exact hgraph.kept (kept_resumed s₁ t rest)
    · exact hgraph.kept (kept_setCode s₁ t _)

end Steps

structure Walkable (s : State τ μ κ) : Prop where
  placed : WellPlaced s
  trying : Trying s
  rooted : AllRooted s
  asked : Asked s

section Runs

variable {s s' s₀ : State τ μ κ} {t : τ} {m : μ}

theorem step_preserves_walkable {e : Event τ μ κ} (h : Walkable s) (hg : KeepsWaits s e)
    (hr : KeepsRoots s e) (he : next s e = some s') : Walkable s' := by
  obtain ⟨place, ring, hplaced⟩ := h.placed
  have hgraph := hplaced.step_graph h.trying hg hr he
  exact ⟨step_preserves_wellPlaced h.placed hg he, step_preserves_trying hplaced h.trying he,
    hgraph.rooted h.rooted, step_preserves_asked hgraph h.asked he⟩

section

omit [DecidableEq μ] [DecidableEq κ]

theorem walkable_initial (h : Initial s) : Walkable s := by
  refine ⟨wellPlaced_initial h, ?_, ?_, ?_⟩
  · intro t hrec
    simp [(h.thread t).1] at hrec
  · intro x m hx
    have htype := hx.1
    rw [(h.thread x).2.1] at htype
    cases htype
  · intro t n hn
    simp [(h.thread t).1] at hn

/-- On the way from a mutex that somebody waits for the call comes to an end. -/
theorem Walkable.returns (h : Walkable s) {x : τ} (hx : RegisteredOn s x m) (t : τ) :
    ∃ fuel b, detectDeadlock fuel s t m = some b := by
  obtain ⟨place, ring, hplaced⟩ := h.placed
  obtain ⟨l, hl⟩ := (h.rooted x m hx).holderChain t
  obtain ⟨bound, hfound⟩ := deadlock_detection_exact hl fun n _ => hplaced.sleepers (.mutex n)
  obtain ⟨b, hb, -⟩ := hfound bound le_rfl
  exact ⟨bound, b, hb⟩

theorem Walkable.detection (h : Walkable s) : DetectionReturns s where
  call t rest _ htype := by
    obtain ⟨place, ring, hplaced⟩ := h.placed
    have hwaits := hplaced.waits t
    rw [htype] at hwaits
    obtain ⟨m, hobj, -⟩ := hwaits
    exact ⟨m, hobj, h.returns ⟨htype, hobj⟩ t⟩
  pass t m rest hcode := by
    obtain ⟨x, hx⟩ := h.asked t m (by simp [hcode])
    exact h.returns hx t

end

/-- In a run in which nobody registers on a way that leads back to it, no mutex that is waited for
gets a null holder, and the wait fields are kept, every call of `detect_deadlock` returns. -/
theorem detection_returns (h₀ : Initial s₀)
    (h : Execution next (fun s e => KeepsWaits s e ∧ KeepsRoots s e) s₀ s) :
    DetectionReturns s := by
  have hwalk : Walkable s :=
    h.preserves (fun _ _ _ hs hg he => step_preserves_walkable hs hg.1 hg.2 he)
      (walkable_initial h₀)
  exact hwalk.detection

end Runs

def HolderIdle (s : State τ μ κ) (t : τ) (stale : Option τ) : Instr τ μ κ → Prop
  | .setWaitType .mutex => match (s.threads t).waitObj with
    | .mutex m => ∃ h ∈ (s.mutexes m).holder, h ≠ t ∧ (s.threads h).waitType ≠ .mutex
    | _ => True
  | .staleBoost _ => stale ≠ none
  | .clearHolder _ => False
  | _ => True

instance (s : State τ μ κ) (t : τ) (stale : Option τ) (i : Instr τ μ κ) :
    Decidable (HolderIdle s t stale i) := by
  induction i using Instr.casesOn with
  | setWaitType w =>
    induction w using WaitType.casesOn with
    | mutex =>
      unfold HolderIdle
      exact match (s.threads t).waitObj with
        | .mutex _ => inferInstance
        | .cond _ | .none => isTrue trivial
    | _ => exact isTrue trivial
  | staleBoost m => exact inferInstanceAs (Decidable (stale ≠ none))
  | clearHolder m => exact isFalse id
  | _ => exact isTrue trivial

def HoldersIdle (s : State τ μ κ) : Event τ μ κ → Prop
  | .exec t stale => ∀ i ∈ (s.threads t).code.head?, HolderIdle s t stale i
  | _ => True

instance (s : State τ μ κ) : ∀ e : Event τ μ κ, Decidable (HoldersIdle s e)
  | .exec t stale =>
    inferInstanceAs (Decidable (∀ i ∈ (s.threads t).code.head?, HolderIdle s t stale i))
  | .call _ _ | .tick _ => isTrue trivial

omit [DecidableEq τ] [DecidableEq μ] [DecidableEq κ] in
theorem HolderIdle.keepsRoot {s : State τ μ κ} {t : τ} {stale : Option τ} {i : Instr τ μ κ}
    (h : HolderIdle s t stale i) : KeepsRoot s t stale i := by
  cases i with
  | setWaitType w =>
    cases w with
    | mutex =>
      intro m hobj
      simp only [HolderIdle, hobj] at h
      obtain ⟨x, hx, hne, hidle⟩ := h
      exact .idle hx hidle hne
    | _ => trivial
  | staleBoost m => exact fun hnone => absurd hnone h
  | clearHolder m => exact h.elim
  | _ => trivial

omit [DecidableEq τ] [DecidableEq μ] [DecidableEq κ] in
theorem HoldersIdle.keepsRoots {s : State τ μ κ} {e : Event τ μ κ} (h : HoldersIdle s e) :
    KeepsRoots s e := by
  cases e with
  | exec t stale => exact fun i hi => HolderIdle.keepsRoot (h i hi)
  | _ => trivial

/-- `mutex_lock(m)` by `t`, up to its `spin_lock`. -/
def lockAndSpin {n k : ℕ} (t : Fin n) (m : Fin k) : List (Event (Fin n) (Fin k) Unit) :=
  .call t (.mutexLock m) :: List.replicate 7 (.exec t none)

def lockFree {n k : ℕ} (t : Fin n) (m : Fin k) : List (Event (Fin n) (Fin k) Unit) :=
  .call t (.mutexLock m) :: List.replicate 3 (.exec t (some t))

/-- Threads 1 and 2 wait for the mutex of thread 0, and the timer interrupts thread 2. -/
theorem detection_returns_queued : ∃ s : State (Fin 3) (Fin 1) Unit,
    Execution next (fun s e => KeepsWaits s e ∧ KeepsRoots s e) start s ∧
      (s.threads 2).code.head? = some .syncCheck ∧ (s.threads 2).waitType = .mutex ∧
      DetectionReturns s := by
  have hrun : (follow next (fun s e => KeepsWaits s e ∧ HoldersIdle s e) start
      (lockFree 0 0 ++ lockAndSpin 1 0 ++ lockAndSpin 2 0 ++ [.tick 2])).map
      (fun s : State (Fin 3) (Fin 1) Unit => decide
        ((s.threads 2).code.head? = some .syncCheck ∧ (s.threads 2).waitType = .mutex)) =
      some true := by decide +kernel
  obtain ⟨s, hs, hd⟩ := Option.map_eq_some_iff.mp hrun
  obtain ⟨hcode, htype⟩ := of_decide_eq_true hd
  have hexec : Execution next (fun s e => KeepsWaits s e ∧ KeepsRoots s e) start s :=
    (execution_of_follow hs).weaken fun _ _ h => ⟨h.1, HoldersIdle.keepsRoots h.2⟩
  exact ⟨s, hexec, hcode, htype, detection_returns start_initial hexec⟩

def waitInRing {n k : ℕ} (t u : Fin n) (m o : Fin k) : List (Event (Fin n) (Fin k) Unit) :=
  lockFree t m ++ lockFree u o ++ lockAndSpin t o ++ lockAndSpin u m

/-- An interrupt handler, on the stack of `h`, has taken the mutex that `t` waits for. -/
def waitForHandler {n : ℕ} (h t : Fin n) : List (Event (Fin n) Unit Unit) :=
  .call h (.asyncMutexTrylock ()) :: List.replicate 2 (.exec h none) ++
  .call t (.mutexLock ()) :: List.replicate 7 (.exec t none)

/-- Thread 2 waits for a mutex of the ring, and its walk goes round. Thread 1 waits for a mutex
whose recorded holder is null. Thread 1 has got a mutex that it waited for, and its `wait_obj` is
null. -/
theorem detection_goes_round :
    (∃ s : State (Fin 3) (Fin 2) Unit, Execution next (fun _ _ => True) start s ∧
      (s.threads 2).code.head? = some .syncCheck ∧ (s.threads 2).waitType = .mutex ∧
      (s.threads 2).waitObj = .mutex 0 ∧ (∀ fuel, detectDeadlock fuel s 2 0 = none) ∧
      ¬ DetectionReturns s) ∧
    (∃ s : State (Fin 3) Unit Unit, Execution next (fun _ _ => True) start s ∧
      (s.threads 1).waitObj = .mutex () ∧ (s.mutexes ()).holder = none ∧ ¬ DetectionReturns s) ∧
    ∃ s : State (Fin 3) Unit Unit, Execution next (fun _ _ => True) start s ∧
      s.owns 1 () = true ∧ (s.threads 1).waitObj = .none ∧ ¬ DetectionReturns s := by
  refine ⟨?_, ?_, ?_⟩
  · have hrun : (follow next (fun _ _ => True) start
        (waitInRing (0 : Fin 3) 1 (0 : Fin 2) 1 ++ lockAndSpin 2 0 ++ [.tick 2])).map (fun s => decide
          (((s.threads 2).code.head? = some .syncCheck ∧ (s.threads 2).waitType = .mutex ∧
            (s.threads 2).waitObj = .mutex 0) ∧
          ∀ m : Fin 2, (s.mutexes m).queue = none ∧
            ∃ h ∈ (s.mutexes m).holder, h ≠ 2 ∧ (s.threads h).waitType = .mutex ∧
              ∃ n, (s.threads h).waitObj = .mutex n)) = some true := by decide +kernel
    obtain ⟨s, hs, hd⟩ := Option.map_eq_some_iff.mp hrun
    obtain ⟨⟨hcode, htype, hobj⟩, hround⟩ := of_decide_eq_true hd
    have hnever : ∀ fuel m, detectDeadlock fuel s 2 m = none := by
      intro fuel
      induction fuel with
      | zero => exact fun _ => rfl
      | succ fuel ih =>
        intro m
        obtain ⟨hqueue, h, hholder, hne, hwait, n, hn⟩ := hround m
        rw [detectDeadlock, walkQueue, hqueue, hholder]
        simp [hne, hwait, hn, ih n]
    refine ⟨s, execution_of_follow hs, hcode, htype, hobj, fun fuel => hnever fuel 0, ?_⟩
    intro hreturns
    obtain ⟨rest, hrest⟩ := List.head?_eq_some_iff.mp hcode
    obtain ⟨m, -, fuel, b, hb⟩ := hreturns.call 2 rest hrest htype
    rw [hnever] at hb
    cases hb
  · have hrun : (follow next (fun _ _ => True) start (waitForHandler (0 : Fin 3) 1 ++ [.tick 1])).map
        (fun s => decide ((s.threads 1).code.head? = some .syncCheck ∧
          (s.threads 1).waitType = .mutex ∧ (s.threads 1).waitObj = .mutex () ∧
          (s.mutexes ()).holder = none ∧ (s.mutexes ()).queue = none)) = some true := by
      decide +kernel
    obtain ⟨s, hs, hd⟩ := Option.map_eq_some_iff.mp hrun
    obtain ⟨hcode, htype, hobj, hholder, hqueue⟩ := of_decide_eq_true hd
    refine ⟨s, execution_of_follow hs, hobj, hholder, fun hreturns => ?_⟩
    obtain ⟨rest, hrest⟩ := List.head?_eq_some_iff.mp hcode
    obtain ⟨m, -, fuel, b, hb⟩ := hreturns.call 1 rest hrest htype
    cases fuel with
    | zero => cases hb
    | succ fuel =>
      rw [detectDeadlock, walkQueue, hqueue, hholder] at hb
      cases hb
  · have hrun : (follow next (fun _ _ => True) start (lockContended ++ [.tick 1])).map
        (fun s => decide ((s.threads 1).code.head? = some .syncCheck ∧
          (s.threads 1).waitType = .mutex ∧ (s.threads 1).waitObj = .none ∧
          s.owns 1 () = true)) = some true := by decide +kernel
    obtain ⟨s, hs, hd⟩ := Option.map_eq_some_iff.mp hrun
    obtain ⟨hcode, htype, hobj, howns⟩ := of_decide_eq_true hd
    refine ⟨s, execution_of_follow hs, howns, hobj, fun hreturns => ?_⟩
    obtain ⟨rest, hrest⟩ := List.head?_eq_some_iff.mp hcode
    obtain ⟨m, hm, -⟩ := hreturns.call 1 rest hrest htype
    rw [hobj] at hm
    cases hm

end WaitStates
