import Metakernel.PriorityInheritance

/-!
# Wait states

`wait_type` says whether a thread waits for a mutex or for a condition, `wait_obj` for which one.
The timer, the deadlock detection and the priority adjustment read both at any later time.
-/
namespace WaitStates

open Synchronization GuardedRuns LinkedNodes

variable {τ μ κ : Type} [DecidableEq τ] [DecidableEq μ] [DecidableEq κ]

def Spinning (s : State τ μ κ) (t : τ) (m : μ) : Prop :=
  (s.threads t).useReentry = false ∧
    (.secondTry m ∈ (s.threads t).code ∨ .spinLock m ∈ (s.threads t).code)

/-- The thread is in `do_wait` and has not been let through. -/
def WaitsOn (s : State τ μ κ) (t : τ) (c : κ) : Prop := .condSpin c ∈ (s.threads t).code

/-- `wait_obj` of the thread is what it waits for. -/
def Waits (s : State τ μ κ) (t : τ) : WaitType → Prop
  | .none => True
  | .mutex => ∃ m, (s.threads t).waitObj = .mutex m ∧ (Spinning s t m ∨ AsleepIn s m t)
  | .cond => ∃ c, (s.threads t).waitObj = .cond c ∧ WaitsOn s t c

/-- The instruction of `t` follows `wait_obj` of `u`, as a pointer to a mutex or to a condition. An
adjustment of priorities may come to any thread that waits for a mutex. -/
inductive Follows (s : State τ μ κ) (t : τ) : Instr τ μ κ → τ → WaitType → Prop where
  | syncCheck : Follows s t .syncCheck t (s.threads t).waitType
  | detectDeadlock (m h) : (s.mutexes m).holder = some h → (s.threads h).waitType = .mutex →
      Follows s t (.detectDeadlock m) h .mutex
  | lockSleep : Follows s t .lockSleep t .mutex
  | adjustPriority (w p u) : (s.threads u).waitType = .mutex →
      Follows s t (.adjustPriority w p) u .mutex
  | testSpin (async m u) : (s.threads u).waitType = .mutex →
      Follows s t (.testSpin async m) u .mutex
  | boostHolder (m u) : (s.threads u).waitType = .mutex → Follows s t (.boostHolder m) u .mutex

/-- A thread that waits for nothing, such as one that has got its mutex, neither spins nor sleeps
nor is in `do_wait`. -/
structure Consistent (s : State τ μ κ) : Prop where
  waits : ∀ t, Waits s t (s.threads t).waitType
  idle : ∀ t, (∀ m, ¬ Spinning s t m ∧ ¬ AsleepIn s m t) → (∀ c, ¬ WaitsOn s t c) →
    (s.threads t).waitType = .none
  follows : ∀ t i rest u w, (s.threads t).code = i :: rest → Follows s t i u w → Waits s u w

/-- Nobody gets a mutex in the slow path of `mutex_lock` or by a hand-off, nobody is let through
the lock of a condition, the thread that the unassigned variable of `mutex_lock` points to waits
for nothing, and a signal that looks into the queue finds one thread there. -/
def KeepsWait (s : State τ μ κ) (stale : Option τ) : Instr τ μ κ → Prop
  | .secondTry m | .spinLock m => (s.mutexes m).word = true
  | .condSpin c => (s.conds c).word = true
  | .staleBoost _ => ∀ x ∈ stale, (s.threads x).waitObj = .none
  | .testQueue _ m => (s.mutexes m).queue = none
  | .takeSleeper c => ∃ w ∈ (s.conds c).queue, (s.threads w).queueNext = some w
  | _ => True

def KeepsWaits (s : State τ μ κ) : Event τ μ κ → Prop
  | .exec t stale => ∀ i ∈ (s.threads t).code.head?, KeepsWait s stale i
  | _ => True

instance (s : State τ μ κ) (stale : Option τ) (i : Instr τ μ κ) :
    Decidable (KeepsWait s stale i) := by
  cases i <;> unfold KeepsWait <;> infer_instance

instance (s : State τ μ κ) (e : Event τ μ κ) : Decidable (KeepsWaits s e) := by
  cases e <;> unfold KeepsWaits <;> infer_instance

/-- The instructions that write to no wait field and to no queue; `testQueue` finds no sleeper. -/
def silent : Instr τ μ κ → Bool
  | .timerDisable | .timerRestore | .adjustPriority _ _ | .numSpinInc _ | .tryWord _
  | .recordHolder _ | .asyncTryWord _ | .clearHolder _ | .testSpin _ _ | .testQueue _ _
  | .unlockSpun _ | .unlockFree _ | .condSpinInc _ | .typeUnlock _ | .typeLock _ | .condOpen _
  | .fault => true
  | _ => false

inductive Phase (μ κ : Type) where
  | outside
  | asked (o : WaitObj μ κ)
  | locking (m : μ)
  | waiting (c : κ)

/-- The wait fields that go with it. -/
def Phase.Fits : Phase μ κ → WaitType → WaitObj μ κ → Prop
  | .outside, w, _ => w = .none
  | .asked o', w, o => w = .none ∧ o = o'
  | .locking m, w, o => w = .mutex ∧ o = .mutex m
  | .waiting c, w, o => w = .cond ∧ o = .cond c

/-- The instructions left to a thread that is not interrupted. What follows on the slow path of
`mutex_lock` does not matter. -/
inductive Main : List (Instr τ μ κ) → Phase μ κ → Prop where
  | nil : Main [] .outside
  | pass {i r p} : silent i = true → Main r p → Main (i :: r) p
  | firstTry (m) : Main [.firstTry m] .outside
  | staleBoost (m) : Main [.staleBoost m] .outside
  | setWaitObj (m r) : Main (.setWaitObj (.mutex m) :: .timerDisable :: .setWaitType .mutex ::
      .numSpinInc m :: .secondTry m :: r) .outside
  | setWaitType (m r) : Main (.setWaitType .mutex :: .numSpinInc m :: .secondTry m :: r)
      (.asked (.mutex m))
  | secondTry (m r) : Main (.secondTry m :: r) (.locking m)
  | spinLock (m r) : Main (.spinLock m :: r) (.locking m)
  | condObj {c r} : Main r (.waiting c) →
      Main (.setWaitObj (.cond c) :: .setWaitType .cond :: r) .outside
  | condType {c r} : Main r (.waiting c) → Main (.setWaitType .cond :: r) (.asked (.cond c))
  | condSpin {c r} : Main r .outside → Main (.condSpin c :: .condWake c :: r) (.waiting c)
  | condWake {c r} : Main r .outside → Main (.condWake c :: r) .outside
  | testCondSpin (c) : Main [.testCondSpin c] .outside
  | takeSleeper (c) : Main [.takeSleeper c] .outside
  | awaken (w) : Main [.awaken w, .timerRestore] .outside

inductive Place (μ κ : Type) where
  | away
  | taken
  | ring (o : WaitObj μ κ)

structure Core (τ μ κ : Type) where
  code : List (Instr τ μ κ)
  useReentry : Bool
  status : Status
  waitType : WaitType
  waitObj : WaitObj μ κ

def core (th : Thread τ μ κ) : Core τ μ κ :=
  ⟨th.code, th.useReentry, th.status, th.waitType, th.waitObj⟩

omit [DecidableEq τ] [DecidableEq μ] [DecidableEq κ] in
theorem code_of_core {a b : Thread τ μ κ} (h : core a = core b) : a.code = b.code :=
  congrArg Core.code h

inductive At : Core τ μ κ → Place μ κ → Prop where
  | main {r p w o} : Main r p → p.Fits w o → At ⟨r, false, .runnable, w, o⟩ .away
  | syncCheck {r p w o} : Main r p → p.Fits w o →
      At ⟨.syncCheck :: .schedule :: r, false, .runnable, w, o⟩ .away
  | schedule {r p w o} : Main r p → p.Fits w o → At ⟨.schedule :: r, false, .runnable, w, o⟩ .away
  | detectDeadlock {r m} (n) : Main r (.locking m) →
      At ⟨.detectDeadlock n :: .schedule :: r, false, .runnable, .mutex, .mutex m⟩ .away
  | lockSleep {r m} : Main r (.locking m) →
      At ⟨.lockSleep :: .schedule :: r, false, .runnable, .mutex, .mutex m⟩ .away
  | fault {r m} : Main r (.locking m) →
      At ⟨.fault :: .schedule :: r, false, .runnable, .mutex, .mutex m⟩ .away
  | enqueue {r m} : Main r (.locking m) →
      At ⟨.enqueue m :: .sleepStatus :: .boostHolder m :: .schedule :: r, false, .runnable, .mutex,
        .mutex m⟩ .away
  | sleepStatus {r m} : Main r (.locking m) →
      At ⟨.sleepStatus :: .boostHolder m :: .schedule :: r, false, .runnable, .mutex, .mutex m⟩
        (.ring (.mutex m))
  | boostHolder {r m} : Main r (.locking m) →
      At ⟨.boostHolder m :: .schedule :: r, true, .intSleep, .mutex, .mutex m⟩ (.ring (.mutex m))
  | asleep {r m} : Main r (.locking m) →
      At ⟨.schedule :: r, true, .intSleep, .mutex, .mutex m⟩ (.ring (.mutex m))
  | condStatus {r c} : Main r (.waiting c) →
      At ⟨.sleepStatus :: .condSleep c :: .condEnqueue c :: .schedule :: r, false, .runnable, .cond,
        .cond c⟩ .away
  | condSleep {r c} : Main r (.waiting c) →
      At ⟨.condSleep c :: .condEnqueue c :: .schedule :: r, true, .intSleep, .cond, .cond c⟩ .away
  | condEnqueue {r c} : Main r (.waiting c) →
      At ⟨.condEnqueue c :: .schedule :: r, true, .intSleep, .cond, .cond c⟩ .away
  | condAsleep {r c} : Main r (.waiting c) →
      At ⟨.schedule :: r, true, .intSleep, .cond, .cond c⟩ (.ring (.cond c))
  | taken {r c} : Main r (.waiting c) → At ⟨.schedule :: r, true, .intSleep, .cond, .cond c⟩ .taken
  | awakened {r c o} : Main r (.waiting c) →
      At ⟨.schedule :: r, true, .runnable, .none, o⟩ .away

def entry (s : State τ μ κ) : WaitObj μ κ → Option τ
  | .none => none
  | .mutex m => (s.mutexes m).queue
  | .cond c => (s.conds c).queue

/-- Every thread is at a place that fits what is left of its call, the rings hold those that stand
there, and a thread on its way to be awakened has one awakener. -/
structure Placed (s : State τ μ κ) (place : τ → Place μ κ) (ring : WaitObj μ κ → List τ) :
    Prop where
  at_place : ∀ t, At (core (s.threads t)) (place t)
  sleepers : ∀ o, Sleepers s.threads (entry s o) (ring o)
  mem : ∀ t o, t ∈ ring o ↔ place t = .ring o
  awaken : ∀ u w, .awaken w ∈ (s.threads u).code → place w = .taken
  once : ∀ u v w, .awaken w ∈ (s.threads u).code → .awaken w ∈ (s.threads v).code → u = v

section Codes

variable {r code : List (Instr τ μ κ)} {p : Phase μ κ} {i : Instr τ μ κ} {m : μ} {c : κ}

section

omit [DecidableEq τ] [DecidableEq μ] [DecidableEq κ]

theorem Main.append_silent (hcode : ∀ j ∈ code, silent j = true) (h : Main r p) :
    Main (code ++ r) p := by
  induction code with
  | nil => exact h
  | cons j code ih =>
    exact .pass (hcode j List.mem_cons_self) (ih fun k hk => hcode k (List.mem_cons_of_mem j hk))

theorem main_call (c : Call μ κ) : Main (c.code : List (Instr τ μ κ)) .outside := by
  cases c with
  | mutexLock m => exact .firstTry m
  | mutexTrylock m => exact .pass rfl (.pass rfl .nil)
  | asyncMutexTrylock m => exact .pass rfl .nil
  | mutexUnlock m => exact .pass rfl (.pass rfl .nil)
  | asyncMutexUnlock m => exact .pass rfl .nil
  | condWait c m =>
    have hlast : Main (.typeUnlock c :: mutexLock m : List (Instr τ μ κ)) .outside :=
      .pass rfl (.firstTry m)
    have hunlock : Main (mutexUnlock m ++ .condSpin c :: .condWake c :: .typeUnlock c ::
        mutexLock m : List (Instr τ μ κ)) (.waiting c) :=
      .pass rfl (.pass rfl (.condSpin hlast))
    exact .condObj (.pass rfl (.pass rfl (.pass rfl hunlock)))
  | condSignal c => exact .pass rfl (.testCondSpin c)

theorem Main.locking (h : Main r (.locking m)) : .secondTry m ∈ r ∨ .spinLock m ∈ r := by
  generalize hp : Phase.locking m = p at h
  induction h with
  | pass _ _ ih => exact (ih hp).imp (List.mem_cons_of_mem _) (List.mem_cons_of_mem _)
  | secondTry n r =>
    cases hp
    exact Or.inl List.mem_cons_self
  | spinLock n r =>
    cases hp
    exact Or.inr List.mem_cons_self
  | _ => cases hp

theorem Main.waiting (h : Main r (.waiting c)) : .condSpin c ∈ r := by
  generalize hp : Phase.waiting c = p at h
  induction h with
  | pass _ _ ih => exact List.mem_cons_of_mem _ (ih hp)
  | condSpin =>
    cases hp
    exact List.mem_cons_self
  | _ => cases hp

/-- A thread that is awakened outside of its `spin_lock` does not come back. -/
theorem Main.reenter (h : Main r (.waiting c)) : Main (reenter r) .outside := by
  have hfault : Main [(.fault : Instr τ μ κ)] .outside := .pass rfl .nil
  cases h with
  | @pass i =>
    rename_i hi _
    cases i with
    | spinLock | condSpin => cases hi
    | _ => exact hfault
  | condSpin hr => exact .condWake hr

theorem reenter_mem {j : Instr τ μ κ} (hj : j ∈ reenter r) : j ∈ r ∨ j = .fault := by
  unfold Synchronization.reenter at hj
  split at hj
  · exact Or.inl (List.mem_cons_of_mem _ hj)
  · exact Or.inl (List.mem_cons_of_mem _ hj)
  · exact Or.inr (List.mem_singleton.mp hj)

end

end Codes

section Frames

variable {s s' s₁ : State τ μ κ} {t u : τ} {stale : Option τ} {i : Instr τ μ κ}
  {code : List (Instr τ μ κ)}

/-- Nothing that matters for waiting has changed, except in the fields of `t`. -/
structure Frame (t : τ) (s s' : State τ μ κ) : Prop where
  other : ∀ u, u ≠ t → core (s'.threads u) = core (s.threads u)
  links : ∀ u, (s'.threads u).queueNext = (s.threads u).queueNext ∧
    (s'.threads u).queueLast = (s.threads u).queueLast
  entry : ∀ o, entry s' o = entry s o

structure Same (s s' : State τ μ κ) : Prop where
  core : ∀ u, core (s'.threads u) = core (s.threads u)
  links : ∀ u, (s'.threads u).queueNext = (s.threads u).queueNext ∧
    (s'.threads u).queueLast = (s.threads u).queueLast
  entry : ∀ o, entry s' o = entry s o

section

omit [DecidableEq τ] [DecidableEq μ] [DecidableEq κ]

theorem Same.refl (s : State τ μ κ) : Same s s := ⟨fun _ => rfl, fun _ => ⟨rfl, rfl⟩, fun _ => rfl⟩

theorem Same.trans {s'' : State τ μ κ} (h : Same s s') (h' : Same s' s'') : Same s s'' where
  core u := (h'.core u).trans (h.core u)
  links u := ⟨(h'.links u).1.trans (h.links u).1, (h'.links u).2.trans (h.links u).2⟩
  entry o := (h'.entry o).trans (h.entry o)

theorem Same.frame (h : Same s s') (t : τ) : Frame t s s' := ⟨fun u _ => h.core u, h.links, h.entry⟩

end

omit [DecidableEq μ] [DecidableEq κ] in
theorem Frame.setThread (h : Frame t s s₁) (f : Thread τ μ κ → Thread τ μ κ)
    (hf : ∀ th, (f th).queueNext = th.queueNext ∧ (f th).queueLast = th.queueLast) :
    Frame t s (s₁.setThread t f) where
  other u hu := by
    rw [State.setThread_threads, if_neg hu]
    exact h.other u hu
  links u := by
    rw [State.setThread_threads]
    split
    · rename_i hu
      subst hu
      exact ⟨(hf _).1.trans (h.links u).1, (hf _).2.trans (h.links u).2⟩
    · exact h.links u
  entry o := by
    refine Eq.trans ?_ (h.entry o)
    cases o <;> rfl

omit [DecidableEq μ] [DecidableEq κ] in
theorem same_setThread (s : State τ μ κ) (w : τ) (f : Thread τ μ κ → Thread τ μ κ)
    (hcore : core (f (s.threads w)) = core (s.threads w))
    (hlinks : (f (s.threads w)).queueNext = (s.threads w).queueNext ∧
      (f (s.threads w)).queueLast = (s.threads w).queueLast) : Same s (s.setThread w f) where
  core u := by
    rw [State.setThread_threads]
    split
    · rename_i hu
      exact hu ▸ hcore
    · rfl
  links u := by
    rw [State.setThread_threads]
    split
    · rename_i hu
      exact hu ▸ hlinks
    · exact ⟨rfl, rfl⟩
  entry o := by cases o <;> rfl

omit [DecidableEq τ] [DecidableEq κ] in
theorem same_setMutex (s : State τ μ κ) (m : μ) (f : Mutex τ → Mutex τ)
    (hf : (f (s.mutexes m)).queue = (s.mutexes m).queue) : Same s (s.setMutex m f) where
  core _ := rfl
  links _ := ⟨rfl, rfl⟩
  entry o := by
    cases o with
    | mutex n =>
      simp only [entry, State.setMutex_mutexes]
      split
      · rename_i hn
        exact hn ▸ hf
      · rfl
    | _ => rfl

omit [DecidableEq τ] [DecidableEq μ] in
theorem same_setCond (s : State τ μ κ) (c : κ) (f : Cond τ → Cond τ)
    (hf : (f (s.conds c)).queue = (s.conds c).queue) : Same s (s.setCond c f) where
  core _ := rfl
  links _ := ⟨rfl, rfl⟩
  entry o := by
    cases o with
    | cond d =>
      simp only [entry, State.setCond_conds]
      split
      · rename_i hd
        exact hd ▸ hf
      · rfl
    | _ => rfl

omit [DecidableEq κ] in
theorem same_setOwns (s : State τ μ κ) (t : τ) (m : μ) (b : Bool) : Same s (s.setOwns t m b) :=
  ⟨fun _ => rfl, fun _ => ⟨rfl, rfl⟩, fun o => by cases o <;> rfl⟩

omit [DecidableEq τ] [DecidableEq μ] [DecidableEq κ] in
theorem same_timer (s : State τ μ κ) (n : BitVec 16) : Same s { s with timerCount := n } :=
  ⟨fun _ => rfl, fun _ => ⟨rfl, rfl⟩, fun o => by cases o <;> rfl⟩

omit [DecidableEq κ] in
theorem same_acquire (s : State τ μ κ) (t : τ) (m : μ) : Same s (acquire s t m) :=
  (same_setMutex s m _ rfl).trans (same_setOwns _ t m true)

omit [DecidableEq κ] in
theorem same_release (s : State τ μ κ) (t : τ) (m : μ) : Same s (release s t m) :=
  (same_setMutex s m _ rfl).trans (same_setOwns _ t m false)

omit [DecidableEq τ] [DecidableEq μ] [DecidableEq κ] in
theorem Reprioritized.same (h : Reprioritized s s') : Same s s' where
  core u := by
    obtain ⟨p, hp⟩ := h.thread u
    rw [hp]
    rfl
  links u := by
    obtain ⟨p, hp⟩ := h.thread u
    rw [hp]
    exact ⟨rfl, rfl⟩
  entry o := by
    cases o with
    | none => rfl
    | mutex m =>
      obtain ⟨p, hp⟩ := h.mutex m
      simp only [entry, hp]
    | cond c => simp only [entry, h.conds]

omit [DecidableEq κ] in
theorem same_adjust {priority : BitVec 32} {fuel : ℕ} {w : τ}
    (h : threadAdjustPriority fuel s w priority = some s') : Same s s' :=
  Reprioritized.same (threadAdjustPriority_reprioritized h)

/-- A silent instruction puts silent instructions in front of the rest. -/
theorem silent_step (hi : silent i = true)
    (hqueue : ∀ async m, i = .testQueue async m → (s.mutexes m).queue = none)
    (h : perform s t stale i = some (s₁, code)) : Same s s₁ ∧ ∀ j ∈ code, silent j = true := by
  have hnil : ∀ j ∈ ([] : List (Instr τ μ κ)), silent j = true := fun j hj => by cases hj
  cases i with
  | timerDisable | timerRestore =>
    cases h
    exact ⟨same_timer s _, hnil⟩
  | adjustPriority w priority =>
    obtain ⟨h₂, rfl⟩ := adjustPriority_cases h
    exact ⟨same_adjust h₂, hnil⟩
  | numSpinInc m =>
    cases h
    exact ⟨(same_setMutex s m _ rfl).trans (same_setThread _ t _ rfl ⟨rfl, rfl⟩), hnil⟩
  | tryWord m =>
    simp only [perform] at h
    split at h <;> cases h
    · exact ⟨.refl s, by simp [silent]⟩
    · exact ⟨same_acquire s t m, by simp [silent]⟩
  | recordHolder m =>
    cases h
    exact ⟨same_setMutex s m _ rfl, by simp [silent]⟩
  | asyncTryWord m =>
    simp only [perform] at h
    split at h <;> cases h
    · exact ⟨.refl s, hnil⟩
    · exact ⟨same_acquire s t m, by simp [silent]⟩
  | clearHolder m =>
    cases h
    exact ⟨same_setMutex s m _ rfl, hnil⟩
  | testSpin async m =>
    obtain ⟨s₂, h₂, hend⟩ := testSpin_cases h
    have hsame : Same s s₂ := by
      rcases h₂ with ⟨-, rfl⟩ | ⟨-, h₂⟩
      · exact .refl _
      · exact same_adjust h₂
    rcases hend with ⟨-, rfl, rfl⟩ | ⟨-, rfl, rfl⟩
    · refine ⟨?_, by simp [silent]⟩
      cases async with
      | true => exact hsame.trans (same_timer s₂ _)
      | false => exact hsame
    · refine ⟨hsame, ?_⟩
      cases async <;> simp [silent]
  | testQueue async m =>
    simp only [perform, hqueue async m rfl] at h
    cases h
    refine ⟨.refl s, ?_⟩
    cases async <;> simp [silent]
  | unlockSpun m | unlockFree m =>
    cases h
    exact ⟨same_release s t m, hnil⟩
  | condSpinInc c | typeUnlock c | condOpen c =>
    cases h
    exact ⟨same_setCond s c _ rfl, hnil⟩
  | typeLock c =>
    simp only [perform] at h
    split at h <;> cases h
    exact ⟨same_setCond s c _ rfl, hnil⟩
  | fault => cases h
  | _ => cases hi

end Frames

section Steps

variable {s s₁ : State τ μ κ} {place : τ → Place μ κ} {ring : WaitObj μ κ → List τ} {t u w : τ}
  {stale : Option τ} {i : Instr τ μ κ} {code rest r : List (Instr τ μ κ)} {p : Phase μ κ}
  {wt : WaitType} {o : WaitObj μ κ}

section

omit [DecidableEq μ] [DecidableEq κ]

theorem Frame.setCode (h : Frame t s s₁) (code : List (Instr τ μ κ)) :
    Frame t s (setCode s₁ t code) := h.setThread _ fun _ => ⟨rfl, rfl⟩

theorem core_setCode (s : State τ μ κ) (t : τ) (code : List (Instr τ μ κ)) :
    core ((setCode s t code).threads t) = { core (s.threads t) with code := code } := by
  rw [setCode, State.setThread_threads, if_pos rfl]
  rfl

/-- `t` takes a step that leaves every thread at its place. -/
theorem Placed.move {s' : State τ μ κ} (h : Placed s place ring) (hf : Frame t s s')
    (hat : At (core (s'.threads t)) (place t))
    (hold : ∀ w, .awaken w ∈ (s'.threads t).code → .awaken w ∈ (s.threads t).code) :
    Placed s' place ring := by
  have hcode : ∀ u w, .awaken w ∈ (s'.threads u).code → .awaken w ∈ (s.threads u).code := by
    intro u w hw
    by_cases hu : u = t
    · subst hu
      exact hold w hw
    · have heq := congrArg Core.code (hf.other u hu)
      simp only [core] at heq
      rwa [heq] at hw
  refine ⟨fun u => ?_, fun o => ?_, h.mem, fun u w hw => h.awaken u w (hcode u w hw),
    fun u v w hu hv => h.once u v w (hcode u w hu) (hcode v w hv)⟩
  · by_cases hu : u = t
    · subst hu
      exact hat
    · rw [hf.other u hu]
      exact h.at_place u
  · rw [hf.entry o]
    exact (h.sleepers o).congr fun u _ => hf.links u

/-- The same for an instruction and what it puts in front of the rest. -/
theorem Placed.exec (h : Placed s place ring) (hf : Frame t s s₁)
    (hat : At { core (s₁.threads t) with code := code ++ rest } (place t))
    (hcode : (s.threads t).code = i :: rest) (hnew : ∀ w, .awaken w ∉ code) :
    Placed (setCode s₁ t (code ++ rest)) place ring := by
  refine h.move (hf.setCode _) (by rwa [core_setCode]) fun w hw => ?_
  have heq : ((setCode s₁ t (code ++ rest)).threads t).code = code ++ rest :=
    congrArg Core.code (core_setCode s₁ t (code ++ rest))
  rw [heq] at hw
  rw [hcode]
  exact List.mem_cons_of_mem i ((List.mem_append.mp hw).resolve_left (hnew w))

end

omit [DecidableEq τ] [DecidableEq μ] [DecidableEq κ] in
theorem silent_awaken (h : ∀ j ∈ code, silent j = true) (w : τ) : .awaken w ∉ code := by
  intro hw
  cases h _ hw

omit [DecidableEq μ] [DecidableEq κ] in
theorem Phase.Fits.mutex (h : p.Fits .mutex o) : ∃ m, p = .locking m ∧ o = .mutex m := by
  cases p with
  | outside => cases h
  | asked o' => cases h.1
  | locking m => exact ⟨m, rfl, h.2⟩
  | waiting c => cases h.1

omit [DecidableEq μ] [DecidableEq κ] in
theorem Phase.Fits.cond (h : p.Fits .cond o) : ∃ c, p = .waiting c ∧ o = .cond c := by
  cases p with
  | outside => cases h
  | asked o' => cases h.1
  | locking m => cases h.1
  | waiting c => exact ⟨c, rfl, h.2⟩

omit [DecidableEq τ] [DecidableEq μ] [DecidableEq κ] in
theorem core_relinked {threads threads' : τ → Thread τ μ κ} (h : Relinked threads threads') (u : τ) :
    core (threads' u) = core (threads u) := by
  obtain ⟨a, b, hab⟩ := h u
  rw [hab]
  rfl

section

omit [DecidableEq μ] [DecidableEq κ]

theorem code_setCode (s : State τ μ κ) (t u : τ) (code : List (Instr τ μ κ)) :
    ((setCode s t code).threads u).code = if u = t then code else (s.threads u).code := by
  rw [setCode, State.setThread_threads]
  split <;> rfl

theorem links_setCode (s : State τ μ κ) (t u : τ) (code : List (Instr τ μ κ)) :
    ((setCode s t code).threads u).queueNext = (s.threads u).queueNext ∧
      ((setCode s t code).threads u).queueLast = (s.threads u).queueLast := by
  rw [setCode, State.setThread_threads]
  split
  · rename_i hu
    exact hu ▸ ⟨rfl, rfl⟩
  · exact ⟨rfl, rfl⟩

theorem entry_setCode (s : State τ μ κ) (t : τ) (code : List (Instr τ μ κ)) (o : WaitObj μ κ) :
    entry (setCode s t code) o = entry s o := by cases o <;> rfl

end

/-- `t` puts itself on the queue of `o`. -/
theorem Placed.insert (h : Placed s place ring) (haway : place t = .away)
    (hthreads : s₁.threads = (threadQueueInsert s.threads (entry s o) t).1)
    (hentry : entry s₁ o = (threadQueueInsert s.threads (entry s o) t).2)
    (hother : ∀ o', o' ≠ o → entry s₁ o' = entry s o') (hcode : (s.threads t).code = i :: rest)
    (hat : At { core (s.threads t) with code := rest } (.ring o)) :
    Placed (setCode s₁ t rest) (Function.update place t (.ring o))
      (Function.update ring o (t :: ring o)) := by
  have hfree : ∀ o', t ∉ ring o' := by
    intro o' hmem
    rw [h.mem, haway] at hmem
    cases hmem
  have hcore : ∀ u, core (s₁.threads u) = core (s.threads u) := by
    rw [hthreads]
    exact core_relinked (threadQueueInsert_relinked s.threads (entry s o) t)
  have hold : ∀ u w, .awaken w ∈ ((setCode s₁ t rest).threads u).code →
      .awaken w ∈ (s.threads u).code := by
    intro u w hw
    rw [code_setCode] at hw
    split at hw
    · rename_i hu
      rw [hu, hcode]
      exact List.mem_cons_of_mem i hw
    · rwa [code_of_core (hcore u)] at hw
  refine ⟨fun u => ?_, fun o' => ?_, fun u o' => ?_, fun u w hw => ?_,
    fun u v w hu hv => h.once u v w (hold u w hu) (hold v w hv)⟩
  · by_cases hu : u = t
    · subst hu
      rw [core_setCode, hcore, Function.update_self]
      exact hat
    · rw [Function.update_of_ne hu, setCode, State.setThread_threads, if_neg hu, hcore]
      exact h.at_place u
  · rw [entry_setCode]
    by_cases ho : o' = o
    · subst ho
      rw [Function.update_self, hentry]
      refine ((h.sleepers o').insert (hfree o')).congr fun u _ => ?_
      rw [← hthreads]
      exact links_setCode s₁ t u rest
    · rw [Function.update_of_ne ho, hother o' ho]
      refine (h.sleepers o').congr fun u hu => ?_
      have hut : u ≠ t := fun heq => hfree o' (heq ▸ hu)
      have huo : u ∉ ring o := by
        intro hmem
        have heq := ((h.mem u o').mp hu).symm.trans ((h.mem u o).mp hmem)
        exact ho (Place.ring.inj heq)
      rw [(links_setCode s₁ t u rest).1, (links_setCode s₁ t u rest).2, hthreads,
        (h.sleepers o).insert_frame (hfree o) hut huo]
      exact ⟨rfl, rfl⟩
  · by_cases hu : u = t
    · subst hu
      rw [Function.update_self]
      by_cases ho : o' = o
      · simp [ho]
      · rw [Function.update_of_ne ho]
        exact ⟨fun hmem => absurd hmem (hfree o'), fun heq => absurd (Place.ring.inj heq).symm ho⟩
    · rw [Function.update_of_ne hu, ← h.mem]
      by_cases ho : o' = o
      · simp [ho, hu]
      · rw [Function.update_of_ne ho]
  · have htaken := h.awaken u w (hold u w hw)
    have hwt : w ≠ t := by
      rintro rfl
      rw [haway] at htaken
      cases htaken
    rw [Function.update_of_ne hwt]
    exact htaken

omit [DecidableEq μ] [DecidableEq κ] in
theorem threadQueueRemove_single {threads : τ → Thread τ μ κ} {l : List τ}
    (h : Sleepers threads (some w) l) (hnext : (threads w).queueNext = some w) :
    l = [w] ∧ threadQueueRemove threads (some w) = (threads, none) := by
  have hl := h.eq_singleton rfl hnext
  subst hl
  have hlast : (threads w).queueLast = some w := (NodeRing.last_head (l := []) h.ring).1
  refine ⟨rfl, ?_⟩
  simp [threadQueueRemove, DataStructures.clistDelete, threadLast, threadNext, hnext, hlast]

omit [DecidableEq τ] [DecidableEq μ] [DecidableEq κ] in
theorem At.taken_from {k : Core τ μ κ} {c : κ} (h : At k (.ring (.cond c))) : At k .taken := by
  generalize hp : Place.ring (WaitObj.cond c) = pl at h
  cases h with
  | condAsleep hr => exact .taken hr
  | _ => cases hp

/-- A signal takes the only sleeper `w` of a condition. -/
theorem Placed.take (h : Placed s place ring) {c : κ} (haway : place t = .away)
    (hring : ring (.cond c) = [w]) (hthreads : s₁.threads = s.threads)
    (hentry : entry s₁ (.cond c) = none) (hother : ∀ o', o' ≠ .cond c → entry s₁ o' = entry s o')
    (hat : At { core (s.threads t) with code := [.awaken w, .timerRestore] } .away) :
    Placed (setCode s₁ t [.awaken w, .timerRestore]) (Function.update place w .taken)
      (Function.update ring (.cond c) []) := by
  have hplace : place w = .ring (.cond c) := (h.mem w _).mp (by rw [hring]; exact List.mem_cons_self)
  have htw : t ≠ w := by
    rintro rfl
    rw [haway] at hplace
    cases hplace
  have hnew : ∀ u v, .awaken v ∈ ((setCode s₁ t [.awaken w, .timerRestore]).threads u).code →
      u = t ∧ v = w ∨ u ≠ t ∧ v ≠ w ∧ .awaken v ∈ (s.threads u).code := by
    intro u v hv
    rw [code_setCode] at hv
    split at hv
    · rename_i hu
      exact Or.inl ⟨hu, by simpa using hv⟩
    · rename_i hu
      rw [hthreads] at hv
      refine Or.inr ⟨hu, ?_, hv⟩
      rintro rfl
      have htaken := h.awaken u v hv
      rw [hplace] at htaken
      cases htaken
  refine ⟨fun u => ?_, fun o' => ?_, fun u o' => ?_, fun u v hv => ?_, fun u u' v hu hu' => ?_⟩
  · by_cases hu : u = t
    · subst hu
      rw [core_setCode, hthreads, Function.update_of_ne htw, haway]
      exact hat
    · rw [setCode, State.setThread_threads, if_neg hu, hthreads]
      by_cases huw : u = w
      · subst huw
        rw [Function.update_self]
        exact (hplace ▸ h.at_place u).taken_from
      · rw [Function.update_of_ne huw]
        exact h.at_place u
  · rw [entry_setCode]
    have hlinks : ∀ u, ((setCode s₁ t [.awaken w, .timerRestore]).threads u).queueNext =
        (s.threads u).queueNext ∧
        ((setCode s₁ t [.awaken w, .timerRestore]).threads u).queueLast =
          (s.threads u).queueLast := fun u => hthreads ▸ links_setCode s₁ t u _
    by_cases ho : o' = .cond c
    · subst ho
      rw [Function.update_self, hentry]
      exact ⟨rfl, ring_nil _⟩
    · rw [Function.update_of_ne ho, hother o' ho]
      exact (h.sleepers o').congr fun u _ => hlinks u
  · by_cases huw : u = w
    · subst huw
      rw [Function.update_self]
      by_cases ho : o' = .cond c
      · simp [ho]
      · rw [Function.update_of_ne ho, h.mem, hplace]
        exact ⟨fun heq => absurd (Place.ring.inj heq).symm ho, fun heq => by cases heq⟩
    · rw [Function.update_of_ne huw, ← h.mem]
      by_cases ho : o' = .cond c
      · simp [ho, hring, huw]
      · rw [Function.update_of_ne ho]
  · obtain ⟨-, rfl⟩ | ⟨-, hvw, hold⟩ := hnew u v hv
    · exact Function.update_self ..
    · rw [Function.update_of_ne hvw]
      exact h.awaken u v hold
  · obtain ⟨hut, hvw⟩ | ⟨-, hvw, hold⟩ := hnew u v hu
    · obtain ⟨hut', -⟩ | ⟨-, hvw', -⟩ := hnew u' v hu'
      · exact hut.trans hut'.symm
      · exact absurd hvw hvw'
    · obtain ⟨-, hvw'⟩ | ⟨-, -, hold'⟩ := hnew u' v hu'
      · exact absurd hvw' hvw
      · exact h.once u u' v hold hold'

omit [DecidableEq μ] [DecidableEq κ] in
theorem Placed.awakened (h : Placed s place ring) (haway : place t = .away)
    (hcode : (s.threads t).code = .awaken w :: rest) (hrest : ∀ v, .awaken v ∉ rest)
    (hat : At { core (s.threads t) with code := rest } .away) :
    Placed (setCode (s.setThread w fun th => { th with waitType := .none, status := .runnable }) t
      rest) (Function.update place w .away) ring := by
  have hplace : place w = .taken := h.awaken t w (hcode ▸ List.mem_cons_self)
  have htw : t ≠ w := by
    rintro rfl
    rw [haway] at hplace
    cases hplace
  have hcodes : ∀ u, ((s.setThread w fun th => { th with waitType := .none, status := .runnable
      }).threads u).code = (s.threads u).code := by
    intro u
    rw [State.setThread_threads]
    split
    · rename_i hu
      rw [hu]
    · rfl
  have hold : ∀ u v, .awaken v ∈ ((setCode (s.setThread w fun th => { th with
      waitType := .none, status := .runnable }) t rest).threads u).code →
      v ≠ w ∧ .awaken v ∈ (s.threads u).code := by
    intro u v hv
    rw [code_setCode] at hv
    split at hv
    · exact absurd hv (hrest v)
    · rename_i hu
      rw [hcodes] at hv
      refine ⟨?_, hv⟩
      rintro rfl
      exact hu (h.once u t v hv (hcode ▸ List.mem_cons_self))
  refine ⟨fun u => ?_, fun o' => ?_, fun u o' => ?_, fun u v hv => ?_,
    fun u u' v hu hu' => h.once u u' v (hold u v hu).2 (hold u' v hu').2⟩
  · by_cases hu : u = t
    · subst hu
      rw [core_setCode, State.setThread_threads, if_neg htw, Function.update_of_ne htw, haway]
      exact hat
    · rw [setCode, State.setThread_threads, if_neg hu, State.setThread_threads]
      split
      · rename_i huw
        subst huw
        rw [Function.update_self]
        have htaken := h.at_place u
        rw [hplace] at htaken
        generalize hk : core (s.threads u) = k at htaken
        cases htaken with
        | taken hr =>
          have hcode : (s.threads u).code = _ := congrArg Core.code hk
          have hreentry : (s.threads u).useReentry = true := congrArg Core.useReentry hk
          simp only [core, hcode, hreentry]
          exact .awakened hr
      · rename_i huw
        rw [Function.update_of_ne huw]
        exact h.at_place u
  · rw [entry_setCode]
    have hentry : entry (s.setThread w fun th => { th with
        waitType := .none, status := .runnable }) o' = entry s o' := by cases o' <;> rfl
    rw [hentry]
    refine (h.sleepers o').congr fun u _ => ?_
    rw [(links_setCode _ t u rest).1, (links_setCode _ t u rest).2, State.setThread_threads]
    split
    · rename_i huw
      rw [huw]
      exact ⟨rfl, rfl⟩
    · exact ⟨rfl, rfl⟩
  · rw [h.mem]
    by_cases huw : u = w
    · subst huw
      rw [Function.update_self, hplace]
      exact ⟨fun heq => (by cases heq), fun heq => (by cases heq)⟩
    · rw [Function.update_of_ne huw]
  · obtain ⟨hvw, hv⟩ := hold u v hv
    rw [Function.update_of_ne hvw]
    exact h.awaken u v hv

def WellPlaced (s : State τ μ κ) : Prop := ∃ place ring, Placed s place ring

variable {b b' : Bool} {st st' : Status} {wt' : WaitType} {o' : WaitObj μ κ}

omit [DecidableEq τ] [DecidableEq μ] [DecidableEq κ] in
theorem code_of_eq (hk : core (s.threads t) = ⟨code, b, st, wt, o⟩) : (s.threads t).code = code :=
  congrArg Core.code hk

omit [DecidableEq μ] [DecidableEq κ] in
theorem Placed.same_step (h : Placed s place ring)
    (hk : core (s.threads t) = ⟨i :: rest, b, st, wt, o⟩) (hs : Same s s₁)
    (hat : At ⟨code ++ rest, b, st, wt, o⟩ (place t)) (hnew : ∀ w, .awaken w ∉ code) :
    WellPlaced (setCode s₁ t (code ++ rest)) := by
  refine ⟨place, ring, h.exec (hs.frame t) ?_ (code_of_eq hk) hnew⟩
  rw [hs.core, hk]
  exact hat

omit [DecidableEq μ] [DecidableEq κ] in
theorem Placed.thread_step {s₂ : State τ μ κ} (h : Placed s place ring)
    (hk : core (s.threads t) = ⟨i :: rest, b, st, wt, o⟩) (hs : Same s s₂)
    (f : Thread τ μ κ → Thread τ μ κ)
    (hf : ∀ th, (f th).queueNext = th.queueNext ∧ (f th).queueLast = th.queueLast)
    (hcore : ∀ th : Thread τ μ κ, core th = ⟨i :: rest, b, st, wt, o⟩ →
      core (f th) = ⟨i :: rest, b', st', wt', o'⟩)
    (hat : At ⟨code ++ rest, b', st', wt', o'⟩ (place t)) (hnew : ∀ w, .awaken w ∉ code) :
    WellPlaced (setCode (s₂.setThread t f) t (code ++ rest)) := by
  refine ⟨place, ring, h.exec ((hs.frame t).setThread f hf) ?_ (code_of_eq hk) hnew⟩
  rw [State.setThread_threads, if_pos rfl, hcore _ ((hs.core t).trans hk)]
  exact hat

theorem Placed.takeSleeper_step (h : Placed s place ring) {c : κ}
    (hk : core (s.threads t) = ⟨[.takeSleeper c], false, .runnable, .none, o⟩)
    (haway : place t = .away) (hg : ∃ w ∈ (s.conds c).queue, (s.threads w).queueNext = some w)
    (hp : perform s t stale (.takeSleeper c) = some (s₁, code)) :
    WellPlaced (setCode s₁ t (code ++ [])) := by
  obtain ⟨w, hw, hnext⟩ := hg
  have hw' : (s.conds c).queue = some w := hw
  have hring := h.sleepers (.cond c)
  simp only [entry, hw'] at hring
  obtain ⟨hsingle, hremove⟩ := threadQueueRemove_single hring hnext
  simp only [perform, hw', hremove] at hp
  cases hp
  refine ⟨_, _, h.take haway hsingle rfl ?_ (fun o' ho => ?_) ?_⟩
  · simp [entry]
  · cases o' with
    | cond d =>
      have hd : d ≠ c := fun heq => ho (heq ▸ rfl)
      simp [entry, hd]
    | _ => rfl
  · rw [hk]
    exact .main (.awaken w) rfl

theorem Placed.main_step (h : Placed s place ring)
    (hk : core (s.threads t) = ⟨i :: rest, false, .runnable, wt, o⟩) (haway : place t = .away)
    (hmain : Main (i :: rest) p) (hfits : p.Fits wt o) (hg : KeepsWait s stale i)
    (hp : perform s t stale i = some (s₁, code)) : WellPlaced (setCode s₁ t (code ++ rest)) := by
  have hat : ∀ {r : List (Instr τ μ κ)} {p' : Phase μ κ} {wt' o'}, Main r p' → p'.Fits wt' o' →
      At ⟨r, false, .runnable, wt', o'⟩ (place t) := by
    intro r p' wt' o' hr hf
    rw [haway]
    exact .main hr hf
  cases hmain with
  | pass hi hr =>
    have hqueue : ∀ async m, i = .testQueue async m → (s.mutexes m).queue = none := by
      rintro async m rfl
      exact hg
    obtain ⟨hsame, hcode⟩ := silent_step hi hqueue hp
    exact h.same_step hk hsame (hat (hr.append_silent hcode) hfits) (silent_awaken hcode)
  | firstTry m =>
    simp only [perform] at hp
    split at hp <;> cases hp
    · exact h.same_step hk (.refl s) (hat (.setWaitObj m _) hfits) (by simp [slowPath])
    · exact h.same_step hk (same_acquire s t m) (hat (.staleBoost m) hfits) (by simp)
  | staleBoost m =>
    simp only [perform] at hp
    split at hp <;> cases hp
    · rename_i x
      have hx : (s.threads x).waitObj = .none := hg x rfl
      have hsame := (same_setMutex s m (fun mx => { mx with holder := some x }) rfl).trans
        (same_setThread _ x (fun th => { th with waitObj := .none }) (by simp [core, hx]) ⟨rfl, rfl⟩)
      exact h.same_step hk hsame (hat (.pass rfl .nil) hfits) (by simp)
    · exact h.same_step hk (same_setMutex s m _ rfl) (hat (.pass rfl .nil) hfits) (by simp)
  | setWaitObj m r =>
    cases hp
    have hw : wt = .none := hfits
    exact h.thread_step hk (.refl s) _ (fun _ => ⟨rfl, rfl⟩)
      (fun _ hth => congrArg (fun k : Core τ μ κ => { k with waitObj := .mutex m }) hth)
      (hat (.pass rfl (.setWaitType m r)) ⟨hw, rfl⟩) (by simp)
  | setWaitType m r =>
    cases hp
    exact h.thread_step hk (.refl s) _ (fun _ => ⟨rfl, rfl⟩)
      (fun _ hth => congrArg (fun k : Core τ μ κ => { k with waitType := .mutex }) hth)
      (hat (.pass rfl (.secondTry m r)) ⟨rfl, hfits.2⟩) (by simp)
  | secondTry m r =>
    have hword : (s.mutexes m).word = true := hg
    simp only [perform, hword, if_true] at hp
    cases hp
    exact h.same_step hk (.refl s) (hat (.pass rfl (.spinLock m _)) hfits) (by simp)
  | spinLock m r =>
    have hword : (s.mutexes m).word = true := hg
    simp only [perform, hword, if_true] at hp
    cases hp
  | @condObj c _ hr =>
    cases hp
    have hw : wt = .none := hfits
    exact h.thread_step hk (.refl s) _ (fun _ => ⟨rfl, rfl⟩)
      (fun _ hth => congrArg (fun k : Core τ μ κ => { k with waitObj := .cond c }) hth)
      (hat (.condType hr) ⟨hw, rfl⟩) (by simp)
  | condType hr =>
    cases hp
    exact h.thread_step hk (.refl s) _ (fun _ => ⟨rfl, rfl⟩)
      (fun _ hth => congrArg (fun k : Core τ μ κ => { k with waitType := .cond }) hth)
      (hat hr ⟨rfl, hfits.2⟩) (by simp)
  | @condSpin c _ hr =>
    have hword : (s.conds c).word = true := hg
    simp only [perform, hword, if_true] at hp
    cases hp
  | condWake hr =>
    have hw : wt = .none := hfits
    simp only [perform] at hp
    cases hp
    refine h.thread_step hk (.refl s) _ (fun _ => ⟨rfl, rfl⟩)
      (fun _ hth => congrArg (fun k : Core τ μ κ => { k with waitObj := .none }) hth)
      (hat (hr.append_silent ?_) hw) ?_
    all_goals split <;> simp [silent]
  | testCondSpin c =>
    simp only [perform] at hp
    split at hp <;> cases hp
    · exact h.same_step hk (same_setCond s c _ rfl) (hat (.pass rfl (.pass rfl .nil)) hfits) (by simp)
    · exact h.same_step hk (.refl s) (hat (.takeSleeper c) hfits) (by simp)
  | takeSleeper c =>
    obtain rfl : wt = .none := hfits
    exact h.takeSleeper_step hk haway hg hp
  | awaken w =>
    cases hp
    refine ⟨_, _, h.awakened haway (code_of_eq hk) (by simp) ?_⟩
    rw [hk]
    exact .main (.pass rfl .nil) hfits

theorem Placed.insert_step (h : Placed s place ring) (obj : WaitObj μ κ)
    (hk : core (s.threads t) = ⟨i :: rest, b, st, wt, o⟩) (haway : place t = .away)
    (hthreads : s₁.threads = (threadQueueInsert s.threads (entry s obj) t).1)
    (hentry : entry s₁ obj = (threadQueueInsert s.threads (entry s obj) t).2)
    (hother : ∀ o', o' ≠ obj → entry s₁ o' = entry s o')
    (hat : At ⟨rest, b, st, wt, o⟩ (.ring obj)) : WellPlaced (setCode s₁ t ([] ++ rest)) := by
  refine ⟨_, _, h.insert haway hthreads hentry hother (code_of_eq hk) ?_⟩
  rw [hk]
  exact hat

/-- One instruction of the interrupt handler, before the thread is scheduled again. -/
theorem Placed.handler_step (h : Placed s place ring)
    (hk : core (s.threads t) = ⟨i :: rest, b, st, wt, o⟩)
    (hat : At ⟨i :: rest, b, st, wt, o⟩ (place t)) (hi : i.inHandler = true)
    (hsched : i ≠ .schedule) (hp : perform s t stale i = some (s₁, code)) :
    WellPlaced (setCode s₁ t (code ++ rest)) := by
  generalize hpl : place t = pl at hat
  have hput : ∀ {k : Core τ μ κ}, At k pl → At k (place t) := fun hk' => hpl ▸ hk'
  have hwt : (s.threads t).waitType = wt := congrArg Core.waitType hk
  have ho : (s.threads t).waitObj = o := congrArg Core.waitObj hk
  cases hat with
  | main hr _ =>
    cases hr with
    | pass hs _ => cases i <;> simp [silent, Instr.inHandler] at hs hi
    | _ => cases hi
  | syncCheck hr hf =>
    simp only [perform, hwt, ho] at hp
    cases wt with
    | none =>
      cases hp
      exact h.same_step hk (.refl s) (hput (.schedule hr hf)) (by simp)
    | mutex =>
      obtain ⟨m, rfl, rfl⟩ := hf.mutex
      cases hp
      exact h.same_step hk (.refl s) (hput (.detectDeadlock m hr)) (by simp)
    | cond =>
      obtain ⟨c, rfl, rfl⟩ := hf.cond
      cases hp
      exact h.same_step hk (.refl s) (hput (.condStatus hr)) (by simp)
  | schedule | asleep | condAsleep | taken | awakened => exact absurd rfl hsched
  | detectDeadlock n hr =>
    obtain ⟨hd, rfl⟩ := detectDeadlock_cases hp
    obtain rfl | rfl | rfl | ⟨n', rfl⟩ := detectAt_code hd
    · exact h.same_step hk (.refl _) (hput (.schedule hr ⟨rfl, rfl⟩)) (by simp)
    · exact h.same_step hk (.refl _) (hput (.fault hr)) (by simp)
    · exact h.same_step hk (.refl _) (hput (.lockSleep hr)) (by simp)
    · exact h.same_step hk (.refl _) (hput (.detectDeadlock n' hr)) (by simp)
  | @lockSleep r m hr =>
    simp only [perform, ho] at hp
    cases hp
    have hsame := (same_setMutex s m (fun mx => { mx with numSpin := mx.numSpin - 1 }) rfl).trans
      (same_setThread _ t (fun th => { th with counted := none }) rfl ⟨rfl, rfl⟩)
    exact h.same_step hk hsame (hput (.enqueue hr)) (by simp)
  | fault => cases hp
  | @enqueue r m hr =>
    cases hp
    refine h.insert_step (.mutex m) hk hpl rfl (by simp [entry]) (fun o' hne => ?_)
      (.sleepStatus hr)
    cases o' with
    | mutex n =>
      have hn : n ≠ m := fun heq => hne (heq ▸ rfl)
      simp [entry, hn]
    | _ => rfl
  | sleepStatus hr =>
    cases hp
    exact h.thread_step hk (.refl s) _ (fun _ => ⟨rfl, rfl⟩)
      (fun _ hth => congrArg (fun k : Core τ μ κ => { k with status := .intSleep, useReentry := true })
        hth) (hput (.boostHolder hr)) (by simp)
  | boostHolder hr =>
    obtain ⟨rfl, ⟨-, rfl⟩ | ⟨x, -, h₂⟩⟩ := boostHolder_cases hp
    · exact h.same_step hk (.refl _) (hput (.asleep hr)) (by simp)
    · exact h.same_step hk (same_adjust h₂) (hput (.asleep hr)) (by simp)
  | condStatus hr =>
    cases hp
    exact h.thread_step hk (.refl s) _ (fun _ => ⟨rfl, rfl⟩)
      (fun _ hth => congrArg (fun k : Core τ μ κ => { k with status := .intSleep, useReentry := true })
        hth) (hput (.condSleep hr)) (by simp)
  | condSleep hr =>
    cases hp
    exact h.same_step hk (same_setCond s _ _ rfl) (hput (.condEnqueue hr)) (by simp)
  | @condEnqueue r c hr =>
    cases hp
    refine h.insert_step (.cond c) hk hpl rfl (by simp [entry]) (fun o' hne => ?_)
      (.condAsleep hr)
    cases o' with
    | cond d =>
      have hd : d ≠ c := fun heq => hne (heq ▸ rfl)
      simp [entry, hd]
    | _ => rfl

theorem Placed.schedule_step (h : Placed s place ring)
    (hk : core (s.threads t) = ⟨.schedule :: rest, b, st, wt, o⟩)
    (hat : At ⟨.schedule :: rest, b, st, wt, o⟩ (place t))
    (hp : perform s t stale .schedule = some (s₁, code)) : WellPlaced (resumed s₁ t rest) := by
  have hst : (s.threads t).status = st := congrArg Core.status hk
  have hre : (s.threads t).useReentry = b := congrArg Core.useReentry hk
  simp only [perform, hst] at hp
  split at hp <;> cases hp
  rename_i hrun
  generalize hpl : place t = pl at hat
  rw [resumed, hre]
  cases hat with
  | main hr _ =>
    cases hr with
    | pass hs _ => cases hs
  | schedule hr hf =>
    refine h.same_step hk (.refl s) (?_ : At ⟨[] ++ rest, _, _, _, _⟩ (place t)) (by simp)
    rw [hpl]
    exact .main hr hf
  | asleep | condAsleep | taken => cases hrun
  | awakened hr =>
    rw [if_pos rfl]
    have hframe := (((Same.refl s).frame t).setCode (reenter rest)).setThread
      (fun th => { th with useReentry := false }) fun _ => ⟨rfl, rfl⟩
    have hcore : core (((setCode s t (reenter rest)).setThread t fun th => { th with
        useReentry := false }).threads t) = ⟨reenter rest, false, .runnable, .none, o⟩ := by
      rw [State.setThread_threads, if_pos rfl]
      have hcode := (core_setCode s t (reenter rest)).trans (congrArg (fun k : Core τ μ κ =>
        { k with code := reenter rest }) hk)
      exact congrArg (fun k : Core τ μ κ => { k with useReentry := false }) hcode
    refine ⟨place, ring, h.move hframe ?_ fun w hw => ?_⟩
    · rw [hcore, hpl]
      exact .main hr.reenter rfl
    · rw [code_of_eq hcore] at hw
      rw [code_of_eq hk]
      obtain hw | hw := reenter_mem hw
      · exact List.mem_cons_of_mem _ hw
      · cases hw

end Steps

section Runs

variable {s s' s₀ : State τ μ κ} {place : τ → Place μ κ} {ring : WaitObj μ κ → List τ} {t : τ}

omit [DecidableEq τ] [DecidableEq μ] [DecidableEq κ] in
theorem At.uninterrupted {k : Core τ μ κ} {pl : Place μ κ} (h : At k pl)
    (hhead : ∀ i ∈ k.code.head?, i.inHandler = false ∧ i ≠ .fault) :
    pl = .away ∧ ∃ p, Main k.code p ∧ p.Fits k.waitType k.waitObj ∧
      k = ⟨k.code, false, .runnable, k.waitType, k.waitObj⟩ := by
  cases h with
  | main hr hf => exact ⟨rfl, _, hr, hf, rfl⟩
  | fault => exact absurd rfl (hhead _ rfl).2
  | _ => cases (hhead _ rfl).1

omit [DecidableEq μ] [DecidableEq κ] in
theorem Placed.tick (h : Placed s place ring)
    (hhead : ∀ i ∈ (s.threads t).code.head?, i.inHandler = false ∧ i ≠ .fault) :
    WellPlaced (setCode s t (.syncCheck :: .schedule :: (s.threads t).code)) := by
  obtain ⟨hpl, p, hr, hf, hk⟩ := (h.at_place t).uninterrupted hhead
  refine ⟨place, ring, h.move (((Same.refl s).frame t).setCode _) ?_ fun w hw => ?_⟩
  · rw [core_setCode, hk, hpl]
    exact .syncCheck hr hf
  · rw [code_setCode, if_pos rfl] at hw
    simpa using hw

omit [DecidableEq μ] [DecidableEq κ] in
theorem Placed.call (h : Placed s place ring) (c : Call μ κ) (hcode : (s.threads t).code = []) :
    WellPlaced (setCode s t c.code) := by
  have hhead : ∀ i ∈ (core (s.threads t)).code.head?, i.inHandler = false ∧ i ≠ .fault := by
    intro i hi
    simp [core, hcode] at hi
  obtain ⟨hpl, p, hr, hf, hk⟩ := (h.at_place t).uninterrupted hhead
  refine ⟨place, ring, h.move (((Same.refl s).frame t).setCode _) ?_ fun w hw => ?_⟩
  · rw [core_setCode, hk, hpl]
    have hnil : (core (s.threads t)).code = [] := hcode
    rw [hnil] at hr
    cases hr
    exact .main (main_call c) hf
  · rw [code_setCode, if_pos rfl] at hw
    cases c <;> simp [Call.code, mutexLock, mutexTrylock, asyncMutexTrylock, mutexUnlock,
      asyncMutexUnlock, condWait, doWait, condSignal] at hw

theorem step_preserves_wellPlaced {e : Event τ μ κ} (h : WellPlaced s) (hg : KeepsWaits s e)
    (he : next s e = some s') : WellPlaced s' := by
  obtain ⟨place, ring, h⟩ := h
  obtain ⟨t, c, -, hcode, -, rfl⟩ | ⟨t, -, hhead, rfl⟩ |
    ⟨t, stale, i, rest, s₁, code, rfl, hcode, hp, rfl⟩ := next_cases he
  · exact h.call c hcode
  · exact h.tick hhead
  · have hat := h.at_place t
    have hk : core (s.threads t) = ⟨i :: rest, (s.threads t).useReentry, (s.threads t).status,
        (s.threads t).waitType, (s.threads t).waitObj⟩ := by rw [core, hcode]
    rw [hk] at hat
    split
    · rename_i hi
      subst hi
      exact h.schedule_step hk hat hp
    · rename_i hi
      cases hin : i.inHandler with
      | true => exact h.handler_step hk hat hin hi hp
      | false =>
        have hfault : i ≠ .fault := by
          rintro rfl
          cases hp
        obtain ⟨hpl, p, hr, hf, hk'⟩ := hat.uninterrupted fun j hj => by
          obtain rfl : i = j := Option.some_inj.mp hj
          exact ⟨hin, hfault⟩
        have hkeep : KeepsWait s stale i := hg i (by rw [hcode]; rfl)
        exact h.main_step (hk.trans hk') hpl hr hf hkeep hp

section

omit [DecidableEq μ] [DecidableEq κ]

theorem wellPlaced_initial (h : Initial s) : WellPlaced s := by
  have hnone : ∀ o, entry s o = none := by
    intro o
    cases o with
    | none => rfl
    | mutex m => simp only [entry, h.mutex m]
    | cond c => simp only [entry, h.cond c]
  have hcode : ∀ u w, .awaken w ∉ (s.threads u).code := by
    intro u w hw
    rw [(h.thread u).1] at hw
    cases hw
  refine ⟨fun _ => .away, fun _ => [], fun t => ?_, fun o => ?_, fun t o => ?_,
    fun u w hw => absurd hw (hcode u w), fun u v w hw => absurd hw (hcode u w)⟩
  · obtain ⟨hc, hw, ho, hst, hre, -⟩ := h.thread t
    rw [core, hc, hw, ho, hst, hre]
    exact .main .nil rfl
  · rw [hnone]
    exact ⟨rfl, ring_nil _⟩
  · exact ⟨fun hmem => (by cases hmem), fun heq => (by cases heq)⟩

theorem Sleepers.reach {threads : τ → Thread τ μ κ} {queue : Option τ} {l : List τ}
    (h : Sleepers threads queue l) (ht : t ∈ l) :
    ∃ k, (threadNext.get threads)^[k] queue = some t := by
  cases l with
  | nil => cases ht
  | cons x l =>
    have hqueue : queue = some x := h.entry
    rw [hqueue]
    exact h.ring.reach (List.mem_map_of_mem ht)

theorem Placed.asleepIn (h : Placed s place ring) {m : μ} (hst : (s.threads t).status = .intSleep)
    (ht : place t = .ring (.mutex m)) : AsleepIn s m t :=
  ⟨hst, Sleepers.reach (h.sleepers (.mutex m)) ((h.mem t _).mpr ht)⟩

theorem Placed.waits (h : Placed s place ring) (t : τ) : Waits s t (s.threads t).waitType := by
  have hat := h.at_place t
  generalize hk : core (s.threads t) = k at hat
  generalize hpl : place t = pl at hat
  have hcode : (s.threads t).code = k.code := congrArg Core.code hk
  have hre : (s.threads t).useReentry = k.useReentry := congrArg Core.useReentry hk
  have hst : (s.threads t).status = k.status := congrArg Core.status hk
  have hw : (s.threads t).waitType = k.waitType := congrArg Core.waitType hk
  have ho : (s.threads t).waitObj = k.waitObj := congrArg Core.waitObj hk
  have hlock : ∀ {r : List (Instr τ μ κ)} {m}, Main r (.locking m) → (∀ i ∈ r, i ∈ k.code) →
      k.useReentry = false → k.waitObj = .mutex m → Waits s t .mutex := by
    intro r m hr hsub hre' ho'
    refine ⟨m, ho.trans ho', Or.inl ⟨hre.trans hre', ?_⟩⟩
    rw [hcode]
    exact hr.locking.imp (hsub _) (hsub _)
  have hcond : ∀ {r : List (Instr τ μ κ)} {c}, Main r (.waiting c) → (∀ i ∈ r, i ∈ k.code) →
      k.waitObj = .cond c → Waits s t .cond := by
    intro r c hr hsub ho'
    refine ⟨c, ho.trans ho', ?_⟩
    rw [WaitsOn, hcode]
    exact hsub _ hr.waiting
  rw [hw]
  cases hat with
  | @main r p w o hr hf | @syncCheck r p w o hr hf | @schedule r p w o hr hf =>
    cases w with
    | none => trivial
    | mutex =>
      obtain ⟨m, rfl, rfl⟩ := hf.mutex
      exact hlock hr (fun i hi => by simp [hi]) rfl rfl
    | cond =>
      obtain ⟨c, rfl, rfl⟩ := hf.cond
      exact hcond hr (fun i hi => by simp [hi]) rfl
  | detectDeadlock n hr => exact hlock hr (fun i hi => by simp [hi]) rfl rfl
  | lockSleep hr | fault hr | enqueue hr | sleepStatus hr => exact hlock hr (fun i hi => by simp [hi]) rfl rfl
  | boostHolder hr | asleep hr => exact ⟨_, ho, Or.inr (h.asleepIn hst hpl)⟩
  | condStatus hr | condSleep hr | condEnqueue hr | condAsleep hr | taken hr =>
    exact hcond hr (fun i hi => by simp [hi]) rfl
  | awakened => trivial

/-- `lock_sleep` is called for a thread that waits for a mutex. -/
theorem Placed.lockSleep (h : Placed s place ring) {rest : List (Instr τ μ κ)}
    (hcode : (s.threads t).code = .lockSleep :: rest) : (s.threads t).waitType = .mutex := by
  have hat := h.at_place t
  generalize hk : core (s.threads t) = k at hat
  generalize place t = pl at hat
  have hcode' : k.code = .lockSleep :: rest := (congrArg Core.code hk).symm.trans hcode
  have hw : (s.threads t).waitType = k.waitType := congrArg Core.waitType hk
  rw [hw]
  cases hat with
  | main hr =>
    dsimp only at hcode'
    subst hcode'
    cases hr with
    | pass hs => cases hs
  | lockSleep => rfl
  | _ => cases hcode'

theorem Placed.consistent (h : Placed s place ring) : Consistent s where
  waits := h.waits
  idle t hmutex hcond := by
    have hw := h.waits t
    generalize (s.threads t).waitType = w at hw ⊢
    cases w with
    | none => rfl
    | mutex =>
      obtain ⟨m, -, hspin | hsleep⟩ := hw
      · exact absurd hspin (hmutex m).1
      · exact absurd hsleep (hmutex m).2
    | cond =>
      obtain ⟨c, -, hon⟩ := hw
      exact absurd hon (hcond c)
  follows t i rest u w hcode hf := by
    cases hf with
    | syncCheck => exact h.waits t
    | lockSleep => exact h.lockSleep hcode ▸ h.waits t
    | detectDeadlock m _ _ hw | adjustPriority _ _ _ hw | testSpin _ _ _ hw | boostHolder _ _ hw =>
      exact hw ▸ h.waits u

end

/-- The wait fields agree with what the threads wait for in every state of a run in which nobody
who waits gets a mutex, or leaves a condition by its lock. -/
theorem wait_states_consistent (h₀ : Initial s₀) (h : Execution next KeepsWaits s₀ s) :
    Consistent s := by
  have hplaced : WellPlaced s :=
    h.preserves (fun _ _ _ hs hg he => step_preserves_wellPlaced hs hg he) (wellPlaced_initial h₀)
  obtain ⟨place, ring, hplaced⟩ := hplaced
  exact hplaced.consistent

end Runs

/-- Thread 0 waits for the condition, thread 1 for the mutex, which thread 2 has, and both are put
to sleep. -/
def twoSleepers : List (Event (Fin 3) Unit Unit) :=
  .call 0 (.mutexLock ()) :: List.replicate 3 (.exec 0 (some 0)) ++
  .call 0 (.condWait () ()) :: List.replicate 11 (.exec 0 none) ++
  .tick 0 :: List.replicate 4 (.exec 0 none) ++
  .call 2 (.mutexLock ()) :: List.replicate 3 (.exec 2 (some 2)) ++
  .call 1 (.mutexLock ()) :: List.replicate 7 (.exec 1 none) ++
  .tick 1 :: List.replicate 6 (.exec 1 none)

theorem wait_states_consistent_signal : ∃ s : State (Fin 3) Unit Unit,
    Execution next KeepsWaits start s ∧ (s.threads 0).waitType = .none ∧
      (s.threads 0).code.head? = some (.condWake ()) ∧ AsleepIn s () 1 ∧ Consistent s := by
  have hrun : (follow next KeepsWaits start (twoSleepers ++
      .call 2 (.condSignal ()) :: List.replicate 5 (.exec 2 none) ++ [.exec 0 none])).map
      (fun s => decide ((s.threads 0).waitType = .none ∧
        (s.threads 0).code.head? = some (.condWake ()) ∧ (s.threads 1).status = .intSleep ∧
        (s.mutexes ()).queue = some 1)) = some true := by decide +kernel
  obtain ⟨s, hs, hd⟩ := Option.map_eq_some_iff.mp hrun
  obtain ⟨htype, hcode, hstatus, hqueue⟩ := of_decide_eq_true hd
  have hexec := execution_of_follow hs
  exact ⟨s, hexec, htype, hcode, ⟨hstatus, 0, hqueue⟩,
    wait_states_consistent start_initial hexec⟩

/-- Thread 1 finds the mutex taken and gets it after thread 0 has unlocked it. -/
def lockContended : List (Event (Fin 3) Unit Unit) :=
  .call 0 (.mutexLock ()) :: List.replicate 3 (.exec 0 (some 0)) ++
  .call 1 (.mutexLock ()) :: List.replicate 7 (.exec 1 none) ++
  .call 0 (.mutexUnlock ()) :: List.replicate 3 (.exec 0 none) ++
  List.replicate 5 (.exec 1 none)

/-- `mutex_lock` has returned and thread 1 owns the mutex, but `wait_type` still says that it waits
for one, and `wait_obj` is null; a timer interrupt would follow it. -/
theorem owner_waits_for_mutex : ∃ s : State (Fin 3) Unit Unit,
    Execution next (fun _ _ => True) start s ∧ (s.threads 1).code = [] ∧ s.owns 1 () = true ∧
      (s.threads 1).waitType = .mutex ∧ (s.threads 1).waitObj = .none ∧ ¬ Consistent s := by
  have hrun : (follow next (fun _ _ => True) start lockContended).map
      (fun s => decide ((s.threads 1).code = [] ∧ s.owns 1 () = true ∧
        (s.threads 1).waitType = .mutex ∧ (s.threads 1).waitObj = .none)) = some true := by
    decide +kernel
  obtain ⟨s, hs, hd⟩ := Option.map_eq_some_iff.mp hrun
  obtain ⟨hcode, howns, htype, hobj⟩ := of_decide_eq_true hd
  refine ⟨s, execution_of_follow hs, hcode, howns, htype, hobj, fun h => ?_⟩
  have hwaits := h.waits 1
  rw [htype] at hwaits
  obtain ⟨m, hm, -⟩ := hwaits
  rw [hobj] at hm
  cases hm

end WaitStates
