import Mathlib.Data.BitVec
import Mathlib.Tactic.LinearCombination
import Metakernel.MutexQueue
import Metakernel.SleepingWaiters
import Metakernel.PartialPaths
import Metakernel.PointUpdates

/-!
# Priority inheritance

`pri_count` of a mutex is to be the sum of the soft priorities of its sleepers, and whatever raises
a sleeper raises the holder. The functions of thread_sched.c are modelled up to the heap key
`remaining`, which no priority depends on.
-/
namespace Synchronization

open LinkedNodes DataStructures GuardedRuns PartialPaths PointUpdates

variable {τ μ κ : Type} [DecidableEq τ] [DecidableEq μ] [DecidableEq κ]

/-- The state together with `hard_priority`. -/
structure Priorities (τ μ κ : Type) where
  state : State τ μ κ
  hard : τ → BitVec 32

/-- `thread_set_priority`. -/
def threadSetPriority (p : Priorities τ μ κ) (x : τ) (priority : BitVec 32) :
    Option (Priorities τ μ κ) :=
  let diff := (p.state.threads x).softPriority - priority
  let s := p.state.setThread x fun th => { th with softPriority := priority }
  let s' :=
    if (s.threads x).waitType = .mutex ∧ (s.threads x).status = .intSleep then
      match (s.threads x).waitObj with
      | .mutex m =>
        let s := s.setMutex m fun mx => { mx with priCount := mx.priCount + diff }
        match (s.mutexes m).holder with
        | some h => threadAdjustPriority walkBound s h diff
        | none => none
      | _ => none
    else some s
  s'.map fun s => { p with state := s }

/-- `thread_set_hard_priority`. -/
def threadSetHardPriority (p : Priorities τ μ κ) (x : τ) (priority : BitVec 32) :
    Option (Priorities τ μ κ) :=
  let diff := p.hard x - priority
  let p := { p with hard := Function.update p.hard x priority }
  let s := p.state.setThread x fun th => { th with softPriority := th.softPriority + diff }
  let s' :=
    if (s.threads x).waitType = .mutex ∧ (s.threads x).status = .intSleep then
      match (s.threads x).waitObj with
      | .mutex m =>
        let s := s.setMutex m fun mx => { mx with priCount := mx.priCount + diff }
        match (s.mutexes m).holder with
        | some h => threadAdjustPriority walkBound s h diff
        | none => none
      | _ => none
    else some s
  s'.map fun s => { p with state := s }

inductive PriorityEvent (τ μ : Type) where
  | request (t : τ) (m : μ)
  | acquire (t : τ) (m : μ)
  | lockSleep (t : τ)
  | mutexUnlock (t : τ) (m : μ)
  | adjustPriority (x : τ) (priority : BitVec 32)
  | setPriority (x : τ) (priority : BitVec 32)
  | setHardPriority (x : τ) (priority : BitVec 32)
  deriving DecidableEq, Repr

/-- The slow path of `mutex_lock` up to its `spin_lock`. -/
def requestCode (m : μ) : List (Instr τ μ κ) :=
  [.setWaitObj (.mutex m), .timerDisable, .setWaitType .mutex, .numSpinInc m, .timerRestore]

/-- The slow path of `mutex_lock` from its `spin_lock` on. -/
def acquireCode (m : μ) : List (Instr τ μ κ) :=
  [.spinLock m, .priorityBoost m, .numSpinDec m, .timerRestore]

/-- One whole call. `mutex_lock`, `mutex_unlock` and `lock_sleep` act for the running thread, the
last one when it waits for a mutex. -/
def priorityStep (p : Priorities τ μ κ) : PriorityEvent τ μ → Option (Priorities τ μ κ)
  | .request t m =>
    if (p.state.threads t).status = .runnable then
      (runCode t 5 p.state (requestCode m)).map fun r => { p with state := r.1 }
    else none
  | .acquire t m =>
    if (p.state.threads t).status = .runnable then
      (runCode t 5 p.state (acquireCode m)).map fun r => { p with state := r.1 }
    else none
  | .lockSleep t =>
    if (p.state.threads t).status = .runnable ∧ (p.state.threads t).waitType = .mutex then
      (sleepCall p.state t).map fun r => { p with state := r.1 }
    else none
  | .mutexUnlock t m =>
    if (p.state.threads t).status = .runnable then
      (unlockCall p.state t false m).map fun r => { p with state := r.1 }
    else none
  | .adjustPriority x priority =>
    (threadAdjustPriority walkBound p.state x priority).map fun s => { p with state := s }
  | .setPriority x priority => threadSetPriority p x priority
  | .setHardPriority x priority => threadSetHardPriority p x priority

/-- An unlock that looks into the queue finds nobody there, and `thread_set_priority` of a sleeper
changes its priority by an amount that is its own negative. -/
def Bookkept (p : Priorities τ μ κ) : PriorityEvent τ μ → Prop
  | .mutexUnlock _ m => (p.state.mutexes m).numSpin = 0 → (p.state.mutexes m).queue = none
  | .setPriority x priority =>
    (p.state.threads x).waitType = .mutex ∧ (p.state.threads x).status = .intSleep →
      priority - (p.state.threads x).softPriority = (p.state.threads x).softPriority - priority
  | _ => True

instance (p : Priorities τ μ κ) (e : PriorityEvent τ μ) : Decidable (Bookkept p e) := by
  cases e <;> unfold Bookkept <;> infer_instance

def heir (s : State τ μ κ) (x : τ) : Option τ :=
  if (s.threads x).waitType = .mutex ∧ (s.threads x).status = .intSleep then
    match (s.threads x).waitObj with
    | .mutex m => (s.mutexes m).holder
    | _ => none
  else none

/-- What `thread_adjust_priority` writes before it goes on to the holder. -/
def bump (s : State τ μ κ) (x : τ) (priority : BitVec 32) : State τ μ κ :=
  let s := s.setThread x fun th => { th with softPriority := th.softPriority + priority }
  if (s.threads x).waitType = .mutex ∧ (s.threads x).status = .intSleep then
    match (s.threads x).waitObj with
    | .mutex m => s.setMutex m fun mx => { mx with priCount := mx.priCount + priority }
    | _ => s
  else s

section

omit [DecidableEq κ]

theorem threadAdjustPriority_succ (fuel : ℕ) (s : State τ μ κ) (x : τ) (priority : BitVec 32) :
    threadAdjustPriority (fuel + 1) s x priority =
      match heir s x with
      | some h => threadAdjustPriority fuel (bump s x priority) h priority
      | none => if SleepsOnMutex s x then none else some (bump s x priority) := by
  rw [threadAdjustPriority, heir, bump]
  simp only [State.setThread_threads, if_true, State.setMutex_mutexes, State.setThread_mutexes]
  by_cases hx : SleepsOnMutex s x
  · simp only [hx, hx.1, hx.2, and_self, if_true]
    cases (s.threads x).waitObj with
    | mutex m => cases (s.mutexes m).holder <;> rfl
    | none => rfl
    | cond c => rfl
  · have hawake : ¬ ((s.threads x).waitType = .mutex ∧ (s.threads x).status = .intSleep) := hx
    simp only [hx, hawake, if_false]

theorem bump_reprioritized (s : State τ μ κ) (x : τ) (priority : BitVec 32) :
    Reprioritized s (bump s x priority) := by
  have hthread := reprioritized_setThread s x priority
  rw [bump]
  split
  · split
    · exact hthread.trans (reprioritized_setMutex _ _ _)
    · exact hthread
  · exact hthread

theorem bump_softPriority (s : State τ μ κ) (x u : τ) (priority : BitVec 32) :
    ((bump s x priority).threads u).softPriority =
      (s.threads u).softPriority + if u = x then priority else 0 := by
  have hset : ((s.setThread x fun th =>
      { th with softPriority := th.softPriority + priority }).threads u).softPriority =
      (s.threads u).softPriority + if u = x then priority else 0 := by
    by_cases hu : u = x <;> simp [hu]
  rw [bump]
  split
  · split <;> exact hset
  · exact hset

end

omit [DecidableEq τ] [DecidableEq μ] [DecidableEq κ] in
theorem Reprioritized.heir {s s' : State τ μ κ} (h : Reprioritized s s') (x : τ) :
    heir s' x = heir s x := by
  obtain ⟨p, hp⟩ := h.thread x
  rw [Synchronization.heir, Synchronization.heir, hp]
  dsimp only
  split
  · split
    · rename_i m _
      obtain ⟨q, hq⟩ := h.mutex m
      rw [hq]
    · rfl
  · rfl

omit [DecidableEq κ] in
/-- A completed walk raises the threads on the path of heirs, each of them once. -/
theorem threadAdjustPriority_path {priority : BitVec 32} {fuel : ℕ} {s s' : State τ μ κ} {x : τ}
    (h : threadAdjustPriority fuel s x priority = some s') :
    ∃ l, Path (heir s) x l ∧ ∀ u, (s'.threads u).softPriority =
      (s.threads u).softPriority + if u ∈ l then priority else 0 := by
  induction fuel generalizing s x with
  | zero => cases h
  | succ fuel ih =>
    rw [threadAdjustPriority_succ] at h
    split at h
    · rename_i y hy
      obtain ⟨l, hl, hsoft⟩ := ih h
      have hheir : heir (bump s x priority) = heir s :=
        funext (bump_reprioritized s x priority).heir
      rw [hheir] at hl
      have hpath : Path (heir s) x (x :: l) := .step hy hl
      have hx : x ∉ l := (List.nodup_cons.mp hpath.nodup).1
      refine ⟨x :: l, hpath, fun u => ?_⟩
      rw [hsoft, bump_softPriority]
      by_cases hu : u = x
      · subst hu
        simp [hx]
      · simp [hu]
    · rename_i hx
      split at h <;> cases h
      refine ⟨[x], .stop hx, fun u => ?_⟩
      rw [bump_softPriority]
      simp

omit [DecidableEq τ] [DecidableEq μ] [DecidableEq κ] in
theorem Reprioritized.sleepsOnMutex {s s' : State τ μ κ} (h : Reprioritized s s') (x : τ) :
    SleepsOnMutex s' x ↔ SleepsOnMutex s x := by
  obtain ⟨p, hp⟩ := h.thread x
  rw [SleepsOnMutex, SleepsOnMutex, hp]

omit [DecidableEq κ] in
/-- The walk ends at the end of a path on which every sleeper has somebody to inherit from it. -/
theorem threadAdjustPriority_returns {priority : BitVec 32} {fuel : ℕ} {s : State τ μ κ} {x : τ}
    {l : List τ} (h : Path (heir s) x l) (hl : l.length ≤ fuel)
    (hheld : ∀ y ∈ l, SleepsOnMutex s y → heir s y ≠ none) :
    ∃ s', threadAdjustPriority fuel s x priority = some s' := by
  induction fuel generalizing s x l with
  | zero => cases h <;> simp at hl
  | succ fuel ih =>
    rw [threadAdjustPriority_succ]
    cases h with
    | stop hx =>
      have hawake : ¬ SleepsOnMutex s x := fun hs => hheld x (by simp) hs hx
      rw [hx]
      exact ⟨_, if_neg hawake⟩
    | @step _ y l hx hrest =>
      have hsame := bump_reprioritized s x priority
      have hheir : heir (bump s x priority) = heir s := funext hsame.heir
      rw [hx]
      apply ih (s := bump s x priority) (l := l)
      · rw [hheir]
        exact hrest
      · simpa using hl
      · intro z hz hs
        rw [hheir]
        exact hheld z (List.mem_cons_of_mem x hz) ((hsame.sleepsOnMutex z).mp hs)

def softSum (s : State τ μ κ) (l : List τ) : BitVec 32 :=
  (l.map fun t => (s.threads t).softPriority).sum

omit [DecidableEq τ] [DecidableEq μ] [DecidableEq κ] in
theorem softSum_congr {s s' : State τ μ κ} {l : List τ}
    (h : ∀ t ∈ l, (s'.threads t).softPriority = (s.threads t).softPriority) :
    softSum s' l = softSum s l := congrArg List.sum (List.map_congr_left h)

omit [DecidableEq κ] in
theorem softSum_bump {s : State τ μ κ} {x : τ} {priority : BitVec 32} {l : List τ}
    (hl : l.Nodup) :
    softSum (bump s x priority) l = softSum s l + if x ∈ l then priority else 0 := by
  by_cases hx : x ∈ l
  · have hsum : softSum (bump s x priority) l + _ = softSum s l + _ :=
      sum_map_change (i := x) hl hx fun j hj => by simp [bump_softPriority, hj]
    simp only [bump_softPriority, if_true] at hsum
    rw [if_pos hx]
    linear_combination hsum
  · rw [if_neg hx, add_zero]
    apply softSum_congr
    intro t ht
    have htx : t ≠ x := fun h => hx (h ▸ ht)
    simp [bump_softPriority, htx]

/-- `ring m` are the sleepers of `m`; every sleeper waits in the ring of the mutex that its
`wait_obj` names. -/
structure Booked (s : State τ μ κ) (ring : μ → List τ) : Prop where
  sleepers : ∀ m, Sleepers s.threads (s.mutexes m).queue (ring m)
  member : ∀ m, ∀ t ∈ ring m, (s.threads t).status = .intSleep ∧
    (s.threads t).waitType = .mutex ∧ (s.threads t).waitObj = .mutex m
  asleep : ∀ t, (s.threads t).status = .intSleep → ∃ m, t ∈ ring m
  priCount : ∀ m, (s.mutexes m).priCount = softSum s (ring m)

section

omit [DecidableEq μ] [DecidableEq κ]

theorem Booked.apart {s : State τ μ κ} {ring : μ → List τ} (h : Booked s ring) {m n : μ} {t : τ}
    (hm : t ∈ ring m) (hn : t ∈ ring n) : m = n := by
  have hobj := (h.member m t hm).2.2.symm.trans (h.member n t hn).2.2
  cases hobj
  rfl

theorem Booked.running {s : State τ μ κ} {ring : μ → List τ} (h : Booked s ring) {m : μ} {t : τ}
    (ht : (s.threads t).status = .runnable) : t ∉ ring m := by
  intro hmem
  rw [(h.member m t hmem).1] at ht
  cases ht

/-- Running threads are free to change their wait fields and their priority. -/
theorem Booked.congr {s s' : State τ μ κ} {ring : μ → List τ} (h : Booked s ring)
    (hthread : ∀ u, (s'.threads u).queueNext = (s.threads u).queueNext ∧
      (s'.threads u).queueLast = (s.threads u).queueLast ∧
      (s'.threads u).status = (s.threads u).status)
    (hwait : ∀ u, (s.threads u).status = .intSleep →
      (s'.threads u).waitType = (s.threads u).waitType ∧
      (s'.threads u).waitObj = (s.threads u).waitObj ∧
      (s'.threads u).softPriority = (s.threads u).softPriority)
    (hmutex : ∀ m, (s'.mutexes m).queue = (s.mutexes m).queue ∧
      (s'.mutexes m).priCount = (s.mutexes m).priCount) : Booked s' ring where
  sleepers m := by
    rw [(hmutex m).1]
    exact (h.sleepers m).congr fun u _ => ⟨(hthread u).1, (hthread u).2.1⟩
  member m t ht := by
    obtain ⟨hs, ht, ho⟩ := h.member m t ht
    obtain ⟨ht', ho', -⟩ := hwait t hs
    rw [(hthread t).2.2, ht', ho']
    exact ⟨hs, ht, ho⟩
  asleep t ht := h.asleep t ((hthread t).2.2.symm.trans ht)
  priCount m := by
    rw [(hmutex m).2, h.priCount]
    symm
    apply softSum_congr
    intro t ht
    exact (hwait t (h.member m t ht).1).2.2

end

omit [DecidableEq κ] in
theorem Booked.bump {s : State τ μ κ} {ring : μ → List τ} (h : Booked s ring) (x : τ)
    (priority : BitVec 32) : Booked (bump s x priority) ring := by
  by_cases hx : (s.threads x).status = .intSleep
  · obtain ⟨m, hm⟩ := h.asleep x hx
    obtain ⟨-, htype, hobj⟩ := h.member m x hm
    have hbump : Synchronization.bump s x priority =
        (s.setThread x fun th => { th with softPriority := th.softPriority + priority }).setMutex m
          fun mx => { mx with priCount := mx.priCount + priority } := by
      simp [Synchronization.bump, hx, htype, hobj]
    have hkeep : ∀ u, ∃ p, (Synchronization.bump s x priority).threads u =
        { s.threads u with softPriority := p } := (bump_reprioritized s x priority).thread
    constructor
    · intro n
      obtain ⟨p, hp⟩ := (bump_reprioritized s x priority).mutex n
      rw [hp]
      refine (h.sleepers n).congr fun u _ => ?_
      obtain ⟨q, hq⟩ := hkeep u
      simp [hq]
    · intro n t ht
      obtain ⟨q, hq⟩ := hkeep t
      rw [hq]
      exact h.member n t ht
    · intro t ht
      obtain ⟨q, hq⟩ := hkeep t
      rw [hq] at ht
      exact h.asleep t ht
    · intro n
      have hmem : x ∈ ring n ↔ n = m := ⟨fun hn => h.apart hn hm, fun hn => hn ▸ hm⟩
      rw [softSum_bump (h.sleepers n).nodup, ← h.priCount, hbump]
      by_cases hn : n = m
      · subst hn
        simp [hm]
      · simp [hn, hmem]
  · have hrun : Synchronization.bump s x priority =
        s.setThread x fun th => { th with softPriority := th.softPriority + priority } := by
      simp [Synchronization.bump, hx]
    rw [hrun]
    apply h.congr
    · intro u
      by_cases hu : u = x <;> simp [hu]
    · intro u hu
      have hux : u ≠ x := by
        rintro rfl
        exact hx hu
      simp [hux]
    · intro m
      simp

omit [DecidableEq κ] in
theorem Booked.adjust {priority : BitVec 32} {fuel : ℕ} {s s' : State τ μ κ}
    {ring : μ → List τ} {x : τ} (h : Booked s ring)
    (hadj : threadAdjustPriority fuel s x priority = some s') : Booked s' ring := by
  induction fuel generalizing s x with
  | zero => cases hadj
  | succ fuel ih =>
    rw [threadAdjustPriority_succ] at hadj
    split at hadj
    · exact ih (h.bump x priority) hadj
    · split at hadj <;> cases hadj
      exact h.bump x priority

def Inherits (s s' : State τ μ κ) : Prop :=
  ∀ x h, heir s x = some h → (s'.threads x).softPriority ≠ (s.threads x).softPriority →
    (s'.threads h).softPriority - (s.threads h).softPriority =
      (s'.threads x).softPriority - (s.threads x).softPriority

omit [DecidableEq τ] [DecidableEq μ] [DecidableEq κ] in
theorem heir_asleep {s : State τ μ κ} {x h : τ} (hx : heir s x = some h) :
    (s.threads x).status = .intSleep := by
  rw [heir] at hx
  split at hx
  · rename_i hw
    exact hw.2
  · cases hx

omit [DecidableEq τ] [DecidableEq μ] [DecidableEq κ] in
theorem inherits_of_unchanged {s s' : State τ μ κ}
    (h : ∀ x, (s.threads x).status = .intSleep →
      (s'.threads x).softPriority = (s.threads x).softPriority) : Inherits s s' :=
  fun x _ hx hne => absurd (h x (heir_asleep hx)) hne

section

omit [DecidableEq κ]

theorem threadAdjustPriority_inherits {priority : BitVec 32} {fuel : ℕ} {s s' : State τ μ κ}
    {x : τ} (h : threadAdjustPriority fuel s x priority = some s') : Inherits s s' := by
  obtain ⟨l, hl, hsoft⟩ := threadAdjustPriority_path h
  intro y z hy hne
  have hmem : y ∈ l := by
    by_contra hy
    simp [hsoft, hy] at hne
  rw [hsoft, hsoft, if_pos hmem, if_pos (hl.next_mem hmem hy)]
  abel

theorem threadAdjustPriority_running {s s' : State τ μ κ} {t : τ} {priority : BitVec 32}
    (ht : (s.threads t).status = .runnable)
    (h : threadAdjustPriority walkBound s t priority = some s') (x : τ)
    (hx : (s.threads x).status = .intSleep) :
    (s'.threads x).softPriority = (s.threads x).softPriority := by
  have hxt : x ≠ t := by
    rintro rfl
    rw [hx] at ht
    cases ht
  rw [threadAdjustPriority_stops (not_sleepsOnMutex_of_runnable ht)] at h
  cases h
  simp [hxt]

theorem threadSetHardPriority_eq (p : Priorities τ μ κ) (x : τ) (priority : BitVec 32) :
    threadSetHardPriority p x priority =
      (threadAdjustPriority (walkBound + 1) p.state x (p.hard x - priority)).map
        fun s => ⟨s, Function.update p.hard x priority⟩ := by
  unfold threadSetHardPriority threadAdjustPriority
  rfl

/-- Where the books are kept, `thread_set_priority` is an adjustment by the difference. -/
theorem threadSetPriority_eq {p : Priorities τ μ κ} {x : τ} {priority : BitVec 32}
    (h : Bookkept p (.setPriority x priority)) :
    threadSetPriority p x priority =
      (threadAdjustPriority (walkBound + 1) p.state x
        (priority - (p.state.threads x).softPriority)).map fun s => { p with state := s } := by
  have hset : (p.state.setThread x fun th => { th with softPriority := priority }) =
      p.state.setThread x fun th => { th with
        softPriority := th.softPriority + (priority - (p.state.threads x).softPriority) } := by
    rw [State.setThread, State.setThread]
    congr 3
    abel
  rw [threadSetPriority, threadAdjustPriority, hset]
  simp only [State.setThread_threads, if_true]
  by_cases hx : (p.state.threads x).waitType = .mutex ∧ (p.state.threads x).status = .intSleep
  · rewrite [h hx]
    rfl
  · rw [if_neg hx, if_neg hx]

end

omit [DecidableEq μ] [DecidableEq κ] in
theorem Sleepers.insert_frame {threads : τ → Thread τ μ κ} {queue : Option τ} {l : List τ} {t u : τ}
    (h : Sleepers threads queue l) (ht : t ∉ l) (hut : u ≠ t) (hul : u ∉ l) :
    (threadQueueInsert threads queue t).1 u = threads u := by
  have hother : ∀ p : Option τ, p ∈ some t :: l.map some → ∀ x, p = some x → u ≠ x := by
    rintro p hp x rfl rfl
    simp [hut, hul] at hp
  have ht' : some t ∉ l.map some := by simpa using ht
  have hframe := clistInsert_frame (g := fun threads : τ → Thread τ μ κ => threads u)
    threadRingFields none_not_thread h.ring rfl ht' ?_ ?_
  · rwa [head_map_some, ← h.entry] at hframe
  · intro m p v hp
    cases p with
    | none => rfl
    | some x => simp [threadNext, hother _ hp x rfl]
  · intro m p v hp
    cases p with
    | none => rfl
    | some x => simp [threadLast, hother _ hp x rfl]

omit [DecidableEq κ] in
theorem fallAsleep_frame {s : State τ μ κ} {t u : τ} {m : μ} {l : List τ}
    (hl : Sleepers s.threads (s.mutexes m).queue l) (ht : t ∉ l) (hut : u ≠ t) (hul : u ∉ l) :
    (fallAsleep s t m).threads u = s.threads u := by
  have hframe := (hl.spinEnds (t := t)).insert_frame ht hut hul
  rw [stopsSpinning] at hframe
  simp only [fallAsleep, State.setThread_threads, if_neg hut, State.setMutex_threads]
  rw [hframe]
  simp [hut]

omit [DecidableEq κ] in
theorem Booked.fallAsleep {s : State τ μ κ} {ring : μ → List τ} {t : τ} {m : μ}
    (h : Booked s ring) (ht : (s.threads t).status = .runnable)
    (htype : (s.threads t).waitType = .mutex) (hobj : (s.threads t).waitObj = .mutex m) :
    Booked (fallAsleep s t m) (Function.update ring m (t :: ring m)) := by
  have hmem : ∀ n, t ∉ ring n := fun n => h.running ht
  have hsoft : ∀ u, ((Synchronization.fallAsleep s t m).threads u).softPriority =
      (s.threads u).softPriority := by
    intro u
    obtain ⟨a, b, c, d, hu⟩ := fallAsleep_thread s t u m
    rw [hu]
  constructor
  · intro n
    by_cases hn : n = m
    · subst hn
      rw [Function.update_self]
      exact fallAsleep_sleepers (h.sleepers n) (hmem n)
    · rw [Function.update_of_ne hn, fallAsleep_mutexes, if_neg hn]
      refine (h.sleepers n).congr fun u hu => ?_
      have hut : u ≠ t := fun hh => hmem n (hh ▸ hu)
      have hum : u ∉ ring m := fun hh => hn (h.apart hu hh)
      rw [fallAsleep_frame (h.sleepers m) (hmem m) hut hum]
      exact ⟨rfl, rfl⟩
  · intro n u hu
    obtain ⟨a, b, c, d, hthread⟩ := fallAsleep_thread s t u m
    rw [hthread]
    by_cases hut : u = t
    · subst hut
      have hn : n = m := by
        by_contra hn
        rw [Function.update_of_ne hn] at hu
        exact hmem n hu
      simp [hn, htype, hobj]
    · have hold : u ∈ ring n := by
        by_cases hn : n = m
        · subst hn
          rw [Function.update_self] at hu
          exact List.mem_of_ne_of_mem hut hu
        · rwa [Function.update_of_ne hn] at hu
      simpa [hut] using h.member n u hold
  · intro u hu
    by_cases hut : u = t
    · exact ⟨m, by simp [hut]⟩
    · obtain ⟨a, b, c, d, hthread⟩ := fallAsleep_thread s t u m
      rw [hthread] at hu
      obtain ⟨n, hn⟩ := h.asleep u (by simpa [hut] using hu)
      refine ⟨n, ?_⟩
      by_cases hnm : n = m
      · subst hnm
        simp [hn]
      · simpa [hnm] using hn
  · intro n
    rw [softSum_congr fun u _ => hsoft u, fallAsleep_mutexes]
    by_cases hn : n = m
    · subst hn
      rw [if_pos rfl, Function.update_self, h.priCount]
      simp only [softSum, List.map_cons, List.sum_cons]
      exact add_comm _ _
    · rw [if_neg hn, Function.update_of_ne hn]
      exact h.priCount n

theorem Booked.lockSleep {s s' : State τ μ κ} {ring : μ → List τ} {t : τ} {r : List τ}
    (h : Booked s ring) (ht : (s.threads t).status = .runnable)
    (htype : (s.threads t).waitType = .mutex) (hcall : sleepCall s t = some (s', r)) :
    (∃ ring', Booked s' ring') ∧ Inherits s s' := by
  obtain ⟨-, m, hobj, hend⟩ := sleepCall_cases hcall
  have hbook := h.fallAsleep ht htype hobj
  have hsoft : ∀ u, ((Synchronization.fallAsleep s t m).threads u).softPriority =
      (s.threads u).softPriority := by
    intro u
    obtain ⟨a, b, c, d, hu⟩ := fallAsleep_thread s t u m
    rw [hu]
  obtain ⟨-, rfl⟩ | ⟨x, hx, hadj⟩ := hend
  · exact ⟨⟨_, hbook⟩, inherits_of_unchanged fun u _ => hsoft u⟩
  · refine ⟨⟨_, hbook.adjust hadj⟩, fun y z hy hne => ?_⟩
    -- a sleeper of `s` has the same heir when `t` has gone to sleep
    have hheir : heir (Synchronization.fallAsleep s t m) y = some z := by
      have hyt : y ≠ t := by
        rintro rfl
        rw [heir_asleep hy] at ht
        cases ht
      obtain ⟨a, b, c, d, hthread⟩ := fallAsleep_thread s t y m
      have hholder : ∀ n, ((Synchronization.fallAsleep s t m).mutexes n).holder =
          (s.mutexes n).holder := by
        intro n
        rw [fallAsleep_mutexes]
        by_cases hn : n = m <;> simp [hn]
      rw [← hy, heir, heir, hthread]
      simp only [hyt, if_false, hholder]
    rw [← hsoft y] at hne ⊢
    rw [← hsoft z]
    exact threadAdjustPriority_inherits hadj y z hheir hne

/-- How an unlock by a running thread ends, after the section under `num_mutex`. -/
theorem unlockCall_ends {s s' : State τ μ κ} {t : τ} {m : μ} {r : List τ}
    (ht : (s.threads t).status = .runnable) (h : unlockCall s t false m = some (s', r)) :
    ∃ s₁, threadAdjustPriority walkBound { s with timerCount := s.timerCount + 1 } t
        (-(s.mutexes m).priCount) = some s₁ ∧
      (s' = release s₁ t m ∨
      s' = { release (s₁.setMutex m fun mx => { mx with holder := none }) t m with
        timerCount := s₁.timerCount - 1 } ∨
      (s.mutexes m).numSpin = 0 ∧ ∃ w s₂, (s₁.mutexes m).queue = some w ∧
        handOff s₁ t m w = some s₂ ∧
        s' = { s₂.setThread w fun th => { th with status := .runnable } with
          timerCount := s₂.timerCount - 1 }) := by
  obtain ⟨s₁, hadj⟩ : ∃ s₁, threadAdjustPriority walkBound
      { s with timerCount := s.timerCount + 1 } t (-(s.mutexes m).priCount) = some s₁ :=
    ⟨_, threadAdjustPriority_stops (not_sleepsOnMutex_of_runnable ht)⟩
  refine ⟨s₁, hadj, ?_⟩
  have hperf : perform { s with timerCount := s.timerCount + 1 } t none (.testSpin false m) =
      some (s₁, if (s.mutexes m).numSpin ≠ 0 then [.unlockSpun m]
        else [.testQueue false m, .timerRestore]) := by
    simp only [perform, Bool.false_eq_true, if_false, hadj, Option.map_some]
    split <;> rfl
  rw [unlockCall, if_neg (by simp), mutexUnlock, runCode_cons rfl (by simp), List.nil_append,
    runCode_cons hperf (by simp), List.append_nil] at h
  by_cases hn : (s.mutexes m).numSpin = 0
  · rw [if_neg (by simpa using hn)] at h
    cases hq : (s₁.mutexes m).queue with
    | none =>
      have hfree : perform s₁ t none (.testQueue false m) =
          some (s₁, [.clearHolder m, .unlockFree m]) := by simp [perform, hq]
      rw [runCode_cons hfree (by simp)] at h
      cases h
      exact Or.inr (Or.inl rfl)
    | some w =>
      by_cases hw : SleepsOnMutex s₁ w
      · have hnull := runCode_testQueue_null (t := t) false hq hw
        rw [if_neg (by simp)] at hnull
        rw [hnull] at h
        cases h
      · obtain ⟨s₂, h₂⟩ := handOff_returns hw t m
        have hhand : perform s₁ t none (.testQueue false m) = some (s₂, [.restart w]) := by
          simp only [perform, hq, h₂, Option.map_some]
        rw [runCode_cons hhand (by simp)] at h
        cases h
        exact Or.inr (Or.inr ⟨hn, w, s₂, rfl, h₂, rfl⟩)
  · rw [if_pos hn] at h
    cases h
    exact Or.inl rfl

/-- An unlock that looks into a ring of sleepers follows the null `wait_obj` of the one at its
entry. -/
theorem Booked.unlock_null {s : State τ μ κ} {ring : μ → List τ} {t w : τ} {m : μ}
    (h : Booked s ring) (ht : (s.threads t).status = .runnable) (hn : (s.mutexes m).numSpin = 0)
    (hq : (s.mutexes m).queue = some w) : unlockCall s t false m = none := by
  obtain ⟨hstatus, htype, -⟩ :=
    h.member m w (List.mem_of_mem_head? ((h.sleepers m).entry.symm.trans hq))
  exact unlockCall_null false ht hn hq ⟨htype, hstatus⟩

theorem Booked.mutexUnlock {s s' : State τ μ κ} {ring : μ → List τ} {t : τ} {m : μ} {r : List τ}
    (h : Booked s ring) (ht : (s.threads t).status = .runnable)
    (hnone : (s.mutexes m).numSpin = 0 → (s.mutexes m).queue = none)
    (hcall : unlockCall s t false m = some (s', r)) :
    (∃ ring', Booked s' ring') ∧ Inherits s s' := by
  obtain ⟨s₁, hadj, hend⟩ := unlockCall_ends ht hcall
  have h₀ : Booked { s with timerCount := s.timerCount + 1 } ring :=
    h.congr (fun _ => ⟨rfl, rfl, rfl⟩) (fun _ _ => ⟨rfl, rfl, rfl⟩) fun _ => ⟨rfl, rfl⟩
  have h₁ : Booked s₁ ring := h₀.adjust hadj
  have hquiet := (threadAdjustPriority_reprioritized hadj).quiet m
  have hsoft : ∀ x, (s.threads x).status = .intSleep →
      (s₁.threads x).softPriority = (s.threads x).softPriority :=
    threadAdjustPriority_running (s := { s with timerCount := s.timerCount + 1 }) ht hadj
  obtain rfl | rfl | ⟨hn, w, s₂, hq, -⟩ := hend
  · refine ⟨⟨ring, ?_⟩, inherits_of_unchanged hsoft⟩
    refine h₁.congr (fun _ => ⟨rfl, rfl, rfl⟩) (fun _ _ => ⟨rfl, rfl, rfl⟩) fun n => ?_
    by_cases hn : n = m <;> simp [release, hn]
  · refine ⟨⟨ring, ?_⟩, inherits_of_unchanged hsoft⟩
    refine h₁.congr (fun _ => ⟨rfl, rfl, rfl⟩) (fun _ _ => ⟨rfl, rfl, rfl⟩) fun n => ?_
    by_cases hn : n = m <;> simp [release, hn]
  · have hqueue : (s.mutexes m).queue = some w := hquiet.queue.symm.trans hq
    rw [hnone hn] at hqueue
    cases hqueue

theorem Booked.request {s s' : State τ μ κ} {ring : μ → List τ} {t : τ} {m : μ} {r : List τ}
    (h : Booked s ring) (ht : (s.threads t).status = .runnable)
    (hcall : runCode t 5 s (requestCode m) = some (s', r)) :
    (∃ ring', Booked s' ring') ∧ Inherits s s' := by
  have hawake : ∀ u, (s.threads u).status = .intSleep → u ≠ t := by
    rintro u hu rfl
    rw [ht] at hu
    cases hu
  cases hcall
  refine ⟨⟨ring, h.congr ?_ ?_ ?_⟩, inherits_of_unchanged ?_⟩
  · intro u
    by_cases hu : u = t <;> simp [hu]
  · intro u hu
    simp [hawake u hu]
  · intro n
    by_cases hn : n = m <;> simp [hn]
  · intro u hu
    simp [hawake u hu]

theorem Booked.acquire {s s' : State τ μ κ} {ring : μ → List τ} {t : τ} {m : μ} {r : List τ}
    (h : Booked s ring) (ht : (s.threads t).status = .runnable)
    (hcall : runCode t 5 s (acquireCode m) = some (s', r)) :
    (∃ ring', Booked s' ring') ∧ Inherits s s' := by
  have hawake : ∀ u, (s.threads u).status = .intSleep → u ≠ t := by
    rintro u hu rfl
    rw [ht] at hu
    cases hu
  by_cases hw : (s.mutexes m).word = true
  · have hspin : perform s t none (.spinLock m) = none := by simp [perform, hw]
    rw [acquireCode, runCode, hspin] at hcall
    cases hcall
  · have hspin : perform s t none (.spinLock m) = some (Synchronization.acquire s t m, []) := by
      simp [perform, hw]
    rw [acquireCode, runCode_cons hspin (by simp), List.nil_append, runCode_cons rfl (by simp),
      List.singleton_append] at hcall
    -- the state in which `get_priority_boost` calls `thread_adjust_priority`
    let s₁ : State τ μ κ := ((Synchronization.acquire s t m).setMutex m fun mx =>
      { mx with holder := some t }).setThread t fun th => { th with waitObj := .none }
    have h₁ : Booked s₁ ring := by
      apply h.congr
      · intro u
        by_cases hu : u = t <;> simp [s₁, hu, Synchronization.acquire]
      · intro u hu
        simp [s₁, hawake u hu, Synchronization.acquire]
      · intro n
        by_cases hn : n = m <;> simp [s₁, hn, Synchronization.acquire]
    have ht₁ : (s₁.threads t).status = .runnable := by simp [s₁, Synchronization.acquire, ht]
    obtain ⟨s₂, hadj⟩ : ∃ s₂, threadAdjustPriority walkBound s₁ t
        ((Synchronization.acquire s t m).mutexes m).priCount = some s₂ :=
      ⟨_, threadAdjustPriority_stops (not_sleepsOnMutex_of_runnable ht₁)⟩
    have hperf : perform s₁ t none (.adjustPriority t
        ((Synchronization.acquire s t m).mutexes m).priCount) = some (s₂, []) := by
      simp only [perform, hadj, Option.map_some]
    rw [runCode_cons hperf (by simp)] at hcall
    cases hcall
    have h₂ : Booked s₂ ring := h₁.adjust hadj
    have hsoft : ∀ u, (s.threads u).status = .intSleep →
        (s₂.threads u).softPriority = (s.threads u).softPriority := by
      intro u hu
      have hu₁ : s₁.threads u = s.threads u := by
        simp [s₁, hawake u hu, Synchronization.acquire]
      rw [threadAdjustPriority_running ht₁ hadj u (by rw [hu₁]; exact hu), hu₁]
    refine ⟨⟨ring, h₂.congr ?_ ?_ ?_⟩, inherits_of_unchanged ?_⟩
    · intro u
      by_cases hu : u = t <;> simp [hu]
    · intro u _
      by_cases hu : u = t <;> simp [hu]
    · intro n
      by_cases hn : n = m <;> simp [hn]
    · intro u hu
      simpa [hawake u hu] using hsoft u hu

theorem step_preserves_booked {p p' : Priorities τ μ κ} {e : PriorityEvent τ μ}
    {ring : μ → List τ} (h : Booked p.state ring) (hg : Bookkept p e)
    (he : priorityStep p e = some p') :
    (∃ ring', Booked p'.state ring') ∧ Inherits p.state p'.state := by
  cases e with
  | request t m =>
    simp only [priorityStep] at he
    split at he
    · rename_i ht
      obtain ⟨⟨s', r⟩, hcall, rfl⟩ := Option.map_eq_some_iff.mp he
      exact h.request ht hcall
    · cases he
  | acquire t m =>
    simp only [priorityStep] at he
    split at he
    · rename_i ht
      obtain ⟨⟨s', r⟩, hcall, rfl⟩ := Option.map_eq_some_iff.mp he
      exact h.acquire ht hcall
    · cases he
  | lockSleep t =>
    simp only [priorityStep] at he
    split at he
    · rename_i ht
      obtain ⟨⟨s', r⟩, hcall, rfl⟩ := Option.map_eq_some_iff.mp he
      exact h.lockSleep ht.1 ht.2 hcall
    · cases he
  | mutexUnlock t m =>
    simp only [priorityStep] at he
    split at he
    · rename_i ht
      obtain ⟨⟨s', r⟩, hcall, rfl⟩ := Option.map_eq_some_iff.mp he
      exact h.mutexUnlock ht hg hcall
    · cases he
  | adjustPriority x priority =>
    obtain ⟨s', hadj, rfl⟩ := Option.map_eq_some_iff.mp he
    exact ⟨⟨ring, h.adjust hadj⟩, threadAdjustPriority_inherits hadj⟩
  | setPriority x priority =>
    rw [priorityStep, threadSetPriority_eq hg] at he
    obtain ⟨s', hadj, rfl⟩ := Option.map_eq_some_iff.mp he
    exact ⟨⟨ring, h.adjust hadj⟩, threadAdjustPriority_inherits hadj⟩
  | setHardPriority x priority =>
    rw [priorityStep, threadSetHardPriority_eq] at he
    obtain ⟨s', hadj, rfl⟩ := Option.map_eq_some_iff.mp he
    exact ⟨⟨ring, h.adjust hadj⟩, threadAdjustPriority_inherits hadj⟩

structure NoSleepers (s : State τ μ κ) : Prop where
  thread : ∀ t, (s.threads t).status = .runnable
  mutex : ∀ m, (s.mutexes m).queue = none ∧ (s.mutexes m).priCount = 0

omit [DecidableEq μ] [DecidableEq κ] in
theorem booked_start {s : State τ μ κ} (h : NoSleepers s) : Booked s fun _ => [] where
  sleepers m := ⟨(h.mutex m).1, ring_nil _⟩
  member m t ht := by simp at ht
  asleep t ht := by simp [h.thread t] at ht
  priCount m := (h.mutex m).2

def AcyclicWaiting (s : State τ μ κ) : Prop :=
  ∀ x, ¬ Relation.TransGen (fun h x => heir s x = some h) x x

/-- Every mutex that somebody sleeps on has a recorded holder. -/
def HoldersRecorded (s : State τ μ κ) : Prop :=
  ∀ m, (s.mutexes m).queue ≠ none → (s.mutexes m).holder ≠ none

omit [DecidableEq μ] [DecidableEq κ] in
theorem Booked.heir_ne_none {s : State τ μ κ} {ring : μ → List τ} {x : τ} (h : Booked s ring)
    (hheld : HoldersRecorded s) (hx : SleepsOnMutex s x) : heir s x ≠ none := by
  obtain ⟨m, hm⟩ := h.asleep x hx.2
  have hobj := (h.member m x hm).2.2
  have hqueue : (s.mutexes m).queue ≠ none := by
    rw [(h.sleepers m).entry]
    simpa using List.ne_nil_of_mem hm
  simpa [heir, hx.1, hx.2, hobj] using hheld m hqueue

omit [DecidableEq κ] in
theorem Booked.adjustment_returns [Fintype τ] (address : τ ↪ ThreadAddress) {s : State τ μ κ}
    {ring : μ → List τ} (hbook : Booked s ring) (h : AcyclicWaiting s) (hheld : HoldersRecorded s)
    (x : τ) (priority : BitVec 32) :
    ∃ s', threadAdjustPriority walkBound s x priority = some s' := by
  obtain ⟨l, hl⟩ := exists_path h x
  refine threadAdjustPriority_returns hl ?_ fun y _ hy => hbook.heir_ne_none hheld hy
  have hcard : Fintype.card τ < 2 ^ 32 := card_lt_of_address address
  have hle := hl.nodup.length_le_card
  rw [walkBound_succ]
  omega

/-- In every state reached, `pri_count` is the sum over the sleepers in the queue, and whatever a
call adds to the priority of a sleeper it adds to the priority of the holder. When the waiting has
no cycles and every mutex that is waited for has a holder, the walk along the holders ends. An
unlock that looks into a queue with sleepers has no result. -/
theorem priority_bookkeeping [Fintype τ] (address : τ ↪ ThreadAddress) {p₀ p : Priorities τ μ κ}
    (h₀ : NoSleepers p₀.state) (h : Execution priorityStep Bookkept p₀ p) :
    ∃ ring : μ → List τ,
      (∀ m, Sleepers p.state.threads (p.state.mutexes m).queue (ring m) ∧
        (∀ t ∈ ring m, (p.state.threads t).status = .intSleep) ∧
        (p.state.mutexes m).priCount =
          ((ring m).map fun t => (p.state.threads t).softPriority).sum) ∧
      (∀ e p', Bookkept p e → priorityStep p e = some p' → ∀ m, ∀ x ∈ ring m,
        ∀ h ∈ (p.state.mutexes m).holder,
        (p'.state.threads x).softPriority ≠ (p.state.threads x).softPriority →
        (p'.state.threads h).softPriority - (p.state.threads h).softPriority =
          (p'.state.threads x).softPriority - (p.state.threads x).softPriority) ∧
      (AcyclicWaiting p.state → HoldersRecorded p.state → ∀ x priority,
        ∃ s', threadAdjustPriority walkBound p.state x priority = some s') ∧
      ∀ t m, ¬ Bookkept p (.mutexUnlock t m) → priorityStep p (.mutexUnlock t m) = none := by
  obtain ⟨ring, hbook⟩ : ∃ ring, Booked p.state ring := by
    refine h.preserves (I := fun p => ∃ ring, Booked p.state ring) ?_ ⟨_, booked_start h₀⟩
    rintro p₁ e p₂ ⟨ring, hbook⟩ hg he
    exact (step_preserves_booked hbook hg he).1
  refine ⟨ring, fun m => ⟨hbook.sleepers m, fun t ht => (hbook.member m t ht).1,
    hbook.priCount m⟩, ?_, hbook.adjustment_returns address, fun t m hg => ?_⟩
  · intro e p' hg he m x hx h hh hne
    obtain ⟨hstatus, htype, hobj⟩ := hbook.member m x hx
    have hheir : heir p.state x = some h := by simpa [heir, hstatus, htype, hobj] using hh
    exact (step_preserves_booked hbook hg he).2 x h hheir hne
  · obtain ⟨hn, hq⟩ := Classical.not_imp.mp hg
    obtain ⟨w, hw⟩ := Option.ne_none_iff_exists'.mp hq
    simp only [priorityStep]
    split
    · rename_i ht
      rw [hbook.unlock_null ht hn hw, Option.map_none]
    · rfl

def sleepOnHeld : List (PriorityEvent (Fin 3) Unit) :=
  [.request 0 (), .acquire 0 (), .request 1 (), .lockSleep 1]

def newThreads : Priorities (Fin 3) Unit Unit := ⟨start, fun _ => 0⟩

theorem newThreads_noSleepers : NoSleepers newThreads.state :=
  ⟨fun _ => rfl, fun _ => ⟨rfl, rfl⟩⟩

theorem priority_bookkeeping_raised : ∃ p : Priorities (Fin 3) Unit Unit,
    Execution priorityStep Bookkept newThreads p ∧ (p.state.threads 0).softPriority = 7 ∧
      ∃ ring, Sleepers p.state.threads (p.state.mutexes ()).queue ring ∧
        (ring.map fun t => (p.state.threads t).softPriority).sum = 7 := by
  have hrun : (follow priorityStep Bookkept newThreads
      (sleepOnHeld ++ [.adjustPriority 1 7])).map (fun p => decide
        ((p.state.threads 0).softPriority = 7 ∧ (p.state.mutexes ()).priCount = 7)) =
      some true := by decide +kernel
  obtain ⟨p, hp, hd⟩ := Option.map_eq_some_iff.mp hrun
  obtain ⟨hsoft, hcount⟩ := of_decide_eq_true hd
  have hexec := execution_of_follow hp
  obtain ⟨ring, hring, -⟩ := priority_bookkeeping threadAddress newThreads_noSleepers hexec
  exact ⟨p, hexec, hsoft, ring (), (hring ()).1, (hring ()).2.2.symm.trans hcount⟩

/-- `thread_set_priority` raises the sleeper by 5 and lowers `pri_count` and the holder by 5. -/
theorem set_priority_unbooked : ∃ p : Priorities (Fin 3) Unit Unit,
    Execution priorityStep (fun _ _ => True) newThreads p ∧
      Sleepers p.state.threads (p.state.mutexes ()).queue [1] ∧
      (p.state.mutexes ()).priCount ≠ ([1].map fun t => (p.state.threads t).softPriority).sum ∧
      (p.state.threads 1).softPriority = 5 ∧ (p.state.threads 0).softPriority = -5 := by
  have hrun : (follow priorityStep (fun _ _ => True) newThreads
      (sleepOnHeld ++ [.setPriority 1 5])).map (fun p => decide
        ((p.state.threads 1).softPriority = 5 ∧ (p.state.threads 0).softPriority = -5 ∧
          (p.state.mutexes ()).priCount = -5 ∧ (p.state.mutexes ()).queue = some 1 ∧
          (p.state.threads 1).queueNext = some 1 ∧ (p.state.threads 1).queueLast = some 1)) =
      some true := by decide +kernel
  obtain ⟨p, hp, hd⟩ := Option.map_eq_some_iff.mp hrun
  obtain ⟨hsoft, hholder, hcount, hqueue, hnext, hlast⟩ := of_decide_eq_true hd
  refine ⟨p, execution_of_follow hp, ⟨hqueue, by decide, by decide, ?_⟩, ?_, hsoft, hholder⟩
  · simp [Linked, threadNext, threadLast, hnext, hlast]
  · simp only [List.map_cons, List.map_nil, List.sum_cons, List.sum_nil, hcount, hsoft]
    decide

end Synchronization
