import Metakernel.ManySchedulers
import Metakernel.LockCalls

/-!
# The locks of the schedulers

`timer_interrupt` and `thread_remove` with every `spin_lock` and `spin_unlock` of a scheduler's
mutex. `rebalance_load` expects to hold the lock of the scheduler that it is given.
-/
namespace SchedulerLocks

open Scheduler ManySchedulers LockCalls LockCalls.Call

variable {τ ο : Type} [DecidableEq τ] [DecidableEq ο]

abbrev Locking (τ ο α : Type) : Type := Call (BitVec 32) (System τ ο) α

/-- A call of scheduler.c on `schedulers + c`. -/
def onSched (c : BitVec 32) (f : State τ → State τ) : Locking τ ο Unit :=
  write fun g => g.put c (f (g.at c))

def loadUnderLock (i : BitVec 32) : Locking τ ο (BitVec 32) := do
  spinLock i
  let count ← read fun g => (g.scheds i).totalCount
  spinUnlock i
  pure count

def highestLoad (cpuNum : ℕ) : Locking τ ο (BitVec 32) := do
  let first ← loadUnderLock 0
  let most ← (List.range' 1 (cpuNum - 1)).foldlM (fun (most : BitVec 32 × BitVec 32) i => do
    let count ← loadUnderLock (BitVec.ofNat 32 i)
    pure (if most.2.slt count then (BitVec.ofNat 32 i, count) else most)) (0, first)
  pure most.1

def eschewUnderLock (max : BitVec 32) : Locking τ ο (Option τ) := do
  spinLock max
  let r ← read fun g => schedEschewThread (g.at max)
  write fun g => g.put max r.1
  spinUnlock max
  pure r.2

def rebalanceLoad (cpuNum : ℕ) (sched : BitVec 32) : Locking τ ο Unit := do
  let count ← read fun g => (g.scheds sched).totalCount
  spinUnlock sched
  let max ← highestLoad cpuNum
  let maxCount ← read fun g => (g.scheds max).totalCount
  if max ≠ sched ∧ (0 : BitVec 32).slt (maxCount - count) then do
    let thread ← eschewUnderLock max
    match thread with
    | some t => do
      spinLock sched
      onSched sched fun s => schedReassignThread s t
    | none => spinLock sched
  else spinLock sched

def removeCurrent (cpuNum : ℕ) (env : Env τ) (c : BitVec 32) (t : τ) : Locking τ ο Unit := do
  onSched c fun s => detachCurrent env s t
  let id ← read fun g => (g.scheds c).cpuId
  rebalanceLoad cpuNum id
  onSched c fun s => s.setSched fun sc => { sc with currentThread := heapHead sc.runningQueue }

def testRunnable (cpuNum : ℕ) (env : Env τ) (c : BitVec 32) : Locking τ ο Unit := do
  let g ← read id
  match (g.scheds c).currentThread with
  | some t =>
    if (g.threads t).status.isRunnable then pure ()
    else do
      removeCurrent cpuNum env c t
      onSched c fun s => s.setSched fun sc => { sc with currentThread := none }
  | none => pure ()

def schedResched (cpuNum : ℕ) (env : Env τ) (c : BitVec 32) : Locking τ ο (Option τ) := do
  onSched c fun s => s.setSched fun sc => { sc with
    affinityCount := sc.affinityCount + env.pageFaults }
  testRunnable cpuNum env c
  let r ← read fun g => afterTest env (g.at c)
  match r with
  | some (s, thread) => do
    onSched c fun _ => s
    pure thread
  | none => halt

def schedRemoveResched (cpuNum : ℕ) (env : Env τ) (c : BitVec 32) (t : τ) :
    Locking τ ο Unit := do
  removeCurrent cpuNum env c t
  onSched c fun s => loadRemaining (epochWhenIdle env s)
  if env.admitted then pure ()
  else do
    let r ← read fun g => goIdle (g.at c)
    match r with
    | some s => onSched c fun _ => s
    | none => halt

def schedRemoveThread (cpuNum : ℕ) (env : Env τ) (c : BitVec 32) (t : τ) : Locking τ ο Unit := do
  onSched c fun s => (s.setSched fun sc => { sc with
    totalCount := sc.totalCount - (s.threads t).remaining }).setThread t fun th => { th with
      epoch := s.sched.epoch }
  let g ← read id
  if (g.scheds c).cpuId ≠ (g.threads t).cpuId then pure ()
  else if (g.scheds c).currentThread = some t then schedRemoveResched cpuNum env c t
  else do
    onSched c fun s => deleteFromQueue s t
    rebalanceLoad cpuNum (g.scheds c).cpuId

/-- The field `cpu_id` is read anew at every use. -/
def threadRemove (cpuNum : ℕ) (env : Env τ) (t : τ) : Locking τ ο Unit := do
  let c ← read fun g => (g.threads t).cpuId
  spinLock c
  let c ← read fun g => (g.threads t).cpuId
  schedRemoveThread cpuNum env c t
  let c ← read fun g => (g.threads t).cpuId
  spinUnlock c

def detectDeadlock (holder : ο → Option τ) (g : System τ ο) (t : τ) : ℕ → ο → Option Bool
  | 0, _ => none
  | fuel + 1, o =>
    if t ∈ g.queue o then some true
    else match holder o with
      | none => none
      | some h =>
        if h = t then some true
        else if g.waitType h ≠ .mutex then some false
        else match g.waitObj h with
          | none => none
          | some o' => detectDeadlock holder g t fuel o'

def adjustUnderLock (t : τ) (priority : BitVec 32) : Locking τ ο Unit := do
  let c ← read fun g => (g.threads t).cpuId
  spinLock c
  let c ← read fun g => (g.threads t).cpuId
  onSched c fun s => schedChangeRemaining s t ((s.threads t).remaining + priority)
  let c ← read fun g => (g.threads t).cpuId
  spinUnlock c

/-- The end of `thread_adjust_priority`, after the holder of the mutex has been adjusted. -/
def chargeAdjusted (t : τ) (priority : BitVec 32) : Locking τ ο Unit := do
  write fun g => g.setThread t fun th => if th.remaining.slt 0 then { th with remaining := 0 } else th
  let g ← read id
  if (g.threads t).status.isRunnable then adjustUnderLock t priority else pure ()

def threadAdjustPriority (holder : ο → Option τ) (priority : BitVec 32) :
    ℕ → τ → Locking τ ο Unit
  | 0, _ => halt
  | fuel + 1, t => do
    write fun g => g.setThread t fun th => { th with softPriority := th.softPriority + priority }
    let g ← read id
    if g.waitType t = .mutex ∧ ¬ (g.threads t).status.isRunnable then
      match (g.waitObj t).bind holder with
      | none => halt
      | some h => do
        threadAdjustPriority holder priority fuel h
        chargeAdjusted t priority
    else chargeAdjusted t priority

def lockSleep (holder : ο → Option τ) (t : τ) (o : ο) : Locking τ ο Unit := do
  write fun g => fallAsleep g t o
  let g ← read id
  match holder o with
  | none => pure ()
  | some h =>
    threadAdjustPriority holder (g.threads t).softPriority Synchronization.walkBound h

/-- The `switch` of `sync_check`, for the current thread `t`. -/
def checkWait (holder : ο → Option τ) (g : System τ ο) (t : τ) : Locking τ ο Unit :=
  match g.waitType t, g.waitObj t with
  | .none, _ => pure ()
  | _, none => halt
  | .mutex, some o =>
    match detectDeadlock holder g t Synchronization.walkBound o with
    | none => halt
    | some true => pure ()
    | some false => lockSleep holder t o
  | .cond, some o => write fun g => fallAsleep g t o

def syncCheck (holder : ο → Option τ) (c : BitVec 32) : Locking τ ο Unit := do
  let g ← read id
  match (g.scheds c).currentThread with
  | none => pure ()
  | some t => checkWait holder g t

/-- Loading the address space and the context of the new thread takes no scheduler's lock. -/
def timerInterrupt (cpuNum : ℕ) (env : Env τ) (holder : ο → Option τ) (c : BitVec 32) :
    Locking τ ο (Option τ) := do
  syncCheck holder c
  schedResched cpuNum env c

structure Still (s s' : State τ) : Prop where
  home : ∀ u, (s'.threads u).cpuId = (s.threads u).cpuId
  status : ∀ u, (s'.threads u).status = (s.threads u).status
  id : s'.sched.cpuId = s.sched.cpuId
  current : s'.sched.currentThread = s.sched.currentThread

section Frames

variable {s s' s'' : State τ} {t : τ}

omit [DecidableEq τ] in
theorem Still.trans (h : Still s s') (h' : Still s' s'') : Still s s'' :=
  ⟨fun u => (h'.home u).trans (h.home u), fun u => (h'.status u).trans (h.status u),
    h'.id.trans h.id, h'.current.trans h.current⟩

omit [DecidableEq τ] in
theorem still_setSched (f : Sched τ → Sched τ) (hid : (f s.sched).cpuId = s.sched.cpuId)
    (hcurrent : (f s.sched).currentThread = s.sched.currentThread) : Still s (s.setSched f) :=
  ⟨fun _ => rfl, fun _ => rfl, hid, hcurrent⟩

theorem still_setThread (f : Thread → Thread) (hcpu : ∀ th, (f th).cpuId = th.cpuId)
    (hstatus : ∀ th, (f th).status = th.status) : Still s (s.setThread t f) :=
  ⟨setThread_field _ hcpu _ _, setThread_field _ hstatus _ _, rfl, rfl⟩

theorem still_onRunning_delete (num : (τ → Thread) → ℕ) : Still s
    (s.onRunning fun threads heap => heapDelete byRemaining threads heap (num threads)) :=
  ⟨heapDelete_field Thread.cpuId (fun _ _ => rfl) _ _ _,
    heapDelete_field Thread.status (fun _ _ => rfl) _ _ _, rfl, rfl⟩

theorem still_onFinished_delete (num : (τ → Thread) → ℕ) : Still s
    (s.onFinished fun threads heap => heapDelete byRemaining threads heap (num threads)) :=
  ⟨heapDelete_field Thread.cpuId (fun _ _ => rfl) _ _ _,
    heapDelete_field Thread.status (fun _ _ => rfl) _ _ _, rfl, rfl⟩

theorem still_onAffinity_delete (num : (τ → Thread) → ℕ) : Still s
    (s.onAffinity fun threads heap => heapDelete byAffinity threads heap (num threads)) :=
  ⟨heapDelete_field Thread.cpuId (fun _ _ => rfl) _ _ _,
    heapDelete_field Thread.status (fun _ _ => rfl) _ _ _, rfl, rfl⟩

theorem detachCurrent_still (env : Env τ) (s : State τ) (t : τ) :
    Still s (detachCurrent env s t) := by
  dsimp only [detachCurrent]
  refine Still.trans ?_ (still_onRunning_delete _)
  refine Still.trans ?_ (still_onAffinity_delete _)
  refine Still.trans ?_ (still_setSched _ rfl rfl)
  refine Still.trans ?_ (still_setThread _ (fun _ => rfl) fun _ => rfl)
  exact still_setSched _ rfl rfl

theorem deleteFromQueue_still (s : State τ) (t : τ) : Still s (deleteFromQueue s t) := by
  dsimp only [deleteFromQueue]
  refine Still.trans ?_ (still_onAffinity_delete _)
  split
  · exact still_onRunning_delete _
  · exact still_onFinished_delete _

theorem getLowestAffinity_still (s : State τ) : Still s (getLowestAffinity s).1 := by
  have hrefl : Still s s := ⟨fun _ => rfl, fun _ => rfl, rfl, rfl⟩
  rw [getLowestAffinity]
  split
  · exact hrefl
  · split
    · split
      · exact hrefl
      · exact deleteFromQueue_still s _
    · exact deleteFromQueue_still s _

theorem schedEschewThread_still (s : State τ) : Still s (schedEschewThread s).1 := by
  rw [schedEschewThread]
  dsimp only
  split
  · exact getLowestAffinity_still s
  · refine Still.trans ?_ (still_setThread _ (fun _ => rfl) fun _ => rfl)
    exact (getLowestAffinity_still s).trans (still_setSched _ rfl rfl)

theorem schedChangeRemaining_still (s : State τ) (t : τ) (remaining : BitVec 32) :
    Still s (schedChangeRemaining s t remaining) := by
  have hkey : ∀ (threads : τ → Thread) (heap : Heap τ) (index : ℕ) (u : τ),
      ((priorityHeapSetKey threads heap index remaining).1 u).cpuId = (threads u).cpuId ∧
        ((priorityHeapSetKey threads heap index remaining).1 u).status = (threads u).status :=
    fun threads heap index u =>
      ⟨priorityHeapSetKey_field Thread.cpuId (fun _ _ => rfl) (fun _ _ => rfl) threads heap index _ u,
        priorityHeapSetKey_field Thread.status (fun _ _ => rfl) (fun _ _ => rfl) threads heap index
          _ u⟩
  rw [schedChangeRemaining]
  split
  · dsimp only
    split
    · exact ⟨fun u => (hkey _ _ _ u).1, fun u => (hkey _ _ _ u).2, rfl, rfl⟩
    · exact ⟨fun u => (hkey _ _ _ u).1, fun u => (hkey _ _ _ u).2, rfl, rfl⟩
  · exact still_setSched _ rfl rfl

theorem schedReassignThread_home (s : State τ) (t u : τ)
    (hu : (s.threads u).cpuId = s.sched.cpuId) :
    ((schedReassignThread s t).threads u).cpuId = s.sched.cpuId := by
  have hset : ((s.setThread t fun th => if th.cpuId ≠ s.sched.cpuId then
      { th with cpuId := s.sched.cpuId, affinity := 0 } else th).threads u).cpuId =
      s.sched.cpuId := by
    by_cases hut : u = t
    · subst hut
      simp [State.setThread, hu]
    · simp [State.setThread, hut, hu]
  dsimp only [schedReassignThread]
  refine Eq.trans (setThread_field Thread.cpuId ?_ _ t u) ?_
  · exact fun _ => rfl
  · refine Eq.trans (heapInsert_field Thread.cpuId (k := byRemaining) (fun _ _ => rfl) _ _ t u) ?_
    exact (heapInsert_field Thread.cpuId (k := byAffinity) (fun _ _ => rfl) _ _ t u).trans hset

end Frames

section Sections

variable {P : System τ ο → Prop} {c d : BitVec 32} {t : τ}

def only (c : BitVec 32) : BitVec 32 → Bool := Function.update free c true

theorem update_only (c : BitVec 32) : Function.update (only c) c false = free := by
  rw [only, Function.update_idem]
  exact Function.update_eq_self (f := free) c

section

omit [DecidableEq τ] [DecidableEq ο]

theorem meets_lock_only : Meets P free (spinLock c : Locking τ ο Unit) (only c) (fun _ => P) :=
  meets_lock rfl

theorem meets_unlock_only : Meets P (only c) (spinUnlock c : Locking τ ο Unit) free (fun _ => P) := by
  have h := meets_unlock (σ := System τ ο) (P := P) (Function.update_self c true free)
  rw [← only, update_only] at h
  exact h

theorem meets_onSched {held : BitVec 32 → Bool} {f : State τ → State τ} {Q : System τ ο → Prop}
    (h : ∀ g, P g → Q (g.put c (f (g.at c)))) :
    Meets P held (onSched c f : Locking τ ο Unit) held (fun _ => Q) := meets_write h

theorem loadUnderLock_meets (c : BitVec 32) :
    Meets P free (loadUnderLock c : Locking τ ο (BitVec 32)) free (fun _ => P) := by
  apply Meets.bind meets_lock_only
  intro _
  apply meets_read_bind
  intro g hg
  apply Meets.bind meets_unlock_only
  rintro _
  exact meets_pure fun g' hg' => hg' ▸ hg

theorem highestLoad_meets (cpuNum : ℕ) :
    Meets P free (highestLoad cpuNum : Locking τ ο (BitVec 32)) free (fun _ => P) := by
  apply Meets.bind (loadUnderLock_meets 0)
  intro first
  apply Meets.bind (Q := fun _ => P)
  · apply Meets.foldlM (Q := fun _ => P)
    intro most i _
    apply Meets.bind (loadUnderLock_meets _)
    intro count
    exact meets_pure fun g hg => hg
  · intro most
    exact meets_pure fun g hg => hg

/-- The thread `t` is at home on the CPU `c`. -/
def AtHome (t : τ) (c : BitVec 32) (g : System τ ο) : Prop :=
  (g.threads t).cpuId = c ∧ (g.scheds c).cpuId = c

theorem AtHome.put {g : System τ ο} {s : State τ} (h : AtHome t c g)
    (hhome : (s.threads t).cpuId = (g.threads t).cpuId) (hid : s.sched.cpuId = (g.scheds d).cpuId) :
    AtHome t c (g.put d s) := by
  refine ⟨hhome.trans h.1, ?_⟩
  by_cases hd : c = d
  · subst hd
    rw [scheds_put_self]
    exact hid.trans h.2
  · rw [scheds_put_ne g s hd]
    exact h.2

theorem AtHome.still {g : System τ ο} {s : State τ} (h : AtHome t c g) (hs : Still (g.at d) s) :
    AtHome t c (g.put d s) := h.put (hs.home t) hs.id

end

section

omit [DecidableEq ο]

theorem AtHome.reassign {g : System τ ο} {u : τ} (h : AtHome t c g) :
    AtHome t c (g.put c (schedReassignThread (g.at c) u)) := by
  constructor
  · exact (schedReassignThread_home (g.at c) u t (h.1.trans h.2.symm)).trans h.2
  · rw [scheds_put_self]
    exact h.2

theorem eschewUnderLock_meets (max : BitVec 32) :
    Meets (AtHome t c) free (eschewUnderLock max : Locking τ ο (Option τ)) free
      (fun _ => AtHome t c) := by
  apply Meets.bind meets_lock_only
  intro _
  apply meets_read_bind
  intro g hg
  apply Meets.bind (meets_write (S := AtHome t c) ?_)
  · intro _
    apply Meets.bind meets_unlock_only
    intro _
    exact meets_pure fun g hg => hg
  · rintro _ rfl
    exact hg.still (schedEschewThread_still _)

/-- `rebalance_load` gives the lock back and takes it again. -/
theorem rebalanceLoad_meets (cpuNum : ℕ) (c : BitVec 32) :
    Meets (AtHome t c) (only c) (rebalanceLoad cpuNum c : Locking τ ο Unit) (only c)
      (fun _ => AtHome t c) := by
  apply meets_read_bind
  intro g hg
  apply Meets.bind meets_unlock_only
  intro _
  apply Meets.bind (highestLoad_meets cpuNum)
  intro max
  apply meets_read_bind
  rintro _ rfl
  split
  · apply Meets.bind ((eschewUnderLock_meets max).before fun g' hg' => hg' ▸ hg)
    intro thread
    cases thread with
    | none => exact meets_lock_only
    | some u =>
      apply Meets.bind meets_lock_only
      intro _
      exact meets_onSched fun g' hg' => hg'.reassign
  · exact meets_lock_only.after fun _ g' hg' => hg' ▸ hg

theorem removeCurrent_meets (cpuNum : ℕ) (env : Env τ) (c : BitVec 32) :
    Meets (AtHome t c) (only c) (removeCurrent cpuNum env c t : Locking τ ο Unit) (only c)
      (fun _ => AtHome t c) := by
  apply Meets.bind (meets_onSched fun g hg => AtHome.still hg (detachCurrent_still env _ t))
  intro _
  apply meets_read_bind
  intro g hg
  rw [hg.2]
  apply Meets.bind ((rebalanceLoad_meets cpuNum c).before fun g' hg' => hg' ▸ hg)
  intro _
  exact meets_onSched fun g' hg' => hg'.put rfl rfl

end

theorem goIdle_home {s s' : State τ} (h : goIdle s = some s') (u : τ) :
    (s'.threads u).cpuId = (s.threads u).cpuId ∧ s'.sched.cpuId = s.sched.cpuId := by
  obtain ⟨u', -, rfl⟩ := Option.map_eq_some_iff.mp h
  have hset := still_setThread (s := s) (t := u') (fun th => { th with
    remaining := s.sched.currentRemaining }) (fun _ => rfl) fun _ => rfl
  exact ⟨hset.home u, rfl⟩

omit [DecidableEq τ] in
theorem loadRemaining_home (env : Env τ) (s : State τ) :
    (loadRemaining (epochWhenIdle env s)).threads = s.threads ∧
      (loadRemaining (epochWhenIdle env s)).sched.cpuId = s.sched.cpuId := by
  have hepoch : (epochWhenIdle env s).threads = s.threads ∧
      (epochWhenIdle env s).sched.cpuId = s.sched.cpuId := by
    rw [epochWhenIdle]
    split <;> exact ⟨rfl, rfl⟩
  rw [loadRemaining]
  split <;> exact hepoch

omit [DecidableEq ο] in
theorem schedRemoveResched_meets (cpuNum : ℕ) (env : Env τ) (c : BitVec 32) :
    Meets (AtHome t c) (only c) (schedRemoveResched cpuNum env c t : Locking τ ο Unit) (only c)
      (fun _ => AtHome t c) := by
  apply Meets.bind (removeCurrent_meets cpuNum env c)
  intro _
  apply Meets.bind (meets_onSched (Q := AtHome t c) fun g hg => ?_)
  · intro _
    split
    · exact meets_pure fun g hg => hg
    · apply meets_read_bind
      intro g hg
      split
      · rename_i s hidle
        apply meets_onSched
        rintro _ rfl
        exact hg.put (goIdle_home hidle t).1 (goIdle_home hidle t).2
      · exact meets_halt
  · obtain ⟨hthreads, hid⟩ := loadRemaining_home env (g.at c)
    exact hg.put (by rw [hthreads]; rfl) hid

def LivesOn (t : τ) (c : BitVec 32) (g : System τ ο) : Prop := (g.threads t).cpuId = c

omit [DecidableEq ο] in
theorem schedRemoveThread_meets (cpuNum : ℕ) (env : Env τ) (c : BitVec 32) :
    Meets (LivesOn t c) (only c) (schedRemoveThread cpuNum env c t : Locking τ ο Unit) (only c)
      (fun _ => LivesOn t c) := by
  apply Meets.bind (meets_onSched (Q := LivesOn t c) fun g hg => ?_)
  · intro _
    apply meets_read_bind
    intro g hlives
    by_cases hid : (g.scheds c).cpuId = (g.threads t).cpuId
    · have hhome : AtHome t c g := ⟨hlives, hid.trans hlives⟩
      rw [id_eq, if_neg (not_not_intro hid)]
      split
      · refine Meets.after ?_ fun _ g' (hg' : AtHome t c g') => hg'.1
        exact (schedRemoveResched_meets cpuNum env c).before fun g' hg' => hg' ▸ hhome
      · rw [hhome.2]
        refine Meets.after ?_ fun _ g' (hg' : AtHome t c g') => hg'.1
        apply Meets.bind (meets_onSched (Q := AtHome t c) ?_)
        · exact fun _ => rebalanceLoad_meets cpuNum c
        · rintro _ rfl
          exact hhome.still (deleteFromQueue_still _ t)
    · rw [id_eq, if_pos hid]
      exact meets_pure fun g' hg' => hg' ▸ hlives
  · refine Eq.trans (setThread_field Thread.cpuId ?_ _ _ _) hg
    exact fun _ => rfl

omit [DecidableEq ο] in
theorem threadRemove_meets (cpuNum : ℕ) (env : Env τ) (t : τ) :
    Meets (fun _ => True) free (threadRemove cpuNum env t : Locking τ ο Unit) free
      (fun _ _ => True) := by
  apply meets_read_bind
  intro g _
  apply Meets.bind meets_lock_only
  intro _
  apply meets_read_bind
  rintro _ rfl
  apply Meets.bind ((schedRemoveThread_meets cpuNum env _).before fun g' hg' => hg' ▸ rfl)
  intro _
  apply meets_read_bind
  intro g' hlives
  rw [show (g'.threads t).cpuId = _ from hlives]
  exact meets_unlock_only.after fun _ _ _ => trivial

end Sections

section Interrupt

variable {holder : ο → Option τ} {g g' : System τ ο} {c d : BitVec 32} {t u : τ}
  {priority : BitVec 32}

def Resting (t : τ) (c : BitVec 32) (g : System τ ο) : Prop :=
  (g.scheds c).currentThread = some t ∧ (g.threads t).status.isRunnable = false

omit [DecidableEq τ] [DecidableEq ο] in
theorem Resting.still {s : State τ} (h : Resting t c g) (hs : Still (g.at d) s) :
    Resting t c (g.put d s) := by
  constructor
  · by_cases hd : c = d
    · subst hd
      rw [scheds_put_self]
      exact hs.current.trans h.1
    · rw [scheds_put_ne g s hd]
      exact h.1
  · exact (congrArg Status.isRunnable (hs.status t)).trans h.2

section

omit [DecidableEq ο]

theorem Resting.setThread (h : Resting t c g) (f : Thread → Thread)
    (hf : ∀ th, (f th).status = th.status) : Resting t c (g.setThread u f) :=
  ⟨h.1, (congrArg Status.isRunnable (setThread_field Thread.status hf _ u t)).trans h.2⟩

theorem adjustUnderLock_meets (u : τ) (priority : BitVec 32) :
    Meets (Resting t c) free (adjustUnderLock u priority : Locking τ ο Unit) free
      (fun _ => Resting t c) := by
  apply meets_read_bind
  intro g hg
  apply Meets.bind meets_lock_only
  intro _
  apply meets_read_bind
  rintro g rfl
  have hstill := schedChangeRemaining_still (g.at (g.threads u).cpuId) u
    ((g.threads u).remaining + priority)
  apply Meets.bind (meets_onSched (Q := fun g' => Resting t c g' ∧
    LivesOn u (g.threads u).cpuId g') ?_)
  · intro _
    apply meets_read_bind
    rintro g' ⟨hg', hlives⟩
    rw [show (g'.threads u).cpuId = _ from hlives]
    exact meets_unlock_only.after fun _ g'' hg'' => hg'' ▸ hg'
  · rintro _ rfl
    exact ⟨hg.still hstill, hstill.home u⟩

theorem chargeAdjusted_meets (u : τ) (priority : BitVec 32) :
    Meets (Resting t c) free (chargeAdjusted u priority : Locking τ ο Unit) free
      (fun _ => Resting t c) := by
  have hset : ∀ g : System τ ο, Resting t c g → Resting t c (g.setThread u fun th =>
      if th.remaining.slt 0 then { th with remaining := 0 } else th) := by
    intro g hg
    apply hg.setThread
    intro th
    split <;> rfl
  apply Meets.bind (meets_write hset)
  intro _
  apply meets_read_bind
  intro g hg
  split
  · exact (adjustUnderLock_meets u priority).before fun g' hg' => hg' ▸ hg
  · exact meets_pure fun g' hg' => hg' ▸ hg

theorem threadAdjustPriority_meets (holder : ο → Option τ) (priority : BitVec 32) (fuel : ℕ)
    (u : τ) : Meets (Resting t c) free (threadAdjustPriority holder priority fuel u) free
      (fun _ => Resting t c) := by
  induction fuel generalizing u with
  | zero => exact meets_halt
  | succ fuel ih =>
    apply Meets.bind (meets_write (S := Resting t c) fun g hg => hg.setThread _ fun _ => rfl)
    intro _
    apply meets_read_bind
    intro g hg
    split
    · split
      · exact meets_halt
      · rename_i h _
        apply Meets.bind ((ih h).before fun g' (hg' : g' = g) => hg' ▸ hg)
        exact fun _ => chargeAdjusted_meets u priority
    · exact (chargeAdjusted_meets u priority).before fun g' hg' => hg' ▸ hg

theorem chargeAdjusted_returns (u : τ) (priority : BitVec 32) (g : System τ ο) :
    (chargeAdjusted u priority g).result = some () := by
  show Outcome.result ((if _ then _ else _ : Locking τ ο Unit) _) = _
  split <;> rfl

theorem detectDeadlock_holder {fuel : ℕ} {o : ο}
    (h : detectDeadlock holder g t fuel o = some false) : ∃ u, holder o = some u := by
  cases fuel with
  | zero => cases h
  | succ fuel =>
    rw [detectDeadlock] at h
    split at h
    · cases h
    · split at h
      · cases h
      · exact ⟨_, ‹_›⟩

/-- The walk that finds no deadlock is the one along which priorities are adjusted. -/
theorem threadAdjustPriority_returns {fuel : ℕ} {o : ο}
    (h : detectDeadlock holder g t fuel o = some false) (hu : holder o = some u)
    (htype : g'.waitType = g.waitType) (hobj : g'.waitObj = g.waitObj) :
    (threadAdjustPriority holder priority fuel u g').result = some () := by
  induction fuel generalizing o u g' with
  | zero => cases h
  | succ fuel ih =>
    rw [detectDeadlock, hu] at h
    show Outcome.result ((if _ then _ else _ : Locking τ ο Unit) _) = _
    split
    · rename_i hwaits
      have hmutex : g.waitType u = .mutex := (congrFun htype u).symm.trans hwaits.1
      split at h
      · cases h
      · dsimp only at h
        split at h
        · cases h
        · rw [if_neg (not_not_intro hmutex)] at h
          cases ho' : g.waitObj u with
          | none => simp [ho'] at h
          | some o' =>
            simp only [ho'] at h
            obtain ⟨u', hu'⟩ := detectDeadlock_holder h
            have hnext : (g'.waitObj u).bind holder = some u' := by
              rw [hobj, ho']
              exact hu'
            show Outcome.result ((match (g'.waitObj u).bind holder with
              | none => halt
              | some h => do
                threadAdjustPriority holder priority fuel h
                chargeAdjusted u priority : Locking τ ο Unit) _) = _
            rw [hnext]
            refine Eq.trans (bind_result (a := ()) ?_) (chargeAdjusted_returns u priority _)
            exact ih h hu' htype hobj
    · exact chargeAdjusted_returns u priority _

end

theorem resting_fallAsleep (h : (g.scheds c).currentThread = some t) (o : ο) :
    Resting t c (fallAsleep g t o) := by
  refine ⟨h, ?_⟩
  show Status.isRunnable (setThread g.threads t (fun th => { th with status := .intSleep }) t).status
    = false
  rw [setThread_self]
  rfl

/-- What `sync_check` makes of the thread `t`: asleep or not, unless it follows a null pointer. -/
def sleeps (holder : ο → Option τ) (g : System τ ο) (t : τ) : Option Bool :=
  match g.waitType t, g.waitObj t with
  | .none, _ => some false
  | _, none => none
  | .mutex, some o => (detectDeadlock holder g t Synchronization.walkBound o).map not
  | .cond, some _ => some true

def StaysRunnable (holder : ο → Option τ) (g : System τ ο) (c : BitVec 32) : Prop :=
  ∀ t, (g.scheds c).currentThread = some t →
    sleeps holder g t ≠ some true ∧
      (sleeps holder g t = some false → (g.threads t).status.isRunnable)

theorem lockSleep_meets {o : ο} (h : (g.scheds c).currentThread = some t) :
    Meets (· = g) free (lockSleep holder t o) free (fun _ => Resting t c) := by
  apply Meets.bind (meets_write (S := Resting t c) ?_)
  · intro _
    apply meets_read_bind
    intro g' hg'
    split
    · exact meets_pure fun g'' hg'' => hg'' ▸ hg'
    · exact (threadAdjustPriority_meets holder _ _ _).before fun g'' hg'' => hg'' ▸ hg'
  · rintro _ rfl
    exact resting_fallAsleep h o

theorem lockSleep_returns {o : ο}
    (h : detectDeadlock holder g t Synchronization.walkBound o = some false) :
    (lockSleep holder t o g).result = some () := by
  obtain ⟨u, hu⟩ := detectDeadlock_holder h
  show Outcome.result ((match holder o with | none => _ | some h => _ : Locking τ ο Unit) _) = _
  rw [hu]
  exact threadAdjustPriority_returns h hu rfl rfl

theorem syncCheck_eq (holder : ο → Option τ) (h : (g.scheds c).currentThread = some t) :
    syncCheck holder c g = checkWait holder g t g := by
  show (match (g.scheds c).currentThread with
    | none => pure ()
    | some t => checkWait holder g t : Locking τ ο Unit) g = _
  rw [h]

theorem syncCheck_idle (holder : ο → Option τ) (h : (g.scheds c).currentThread = none) :
    syncCheck holder c g = ⟨[], g, some ()⟩ := by
  show (match (g.scheds c).currentThread with
    | none => pure ()
    | some t => checkWait holder g t : Locking τ ο Unit) g = _
  rw [h]
  rfl

theorem checkWait_awake (h : sleeps holder g t = some false) :
    checkWait holder g t g = ⟨[], g, some ()⟩ := by
  rw [sleeps] at h
  rw [checkWait]
  split at h
  · rename_i htype
    rw [htype]
    rfl
  · cases h
  · rename_i htype hobj
    obtain ⟨b, hdetect, hb⟩ := Option.map_eq_some_iff.mp h
    obtain rfl : b = true := by simpa using hb
    rw [htype, hobj]
    dsimp only
    rw [hdetect]
    rfl
  · cases h

theorem checkWait_halts (h : sleeps holder g t = none) :
    checkWait holder g t g = ⟨[], g, none⟩ := by
  rw [sleeps] at h
  rw [checkWait]
  split at h
  · cases h
  · rename_i hobj htype
    rw [hobj]
    cases hw : g.waitType t
    · exact absurd hw htype
    · rfl
    · rfl
  · rename_i htype hobj
    rw [htype, hobj]
    dsimp only
    rw [Option.map_eq_none_iff.mp h]
    rfl
  · cases h

/-- A thread that is put to sleep is at rest when `sync_check` returns, with all locks free. -/
theorem checkWait_sleeps (h : (g.scheds c).currentThread = some t)
    (hsleeps : sleeps holder g t = some true) :
    (checkWait holder g t g).result = some () ∧
      performAll free (checkWait holder g t g).log = some free ∧
        Resting t c (checkWait holder g t g).state := by
  rw [sleeps] at hsleeps
  rw [checkWait]
  split at hsleeps
  · cases hsleeps
  · cases hsleeps
  · rename_i o htype hobj
    obtain ⟨b, hdetect, hb⟩ := Option.map_eq_some_iff.mp hsleeps
    obtain rfl : b = false := by simpa using hb
    rw [htype, hobj]
    dsimp only
    rw [hdetect]
    exact ⟨lockSleep_returns hdetect, (lockSleep_meets h).settles rfl (lockSleep_returns hdetect)⟩
  · rename_i o htype hobj
    rw [htype, hobj]
    exact ⟨rfl, rfl, resting_fallAsleep h o⟩

section

omit [DecidableEq ο]

/-- `rebalance_load` is reached without the lock. -/
theorem testRunnable_strays (cpuNum : ℕ) (env : Env τ) (h : Resting t c g) :
    Strays free (testRunnable cpuNum env c) g := by
  apply strays_read_bind
  rw [id_eq, h.1]
  dsimp only
  rw [h.2, if_neg Bool.false_ne_true]
  apply Strays.bind
  apply strays_write_bind
  apply strays_read_bind
  apply Strays.bind
  apply strays_read_bind
  apply Strays.bind
  exact strays_unlock rfl

theorem schedResched_strays (cpuNum : ℕ) (env : Env τ) (h : Resting t c g) :
    Strays free (schedResched cpuNum env c) g := by
  apply strays_write_bind
  apply Strays.bind
  apply testRunnable_strays (t := t)
  exact h.still (still_setSched _ rfl rfl)

def Running (c : BitVec 32) (g : System τ ο) : Prop :=
  ∀ t, (g.scheds c).currentThread = some t → (g.threads t).status.isRunnable

theorem schedResched_meets (cpuNum : ℕ) (env : Env τ) :
    Meets (Running c) free (schedResched cpuNum env c : Locking τ ο (Option τ)) free
      (fun _ _ => True) := by
  apply Meets.bind (meets_onSched (Q := Running c) ?_)
  · intro _
    apply Meets.bind (Q := fun _ _ => True)
    · apply meets_read_bind
      intro g hg
      split
      · rename_i t ht
        rw [id_eq, if_pos (hg t ht)]
        exact meets_pure fun _ _ => trivial
      · exact meets_pure fun _ _ => trivial
    · intro _
      apply meets_read_bind
      intro g _
      split
      · apply Meets.bind (meets_onSched (Q := fun _ => True) fun _ _ => trivial)
        exact fun _ => meets_pure fun _ _ => trivial
      · exact meets_halt
  · intro g hg t ht
    rw [scheds_put_self] at ht
    exact hg t ht

end

theorem timerInterrupt_strays (cpuNum : ℕ) (env : Env τ) (h : (g.scheds c).currentThread = some t)
    (hsleeps : sleeps holder g t = some true ∨
      sleeps holder g t = some false ∧ (g.threads t).status.isRunnable = false) :
    Strays free (timerInterrupt cpuNum env holder c) g := by
  obtain ⟨hres, hlog, hrest⟩ : (syncCheck holder c g).result = some () ∧
      performAll free (syncCheck holder c g).log = some free ∧
        Resting t c (syncCheck holder c g).state := by
    rw [syncCheck_eq holder h]
    rcases hsleeps with hsleeps | ⟨hawake, hstatus⟩
    · exact checkWait_sleeps h hsleeps
    · rw [checkWait_awake hawake]
      exact ⟨rfl, rfl, h, hstatus⟩
  exact Strays.bind_right hlog hres (schedResched_strays cpuNum env hrest)

theorem timerInterrupt_disciplined (cpuNum : ℕ) (env : Env τ) (h : StaysRunnable holder g c) :
    Disciplined (timerInterrupt cpuNum env holder c) g := by
  have hafter : syncCheck holder c g = ⟨[], g, some ()⟩ → Running c g →
      Disciplined (timerInterrupt cpuNum env holder c) g := by
    intro hsync hrun
    have heq : timerInterrupt cpuNum env holder c g = schedResched cpuNum env c g := by
      rw [timerInterrupt, bind_returns (a := ()) (by rw [hsync]), hsync]
      rfl
    rw [Disciplined, heq]
    exact (schedResched_meets cpuNum env).disciplined hrun
  cases hcurrent : (g.scheds c).currentThread with
  | none =>
    apply hafter (syncCheck_idle holder hcurrent)
    intro t ht
    rw [hcurrent] at ht
    cases ht
  | some t =>
    obtain ⟨hawake, hrun⟩ := h t hcurrent
    have hsync := syncCheck_eq holder hcurrent
    match hs : sleeps holder g t with
    | none =>
      rw [checkWait_halts hs] at hsync
      rw [Disciplined, timerInterrupt, bind_halts (by rw [hsync]), hsync]
      exact ⟨free, rfl, nofun⟩
    | some false =>
      apply hafter (hsync.trans (checkWait_awake hs))
      intro u hu
      rw [hcurrent] at hu
      cases hu
      exact hrun hs
    | some true => exact absurd hs hawake

/-- Thread 0 runs on CPU 0 and thread 1, the holder of the mutex, on CPU 1; thread 0 waits for the
mutex when its time is up. -/
def waitForMutex : List (Event (Fin 3) Unit) :=
  [.threadInsert 0 0 exactSizes, .threadInsert 1 1 exactSizes, .syncCheck 0 false,
    .schedResched 0 0 (alone true), .syncCheck 1 false, .schedResched 1 1 (alone true),
    .wait 0 .mutex (some ())]

end Interrupt

end SchedulerLocks
