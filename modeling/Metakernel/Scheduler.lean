import Metakernel.SchedulerHeaps
import Metakernel.GuardedRuns

/-!
# One scheduler

The functions of scheduler.c and the parts of thread_sched.c that call them, in the build with
`MULTITHREAD` and `SCHED_SPECIAL_MODES`. A call that would follow a null pointer gives `none`.
What a call reads from other CPUs comes with the event: page faults, `global_epoch`, the outcome of
the exclusion test, the sizes that `kern_realloc` returns, and what happens to this scheduler while
`rebalance_load` has dropped its lock.
-/
namespace Scheduler

open IndexedHeaps

structure Sched (τ : Type) where
  runningQueue : Heap τ
  finishedQueue : Heap τ
  affinityQueue : Heap τ
  runningCount : BitVec 32
  totalCount : BitVec 32
  affinityCount : BitVec 32
  cpuId : BitVec 32
  holdingExclusion : Bool
  excluded : Bool
  currentRemaining : BitVec 32
  currentThread : Option τ
  epoch : BitVec 32

structure State (τ : Type) where
  threads : τ → Thread
  sched : Sched τ

variable {τ : Type} [DecidableEq τ]

namespace State

def setThread (s : State τ) (t : τ) (f : Thread → Thread) : State τ :=
  { s with threads := Scheduler.setThread s.threads t f }

def setSched (s : State τ) (f : Sched τ → Sched τ) : State τ := { s with sched := f s.sched }

def onRunning (s : State τ) (f : (τ → Thread) → Heap τ → (τ → Thread) × Heap τ) : State τ :=
  let r := f s.threads s.sched.runningQueue
  ⟨r.1, { s.sched with runningQueue := r.2 }⟩

def onFinished (s : State τ) (f : (τ → Thread) → Heap τ → (τ → Thread) × Heap τ) : State τ :=
  let r := f s.threads s.sched.finishedQueue
  ⟨r.1, { s.sched with finishedQueue := r.2 }⟩

def onAffinity (s : State τ) (f : (τ → Thread) → Heap τ → (τ → Thread) × Heap τ) : State τ :=
  let r := f s.threads s.sched.affinityQueue
  ⟨r.1, { s.sched with affinityQueue := r.2 }⟩

theorem threads_setThread_field {β : Type} (field : Thread → β) {f : Thread → Thread}
    (hf : ∀ th, field (f th) = field th) (s : State τ) (t u : τ) :
    field ((s.setThread t f).threads u) = field (s.threads u) :=
  setThread_field field hf s.threads t u

end State

def Heap.holds (heap : Heap τ) (t : τ) : Prop := ∃ i < heap.size, heap.dataName (i + 1) = t

instance (heap : Heap τ) (t : τ) : Decidable (heap.holds t) :=
  inferInstanceAs (Decidable (∃ i < heap.size, heap.dataName (i + 1) = t))

def State.queued (s : State τ) (t : τ) : Prop :=
  s.sched.runningQueue.holds t ∨ s.sched.finishedQueue.holds t ∨ s.sched.affinityQueue.holds t

instance (s : State τ) (t : τ) : Decidable (s.queued t) :=
  inferInstanceAs (Decidable (_ ∨ _ ∨ _))

/-- `sched_static_init` and `sched_dynamic_init`; the arrays hold anything. -/
def schedInit (alloc : Allocator) (any : τ) (id : BitVec 32) : Sched τ where
  runningQueue := heapInit alloc any 20
  finishedQueue := heapInit alloc any 20
  affinityQueue := heapInit alloc any 20
  runningCount := 0
  totalCount := 0
  affinityCount := 0
  cpuId := id
  holdingExclusion := false
  excluded := false
  currentRemaining := 0
  currentThread := none
  epoch := 0

/-- `priority_heap_grow` of both queues and the insertion into the running one. -/
def enterRunning (alloc : Allocator) (s : State τ) (t : τ) (queueSize : ℕ) : State τ :=
  let s := s.setSched fun sc => { sc with
    runningQueue := heapGrow alloc sc.runningQueue queueSize
    finishedQueue := heapGrow alloc sc.finishedQueue queueSize }
  s.onRunning fun threads heap => heapInsert byRemaining threads heap t

def enterAffinity (alloc : Allocator) (s : State τ) (t : τ) (queueSize : ℕ) : State τ :=
  let s := s.setThread t fun th => { th with cpuId := s.sched.cpuId, affinity := 0 }
  let s := s.setSched fun sc => { sc with
    affinityQueue := heapGrow alloc sc.affinityQueue queueSize }
  s.onAffinity fun threads heap => heapInsert byAffinity threads heap t

def schedInsertThread (alloc : Allocator) (s : State τ) (t : τ) : State τ :=
  let s := s.setSched fun sc => { sc with
    totalCount := sc.totalCount + (s.threads t).softPriority }
  let s := s.setThread t fun th => { th with
    remaining := th.softPriority / 2
    epoch := s.sched.epoch }
  let queueSize := s.sched.affinityQueue.size + 1
  enterRunning alloc (enterAffinity alloc s t queueSize) t queueSize

/-- How much a thread that slept for some epochs is to gain. The shift by 30 overflows to the
smallest integer, by which `diff` is divided to 0. -/
def restartIncrease (schedEpoch : BitVec 32) (th : Thread) : BitVec 32 :=
  let elapsed := schedEpoch - th.epoch
  let pow := if (30 : BitVec 32).ult elapsed then 30 else elapsed.toNat
  let diff := th.softPriority - th.remaining
  let diff := if diff.slt 0 then 0 else diff
  diff - diff.sdiv (2 <<< pow)

def schedRestartThread (alloc : Allocator) (s : State τ) (t : τ) : State τ :=
  let s := s.setThread t fun th =>
    if th.epoch.ult s.sched.epoch then
      { th with remaining := th.remaining + restartIncrease s.sched.epoch th }
    else th
  let queueSize := s.sched.affinityQueue.size + 1
  let s := enterAffinity alloc s t queueSize
  let s := s.setSched fun sc => { sc with
    totalCount := sc.totalCount + (s.threads t).softPriority }
  let s := enterRunning alloc s t queueSize
  s.setThread t fun th => { th with epoch := s.sched.epoch }

def schedReassignThread (s : State τ) (t : τ) : State τ :=
  let s := s.setThread t fun th =>
    if th.cpuId ≠ s.sched.cpuId then { th with cpuId := s.sched.cpuId, affinity := 0 } else th
  let s := s.onAffinity fun threads heap => heapInsert byAffinity threads heap t
  let s := s.setSched fun sc => { sc with totalCount := sc.totalCount + (s.threads t).remaining }
  let s := s.onRunning fun threads heap => heapInsert byRemaining threads heap t
  s.setThread t fun th => { th with epoch := s.sched.epoch }

/-- What other CPUs do to this scheduler, and to threads that it does not hold. -/
inductive Meanwhile (τ : Type) where
  | insert (t : τ) (alloc : Allocator)
  | restart (t : τ) (alloc : Allocator)
  | elsewhere (t : τ) (th : Thread)

def meanwhile (s : State τ) (a : Meanwhile τ) : Option (State τ) :=
  match a with
  | .insert t alloc => if s.queued t then none else some (schedInsertThread alloc s t)
  | .restart t alloc => if s.queued t then none else some (schedRestartThread alloc s t)
  | .elsewhere t th => if s.queued t then none else some (s.setThread t fun _ => th)

/-- What happens during `rebalance_load`, and the thread that it got from another scheduler. -/
structure Window (τ : Type) where
  actions : List (Meanwhile τ)
  stolen : Option τ

def rebalanceLoad (w : Window τ) (s : State τ) : Option (State τ) :=
  (w.actions.foldlM meanwhile s).bind fun s =>
    match w.stolen with
    | none => some s
    | some t => if s.queued t then none else some (schedReassignThread s t)

def deleteFromQueue (s : State τ) (t : τ) : State τ :=
  let pos := (s.threads t).priorityHeapPos
  let s :=
    if pos ≤ s.sched.runningQueue.size ∧ s.sched.runningQueue.dataName pos = t then
      s.onRunning fun threads heap => heapDelete byRemaining threads heap pos
    else s.onFinished fun threads heap => heapDelete byRemaining threads heap pos
  s.onAffinity fun threads heap =>
    heapDelete byAffinity threads heap (threads t).affinityHeapPos

/-- What a call finds on the other CPUs. -/
structure Env (τ : Type) where
  pageFaults : BitVec 32
  removalPageFaults : BitVec 32
  preemptionPageFaults : BitVec 32
  globalEpoch : BitVec 32
  admitted : Bool
  window : Window τ

def updateEpoch (globalEpoch n : BitVec 32) : BitVec 32 :=
  if globalEpoch.ult n then n else globalEpoch

def doEpoch (globalEpoch : BitVec 32) (s : State τ) : State τ :=
  s.setSched fun sc => { sc with
    finishedQueue := sc.runningQueue
    runningQueue := sc.finishedQueue
    epoch := updateEpoch globalEpoch (sc.epoch + 1)
    totalCount := sc.runningCount
    runningCount := 0 }

def retireCurrentThread (s : State τ) (c : τ) : State τ :=
  let s := s.setThread c fun th => { th with
    epoch := s.sched.epoch + 1
    remaining := (th.remaining + th.softPriority) / 2 }
  let s := s.setSched fun sc => { sc with
    runningCount := sc.runningCount + (s.threads c).remaining }
  let s := s.onAffinity fun threads heap =>
    affinityHeapSetKey threads heap (threads c).affinityHeapPos s.sched.affinityCount
  let s := s.onRunning fun threads heap =>
    heapDelete byRemaining threads heap (threads c).priorityHeapPos
  s.onFinished fun threads heap => heapInsert byRemaining threads heap c

def takeHead (s : State τ) : Option (State τ) :=
  (heapHead s.sched.runningQueue).map fun h => s.setSched fun sc => { sc with
    currentThread := some h
    currentRemaining := (s.threads h).remaining }

def priorityBoost : BitVec 32 := 5

def keepCurrentThread (env : Env τ) (s : State τ) (c : τ) : Option (State τ) :=
  (heapHead s.sched.runningQueue).bind fun h =>
    if (s.sched.currentRemaining + priorityBoost).slt (s.threads h).remaining ∧ h ≠ c then
      let s := s.onAffinity fun threads heap =>
        affinityHeapSetKey threads heap (threads c).affinityHeapPos env.preemptionPageFaults
      let s := s.onRunning fun threads heap =>
        priorityHeapSetKey threads heap (threads c).priorityHeapPos s.sched.currentRemaining
      takeHead s
    else some s

def checkCurrentThread (env : Env τ) (s : State τ) : Option (State τ) :=
  match s.sched.currentThread with
  | some c =>
    if (s.threads c).status = .atomic ∨ (s.threads c).status = .noResched then some s
    else if s.sched.currentRemaining.sle 0 then
      let s := retireCurrentThread s c
      takeHead (if s.sched.runningQueue.size = 0 then doEpoch env.globalEpoch s else s)
    else keepCurrentThread env s c
  | none => takeHead (if s.sched.runningQueue.size = 0 then doEpoch env.globalEpoch s else s)

def removeCurrent (env : Env τ) (s : State τ) (c : τ) : Option (State τ) :=
  let s := s.setSched fun sc => { sc with totalCount := sc.totalCount - (s.threads c).remaining }
  let s := s.setThread c fun th => { th with
    epoch := s.sched.epoch
    remaining := s.sched.currentRemaining }
  let s := s.setSched fun sc => { sc with
    affinityCount := sc.affinityCount + env.removalPageFaults }
  let s := s.onAffinity fun threads heap =>
    heapDelete byAffinity threads heap (threads c).affinityHeapPos
  let s := s.onRunning fun threads heap =>
    heapDelete byRemaining threads heap (threads c).priorityHeapPos
  (rebalanceLoad env.window s).map fun s => s.setSched fun sc => { sc with
    currentThread := heapHead sc.runningQueue }

def testRunnable (env : Env τ) (s : State τ) : Option (State τ) :=
  match s.sched.currentThread with
  | some c =>
    if (s.threads c).status.isRunnable then some s
    else (removeCurrent env s c).map fun s => s.setSched fun sc => { sc with
      currentThread := none }
  | none => some s

/-- `clear_exclusion` and `set_exclusion` touch nothing of the scheduler. -/
def doExclusion (env : Env τ) (s : State τ) (c : τ) : State τ × Bool :=
  let status := (s.threads c).status
  if status ≠ .atomic ∨ s.sched.holdingExclusion then
    if env.admitted then
      (if status = .exclusive ∨ status = .atomic then
        s.setSched fun sc => { sc with holdingExclusion := true }
      else s, true)
    else (s.setSched fun sc => { sc with excluded := true }, false)
  else (s, true)

def goIdle (s : State τ) : Option (State τ) :=
  s.sched.currentThread.map fun c =>
    (s.setThread c fun th => { th with remaining := s.sched.currentRemaining }).setSched
      fun sc => { sc with currentThread := none }

def chargeTick (s : State τ) : State τ :=
  if s.sched.currentThread ≠ none then
    s.setSched fun sc => { sc with currentRemaining := sc.currentRemaining - 1 }
  else s

def schedResched (env : Env τ) (s : State τ) : Option (State τ × Option τ) := do
  let s := s.setSched fun sc => { sc with affinityCount := sc.affinityCount + env.pageFaults }
  let s ← testRunnable env s
  if heapHead s.sched.runningQueue = none ∧ heapHead s.sched.finishedQueue = none then
    return (s, s.sched.currentThread)
  let s ← checkCurrentThread env (chargeTick s)
  let c ← s.sched.currentThread
  let (s, granted) := doExclusion env s c
  if granted then return (s, s.sched.currentThread)
  let s ← goIdle s
  return (s, none)

/-- `sched_resched` after `test_runnable`. -/
def afterTest (env : Env τ) (s : State τ) : Option (State τ × Option τ) := do
  if heapHead s.sched.runningQueue = none ∧ heapHead s.sched.finishedQueue = none then
    return (s, s.sched.currentThread)
  let s ← checkCurrentThread env (chargeTick s)
  let c ← s.sched.currentThread
  let (s, granted) := doExclusion env s c
  if granted then return (s, s.sched.currentThread)
  let s ← goIdle s
  return (s, none)

theorem schedResched_eq (env : Env τ) (s : State τ) : schedResched env s =
    (testRunnable env (s.setSched fun sc => { sc with
      affinityCount := sc.affinityCount + env.pageFaults })).bind (afterTest env) := rfl

/-- `remove_current` up to `rebalance_load`. -/
def detachCurrent (env : Env τ) (s : State τ) (c : τ) : State τ :=
  let s := s.setSched fun sc => { sc with totalCount := sc.totalCount - (s.threads c).remaining }
  let s := s.setThread c fun th => { th with
    epoch := s.sched.epoch
    remaining := s.sched.currentRemaining }
  let s := s.setSched fun sc => { sc with
    affinityCount := sc.affinityCount + env.removalPageFaults }
  let s := s.onAffinity fun threads heap =>
    heapDelete byAffinity threads heap (threads c).affinityHeapPos
  s.onRunning fun threads heap =>
    heapDelete byRemaining threads heap (threads c).priorityHeapPos

theorem removeCurrent_eq (env : Env τ) (s : State τ) (c : τ) : removeCurrent env s c =
    (rebalanceLoad env.window (detachCurrent env s c)).map fun s => s.setSched fun sc => { sc with
      currentThread := heapHead sc.runningQueue } := rfl

/-- `sched_remove_resched` when the running queue has been used up. -/
def epochWhenIdle (env : Env τ) (s : State τ) : State τ :=
  if s.sched.currentThread = none ∧ heapHead s.sched.finishedQueue ≠ none then
    (doEpoch env.globalEpoch s).setSched fun sc => { sc with
      currentThread := heapHead sc.runningQueue }
  else s

def loadRemaining (s : State τ) : State τ :=
  match s.sched.currentThread with
  | some h => s.setSched fun sc => { sc with currentRemaining := (s.threads h).remaining }
  | none => s.setSched fun sc => { sc with totalCount := 0, runningCount := 0 }

def schedRemoveResched (env : Env τ) (s : State τ) (c : τ) : Option (State τ) := do
  let s ← removeCurrent env s c
  let s := loadRemaining (epochWhenIdle env s)
  if env.admitted then return s
  goIdle s

def schedRemoveThread (env : Env τ) (s : State τ) (t : τ) : Option (State τ) :=
  let s := s.setSched fun sc => { sc with totalCount := sc.totalCount - (s.threads t).remaining }
  let s := s.setThread t fun th => { th with epoch := s.sched.epoch }
  if s.sched.cpuId ≠ (s.threads t).cpuId then some s
  else if s.sched.currentThread = some t then schedRemoveResched env s t
  else rebalanceLoad env.window (deleteFromQueue s t)

def schedChangeRemaining (s : State τ) (t : τ) (remaining : BitVec 32) : State τ :=
  if s.sched.currentThread ≠ some t then
    let s := s.setSched fun sc => { sc with
      totalCount := sc.totalCount + (remaining - (s.threads t).remaining) }
    let pos := (s.threads t).priorityHeapPos
    if pos ≤ s.sched.runningQueue.size ∧ s.sched.runningQueue.dataName pos = t then
      s.onRunning fun threads heap => priorityHeapSetKey threads heap pos remaining
    else s.onFinished fun threads heap => priorityHeapSetKey threads heap pos remaining
  else s.setSched fun sc => { sc with
    totalCount := sc.totalCount + (sc.currentRemaining - (s.threads t).remaining)
    currentRemaining := remaining }

def getLowestAffinity (s : State τ) : State τ × Option τ :=
  match heapHead s.sched.affinityQueue with
  | none => (s, none)
  | some out =>
    if s.sched.currentThread = some out then
      if s.sched.affinityQueue.size = 1 then (s, none)
      else
        let second := s.sched.affinityQueue.dataName 2
        let third := s.sched.affinityQueue.dataName 3
        let out := if s.sched.affinityQueue.size = 2 ∨
          (s.threads second).affinity.ult (s.threads third).affinity then second else third
        (deleteFromQueue s out, some out)
    else (deleteFromQueue s out, some out)

def schedEschewThread (s : State τ) : State τ × Option τ :=
  let r := getLowestAffinity s
  match r.2 with
  | none => r
  | some out =>
    let s := r.1.setSched fun sc => { sc with
      totalCount := sc.totalCount - (r.1.threads out).remaining }
    (s.setThread out fun th => { th with epoch := s.sched.epoch }, some out)

/-- The end of the three functions that change a priority by `diff`; what they do to mutexes and
holders is not of the scheduler. -/
def chargePriority (s : State τ) (t : τ) (diff : BitVec 32) : State τ :=
  let s := s.setThread t fun th =>
    if th.remaining.slt 0 then { th with remaining := 0 } else th
  if (s.threads t).status.isRunnable then
    schedChangeRemaining s t ((s.threads t).remaining + diff)
  else s

def threadAdjustPriority (s : State τ) (t : τ) (priority : BitVec 32) : State τ :=
  chargePriority (s.setThread t fun th => { th with softPriority := th.softPriority + priority }) t
    priority

def threadSetPriority (s : State τ) (t : τ) (priority : BitVec 32) : State τ :=
  let diff := (s.threads t).softPriority - priority
  chargePriority (s.setThread t fun th => { th with softPriority := priority }) t diff

def threadSetHardPriority (s : State τ) (t : τ) (priority : BitVec 32) : State τ :=
  let diff := (s.threads t).hardPriority - priority
  chargePriority (s.setThread t fun th => { th with
    hardPriority := priority
    softPriority := th.softPriority + diff }) t diff

inductive Event (τ : Type) where
  | meanwhile (a : Meanwhile τ)
  | remove (t : τ) (env : Env τ)
  | eschew
  | resched (env : Env τ)
  | changeRemaining (t : τ) (remaining : BitVec 32)
  | adjustPriority (t : τ) (priority : BitVec 32)
  | setPriority (t : τ) (priority : BitVec 32)
  | setHardPriority (t : τ) (priority : BitVec 32)
  | setStatus (t : τ) (status : Status)

/-- Threads are inserted when the scheduler does not hold them, and removed or changed when it
does. -/
def step (s : State τ) : Event τ → Option (State τ)
  | .meanwhile a => meanwhile s a
  | .remove t env => if s.queued t then schedRemoveThread env s t else none
  | .eschew => some (schedEschewThread s).1
  | .resched env => (schedResched env s).map Prod.fst
  | .changeRemaining t remaining =>
    if s.queued t then some (schedChangeRemaining s t remaining) else none
  | .adjustPriority t priority =>
    if s.queued t then some (threadAdjustPriority s t priority) else none
  | .setPriority t priority =>
    if s.queued t then some (threadSetPriority s t priority) else none
  | .setHardPriority t priority =>
    if s.queued t then some (threadSetHardPriority s t priority) else none
  | .setStatus t status => some (s.setThread t fun th => { th with status })

end Scheduler
