import Metakernel.DataStructures
import Metakernel.GuardedRuns

/-!
# Mutexes and condition variables of sync.c

A thread inside the synchronization code carries the rest of its call as a list of
instructions. An instruction is one atomic step: a test-and-set or a clear of a lock word, one
section under `num_mutex`, `data_mutex`, `queue_mutex` or `sync_mutex`, or a write outside of
them. The functions of sync.c are lists of instructions; a branch puts the instructions of the
chosen path in front of what is left.

A null pointer is `none`, and a step that follows one has no next state. `wait_obj` is untyped in
the source; `sync_check` that follows it as a mutex when it holds none, and a call that is given
the null value of an unassigned variable, end in `fault`, where the thread stays for good. A local
variable that is read before it is assigned holds an arbitrary value, which the event supplies.
-/
namespace Synchronization

open LinkedNodes DataStructures

inductive WaitType where
  | none | mutex | cond
  deriving DecidableEq, Repr

/-- `SCHED_INT_SLEEP` against the states that `RUNNABLE_STATE` accepts. -/
inductive Status where
  | runnable | intSleep
  deriving DecidableEq, Repr

inductive WaitObj (μ κ : Type) where
  | none
  | mutex (m : μ)
  | cond (c : κ)
  deriving DecidableEq, Repr

inductive Instr (τ μ κ : Type) where
  | timerDisable
  | timerRestore
  | setWaitObj (o : WaitObj μ κ)
  | setWaitType (w : WaitType)
  | adjustPriority (w : τ) (priority : BitVec 32)
  -- mutex_lock
  | firstTry (m : μ)
  | staleBoost (m : μ)
  | numSpinInc (m : μ)
  | secondTry (m : μ)
  | spinLock (m : μ)
  | priorityBoost (m : μ)
  | numSpinDec (m : μ)
  -- mutex_trylock, async_mutex_trylock
  | tryWord (m : μ)
  | recordHolder (m : μ)
  | asyncTryWord (m : μ)
  | clearHolder (m : μ)
  -- mutex_unlock, async_mutex_unlock
  | testSpin (async : Bool) (m : μ)
  | testQueue (async : Bool) (m : μ)
  | unlockSpun (m : μ)
  | unlockFree (m : μ)
  | restart (w : τ)
  -- do_wait
  | condSpinInc (c : κ)
  | condSpin (c : κ)
  | condWake (c : κ)
  | typeUnlock (c : κ)
  -- cond_signal
  | testCondSpin (c : κ)
  | typeLock (c : κ)
  | condOpen (c : κ)
  | takeSleeper (c : κ)
  | awaken (w : τ)
  -- the timer interrupt
  | syncCheck
  | detectDeadlock (m : μ)
  | lockSleep
  | enqueue (m : μ)
  | sleepStatus
  | boostHolder (m : μ)
  | condSleep (c : κ)
  | condEnqueue (c : κ)
  | schedule
  | fault
  deriving DecidableEq, Repr

/-- Instructions of the interrupt handler, up to the point where the thread runs again. -/
def Instr.inHandler {τ μ κ : Type} : Instr τ μ κ → Bool
  | .syncCheck | .detectDeadlock _ | .lockSleep | .enqueue _ | .sleepStatus | .boostHolder _
  | .condSleep _ | .condEnqueue _ | .schedule => true
  | _ => false

/-- `useReentry` is `THREAD_USE_REENTRY`. `counted` is bookkeeping that no instruction reads: the
mutex whose `num_spin` counts the thread. -/
structure Thread (τ μ κ : Type) where
  waitType : WaitType
  waitObj : WaitObj μ κ
  queueNext : Option τ
  queueLast : Option τ
  softPriority : BitVec 32
  status : Status
  useReentry : Bool
  code : List (Instr τ μ κ)
  counted : Option μ

structure Mutex (τ : Type) where
  word : Bool
  numSpin : BitVec 32
  priCount : BitVec 32
  queue : Option τ
  holder : Option τ

structure Cond (τ : Type) where
  word : Bool
  typeMutex : Bool
  numSpin : BitVec 32
  broadcast : Bool
  queue : Option τ

/-- `timer_count` is incremented and decremented as a 16-bit word. `owns` is bookkeeping that no
instruction reads: ownership is gained with the lock word or by a hand-off. -/
structure State (τ μ κ : Type) where
  threads : τ → Thread τ μ κ
  mutexes : μ → Mutex τ
  conds : κ → Cond τ
  timerCount : BitVec 16
  owns : τ → μ → Bool

variable {τ μ κ : Type} [DecidableEq τ] [DecidableEq μ] [DecidableEq κ]

namespace State

def setThread (s : State τ μ κ) (t : τ) (f : Thread τ μ κ → Thread τ μ κ) : State τ μ κ :=
  { s with threads := Function.update s.threads t (f (s.threads t)) }

def setMutex (s : State τ μ κ) (m : μ) (f : Mutex τ → Mutex τ) : State τ μ κ :=
  { s with mutexes := Function.update s.mutexes m (f (s.mutexes m)) }

def setCond (s : State τ μ κ) (c : κ) (f : Cond τ → Cond τ) : State τ μ κ :=
  { s with conds := Function.update s.conds c (f (s.conds c)) }

def setOwns (s : State τ μ κ) (t : τ) (m : μ) (b : Bool) : State τ μ κ :=
  { s with owns := Function.update s.owns t (Function.update (s.owns t) m b) }

section

omit [DecidableEq μ] [DecidableEq κ]

@[simp] theorem setThread_threads (s : State τ μ κ) (t u : τ) (f : Thread τ μ κ → Thread τ μ κ) :
    (s.setThread t f).threads u = if u = t then f (s.threads t) else s.threads u := by
  simp [setThread, Function.update_apply]

@[simp] theorem setThread_mutexes (s : State τ μ κ) (t : τ) (f : Thread τ μ κ → Thread τ μ κ) :
    (s.setThread t f).mutexes = s.mutexes := rfl

@[simp] theorem setThread_conds (s : State τ μ κ) (t : τ) (f : Thread τ μ κ → Thread τ μ κ) :
    (s.setThread t f).conds = s.conds := rfl

@[simp] theorem setThread_timerCount (s : State τ μ κ) (t : τ)
    (f : Thread τ μ κ → Thread τ μ κ) : (s.setThread t f).timerCount = s.timerCount := rfl

@[simp] theorem setThread_owns (s : State τ μ κ) (t : τ) (f : Thread τ μ κ → Thread τ μ κ) :
    (s.setThread t f).owns = s.owns := rfl

end

section

omit [DecidableEq τ] [DecidableEq κ]

@[simp] theorem setMutex_mutexes (s : State τ μ κ) (m n : μ) (f : Mutex τ → Mutex τ) :
    (s.setMutex m f).mutexes n = if n = m then f (s.mutexes m) else s.mutexes n := by
  simp [setMutex, Function.update_apply]

@[simp] theorem setMutex_threads (s : State τ μ κ) (m : μ) (f : Mutex τ → Mutex τ) :
    (s.setMutex m f).threads = s.threads := rfl

@[simp] theorem setMutex_conds (s : State τ μ κ) (m : μ) (f : Mutex τ → Mutex τ) :
    (s.setMutex m f).conds = s.conds := rfl

@[simp] theorem setMutex_timerCount (s : State τ μ κ) (m : μ) (f : Mutex τ → Mutex τ) :
    (s.setMutex m f).timerCount = s.timerCount := rfl

@[simp] theorem setMutex_owns (s : State τ μ κ) (m : μ) (f : Mutex τ → Mutex τ) :
    (s.setMutex m f).owns = s.owns := rfl

end

section

omit [DecidableEq τ] [DecidableEq μ]

@[simp] theorem setCond_conds (s : State τ μ κ) (c d : κ) (f : Cond τ → Cond τ) :
    (s.setCond c f).conds d = if d = c then f (s.conds c) else s.conds d := by
  simp [setCond, Function.update_apply]

@[simp] theorem setCond_threads (s : State τ μ κ) (c : κ) (f : Cond τ → Cond τ) :
    (s.setCond c f).threads = s.threads := rfl

@[simp] theorem setCond_mutexes (s : State τ μ κ) (c : κ) (f : Cond τ → Cond τ) :
    (s.setCond c f).mutexes = s.mutexes := rfl

@[simp] theorem setCond_timerCount (s : State τ μ κ) (c : κ) (f : Cond τ → Cond τ) :
    (s.setCond c f).timerCount = s.timerCount := rfl

@[simp] theorem setCond_owns (s : State τ μ κ) (c : κ) (f : Cond τ → Cond τ) :
    (s.setCond c f).owns = s.owns := rfl

end

section

omit [DecidableEq κ]

@[simp] theorem setOwns_owns (s : State τ μ κ) (t u : τ) (m n : μ) (b : Bool) :
    (s.setOwns t m b).owns u n = if u = t ∧ n = m then b else s.owns u n := by
  by_cases hu : u = t
  · subst hu
    by_cases hn : n = m <;> simp [setOwns, hn]
  · simp [setOwns, hu]

@[simp] theorem setOwns_threads (s : State τ μ κ) (t : τ) (m : μ) (b : Bool) :
    (s.setOwns t m b).threads = s.threads := rfl

@[simp] theorem setOwns_mutexes (s : State τ μ κ) (t : τ) (m : μ) (b : Bool) :
    (s.setOwns t m b).mutexes = s.mutexes := rfl

@[simp] theorem setOwns_conds (s : State τ μ κ) (t : τ) (m : μ) (b : Bool) :
    (s.setOwns t m b).conds = s.conds := rfl

@[simp] theorem setOwns_timerCount (s : State τ μ κ) (t : τ) (m : μ) (b : Bool) :
    (s.setOwns t m b).timerCount = s.timerCount := rfl

end

end State

def threadNext : NodeField (τ → Thread τ μ κ) (Option τ) (Option τ) where
  get threads p := p.bind fun x => (threads x).queueNext
  set threads p v := match p with
    | some x => Function.update threads x { threads x with queueNext := v }
    | none => threads

def threadLast : NodeField (τ → Thread τ μ κ) (Option τ) (Option τ) where
  get threads p := p.bind fun x => (threads x).queueLast
  set threads p v := match p with
    | some x => Function.update threads x { threads x with queueLast := v }
    | none => threads

def threadQueueInsert (threads : τ → Thread τ μ κ) (queue : Option τ) (t : τ) :
    (τ → Thread τ μ κ) × Option τ :=
  clistInsert threadNext threadLast none threads queue (some t)

def threadQueueRemove (threads : τ → Thread τ μ κ) (queue : Option τ) :
    (τ → Thread τ μ κ) × Option τ :=
  clistDelete threadNext threadLast none threads (threadLast.get threads queue)

/-- A walk over more nodes than there are 32-bit pointers never ends. -/
def walkBound : ℕ := 4294967296

/-- `do … while(curr != mutex->queue)` of `detect_deadlock`: is `t` met before the walk is back
at `queue`? -/
def queueHolds (threads : τ → Thread τ μ κ) (t queue : τ) : ℕ → τ → Option Bool
  | 0, _ => none
  | fuel + 1, curr =>
    if curr = t then some true
    else match (threads curr).queueNext with
      | none => none
      | some next => if next = queue then some false else queueHolds threads t queue fuel next

/-- `thread_adjust_priority`. It follows the `wait_obj` of a sleeper and the `holder` of a mutex
without a test for null. -/
def threadAdjustPriority : ℕ → State τ μ κ → τ → BitVec 32 → Option (State τ μ κ)
  | 0, _, _, _ => none
  | fuel + 1, s, w, priority =>
    let s := s.setThread w fun th => { th with softPriority := th.softPriority + priority }
    if (s.threads w).waitType = .mutex ∧ (s.threads w).status = .intSleep then
      match (s.threads w).waitObj with
      | .mutex m =>
        let s := s.setMutex m fun mx => { mx with priCount := mx.priCount + priority }
        match (s.mutexes m).holder with
        | some h => threadAdjustPriority fuel s h priority
        | none => none
      | _ => none
    else some s

def slowPath (m : μ) : List (Instr τ μ κ) :=
  [.setWaitObj (.mutex m), .timerDisable, .setWaitType .mutex, .numSpinInc m, .secondTry m,
    .priorityBoost m, .numSpinDec m, .timerRestore]

def mutexLock (m : μ) : List (Instr τ μ κ) := [.firstTry m]

def mutexTrylock (m : μ) : List (Instr τ μ κ) := [.timerDisable, .tryWord m]

def asyncMutexTrylock (m : μ) : List (Instr τ μ κ) := [.asyncTryWord m]

def mutexUnlock (m : μ) : List (Instr τ μ κ) := [.timerDisable, .testSpin false m]

def asyncMutexUnlock (m : μ) : List (Instr τ μ κ) := [.testSpin true m]

def doWait (c : κ) (m : μ) : List (Instr τ μ κ) :=
  [.setWaitObj (.cond c), .setWaitType .cond, .timerDisable, .condSpinInc c, .timerRestore] ++
    mutexUnlock m ++ [.condSpin c, .condWake c, .typeUnlock c]

def condWait (c : κ) (m : μ) : List (Instr τ μ κ) := doWait c m ++ mutexLock m

def condSignal (c : κ) : List (Instr τ μ κ) := [.timerDisable, .testCondSpin c]

def acquire (s : State τ μ κ) (t : τ) (m : μ) : State τ μ κ :=
  (s.setMutex m fun mx => { mx with word := true }).setOwns t m true

def release (s : State τ μ κ) (t : τ) (m : μ) : State τ μ κ :=
  (s.setMutex m fun mx => { mx with word := false }).setOwns t m false

/-- The hand-off branch of an unlock: the section under `data_mutex`. -/
def handOff (s : State τ μ κ) (t : τ) (m : μ) (w : τ) : Option (State τ μ κ) :=
  let q := threadQueueRemove s.threads (s.mutexes m).queue
  let s := { s with threads := q.1 }
  let s := s.setMutex m fun mx =>
    { mx with queue := q.2, priCount := mx.priCount - (s.threads w).softPriority, holder := some w }
  let s := s.setThread w fun th => { th with waitObj := .none }
  let s := (s.setOwns t m false).setOwns w m true
  threadAdjustPriority walkBound s w (s.mutexes m).priCount

def onQueue (s : State τ μ κ) (t : τ) (m : μ) : Option Bool :=
  match (s.mutexes m).queue with
  | none => some false
  | some q => queueHolds s.threads t q walkBound q

/-- One pass of `detect_deadlock`, under the `data_mutex` of `m`: what `sync_check` does next. -/
def detectAt (s : State τ μ κ) (t : τ) (m : μ) : Option (List (Instr τ μ κ)) :=
  (onQueue s t m).map fun queued =>
    if queued then []
    else match (s.mutexes m).holder with
      | none => [.fault]
      | some h =>
        if h = t then []
        else if (s.threads h).waitType ≠ .mutex then [.lockSleep]
        else match (s.threads h).waitObj with
          | .mutex m' => [.detectDeadlock m']
          | _ => [.fault]

/-- Both reentry routines return from the `spin_lock` that the interrupt stopped. -/
def reenter : List (Instr τ μ κ) → List (Instr τ μ κ)
  | .spinLock _ :: rest => rest
  | .condSpin _ :: rest => rest
  | _ => [.fault]

/-- The state after the instruction `i` of thread `t`, and the instructions it puts in front of
the remaining ones. `stale` is what an unassigned `thread_t*` holds. -/
def perform (s : State τ μ κ) (t : τ) (stale : Option τ) :
    Instr τ μ κ → Option (State τ μ κ × List (Instr τ μ κ))
  | .timerDisable => some ({ s with timerCount := s.timerCount + 1 }, [])
  | .timerRestore => some ({ s with timerCount := s.timerCount - 1 }, [])
  | .setWaitObj o => some (s.setThread t fun th => { th with waitObj := o }, [])
  | .setWaitType w => some (s.setThread t fun th => { th with waitType := w }, [])
  | .adjustPriority w priority =>
    (threadAdjustPriority walkBound s w priority).map fun s => (s, [])
  | .firstTry m =>
    if (s.mutexes m).word then some (s, slowPath m) else some (acquire s t m, [.staleBoost m])
  | .staleBoost m =>
    -- get_priority_boost(mutex, current) with `current` never assigned
    let priority := (s.mutexes m).priCount
    let s := s.setMutex m fun mx => { mx with holder := stale }
    match stale with
    | some x => some (s.setThread x fun th => { th with waitObj := .none },
        [.adjustPriority x priority])
    | none => some (s, [.fault])
  | .numSpinInc m =>
    some ((s.setMutex m fun mx => { mx with numSpin := mx.numSpin + 1 }).setThread t
      fun th => { th with counted := some m }, [])
  | .secondTry m =>
    if (s.mutexes m).word then some (s, [.timerRestore, .spinLock m])
    else some (acquire s t m, [])
  | .spinLock m => if (s.mutexes m).word then none else some (acquire s t m, [])
  | .priorityBoost m =>
    some ((s.setMutex m fun mx => { mx with holder := some t }).setThread t
      fun th => { th with waitObj := .none }, [.adjustPriority t (s.mutexes m).priCount])
  | .numSpinDec m =>
    some ((s.setMutex m fun mx => { mx with numSpin := mx.numSpin - 1 }).setThread t
      fun th => { th with counted := none }, [])
  | .tryWord m =>
    if (s.mutexes m).word then some (s, [.timerRestore])
    else some (acquire s t m, [.recordHolder m, .timerRestore])
  | .recordHolder m =>
    some (s.setMutex m fun mx => { mx with holder := some t },
      [.adjustPriority t (s.mutexes m).priCount])
  | .asyncTryWord m =>
    if (s.mutexes m).word then some (s, []) else some (acquire s t m, [.clearHolder m])
  | .clearHolder m => some (s.setMutex m fun mx => { mx with holder := none }, [])
  | .testSpin async m =>
    let s' := if async then some s
      else threadAdjustPriority walkBound s t (-(s.mutexes m).priCount)
    s'.map fun s' =>
      if (s.mutexes m).numSpin ≠ 0 then
        (if async then { s' with timerCount := s'.timerCount + 1 } else s', [.unlockSpun m])
      else (s', .testQueue async m :: if async then [] else [.timerRestore])
  | .testQueue async m =>
    match (s.mutexes m).queue with
    | some w => (handOff s t m w).map fun s => (s, [.restart w])
    | none => some (s, if async then [.unlockFree m] else [.clearHolder m, .unlockFree m])
  | .unlockSpun m => some (release s t m, [])
  | .unlockFree m => some (release s t m, [])
  | .restart w => some (s.setThread w fun th => { th with status := .runnable }, [])
  | .condSpinInc c => some (s.setCond c fun cn => { cn with numSpin := cn.numSpin + 1 }, [])
  | .condSpin c =>
    if (s.conds c).word then none else some (s.setCond c fun cn => { cn with word := true }, [])
  | .condWake c =>
    some (s.setThread t fun th => { th with waitObj := .none },
      if (s.conds c).broadcast then [] else [.timerRestore])
  | .typeUnlock c => some (s.setCond c fun cn => { cn with typeMutex := false }, [])
  | .testCondSpin c =>
    if (s.conds c).numSpin ≠ 0 then
      some (s.setCond c fun cn => { cn with numSpin := cn.numSpin - 1 }, [.typeLock c, .condOpen c])
    else some (s, [.takeSleeper c])
  | .typeLock c =>
    if (s.conds c).typeMutex then none
    else some (s.setCond c fun cn => { cn with typeMutex := true }, [])
  | .condOpen c => some (s.setCond c fun cn => { cn with broadcast := false, word := false }, [])
  | .takeSleeper c =>
    match (s.conds c).queue with
    | some w =>
      let q := threadQueueRemove s.threads (some w)
      some (({ s with threads := q.1 }).setCond c fun cn => { cn with queue := q.2 },
        [.awaken w, .timerRestore])
    | none =>
      -- awaken_thread(wakeup_thread) with `wakeup_thread` never assigned
      match stale with
      | some x => some (s, [.awaken x, .timerRestore])
      | none => some (s, [.fault])
  | .awaken w =>
    some (s.setThread w fun th => { th with waitType := .none, status := .runnable }, [])
  | .syncCheck =>
    match (s.threads t).waitType with
    | .none => some (s, [])
    | .mutex =>
      match (s.threads t).waitObj with
      | .mutex m => some (s, [.detectDeadlock m])
      | _ => some (s, [.fault])
    | .cond =>
      match (s.threads t).waitObj with
      | .cond c => some (s, [.sleepStatus, .condSleep c, .condEnqueue c])
      | _ => some (s, [.fault])
  | .detectDeadlock m => (detectAt s t m).map fun code => (s, code)
  | .lockSleep =>
    match (s.threads t).waitObj with
    | .mutex m =>
      some ((s.setMutex m fun mx => { mx with numSpin := mx.numSpin - 1 }).setThread t
        fun th => { th with counted := none }, [.enqueue m, .sleepStatus, .boostHolder m])
    | _ => some (s, [.fault])
  | .enqueue m =>
    let q := threadQueueInsert s.threads (s.mutexes m).queue t
    some (({ s with threads := q.1 }).setMutex m fun mx =>
      { mx with queue := q.2, priCount := mx.priCount + (s.threads t).softPriority }, [])
  | .sleepStatus =>
    some (s.setThread t fun th => { th with status := .intSleep, useReentry := true }, [])
  | .boostHolder m =>
    match (s.mutexes m).holder with
    | some h => (threadAdjustPriority walkBound s h (s.threads t).softPriority).map fun s => (s, [])
    | none => some (s, [])
  | .condSleep c => some (s.setCond c fun cn => { cn with numSpin := cn.numSpin - 1 }, [])
  | .condEnqueue c =>
    let q := threadQueueInsert s.threads (s.conds c).queue t
    some (({ s with threads := q.1 }).setCond c fun cn => { cn with queue := q.2 }, [])
  | .schedule => if (s.threads t).status = .runnable then some (s, []) else none
  | .fault => none

inductive Call (μ κ : Type) where
  | mutexLock (m : μ)
  | mutexTrylock (m : μ)
  | asyncMutexTrylock (m : μ)
  | mutexUnlock (m : μ)
  | asyncMutexUnlock (m : μ)
  | condWait (c : κ) (m : μ)
  | condSignal (c : κ)
  deriving DecidableEq, Repr

def Call.code : Call μ κ → List (Instr τ μ κ)
  | .mutexLock m => Synchronization.mutexLock m
  | .mutexTrylock m => Synchronization.mutexTrylock m
  | .asyncMutexTrylock m => Synchronization.asyncMutexTrylock m
  | .mutexUnlock m => Synchronization.mutexUnlock m
  | .asyncMutexUnlock m => Synchronization.asyncMutexUnlock m
  | .condWait c m => Synchronization.condWait c m
  | .condSignal c => Synchronization.condSignal c

/-- The mutex that a call gives up; only its owner may make the call. -/
def Call.unlocks : Call μ κ → Option μ
  | .mutexUnlock m | .asyncMutexUnlock m | .condWait _ m => some m
  | _ => none

/-- A thread enters a function, the timer interrupts a thread, or a thread takes a step. -/
inductive Event (τ μ κ : Type) where
  | call (t : τ) (c : Call μ κ)
  | tick (t : τ)
  | exec (t : τ) (stale : Option τ)
  deriving DecidableEq, Repr

def setCode (s : State τ μ κ) (t : τ) (code : List (Instr τ μ κ)) : State τ μ κ :=
  s.setThread t fun th => { th with code := code }

/-- A thread that is scheduled again after it was put to sleep enters at its reentry routine. -/
def resumed (s : State τ μ κ) (t : τ) (rest : List (Instr τ μ κ)) : State τ μ κ :=
  if (s.threads t).useReentry then
    (setCode s t (reenter rest)).setThread t fun th => { th with useReentry := false }
  else setCode s t rest

def next (s : State τ μ κ) : Event τ μ κ → Option (State τ μ κ)
  | .call t c =>
    if (s.threads t).code = [] ∧ ∀ m ∈ c.unlocks, s.owns t m = true then
      some (setCode s t c.code)
    else none
  | .tick t =>
    if ∀ i ∈ (s.threads t).code.head?, i.inHandler = false ∧ i ≠ .fault then
      some (setCode s t (.syncCheck :: .schedule :: (s.threads t).code))
    else none
  | .exec t stale =>
    match (s.threads t).code with
    | [] => none
    | i :: rest => do
      let (s, code) ← perform s t stale i
      if i = .schedule then some (resumed s t rest) else some (setCode s t (code ++ rest))

/-- Every object as its initialisation leaves it, and every thread outside of sync.c. -/
structure Initial (s : State τ μ κ) : Prop where
  thread : ∀ t, (s.threads t).code = [] ∧ (s.threads t).waitType = .none ∧
    (s.threads t).waitObj = .none ∧ (s.threads t).status = .runnable ∧
    (s.threads t).useReentry = false ∧ (s.threads t).counted = none
  mutex : ∀ m, s.mutexes m = ⟨false, 0, 0, none, none⟩
  cond : ∀ c, s.conds c = ⟨false, false, 0, false, none⟩
  timer : s.timerCount = 0
  owns : ∀ t m, s.owns t m = false

def idleThread : Thread τ μ κ := ⟨.none, .none, none, none, 0, .runnable, false, [], none⟩

def start : State τ μ κ :=
  ⟨fun _ => idleThread, fun _ => ⟨false, 0, 0, none, none⟩,
    fun _ => ⟨false, false, 0, false, none⟩, 0, fun _ _ => false⟩

omit [DecidableEq τ] [DecidableEq μ] [DecidableEq κ] in
theorem start_initial : Initial (start : State τ μ κ) where
  thread _ := ⟨rfl, rfl, rfl, rfl, rfl, rfl⟩
  mutex _ := rfl
  cond _ := rfl
  timer := rfl
  owns _ _ := rfl

structure Reprioritized (s s' : State τ μ κ) : Prop where
  thread : ∀ u, ∃ p, s'.threads u = { s.threads u with softPriority := p }
  mutex : ∀ m, ∃ p, s'.mutexes m = { s.mutexes m with priCount := p }
  conds : s'.conds = s.conds
  timerCount : s'.timerCount = s.timerCount
  owns : s'.owns = s.owns

omit [DecidableEq τ] [DecidableEq μ] [DecidableEq κ] in
theorem Reprioritized.trans {s s' s'' : State τ μ κ} (h : Reprioritized s s')
    (h' : Reprioritized s' s'') : Reprioritized s s'' where
  thread u := by
    obtain ⟨p, hp⟩ := h.thread u
    obtain ⟨q, hq⟩ := h'.thread u
    exact ⟨q, by rw [hq, hp]⟩
  mutex m := by
    obtain ⟨p, hp⟩ := h.mutex m
    obtain ⟨q, hq⟩ := h'.mutex m
    exact ⟨q, by rw [hq, hp]⟩
  conds := h'.conds.trans h.conds
  timerCount := h'.timerCount.trans h.timerCount
  owns := h'.owns.trans h.owns

omit [DecidableEq μ] [DecidableEq κ] in
theorem reprioritized_setThread (s : State τ μ κ) (w : τ) (priority : BitVec 32) :
    Reprioritized s
      (s.setThread w fun th => { th with softPriority := th.softPriority + priority }) := by
  refine ⟨fun u => ?_, fun m => ⟨(s.mutexes m).priCount, rfl⟩, rfl, rfl, rfl⟩
  by_cases hu : u = w
  · exact ⟨(s.threads w).softPriority + priority, by simp [hu]⟩
  · exact ⟨(s.threads u).softPriority, by simp [hu]⟩

omit [DecidableEq τ] [DecidableEq κ] in
theorem reprioritized_setMutex (s : State τ μ κ) (m : μ) (priority : BitVec 32) :
    Reprioritized s
      (s.setMutex m fun mx => { mx with priCount := mx.priCount + priority }) := by
  refine ⟨fun u => ⟨(s.threads u).softPriority, rfl⟩, fun n => ?_, rfl, rfl, rfl⟩
  by_cases hn : n = m
  · exact ⟨(s.mutexes m).priCount + priority, by simp [hn]⟩
  · exact ⟨(s.mutexes n).priCount, by simp [hn]⟩

omit [DecidableEq κ] in
theorem threadAdjustPriority_reprioritized {priority : BitVec 32} : ∀ {fuel : ℕ}
    {s s' : State τ μ κ} {w : τ}, threadAdjustPriority fuel s w priority = some s' →
    Reprioritized s s'
  | 0, _, _, _, h => by cases h
  | fuel + 1, s, s', w, h => by
    have hthread := reprioritized_setThread s w priority
    rw [threadAdjustPriority] at h
    dsimp only at h
    split at h
    · split at h
      · split at h
        · exact (hthread.trans (reprioritized_setMutex _ _ _)).trans
            (threadAdjustPriority_reprioritized h)
        · cases h
      · cases h
    · cases h
      exact hthread

def Relinked (threads threads' : τ → Thread τ μ κ) : Prop :=
  ∀ u, ∃ a b, threads' u = { threads u with queueNext := a, queueLast := b }

omit [DecidableEq τ] [DecidableEq μ] [DecidableEq κ] in
theorem Relinked.refl (threads : τ → Thread τ μ κ) : Relinked threads threads :=
  fun u => ⟨(threads u).queueNext, (threads u).queueLast, rfl⟩

omit [DecidableEq τ] [DecidableEq μ] [DecidableEq κ] in
theorem Relinked.trans {x y z : τ → Thread τ μ κ} (h : Relinked x y) (h' : Relinked y z) :
    Relinked x z := by
  intro u
  obtain ⟨a, b, hab⟩ := h u
  obtain ⟨c, d, hcd⟩ := h' u
  exact ⟨c, d, by rw [hcd, hab]⟩

section

omit [DecidableEq μ] [DecidableEq κ]

theorem relinked_next (threads : τ → Thread τ μ κ) (p v : Option τ) :
    Relinked threads (threadNext.set threads p v) := by
  cases p with
  | none => exact .refl threads
  | some x =>
    intro u
    by_cases hu : u = x
    · exact ⟨v, (threads x).queueLast, by simp [threadNext, hu]⟩
    · exact ⟨(threads u).queueNext, (threads u).queueLast, by simp [threadNext, hu]⟩

theorem relinked_last (threads : τ → Thread τ μ κ) (p v : Option τ) :
    Relinked threads (threadLast.set threads p v) := by
  cases p with
  | none => exact .refl threads
  | some x =>
    intro u
    by_cases hu : u = x
    · exact ⟨(threads x).queueNext, v, by simp [threadLast, hu]⟩
    · exact ⟨(threads u).queueNext, (threads u).queueLast, by simp [threadLast, hu]⟩

theorem threadQueueInsert_relinked (threads : τ → Thread τ μ κ) (queue : Option τ) (t : τ) :
    Relinked threads (threadQueueInsert threads queue t).1 := by
  rw [threadQueueInsert, clistInsert]
  split
  · dsimp only
    exact (relinked_next _ _ _).trans (relinked_last _ _ _)
  · dsimp only
    exact (((relinked_next _ _ _).trans (relinked_last _ _ _)).trans (relinked_next _ _ _)).trans
      (relinked_last _ _ _)

theorem threadQueueRemove_relinked (threads : τ → Thread τ μ κ) (queue : Option τ) :
    Relinked threads (threadQueueRemove threads queue).1 := by
  rw [threadQueueRemove, clistDelete]
  split
  · split
    · dsimp only
      exact (relinked_next _ _ _).trans (relinked_last _ _ _)
    · exact .refl threads
  · exact .refl threads

end

structure HandedOff (s : State τ μ κ) (t : τ) (m : μ) (w : τ) (s' : State τ μ κ) : Prop where
  thread : ∀ u, ∃ a b p, s'.threads u = { s.threads u with
    queueNext := a, queueLast := b, softPriority := p,
    waitObj := if u = w then .none else (s.threads u).waitObj }
  links : ∀ u, (s'.threads u).queueNext =
      ((threadQueueRemove s.threads (s.mutexes m).queue).1 u).queueNext ∧
    (s'.threads u).queueLast = ((threadQueueRemove s.threads (s.mutexes m).queue).1 u).queueLast
  mutex : ∀ n, ∃ p, s'.mutexes n = { s.mutexes n with
    priCount := p,
    queue := if n = m then (threadQueueRemove s.threads (s.mutexes m).queue).2
      else (s.mutexes n).queue,
    holder := if n = m then some w else (s.mutexes n).holder }
  conds : s'.conds = s.conds
  timerCount : s'.timerCount = s.timerCount
  owns : ∀ u n, s'.owns u n = if u = w ∧ n = m then true else if u = t ∧ n = m then false
    else s.owns u n

omit [DecidableEq κ] in
theorem handOff_handedOff {s s' : State τ μ κ} {t w : τ} {m : μ}
    (h : handOff s t m w = some s') : HandedOff s t m w s' := by
  have hr := threadAdjustPriority_reprioritized h
  have hl := threadQueueRemove_relinked s.threads (s.mutexes m).queue
  refine ⟨fun u => ?_, fun u => ?_, fun n => ?_, hr.conds, hr.timerCount, fun u n => ?_⟩
  · obtain ⟨p, hp⟩ := hr.thread u
    obtain ⟨a, b, hab⟩ := hl u
    refine ⟨a, b, p, ?_⟩
    rw [hp]
    by_cases hu : u = w
    · subst hu
      simp [hab]
    · simp [hu, hab]
  · obtain ⟨p, hp⟩ := hr.thread u
    rw [hp]
    by_cases hu : u = w <;> simp [hu]
  · obtain ⟨p, hp⟩ := hr.mutex n
    refine ⟨p, ?_⟩
    rw [hp]
    by_cases hn : n = m <;> simp [hn]
  · simp [hr.owns]

omit [DecidableEq μ] [DecidableEq κ] in
theorem detectAt_code {s : State τ μ κ} {t : τ} {m : μ} {code : List (Instr τ μ κ)}
    (h : detectAt s t m = some code) : code = [] ∨ code = [.fault] ∨ code = [.lockSleep] ∨
      ∃ n, code = [.detectDeadlock n] := by
  obtain ⟨q, -, rfl⟩ := Option.map_eq_some_iff.mp h
  repeat' split
  all_goals simp

theorem adjustPriority_cases {s s' : State τ μ κ} {t w : τ} {stale : Option τ}
    {priority : BitVec 32} {code : List (Instr τ μ κ)}
    (h : perform s t stale (.adjustPriority w priority) = some (s', code)) :
    threadAdjustPriority walkBound s w priority = some s' ∧ code = [] := by
  obtain ⟨s₁, h₁, heq⟩ := Option.map_eq_some_iff.mp h
  cases heq
  exact ⟨h₁, rfl⟩

theorem testSpin_cases {s s' : State τ μ κ} {t : τ} {stale : Option τ} {async : Bool} {m : μ}
    {code : List (Instr τ μ κ)} (h : perform s t stale (.testSpin async m) = some (s', code)) :
    ∃ s₁, (async = true ∧ s₁ = s ∨
        async = false ∧ threadAdjustPriority walkBound s t (-(s.mutexes m).priCount) = some s₁) ∧
      ((s.mutexes m).numSpin ≠ 0 ∧ code = [.unlockSpun m] ∧
        s' = (if async then { s₁ with timerCount := s₁.timerCount + 1 } else s₁) ∨
      (s.mutexes m).numSpin = 0 ∧
        code = .testQueue async m :: (if async then [] else [.timerRestore]) ∧ s' = s₁) := by
  obtain ⟨s₁, h₁, heq⟩ := Option.map_eq_some_iff.mp h
  refine ⟨s₁, ?_, ?_⟩
  · cases async with
    | true =>
      cases h₁
      exact Or.inl ⟨rfl, rfl⟩
    | false => exact Or.inr ⟨rfl, h₁⟩
  · split at heq <;> rename_i hn <;> cases heq
    · exact Or.inl ⟨hn, rfl, rfl⟩
    · exact Or.inr ⟨not_not.mp hn, rfl, rfl⟩

theorem testQueue_cases {s s' : State τ μ κ} {t : τ} {stale : Option τ} {async : Bool} {m : μ}
    {code : List (Instr τ μ κ)} (h : perform s t stale (.testQueue async m) = some (s', code)) :
    (∃ w, (s.mutexes m).queue = some w ∧ handOff s t m w = some s' ∧ code = [.restart w]) ∨
    (s.mutexes m).queue = none ∧ s' = s ∧
      code = if async then [.unlockFree m] else [.clearHolder m, .unlockFree m] := by
  simp only [perform] at h
  split at h
  · rename_i w hq
    obtain ⟨s₁, h₁, heq⟩ := Option.map_eq_some_iff.mp h
    cases heq
    exact Or.inl ⟨w, hq, h₁, rfl⟩
  · rename_i hq
    cases h
    exact Or.inr ⟨hq, rfl, rfl⟩

theorem boostHolder_cases {s s' : State τ μ κ} {t : τ} {stale : Option τ} {m : μ}
    {code : List (Instr τ μ κ)} (h : perform s t stale (.boostHolder m) = some (s', code)) :
    code = [] ∧ ((s.mutexes m).holder = none ∧ s' = s ∨ ∃ x, (s.mutexes m).holder = some x ∧
      threadAdjustPriority walkBound s x (s.threads t).softPriority = some s') := by
  simp only [perform] at h
  split at h
  · rename_i x hx
    obtain ⟨s₁, h₁, heq⟩ := Option.map_eq_some_iff.mp h
    cases heq
    exact ⟨rfl, Or.inr ⟨x, hx, h₁⟩⟩
  · rename_i hx
    cases h
    exact ⟨rfl, Or.inl ⟨hx, rfl⟩⟩

theorem detectDeadlock_cases {s s' : State τ μ κ} {t : τ} {stale : Option τ} {m : μ}
    {code : List (Instr τ μ κ)} (h : perform s t stale (.detectDeadlock m) = some (s', code)) :
    detectAt s t m = some code ∧ s' = s := by
  obtain ⟨code', hd, heq⟩ := Option.map_eq_some_iff.mp h
  cases heq
  exact ⟨hd, rfl⟩

/-- No instruction changes what is left of a call, its own or another thread's. -/
theorem perform_code {s s' : State τ μ κ} {t : τ} {stale : Option τ} {i : Instr τ μ κ}
    {code : List (Instr τ μ κ)} (h : perform s t stale i = some (s', code)) (u : τ) :
    (s'.threads u).code = (s.threads u).code := by
  have hmap : ∀ {fuel : ℕ} {s₁ : State τ μ κ} {w : τ} {p : BitVec 32},
      threadAdjustPriority fuel s w p = some s₁ → (s₁.threads u).code = (s.threads u).code := by
    intro fuel s₁ w p h₁
    obtain ⟨q, hq⟩ := (threadAdjustPriority_reprioritized h₁).thread u
    rw [hq]
  have hset : ∀ (s : State τ μ κ) (w : τ) (f : Thread τ μ κ → Thread τ μ κ),
      (f (s.threads w)).code = (s.threads w).code →
      ((s.setThread w f).threads u).code = (s.threads u).code := by
    intro s w f hf
    by_cases hu : u = w
    · subst hu
      simpa using hf
    · simp [hu]
  cases i with
  | adjustPriority w priority => exact hmap (adjustPriority_cases h).1
  | testSpin async m =>
    obtain ⟨s₁, h₁, hend⟩ := testSpin_cases h
    have hs₁ : (s₁.threads u).code = (s.threads u).code := by
      rcases h₁ with ⟨-, rfl⟩ | ⟨-, h₁⟩
      · rfl
      · exact hmap h₁
    rcases hend with ⟨-, -, rfl⟩ | ⟨-, -, rfl⟩
    · cases async <;> exact hs₁
    · exact hs₁
  | testQueue async m =>
    rcases testQueue_cases h with ⟨w, -, h₁, -⟩ | ⟨-, rfl, -⟩
    · obtain ⟨a, b, p, hp⟩ := (handOff_handedOff h₁).thread u
      rw [hp]
    · rfl
  | takeSleeper c =>
    simp only [perform] at h
    split at h
    · rename_i w _
      cases h
      obtain ⟨a, b, hab⟩ := threadQueueRemove_relinked s.threads (some w) u
      simp [hab]
    · split at h <;> cases h <;> rfl
  | enqueue m =>
    cases h
    obtain ⟨a, b, hab⟩ := threadQueueInsert_relinked s.threads (s.mutexes m).queue t u
    simp [hab]
  | condEnqueue c =>
    cases h
    obtain ⟨a, b, hab⟩ := threadQueueInsert_relinked s.threads (s.conds c).queue t u
    simp [hab]
  | boostHolder m =>
    rcases (boostHolder_cases h).2 with ⟨-, rfl⟩ | ⟨x, -, h₁⟩
    · rfl
    · exact hmap h₁
  | detectDeadlock m =>
    obtain ⟨-, rfl⟩ := detectDeadlock_cases h
    rfl
  | _ =>
    simp only [perform] at h
    repeat' split at h
    all_goals cases h
    all_goals first
      | rfl
      | exact hset _ _ _ rfl

/-- What an instruction may change in another thread; `awaken` also clears its `wait_type`. -/
def Touched (th th' : Thread τ μ κ) : Prop :=
  ∃ o a b p st, th' = { th with
    waitObj := o, queueNext := a, queueLast := b, softPriority := p, status := st }

omit [DecidableEq τ] [DecidableEq μ] [DecidableEq κ] in
theorem Touched.refl (th : Thread τ μ κ) : Touched th th :=
  ⟨th.waitObj, th.queueNext, th.queueLast, th.softPriority, th.status, rfl⟩

theorem perform_touched {s s' : State τ μ κ} {t : τ} {stale : Option τ} {i : Instr τ μ κ}
    {code : List (Instr τ μ κ)} (h : perform s t stale i = some (s', code))
    (hi : ∀ w, i ≠ .awaken w) {u : τ} (hu : u ≠ t) : Touched (s.threads u) (s'.threads u) := by
  have hadj : ∀ {fuel : ℕ} {s₁ : State τ μ κ} {w : τ} {p : BitVec 32},
      threadAdjustPriority fuel s w p = some s₁ → Touched (s.threads u) (s₁.threads u) := by
    intro fuel s₁ w p h₁
    obtain ⟨q, hq⟩ := (threadAdjustPriority_reprioritized h₁).thread u
    exact ⟨_, _, _, q, _, hq⟩
  have hlink : ∀ {threads' : τ → Thread τ μ κ}, Relinked s.threads threads' →
      Touched (s.threads u) (threads' u) := by
    intro threads' hr
    obtain ⟨a, b, hab⟩ := hr u
    exact ⟨_, a, b, _, _, hab⟩
  cases i with
  | awaken w => exact absurd rfl (hi w)
  | adjustPriority w priority => exact hadj (adjustPriority_cases h).1
  | testSpin async m =>
    obtain ⟨s₁, h₁, hend⟩ := testSpin_cases h
    have hs₁ : Touched (s.threads u) (s₁.threads u) := by
      rcases h₁ with ⟨-, rfl⟩ | ⟨-, h₁⟩
      · exact .refl _
      · exact hadj h₁
    rcases hend with ⟨-, -, rfl⟩ | ⟨-, -, rfl⟩
    · cases async <;> exact hs₁
    · exact hs₁
  | testQueue async m =>
    rcases testQueue_cases h with ⟨w, -, h₁, -⟩ | ⟨-, rfl, -⟩
    · obtain ⟨a, b, p, hp⟩ := (handOff_handedOff h₁).thread u
      exact ⟨_, a, b, p, _, hp⟩
    · exact .refl _
  | takeSleeper c =>
    simp only [perform] at h
    split at h
    · cases h
      exact hlink (threadQueueRemove_relinked _ _)
    · split at h <;> cases h <;> exact .refl _
  | enqueue m =>
    cases h
    exact hlink (threadQueueInsert_relinked _ _ _)
  | condEnqueue c =>
    cases h
    exact hlink (threadQueueInsert_relinked _ _ _)
  | boostHolder m =>
    rcases (boostHolder_cases h).2 with ⟨-, rfl⟩ | ⟨x, -, h₁⟩
    · exact .refl _
    · exact hadj h₁
  | detectDeadlock m =>
    obtain ⟨-, rfl⟩ := detectDeadlock_cases h
    exact .refl _
  | staleBoost m =>
    simp only [perform] at h
    split at h <;> cases h
    · rename_i x
      by_cases hx : u = x
      · subst hx
        simp only [State.setThread_threads, State.setMutex_threads, if_true]
        exact ⟨.none, _, _, _, _, rfl⟩
      · simpa [hx] using .refl _
    · exact .refl _
  | restart w =>
    cases h
    by_cases hw : u = w
    · subst hw
      simp only [State.setThread_threads, if_true]
      exact ⟨_, _, _, _, .runnable, rfl⟩
    · simpa [hw] using .refl _
  | _ =>
    simp only [perform] at h
    repeat' split at h
    all_goals cases h
    all_goals first
      | exact .refl _
      | simpa [hu, acquire, release] using .refl _

theorem next_cases {s s' : State τ μ κ} {e : Event τ μ κ} (h : next s e = some s') :
    (∃ t c, e = .call t c ∧ (s.threads t).code = [] ∧ (∀ m ∈ c.unlocks, s.owns t m = true) ∧
      s' = setCode s t c.code) ∨
    (∃ t, e = .tick t ∧ (∀ i ∈ (s.threads t).code.head?, i.inHandler = false ∧ i ≠ .fault) ∧
      s' = setCode s t (.syncCheck :: .schedule :: (s.threads t).code)) ∨
    ∃ t stale i rest s₁ code, e = .exec t stale ∧ (s.threads t).code = i :: rest ∧
      perform s t stale i = some (s₁, code) ∧
      s' = if i = .schedule then resumed s₁ t rest else setCode s₁ t (code ++ rest) := by
  cases e with
  | call t c =>
    simp only [next] at h
    split at h
    · rename_i hc
      cases h
      exact Or.inl ⟨t, c, rfl, hc.1, hc.2, rfl⟩
    · cases h
  | tick t =>
    simp only [next] at h
    split at h
    · rename_i hc
      cases h
      exact Or.inr (Or.inl ⟨t, rfl, hc, rfl⟩)
    · cases h
  | exec t stale =>
    simp only [next] at h
    split at h
    · cases h
    · rename_i i rest hcode
      obtain ⟨⟨s₁, code⟩, hp, h⟩ := Option.bind_eq_some_iff.mp h
      refine Or.inr (Or.inr ⟨t, stale, i, rest, s₁, code, rfl, hcode, hp, ?_⟩)
      dsimp only at h
      split at h <;> cases h <;> rename_i hi <;> simp [hi]

end Synchronization
