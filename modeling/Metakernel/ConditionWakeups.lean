import Metakernel.MutexQueue

/-!
# Wake-ups of a condition variable

Whole calls of `cond_signal`, `cond_broadcast` and their asynchronous variants, without
interruption and with the lock words of the condition variable. A `spin_lock` of a word that is
already set never returns. `restarted` lists the threads passed to `thread_restart`.
-/
namespace ConditionWakeups

open Synchronization

structure Cond (τ : Type) where
  word : Bool
  numMutex : Bool
  queueMutex : Bool
  typeMutex : Bool
  numSpin : BitVec 32
  broadcast : Bool
  queue : Option τ

structure World (τ μ κ : Type) where
  threads : τ → Thread τ μ κ
  cond : Cond τ
  timerCount : BitVec 16
  restarted : List τ

variable {τ μ κ : Type} [DecidableEq τ] [DecidableEq μ] [DecidableEq κ]

namespace World

def setCond (s : World τ μ κ) (f : Cond τ → Cond τ) : World τ μ κ := { s with cond := f s.cond }

def timerDisable (async : Bool) (s : World τ μ κ) : World τ μ κ :=
  if async then s else { s with timerCount := s.timerCount + 1 }

def timerRestore (async : Bool) (s : World τ μ κ) : World τ μ κ :=
  if async then s else { s with timerCount := s.timerCount - 1 }

def lockNum (s : World τ μ κ) : Option (World τ μ κ) :=
  if s.cond.numMutex then none else some (s.setCond fun c => { c with numMutex := true })

def unlockNum (s : World τ μ κ) : World τ μ κ := s.setCond fun c => { c with numMutex := false }

def lockQueue (s : World τ μ κ) : Option (World τ μ κ) :=
  if s.cond.queueMutex then none else some (s.setCond fun c => { c with queueMutex := true })

def unlockQueue (s : World τ μ κ) : World τ μ κ :=
  s.setCond fun c => { c with queueMutex := false }

def lockType (s : World τ μ κ) : Option (World τ μ κ) :=
  if s.cond.typeMutex then none else some (s.setCond fun c => { c with typeMutex := true })

/-- A null or wild pointer ends the call. -/
def awakenThread (s : World τ μ κ) : Option τ → Option (World τ μ κ)
  | none => none
  | some w => some { s with
      threads := Function.update s.threads w
        { s.threads w with waitType := .none, status := .runnable }
      restarted := s.restarted ++ [w] }

def queueRemove (s : World τ μ κ) : World τ μ κ :=
  { s with
    threads := (threadQueueRemove s.threads s.cond.queue).1
    cond := { s.cond with queue := (threadQueueRemove s.threads s.cond.queue).2 } }

end World

/-- `cond_signal`, or `async_cond_signal`. `stale` is what the variable `wakeup_thread` holds
before it is assigned. -/
def condSignal (async : Bool) (stale : Option τ) (s : World τ μ κ) : Option (World τ μ κ) := do
  let s ← (s.timerDisable async).lockNum
  if s.cond.numSpin ≠ 0 then
    let s ← (s.setCond fun c => { c with numSpin := c.numSpin - 1 }).unlockNum.lockType
    some (s.setCond fun c => { c with broadcast := false, word := false })
  else
    let s ← s.unlockNum.lockQueue
    let wakeup := if s.cond.queue.isSome then s.cond.queue else stale
    let s := if s.cond.queue.isSome then s.queueRemove else s
    let s ← s.unlockQueue.awakenThread wakeup
    some (s.timerRestore async)

def releaseSpinners : ℕ → World τ μ κ → Option (World τ μ κ)
  | 0, s => some s
  | n + 1, s => do
    let s ← s.lockType
    releaseSpinners n (s.setCond fun c => { c with broadcast := true, word := false })

def releaseSleepers : ℕ → World τ μ κ → Option (World τ μ κ)
  | 0, _ => none
  | fuel + 1, s =>
    match s.cond.queue with
    | none => some s
    | some w => do
      let s ← s.queueRemove.awakenThread (some w)
      releaseSleepers fuel s

/-- `cond_broadcast`, or `async_cond_broadcast`. -/
def condBroadcast (async : Bool) (fuel : ℕ) (s : World τ μ κ) : Option (World τ μ κ) := do
  let s ← (s.timerDisable async).lockNum
  let s ← releaseSpinners s.cond.numSpin.toNat s
  let s ← (s.setCond fun c => { c with numSpin := 0 }).unlockNum.lockQueue
  let s ← if s.cond.queue.isSome then (releaseSleepers fuel s).map World.unlockQueue else some s
  some (s.timerRestore async)

/-- Nobody spins, the locks that the calls take are free, and `l` sleeps in the queue. -/
structure Asleep (s : World τ μ κ) (l : List τ) : Prop where
  numSpin : s.cond.numSpin = 0
  numMutex : s.cond.numMutex = false
  queueMutex : s.cond.queueMutex = false
  sleepers : Sleepers s.threads s.cond.queue l

def Released (s : World τ μ κ) : Prop := s.cond.numMutex = false ∧ s.cond.queueMutex = false

/-- The signal restarts one of the sleepers and removes that one, or nobody when there is none. -/
def SignalServes (async : Bool) (stale : Option τ) (s : World τ μ κ) (l : List τ) : Prop :=
  ∃ s', condSignal async stale s = some s' ∧ Released s' ∧
    ((l = [] ∧ s'.restarted = s.restarted ∧ s'.cond.queue = none) ∨
      ∃ w ∈ l, s'.restarted = s.restarted ++ [w] ∧
        ∃ l', l'.Perm (l.erase w) ∧ Sleepers s'.threads s'.cond.queue l')

def BroadcastServes (async : Bool) (s : World τ μ κ) (l : List τ) : Prop :=
  ∃ fuel s', condBroadcast async fuel s = some s' ∧ Released s' ∧ s'.cond.queue = none ∧
    ∃ r, r.Perm l ∧ s'.restarted = s.restarted ++ r

variable {async : Bool} {stale : Option τ} {s s' : World τ μ κ} {l : List τ} {w : τ}

omit [DecidableEq μ] [DecidableEq κ] in
/-- The removal takes the oldest sleeper, the wake-up goes to another thread. -/
theorem awaken_removed (h : Sleepers s.threads s.cond.queue l)
    (hs' : s.queueRemove.awakenThread (some w) = some s') :
    Sleepers s'.threads s'.cond.queue l.dropLast ∧ s'.restarted = s.restarted ++ [w] ∧
      s'.cond.numMutex = s.cond.numMutex := by
  have hremove := h.remove
  cases hs'
  refine ⟨hremove.congr fun u _ => ?_, rfl, rfl⟩
  by_cases hu : u = w <;> simp [World.queueRemove, hu]

/-- The state in which the section under `queue_mutex` begins. -/
def World.entered (async : Bool) (s : World τ μ κ) : World τ μ κ :=
  (s.timerDisable async).setCond fun c => { c with queueMutex := true }

/-- The state in which the section under `queue_mutex` ends. -/
def World.left (async : Bool) (s : World τ μ κ) : World τ μ κ := s.unlockQueue.timerRestore async

section

omit [DecidableEq τ] [DecidableEq μ] [DecidableEq κ]

theorem entered_fields : (s.entered async).threads = s.threads ∧
    (s.entered async).cond.queue = s.cond.queue ∧ (s.entered async).restarted = s.restarted ∧
    (s.entered async).cond.numMutex = s.cond.numMutex := by
  cases async <;> exact ⟨rfl, rfl, rfl, rfl⟩

theorem left_fields : (s.left async).threads = s.threads ∧
    (s.left async).cond.queue = s.cond.queue ∧ (s.left async).restarted = s.restarted := by
  cases async <;> exact ⟨rfl, rfl, rfl⟩

theorem left_released (h : s.cond.numMutex = false) : Released (s.left async) := by
  cases async <;> exact ⟨h, rfl⟩

end

section

omit [DecidableEq μ] [DecidableEq κ]

theorem Asleep.entered (h : Asleep s l) :
    Sleepers (s.entered async).threads (s.entered async).cond.queue l := by
  rw [entered_fields.1, entered_fields.2.1]
  exact h.sleepers

theorem condSignal_none (h : Asleep s []) :
    condSignal async stale s =
      ((s.entered async).unlockQueue.awakenThread stale).map (World.timerRestore async) := by
  have hqueue : s.cond.queue = none := h.sleepers.entry
  obtain ⟨threads, ⟨word, numMutex, queueMutex, typeMutex, numSpin, broadcast, queue⟩, count,
    restarted⟩ := s
  obtain ⟨rfl, rfl, rfl, -⟩ := h
  cases hqueue
  cases async <;> cases stale <;> rfl

theorem condSignal_some (async : Bool) (stale : Option τ) (h : Asleep s (w :: l)) :
    ∃ s', (s.entered async).queueRemove.awakenThread (some w) = some s' ∧
      condSignal async stale s = some (s'.left async) := by
  have hqueue : s.cond.queue = some w := h.sleepers.entry
  obtain ⟨threads, ⟨word, numMutex, queueMutex, typeMutex, numSpin, broadcast, queue⟩, count,
    restarted⟩ := s
  obtain ⟨rfl, rfl, rfl, -⟩ := h
  cases hqueue
  cases async <;> exact ⟨_, rfl, rfl⟩

theorem condBroadcast_none (h : Asleep s []) (fuel : ℕ) :
    condBroadcast async fuel s = some (((s.entered async).timerRestore async)) := by
  have hqueue : s.cond.queue = none := h.sleepers.entry
  obtain ⟨threads, ⟨word, numMutex, queueMutex, typeMutex, numSpin, broadcast, queue⟩, count,
    restarted⟩ := s
  obtain ⟨rfl, rfl, rfl, -⟩ := h
  cases hqueue
  cases async <;> rfl

theorem condBroadcast_some (h : Asleep s (w :: l)) (fuel : ℕ) :
    condBroadcast async fuel s = (releaseSleepers fuel (s.entered async)).map
      (World.left async) := by
  have hqueue : s.cond.queue = some w := h.sleepers.entry
  obtain ⟨threads, ⟨word, numMutex, queueMutex, typeMutex, numSpin, broadcast, queue⟩, count,
    restarted⟩ := s
  obtain ⟨rfl, rfl, rfl, -⟩ := h
  cases hqueue
  have hbind : ∀ x : Option (World τ μ κ), ((x.map World.unlockQueue).bind
      fun s' => some (s'.timerRestore async)) =
        x.map (World.left async) := by
    intro x
    cases x <;> rfl
  rw [← hbind]
  cases async <;> rfl

theorem releaseSleepers_restarted {fuel : ℕ} (h : releaseSleepers fuel s = some s') :
    ∃ r, s'.restarted = s.restarted ++ r := by
  induction fuel generalizing s with
  | zero => cases h
  | succ fuel ih =>
    rw [releaseSleepers] at h
    split at h
    · cases h
      exact ⟨[], (List.append_nil _).symm⟩
    · rename_i w _
      obtain ⟨r, hr⟩ := ih h
      refine ⟨w :: r, hr.trans ?_⟩
      simp [World.queueRemove]

theorem signalServes_iff (h : Asleep s l) : SignalServes async stale s l ↔ l.length = 1 := by
  rcases l with _ | ⟨w, l⟩
  · refine ⟨fun hserves => ?_, fun hlen => by cases hlen⟩
    obtain ⟨s', hs', -, hnone | ⟨w, hw, -⟩⟩ := hserves
    · rw [condSignal_none h] at hs'
      obtain ⟨s₁, hs₁, rfl⟩ := Option.map_eq_some_iff.mp hs'
      have hrestarted := hnone.2.1
      cases stale with
      | none => cases hs₁
      | some x =>
        cases hs₁
        cases async <;> simp [World.timerRestore, World.unlockQueue, World.setCond, World.entered,
          World.timerDisable] at hrestarted
    · cases hw
  · obtain ⟨s₁, hs₁, hsignal⟩ := condSignal_some async stale h
    obtain ⟨hleft, hrestarted, hnum⟩ := awaken_removed h.entered hs₁
    rw [entered_fields.2.2.1] at hrestarted
    rw [entered_fields.2.2.2, h.numMutex] at hnum
    rcases l with _ | ⟨x, l⟩
    · refine ⟨fun _ => rfl, fun _ => ⟨_, hsignal, left_released hnum, Or.inr ?_⟩⟩
      refine ⟨w, List.mem_singleton_self w, left_fields.2.2.trans hrestarted, [], ?_, ?_⟩
      · simp
      · rw [left_fields.1, left_fields.2.1]
        exact hleft
    · refine ⟨fun hserves => ?_, fun hlen => by cases hlen⟩
      obtain ⟨s', hs', -, hnone | ⟨w', hw', hrestarted', l', hperm, hsleepers⟩⟩ := hserves
      · cases hnone.1
      · rw [hsignal] at hs'
        cases hs'
        rw [left_fields.2.2, hrestarted] at hrestarted'
        have heq : w' = w := by simpa using hrestarted'.symm
        -- the restarted thread is still the entry of the queue
        have hentry := hsleepers.entry
        rw [left_fields.2.1, hleft.entry] at hentry
        have hmem : w ∈ l' := List.mem_of_mem_head? hentry.symm
        rw [hperm.mem_iff, heq] at hmem
        exact (h.sleepers.nodup.not_mem_erase hmem).elim

theorem releaseSleepers_some {fuel : ℕ} {s₁ : World τ μ κ} (hw : s.cond.queue = some w)
    (hs₁ : s.queueRemove.awakenThread (some w) = some s₁) :
    releaseSleepers (fuel + 1) s = releaseSleepers fuel s₁ := by
  rw [releaseSleepers, hw]
  simp only
  rw [hs₁]
  rfl

theorem broadcastServes_iff (h : Asleep s l) : BroadcastServes async s l ↔ l.length = 1 := by
  rcases l with _ | ⟨w, l⟩
  · refine ⟨fun hserves => ?_, fun hlen => by cases hlen⟩
    obtain ⟨fuel, s', hs', hreleased, -⟩ := hserves
    rw [condBroadcast_none h] at hs'
    cases hs'
    cases async <;> cases hreleased.2
  · have hqueue : (s.entered async).cond.queue = some w := h.entered.entry
    obtain ⟨s₁, hs₁, -⟩ := condSignal_some async none h
    obtain ⟨hleft, hrestarted, hnum⟩ := awaken_removed h.entered hs₁
    rw [entered_fields.2.2.1] at hrestarted
    rw [entered_fields.2.2.2, h.numMutex] at hnum
    rcases l with _ | ⟨x, l⟩
    · refine ⟨fun _ => rfl, fun _ => ⟨2, s₁.left async, ?_, left_released hnum, ?_, [w], ?_, ?_⟩⟩
      · rw [condBroadcast_some h, releaseSleepers_some hqueue hs₁, releaseSleepers,
          show s₁.cond.queue = none from hleft.entry]
        rfl
      · rw [left_fields.2.1]
        exact hleft.entry
      · exact List.Perm.refl _
      · exact left_fields.2.2.trans hrestarted
    · refine ⟨fun hserves => ?_, fun hlen => by cases hlen⟩
      obtain ⟨fuel, s', hs', -, -, r, hperm, hr⟩ := hserves
      rw [condBroadcast_some h] at hs'
      obtain ⟨s₂, hs₂, rfl⟩ := Option.map_eq_some_iff.mp hs'
      -- the second round of the loop finds the same thread at the entry
      have hagain : s₁.cond.queue = some w := hleft.entry
      obtain ⟨s₃, hs₃⟩ : ∃ s₃, s₁.queueRemove.awakenThread (some w) = some s₃ := ⟨_, rfl⟩
      obtain ⟨-, hrestarted₃, -⟩ := awaken_removed hleft hs₃
      rcases fuel with _ | _ | fuel
      · cases hs₂
      · rw [releaseSleepers_some hqueue hs₁] at hs₂
        cases hs₂
      · rw [releaseSleepers_some hqueue hs₁, releaseSleepers_some hagain hs₃] at hs₂
        obtain ⟨r', hr'⟩ := releaseSleepers_restarted hs₂
        rw [left_fields.2.2, hr', hrestarted₃, hrestarted] at hr
        have hdouble : r = w :: w :: r' := by simpa using hr.symm
        have hnodup := (hperm.nodup_iff).mpr h.sleepers.nodup
        rw [hdouble] at hnodup
        simp at hnodup

/-- With nobody spinning, a signal, and a broadcast, serve the sleepers of a condition variable
exactly when one thread sleeps. -/
theorem cond_wakeups_one_sleeper (h : Asleep s l) (stale : Option τ) (async : Bool) :
    (SignalServes async stale s l ↔ l.length = 1) ∧ (BroadcastServes async s l ↔ l.length = 1) :=
  ⟨signalServes_iff h, broadcastServes_iff h⟩

end

def asleep (l : List (Fin 3)) : World (Fin 3) Empty Empty :=
  let q := l.foldr (fun t q => threadQueueInsert q.1 q.2 t)
    (fun _ => ⟨.cond, .none, none, none, 0, .intSleep, true, [], none⟩, none)
  ⟨q.1, ⟨true, false, false, false, 0, false, q.2⟩, 0, []⟩

theorem asleep_asleep {l : List (Fin 3)} (hl : l.Nodup) : Asleep (asleep l) l := by
  refine ⟨rfl, rfl, rfl, ?_⟩
  change Sleepers (l.foldr (fun t q => threadQueueInsert q.1 q.2 t) _).1
    (l.foldr (fun t q => threadQueueInsert q.1 q.2 t) _).2 l
  induction l with
  | nil => exact ⟨rfl, LinkedNodes.ring_nil _⟩
  | cons t l ih =>
    have hl := List.nodup_cons.mp hl
    exact (ih hl.2).insert hl.1

theorem cond_wakeups_one_sleeper_served : Asleep (asleep [0]) [0] ∧
    SignalServes false none (asleep [0]) [0] ∧ BroadcastServes true (asleep [0]) [0] :=
  ⟨asleep_asleep (by decide),
    (cond_wakeups_one_sleeper (asleep_asleep (by decide)) none false).1.mpr rfl,
    (cond_wakeups_one_sleeper (asleep_asleep (by decide)) none true).2.mpr rfl⟩

theorem cond_wakeups_two_sleepers : ¬ ∀ (s : World (Fin 3) Empty Empty) (l : List (Fin 3)),
    Asleep s l → ∀ (stale : Option (Fin 3)) (async : Bool),
      SignalServes async stale s l ∧ BroadcastServes async s l := by
  intro hall
  have hasleep : Asleep (asleep [0, 1]) [0, 1] := asleep_asleep (by decide)
  have hserves := (hall _ _ hasleep none false).1
  rw [signalServes_iff hasleep] at hserves
  cases hserves

end ConditionWakeups
