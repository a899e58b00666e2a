import Metakernel.SchedulerFrames
import Metakernel.Synchronization

/-!
# The schedulers of all CPUs

A timer interrupt puts a waiting thread on the queue of its mutex or condition (`sync_check`), and
only then takes it off the run queue (`sched_resched`). A wake-up takes a thread from a queue and
passes it to `thread_restart`, which puts it on a run queue of any CPU.

The thread on whose stack a CPU runs is the one that its last `sched_resched` returned, the current
thread of its scheduler; an idle CPU runs on a stack of its own. `lowest_load` and `highest_load`
read the counts one by one while other CPUs change them, so what they return comes with the event.
-/
namespace ManySchedulers

open Scheduler GuardedRuns
open Synchronization (WaitType)

/-- `queue` lists the ring of sleepers, newest first: an insertion puts a thread in front, a
removal takes the last one. `waking` holds the threads that a wake-up has taken from a queue and
not yet passed to `thread_restart`; `checked` says that a CPU is between its `sync_check` and its
`sched_resched`. `started` is bookkeeping: a thread is passed to `thread_insert` once. -/
structure System (τ ο : Type) where
  threads : τ → Thread
  scheds : BitVec 32 → Sched τ
  waitType : τ → WaitType
  waitObj : τ → Option ο
  queue : ο → List τ
  waking : List τ
  checked : BitVec 32 → Bool
  started : τ → Bool

variable {τ ο : Type} [DecidableEq τ] [DecidableEq ο]

/-- What the functions of scheduler.c see on the CPU `c`. -/
def System.at (g : System τ ο) (c : BitVec 32) : State τ := ⟨g.threads, g.scheds c⟩

def System.put (g : System τ ο) (c : BitVec 32) (s : State τ) : System τ ο :=
  { g with threads := s.threads, scheds := Function.update g.scheds c s.sched }

def System.setThread (g : System τ ο) (t : τ) (f : Thread → Thread) : System τ ο :=
  { g with threads := Scheduler.setThread g.threads t f }

/-- `rebalance_load` with the outcome of `highest_load`. -/
def rebalanceLoad (max : BitVec 32) (g : System τ ο) (c : BitVec 32) : System τ ο :=
  let loadDiff := (g.scheds max).totalCount - (g.scheds c).totalCount
  if max ≠ c ∧ (0 : BitVec 32).slt loadDiff then
    let r := schedEschewThread (g.at max)
    let g := g.put max r.1
    match r.2 with
    | none => g
    | some t => g.put c (schedReassignThread (g.at c) t)
  else g

def removeCurrent (env : Env τ) (max : BitVec 32) (g : System τ ο) (c : BitVec 32) (t : τ) :
    System τ ο :=
  let g := rebalanceLoad max (g.put c (detachCurrent env (g.at c) t)) c
  g.put c ((g.at c).setSched fun sc => { sc with currentThread := heapHead sc.runningQueue })

def testRunnable (env : Env τ) (max : BitVec 32) (g : System τ ο) (c : BitVec 32) : System τ ο :=
  match (g.scheds c).currentThread with
  | some t =>
    if (g.threads t).status.isRunnable then g
    else
      let g := removeCurrent env max g c t
      g.put c ((g.at c).setSched fun sc => { sc with currentThread := none })
  | none => g

def schedResched (env : Env τ) (max : BitVec 32) (g : System τ ο) (c : BitVec 32) :
    Option (System τ ο) :=
  let g := g.put c ((g.at c).setSched fun sc => { sc with
    affinityCount := sc.affinityCount + env.pageFaults })
  let g := testRunnable env max g c
  (afterTest env (g.at c)).map fun r => g.put c r.1

/-- `sched_exchange_thread`. The second and the third entry are read whatever the size. -/
def schedExchangeThread (alloc : Allocator) (s : State τ) (t : τ) : State τ × τ :=
  match heapHead s.sched.affinityQueue with
  | none => (s, t)
  | some head =>
    if (s.threads t).cpuId = s.sched.cpuId then (s, t)
    else
      let second := s.sched.affinityQueue.dataName 2
      let third := s.sched.affinityQueue.dataName 3
      let out := if s.sched.currentThread ≠ some head then head
        else if (s.threads second).affinity.ult (s.threads third).affinity then second else third
      if (s.threads out).affinity.ult (s.threads t).affinity then
        (schedRestartThread alloc (deleteFromQueue s out) t, out)
      else (s, t)

def threadRestart (alloc : Allocator) (min : BitVec 32) (g : System τ ο) (t : τ) : System τ ο :=
  let g := g.setThread t fun th => { th with status := th.runStatus }
  let home := (g.threads t).cpuId
  if min = home then g.put min (schedRestartThread alloc (g.at min) t)
  else
    let r := schedExchangeThread alloc (g.at home) t
    let g := g.put home r.1
    g.put min (schedRestartThread alloc (g.at min) r.2)

def threadInsert (alloc : Allocator) (min : BitVec 32) (g : System τ ο) (t : τ) : System τ ο :=
  let g := g.setThread t fun th => { th with status := .runnable, runStatus := .runnable }
  g.put min (schedInsertThread alloc (g.at min) t)

/-- What `lock_sleep` and `wait_sleep` do to the thread `t` and to the queue of `o`. -/
def fallAsleep (g : System τ ο) (t : τ) (o : ο) : System τ ο :=
  { g.setThread t fun th => { th with status := .intSleep } with
    queue := Function.update g.queue o (t :: g.queue o) }

/-- Nothing is done about a deadlock; `none` where a null pointer is followed. -/
def syncCheck (deadlock : Bool) (g : System τ ο) (c : BitVec 32) : Option (System τ ο) :=
  match (g.scheds c).currentThread with
  | none => some g
  | some t =>
    match g.waitType t with
    | .none => some g
    | .mutex => (g.waitObj t).map fun o => if deadlock then g else fallAsleep g t o
    | .cond => (g.waitObj t).map fun o => fallAsleep g t o

/-- The thread that is awakened is the one at the entry of the ring, the thread that is removed
from the ring is the one before it. -/
def takeSleeper (g : System τ ο) (o : ο) (w : τ) : System τ ο :=
  { g with queue := Function.update g.queue o (g.queue o).dropLast, waking := w :: g.waking }

/-- The hand-off of `mutex_unlock` up to `thread_restart`. The `wait_obj` is null by the time that
`thread_adjust_priority` follows it. `priority` is the `pri_count` of the mutex. -/
def handOff (g : System τ ο) (o : ο) (w : τ) (priority : BitVec 32) : Option (System τ ο) :=
  let g := { takeSleeper g o w with waitObj := Function.update g.waitObj w none }
  if g.waitType w = .mutex ∧ ¬ (g.threads w).status.isRunnable then none
  else
    let home := (g.threads w).cpuId
    some (g.put home (threadAdjustPriority (g.at home) w priority))

inductive Event (τ ο : Type) where
  | threadInsert (t : τ) (min : BitVec 32) (alloc : Allocator)
  | wait (c : BitVec 32) (waitType : WaitType) (waitObj : Option ο)
  | syncCheck (c : BitVec 32) (deadlock : Bool)
  | schedResched (c max : BitVec 32) (env : Env τ)
  | mutexUnlock (o : ο) (priority : BitVec 32)
  | condSignal (o : ο) (stale : τ)
  | threadRestart (t : τ) (min : BitVec 32) (alloc : Allocator)
  | adjustPriority (t : τ) (priority : BitVec 32)

/-- A running thread writes its wait fields when it is not in the interrupt. `mutexUnlock` and
`condSignal` are the branches that wake a thread up; `cond_signal` awakens whatever its variable
held when the queue is empty. -/
def step (g : System τ ο) : Event τ ο → Option (System τ ο)
  | .threadInsert t min alloc =>
    if g.started t then none
    else some { threadInsert alloc min g t with started := Function.update g.started t true }
  | .wait c waitType waitObj =>
    if g.checked c then none
    else (g.scheds c).currentThread.map fun t => { g with
      waitType := Function.update g.waitType t waitType
      waitObj := Function.update g.waitObj t waitObj }
  | .syncCheck c deadlock =>
    if g.checked c then none
    else (syncCheck deadlock g c).map fun g => { g with
      checked := Function.update g.checked c true }
  | .schedResched c max env =>
    if g.checked c then (schedResched env max g c).map fun g => { g with
      checked := Function.update g.checked c false }
    else none
  | .mutexUnlock o priority => (g.queue o).head?.bind fun w => handOff g o w priority
  | .condSignal o stale => some { takeSleeper g o ((g.queue o).headD stale) with
      waitType := Function.update g.waitType ((g.queue o).headD stale) .none }
  | .threadRestart t min alloc =>
    if t ∈ g.waking then
      some { threadRestart alloc min g t with waking := g.waking.erase t }
    else none
  | .adjustPriority t priority =>
    let home := (g.threads t).cpuId
    some (g.put home (threadAdjustPriority (g.at home) t priority))

def start (alloc : BitVec 32 → Allocator) (any : τ) (threads : τ → Thread) : System τ ο where
  threads
  scheds c := schedInit (alloc c) any c
  waitType _ := .none
  waitObj _ := none
  queue _ := []
  waking := []
  checked _ := false
  started _ := false

section Queues

variable {g g' : System τ ο} {c d : BitVec 32} {s : State τ} {S : Set τ} {t u : τ} {m n : ℕ}

section

omit [DecidableEq τ] [DecidableEq ο]

@[simp] theorem at_put_self (g : System τ ο) (c : BitVec 32) (s : State τ) :
    (g.put c s).at c = s := by
  simp [System.at, System.put]

theorem at_put_ne (g : System τ ο) (s : State τ) (hd : d ≠ c) :
    (g.put c s).at d = ⟨s.threads, g.scheds d⟩ := by
  simp [System.at, System.put, hd]

@[simp] theorem scheds_put_self (g : System τ ο) (c : BitVec 32) (s : State τ) :
    (g.put c s).scheds c = s.sched := by
  simp [System.put]

theorem scheds_put_ne (g : System τ ο) (s : State τ) (hd : d ≠ c) :
    (g.put c s).scheds d = g.scheds d := by
  simp [System.put, hd]

def Kept (m : ℕ) (g : System τ ο) (c : BitVec 32) : Prop :=
  (g.scheds c).cpuId = c ∧ ∃ R F, Members m (g.at c) R F

def Queued (g : System τ ο) (c : BitVec 32) (t : τ) : Prop := (g.at c).queued t

instance (g : System τ ο) (c : BitVec 32) (t : τ) : Decidable (Queued g c t) :=
  inferInstanceAs (Decidable ((g.at c).queued t))

theorem queued_put_ne (s : State τ) (hd : d ≠ c) : Queued (g.put c s) d t ↔ Queued g d t := by
  rw [Queued, at_put_ne g s hd]
  exact Iff.rfl

theorem Kept.cpu (h : Kept m g c) (ht : Queued g c t) : (g.threads t).cpuId = c := by
  obtain ⟨hid, R, F, hm⟩ := h
  exact (hm.cpu t (hm.queued_iff.mp ht)).trans hid

theorem Kept.only (h : Kept m g c) (h' : Kept n g d) (hne : d ≠ c) (ht : Queued g c t) :
    ¬ Queued g d t := fun ht' => hne ((h'.cpu ht').symm.trans (h.cpu ht))

/-- What a call on the scheduler of `c` does: it writes to threads of `S` only, and afterwards the
scheduler holds threads of `S` only. -/
structure Call (S : Set τ) (m : ℕ) (g : System τ ο) (c : BitVec 32) (s : State τ) : Prop where
  within : Within S (g.at c) s
  members : ∃ R F, Members m s R F ∧ R ∪ F ⊆ S

theorem Call.kept (h : Call S m g c s) (hc : (g.scheds c).cpuId = c) : Kept m (g.put c s) c := by
  obtain ⟨R, F, hm, -⟩ := h.members
  refine ⟨?_, R, F, ?_⟩
  · rw [scheds_put_self, h.within.cpuId]
    exact hc
  · rw [at_put_self]
    exact hm

theorem Call.others (h : Call S n g c s) (hk : Kept m g d) (hd : d ≠ c)
    (hS : ∀ u ∈ S, ¬ Queued g d u) : Kept m (g.put c s) d := by
  obtain ⟨hid, R, F, hm⟩ := hk
  refine ⟨(congrArg Sched.cpuId (scheds_put_ne g s hd)).trans hid, R, F, ?_⟩
  rw [at_put_ne g s hd]
  apply hm.of_threads
  intro u hu
  exact h.within.outside u fun hmem => hS u hmem (hm.queued_iff.mpr hu)

theorem Call.queued (h : Call S m g c s) (ht : Queued (g.put c s) c t) : t ∈ S := by
  obtain ⟨R, F, hm, hsub⟩ := h.members
  rw [Queued, at_put_self] at ht
  exact hsub (hm.queued_iff.mp ht)

theorem Call.status (h : Call S m g c s) (u : τ) :
    ((g.put c s).threads u).status = (g.threads u).status := h.within.status u

/-- A call that adds the thread `t`, which was nowhere. -/
theorem Call.all_insert (h : Call (insert t {u | Queued g c u}) m g c s) (hk : ∀ d, Kept m g d)
    (ht : ∀ d, ¬ Queued g d t) : ∀ d, Kept m (g.put c s) d := by
  intro d
  by_cases hd : d = c
  · subst hd
    exact h.kept (hk d).1
  · apply h.others (hk d) hd
    rintro u (rfl | hu)
    · exact ht d
    · exact (hk c).only (hk d) hd hu

def AllSeated (g : System τ ο) : Prop :=
  ∀ c t, (g.scheds c).currentThread = some t → (g.scheds c).runningQueue.holds t

theorem AllSeated.queued (h : AllSeated g) (ht : (g.scheds c).currentThread = some t) :
    Queued g c t := Or.inl (h c t ht)

theorem AllSeated.seated (h : AllSeated g) {R F : Set τ} (hm : Members m (g.at c) R F) :
    Seated (g.at c) R := fun t ht => (holds_iff hm.parts.running).mp (h c t ht)

theorem AllSeated.put (h : AllSeated g) {R F : Set τ} (hm : Members m s R F) (hs : Seated s R) :
    AllSeated (g.put c s) := by
  intro d t ht
  by_cases hd : d = c
  · subst hd
    rw [scheds_put_self] at ht ⊢
    exact (holds_iff hm.parts.running).mpr (hs t ht)
  · rw [scheds_put_ne g s hd] at ht ⊢
    exact h d t ht

structure Others (c : BitVec 32) (g g' : System τ ο) : Prop where
  kept : ∀ d, d ≠ c → Kept 0 g' d
  seated : ∀ d, d ≠ c → ∀ t, (g'.scheds d).currentThread = some t →
    (g'.scheds d).runningQueue.holds t
  current : ∀ d, d ≠ c → (g'.scheds d).currentThread = (g.scheds d).currentThread
  queued : ∀ d, d ≠ c → ∀ u, Queued g' d u → Queued g d u
  status : ∀ u, (g'.threads u).status = (g.threads u).status
  cpuId : (g'.scheds c).cpuId = c
  same : g'.queue = g.queue ∧ g'.waking = g.waking ∧ g'.checked = g.checked ∧
    g'.started = g.started

theorem Others.refl (hk : ∀ d, Kept 0 g d) (hs : AllSeated g) (c : BitVec 32) : Others c g g :=
  ⟨fun d _ => hk d, fun d _ => hs d, fun _ _ => rfl, fun _ _ _ => id, fun _ => rfl, (hk c).1,
    rfl, rfl, rfl, rfl⟩

/-- The scheduler of `c` itself is written. -/
theorem Others.put (h : Others c g g') (hcall : Call S m g' c s)
    (hS : ∀ u ∈ S, ∀ d, d ≠ c → ¬ Queued g' d u) : Others c g (g'.put c s) where
  kept d hd := hcall.others (h.kept d hd) hd fun u hu => hS u hu d hd
  seated d hd t ht := by
    rw [scheds_put_ne g' s hd] at ht ⊢
    exact h.seated d hd t ht
  current d hd := (congrArg Sched.currentThread (scheds_put_ne g' s hd)).trans (h.current d hd)
  queued d hd u hu := h.queued d hd u ((queued_put_ne s hd).mp hu)
  status u := (hcall.status u).trans (h.status u)
  cpuId := by
    rw [scheds_put_self, hcall.within.cpuId]
    exact h.cpuId
  same := h.same

theorem Others.put_other (h : Others c g g') (hd : d ≠ c)
    (hcall : Call {u | Queued g' d u} 0 g' d s)
    (hcur : s.sched.currentThread = (g'.scheds d).currentThread)
    (hseat : ∀ t, s.sched.currentThread = some t → s.sched.runningQueue.holds t) :
    Others c g (g'.put d s) where
  kept e he := by
    by_cases hed : e = d
    · subst hed
      exact hcall.kept (h.kept e he).1
    · exact hcall.others (h.kept e he) hed fun u hu => (h.kept d hd).only (h.kept e he) hed hu
  seated e he t ht := by
    by_cases hed : e = d
    · subst hed
      rw [scheds_put_self] at ht ⊢
      exact hseat t ht
    · rw [scheds_put_ne g' s hed] at ht ⊢
      exact h.seated e he t ht
  current e he := by
    by_cases hed : e = d
    · subst hed
      rw [scheds_put_self, hcur]
      exact h.current e he
    · rw [scheds_put_ne g' s hed]
      exact h.current e he
  queued e he u hu := by
    by_cases hed : e = d
    · subst hed
      exact h.queued e he u (hcall.queued hu)
    · exact h.queued e he u ((queued_put_ne s hed).mp hu)
  status u := (hcall.status u).trans (h.status u)
  cpuId := (congrArg Sched.cpuId (scheds_put_ne g' s hd.symm)).trans h.cpuId
  same := h.same

end

/-- The thread that `sched_eschew_thread` gives away is not the current one. -/
theorem eschew_members (address : τ ↪ ThreadBlock) {R F : Set τ} (h : Members 0 s R F)
    (hseat : Seated s R) : ∃ R' F', Members 0 (schedEschewThread s).1 R' F' ∧ R' ∪ F' ⊆ R ∪ F ∧
      Seated (schedEschewThread s).1 R' ∧
      (schedEschewThread s).1.sched.currentThread = s.sched.currentThread ∧
      ∀ v, (schedEschewThread s).2 = some v → v ∈ R ∪ F ∧ s.sched.currentThread ≠ some v ∧
        v ∉ R' ∪ F' := by
  obtain hnone | ⟨out, hout, hcur, hsome, hm, hsame⟩ := h.eschew address
  · rw [hnone]
    refine ⟨R, F, h, subset_rfl, hseat, rfl, fun v hv => ?_⟩
    cases hv
  · refine ⟨R \ {out}, F \ {out}, hm, ?_, fun t ht => ?_, hsame, fun v hv => ?_⟩
    · rw [← remove_union]
      exact Set.sdiff_subset
    · rw [hsame] at ht
      exact ⟨hseat t ht, fun heq => hcur (heq ▸ ht)⟩
    · obtain rfl : out = v := Option.some_inj.mp (hsome.symm.trans hv)
      rw [← remove_union]
      exact ⟨hout, hcur, fun hmem => hmem.2 rfl⟩

omit [DecidableEq ο] in
/-- A thread is taken from the scheduler of `max`. -/
theorem eschew_others (address : τ ↪ ThreadBlock) {max : BitVec 32} {R F : Set τ}
    (h : Others c g g') (hm : Members 1 (g'.at c) R F) (hmax : max ≠ c) :
    Others c g (g'.put max (schedEschewThread (g'.at max)).1) ∧
      Members 1 ((g'.put max (schedEschewThread (g'.at max)).1).at c) R F ∧
      ∀ v, (schedEschewThread (g'.at max)).2 = some v → Queued g' max v ∧
        (g'.scheds max).currentThread ≠ some v ∧
        ∀ d, ¬ Queued (g'.put max (schedEschewThread (g'.at max)).1) d v := by
  have hkc : Kept 1 g' c := ⟨h.cpuId, R, F, hm⟩
  have hkmax := h.kept max hmax
  obtain ⟨hid, Rm, Fm, hmm⟩ := h.kept max hmax
  have hseat : Seated (g'.at max) Rm :=
    fun t ht => (holds_iff hmm.parts.running).mp (h.seated max hmax t ht)
  obtain ⟨R', F', hm', hsub, hseat', hsame, hout⟩ := eschew_members address hmm hseat
  have hqueued : ∀ u ∈ Rm ∪ Fm, Queued g' max u := fun u hu => hmm.queued_iff.mpr hu
  have hwithin : Within (Rm ∪ Fm) (g'.at max) (schedEschewThread (g'.at max)).1 :=
    hmm.eschew_within
  have hcall : Call {u | Queued g' max u} 0 g' max (schedEschewThread (g'.at max)).1 :=
    ⟨hwithin.mono hqueued, R', F', hm', fun u hu => hqueued u (hsub hu)⟩
  refine ⟨h.put_other hmax hcall hsame fun t ht => ?_, ?_, fun v hv => ?_⟩
  · exact (holds_iff hm'.parts.running).mpr (hseat' t ht)
  · rw [at_put_ne g' _ hmax.symm]
    apply hm.of_threads
    intro u hu
    exact hwithin.outside u fun hmem =>
      hkc.only hkmax hmax (hm.queued_iff.mpr hu) (hqueued u hmem)
  · obtain ⟨hmem, hcur, hgone⟩ := hout v hv
    refine ⟨hqueued v hmem, hcur, fun d hd => ?_⟩
    by_cases hdmax : d = max
    · subst hdmax
      rw [Queued, at_put_self] at hd
      exact hgone (hm'.queued_iff.mp hd)
    · have hd' : Queued g' d v := (queued_put_ne _ hdmax).mp hd
      by_cases hdc : d = c
      · subst hdc
        exact hkmax.only hkc hdmax (hqueued v hmem) hd'
      · exact hkmax.only (h.kept d hdc) hdmax (hqueued v hmem) hd'

omit [DecidableEq ο] in
/-- `rebalance_load` after a thread has left the scheduler of `c`. -/
theorem rebalance_others (address : τ ↪ ThreadBlock) (max : BitVec 32) {R F : Set τ}
    (h : Others c g g') (hm : Members 1 (g'.at c) R F) :
    Others c g (rebalanceLoad max g' c) ∧
      ∃ R', Members 0 ((rebalanceLoad max g' c).at c) R' F ∧
        ∀ u ∈ R', u ∈ R ∨ ∃ d, d ≠ c ∧ Queued g d u ∧ (g.scheds d).currentThread ≠ some u := by
  rw [rebalanceLoad]
  split
  · rename_i hload
    obtain ⟨hothers, hmc, hout⟩ := eschew_others address h hm hload.1
    dsimp only
    split
    · exact ⟨hothers, R, hmc.spare_le (Nat.zero_le 1), fun u hu => Or.inl hu⟩
    · rename_i v hv
      obtain ⟨hmax, hcur, hnone⟩ := hout v hv
      have hvR : v ∉ R ∪ F := fun hmem => hnone c (hmc.queued_iff.mpr hmem)
      have hcall : Call (insert v (R ∪ F)) 0 (g'.put max (schedEschewThread (g'.at max)).1) c
          (schedReassignThread ((g'.put max (schedEschewThread (g'.at max)).1).at c) v) :=
        ⟨hmc.reassignThread_within hvR, insert v R, F, hmc.reassignThread address hvR,
          Set.insert_union.subset⟩
      refine ⟨hothers.put hcall ?_, insert v R, ?_, ?_⟩
      · rintro u (rfl | hu) d hd
        · exact hnone d
        · have hkc : Kept 1 (g'.put max (schedEschewThread (g'.at max)).1) c :=
            ⟨hothers.cpuId, R, F, hmc⟩
          exact hkc.only (hothers.kept d hd) hd (hmc.queued_iff.mpr hu)
      · rw [at_put_self]
        exact hmc.reassignThread address hvR
      · rintro u (rfl | hu)
        · refine Or.inr ⟨max, hload.1, h.queued max hload.1 u hmax, ?_⟩
          rw [← h.current max hload.1]
          exact hcur
        · exact Or.inl hu
  · exact ⟨h, R, hm.spare_le (Nat.zero_le 1), fun u hu => Or.inl hu⟩

/-- Where a thread that the scheduler of `c` holds after a `sched_resched` comes from. -/
def Came (g : System τ ο) (c : BitVec 32) (u : τ) : Prop :=
  (Queued g c u ∧ ((g.scheds c).currentThread = some u →
      (g.threads u).status.isRunnable = true)) ∨
    ∃ d, d ≠ c ∧ Queued g d u ∧ (g.scheds d).currentThread ≠ some u

variable {R F : Set τ} {env : Env τ} {max : BitVec 32}

omit [DecidableEq τ] [DecidableEq ο] in
/-- The counters, the current thread and the flags of the scheduler of `c` change. -/
theorem Others.setSched (h : Others c g g') (hm : Members m (g'.at c) R F) (f : Sched τ → Sched τ)
    (hf : (f (g'.scheds c)).runningQueue = (g'.scheds c).runningQueue ∧
      (f (g'.scheds c)).finishedQueue = (g'.scheds c).finishedQueue ∧
      (f (g'.scheds c)).affinityQueue = (g'.scheds c).affinityQueue ∧
      (f (g'.scheds c)).cpuId = (g'.scheds c).cpuId) :
    Others c g (g'.put c ((g'.at c).setSched f)) ∧
      Members m ((g'.put c ((g'.at c).setSched f)).at c) R F := by
  have hm' : Members m ((g'.at c).setSched f) R F := hm.setSched f hf
  have hkc : Kept m g' c := ⟨h.cpuId, R, F, hm⟩
  refine ⟨h.put ⟨within_setSched f hf.2.2.2, R, F, hm', subset_rfl⟩ fun u hu d hd => ?_, ?_⟩
  · exact hkc.only (h.kept d hd) hd (hm.queued_iff.mpr hu)
  · rw [at_put_self]
    exact hm'

omit [DecidableEq ο] in
theorem removeCurrent_others (address : τ ↪ ThreadBlock) (env : Env τ) (max : BitVec 32)
    (h : Others c g g')
    (hm : Members 0 (g'.at c) R F) (ht : t ∈ R) :
    Others c g (removeCurrent env max g' c t) ∧
      ∃ R', Members 0 ((removeCurrent env max g' c t).at c) R' F ∧
        ∀ u ∈ R', u ∈ R \ {t} ∨
          ∃ d, d ≠ c ∧ Queued g d u ∧ (g.scheds d).currentThread ≠ some u := by
  have hdetach := hm.detach address env ht
  have hkc : Kept 0 g' c := ⟨h.cpuId, R, F, hm⟩
  have hsub : R \ {t} ∪ F ⊆ R ∪ F := Set.union_subset_union_left F Set.sdiff_subset
  have hcall : Call (R ∪ F) 1 g' c (detachCurrent env (g'.at c) t) :=
    ⟨hm.detach_within env ht, R \ {t}, F, hdetach, hsub⟩
  have hothers := h.put hcall fun u hu d hd =>
    hkc.only (h.kept d hd) hd (hm.queued_iff.mpr hu)
  rw [← at_put_self g' c (detachCurrent env (g'.at c) t)] at hdetach
  obtain ⟨hothers', R', hm', hfrom⟩ := rebalance_others address max hothers hdetach
  obtain ⟨hothers'', hm''⟩ := hothers'.setSched hm' (fun sc => { sc with
    currentThread := heapHead sc.runningQueue }) ⟨rfl, rfl, rfl, rfl⟩
  exact ⟨hothers'', R', hm'', hfrom⟩

omit [DecidableEq ο] in
theorem testRunnable_others (address : τ ↪ ThreadBlock) (env : Env τ) (max : BitVec 32)
    (h : Others c g g') (hm : Members 0 (g'.at c) R F) (hseat : Seated (g'.at c) R)
    (hcur : (g'.scheds c).currentThread = (g.scheds c).currentThread)
    (hqueued : ∀ u, u ∈ R ∪ F → Queued g c u) :
    Others c g (testRunnable env max g' c) ∧
      ∃ R', Members 0 ((testRunnable env max g' c).at c) R' F ∧
        Seated ((testRunnable env max g' c).at c) R' ∧ ∀ u ∈ R' ∪ F, Came g c u := by
  have hidle : (g'.scheds c).currentThread = none → ∀ u ∈ R ∪ F, Came g c u := by
    intro hnone u hu
    refine Or.inl ⟨hqueued u hu, fun hsome => ?_⟩
    rw [← hcur, hnone] at hsome
    cases hsome
  rw [testRunnable]
  split
  · rename_i t ht
    have hmem : t ∈ R := hseat t ht
    have hstatus := h.status t
    split
    · rename_i hrun
      refine ⟨h, R, hm, hseat, fun u hu => Or.inl ⟨hqueued u hu, fun hsome => ?_⟩⟩
      obtain rfl : t = u := Option.some_inj.mp (ht.symm.trans (hcur.trans hsome))
      rw [← hstatus]
      exact hrun
    · obtain ⟨hothers, R', hm', hfrom⟩ := removeCurrent_others address env max h hm hmem
      obtain ⟨hothers', hm''⟩ := hothers.setSched hm' (fun sc => { sc with
        currentThread := none }) ⟨rfl, rfl, rfl, rfl⟩
      refine ⟨hothers', R', hm'', fun d hd => ?_, ?_⟩
      · rw [at_put_self] at hd
        cases hd
      · have hother : ∀ u, u ∈ R ∪ F → u ≠ t → Came g c u := by
          intro u hu hne
          refine Or.inl ⟨hqueued u hu, fun hsome => absurd ?_ hne⟩
          exact (Option.some_inj.mp (ht.symm.trans (hcur.trans hsome))).symm
        rintro u (hu | hu)
        · obtain hold | hnew := hfrom u hu
          · exact hother u (Or.inl hold.1) hold.2
          · exact Or.inr hnew
        · exact hother u (Or.inr hu) fun heq => hm.notMem_finished hmem (heq ▸ hu)
  · rename_i hnone
    exact ⟨h, R, hm, hseat, hidle hnone⟩

omit [DecidableEq ο] in
/-- A thread that sleeps is not held by the scheduler of `c` after its `sched_resched`. -/
theorem schedResched_others (address : τ ↪ ThreadBlock) (hk : ∀ d, Kept 0 g d) (hs : AllSeated g)
    (hr : schedResched env max g c = some g') :
    Others c g g' ∧ Kept 0 g' c ∧ AllSeated g' ∧ ∀ u, Queued g' c u → Came g c u := by
  obtain ⟨hid, R, F, hm⟩ := hk c
  have hseat := hs.seated hm
  obtain ⟨hothers₀, hm₀⟩ := (Others.refl hk hs c).setSched hm (fun sc => { sc with
    affinityCount := sc.affinityCount + env.pageFaults }) ⟨rfl, rfl, rfl, rfl⟩
  obtain ⟨hothers₁, R₁, hm₁, hs₁, hcame⟩ := testRunnable_others address env max
    hothers₀ hm₀ (by rw [at_put_self]; exact hseat) (by rw [scheds_put_self]; rfl)
    fun u hu => hm.queued_iff.mpr hu
  obtain ⟨⟨s', out⟩, htail, rfl⟩ := Option.map_eq_some_iff.mp hr
  obtain ⟨R₂, F₂, hm₂, hs₂, hunion⟩ := hm₁.afterTest hs₁ htail
  have hcall := Call.mk (hm₁.afterTest_within hs₁ htail) ⟨R₂, F₂, hm₂, hunion.subset⟩
  have hothers₂ := hothers₁.put hcall fun u hu d hd =>
    Kept.only ⟨hothers₁.cpuId, R₁, F, hm₁⟩ (hothers₁.kept d hd) hd (hm₁.queued_iff.mpr hu)
  refine ⟨hothers₂, hcall.kept hothers₁.cpuId, ?_, fun u hu => hcame u (hcall.queued hu)⟩
  intro d t ht
  by_cases hd : d = c
  · subst hd
    rw [scheds_put_self] at ht ⊢
    exact (holds_iff hm₂.parts.running).mpr (hs₂ t ht)
  · exact hothers₂.seated d hd t ht

end Queues

def Away (g : System τ ο) (t : τ) : Prop := (∃ o, t ∈ g.queue o) ∨ t ∈ g.waking

/-- A sleeper that is still on a run queue is the current thread of a CPU whose `sched_resched` is
to come. -/
structure Apart (g : System τ ο) : Prop where
  kept : ∀ d, Kept 0 g d
  seated : AllSeated g
  asleep : ∀ t, Away g t → (g.threads t).status = .intSleep ∧ ∀ c, Queued g c t →
    (g.scheds c).currentThread = some t ∧ g.checked c = true
  nodup : ∀ o, (g.queue o).Nodup
  once : ∀ o o' t, t ∈ g.queue o → t ∈ g.queue o' → o = o'
  waking : g.waking.Nodup
  taken : ∀ o t, t ∈ g.queue o → t ∉ g.waking
  started : ∀ t, (Away g t ∨ ∃ c, Queued g c t) → g.started t = true

section Sleepers

variable {g g' : System τ ο} {c d : BitVec 32} {s : State τ} {t u : τ} {o : ο}

omit [DecidableEq τ] [DecidableEq ο] in
/-- A call that may add threads to the scheduler of `c` that are nowhere else. -/
theorem Apart.put (h : Apart g) (hk : ∀ d, Kept 0 (g.put c s) d) (hs : AllSeated (g.put c s))
    (hstatus : ∀ u, (s.threads u).status = (g.threads u).status)
    (hcur : s.sched.currentThread = (g.scheds c).currentThread)
    (hq : ∀ u, Queued (g.put c s) c u → Queued g c u ∨ ¬ Away g u ∧ g.started u = true) :
    Apart (g.put c s) := by
  refine ⟨hk, hs, fun u hu => ⟨(hstatus u).trans (h.asleep u hu).1, fun d hd => ?_⟩, h.nodup,
    h.once, h.waking, h.taken, fun u hu => ?_⟩
  · by_cases hdc : d = c
    · subst hdc
      obtain hold | hnew := hq u hd
      · rw [scheds_put_self, hcur]
        exact (h.asleep u hu).2 d hold
      · exact absurd hu hnew.1
    · rw [scheds_put_ne g s hdc]
      exact (h.asleep u hu).2 d ((queued_put_ne s hdc).mp hd)
  · obtain haway | ⟨d, hd⟩ := hu
    · exact h.started u (Or.inl haway)
    · by_cases hdc : d = c
      · subst hdc
        obtain hold | hnew := hq u hd
        · exact h.started u (Or.inr ⟨d, hold⟩)
        · exact hnew.2
      · exact h.started u (Or.inr ⟨d, (queued_put_ne s hdc).mp hd⟩)

omit [DecidableEq ο] in
/-- The fields of a queued thread that do not concern the heaps change. -/
theorem Kept.setThread {m : ℕ} (h : Kept m g d) (f : Thread → Thread)
    (hf : ∀ th, (f th).priorityHeapPos = th.priorityHeapPos ∧
      (f th).affinityHeapPos = th.affinityHeapPos ∧ (f th).cpuId = th.cpuId) :
    Kept m (g.setThread t f) d := by
  obtain ⟨hid, R, F, hm⟩ := h
  exact ⟨hid, R, F, hm.setThread f hf⟩

omit [DecidableEq ο] in
theorem Apart.setThread (h : Apart g) (ht : ¬ Away g t) (f : Thread → Thread)
    (hf : ∀ th, (f th).priorityHeapPos = th.priorityHeapPos ∧
      (f th).affinityHeapPos = th.affinityHeapPos ∧ (f th).cpuId = th.cpuId) :
    Apart (g.setThread t f) := by
  refine ⟨fun d => (h.kept d).setThread f hf, h.seated, fun u hu => ⟨?_, (h.asleep u hu).2⟩,
    h.nodup, h.once, h.waking, h.taken, h.started⟩
  have hut : u ≠ t := fun heq => ht (heq ▸ hu)
  have hsame : (g.setThread t f).threads u = g.threads u := setThread_ne _ _ hut
  rw [hsame]
  exact (h.asleep u hu).1

omit [DecidableEq τ] in
theorem Apart.take (h : Apart g) {w : τ} (hq : g.queue o = [w]) : Apart (takeSleeper g o w) := by
  have hw : w ∈ g.queue o := by simp [hq]
  have hempty : (takeSleeper g o w).queue o = [] := by simp [takeSleeper, hq]
  have hother : ∀ o', o' ≠ o → (takeSleeper g o w).queue o' = g.queue o' := by
    intro o' ho
    simp [takeSleeper, ho]
  have hold : ∀ o' u, u ∈ (takeSleeper g o w).queue o' → o' ≠ o ∧ u ∈ g.queue o' := by
    intro o' u hu
    by_cases ho : o' = o
    · subst ho
      rw [hempty] at hu
      cases hu
    · rw [hother o' ho] at hu
      exact ⟨ho, hu⟩
  have haway : ∀ u, Away (takeSleeper g o w) u → Away g u := by
    rintro u (⟨o', hu⟩ | hu)
    · exact Or.inl ⟨o', (hold o' u hu).2⟩
    · obtain rfl | hu := List.mem_cons.mp hu
      · exact Or.inl ⟨o, hw⟩
      · exact Or.inr hu
  refine ⟨h.kept, h.seated, fun u hu => h.asleep u (haway u hu), fun o' => ?_,
    fun o' o'' u hu hu' => h.once o' o'' u (hold o' u hu).2 (hold o'' u hu').2,
    List.nodup_cons.mpr ⟨h.taken o w hw, h.waking⟩, fun o' u hu hmem => ?_, fun u hu => ?_⟩
  · by_cases ho : o' = o
    · subst ho
      rw [hempty]
      exact List.nodup_nil
    · rw [hother o' ho]
      exact h.nodup o'
  · obtain ⟨ho, hin⟩ := hold o' u hu
    obtain heq | hmem := List.mem_cons.mp hmem
    · exact ho (h.once o' o u hin (heq ▸ hw))
    · exact h.taken o' u hin hmem
  · obtain hu | hu := hu
    · exact h.started u (Or.inl (haway u hu))
    · exact h.started u (Or.inr hu)

theorem Apart.fallAsleep (h : Apart g) (ht : (g.scheds c).currentThread = some t)
    (hc : g.checked c = false) (o : ο) :
    Apart { fallAsleep g t o with checked := Function.update g.checked c true } := by
  have hqueued : Queued g c t := h.seated.queued ht
  have hnot : ¬ Away g t := by
    intro haway
    have hchecked := ((h.asleep t haway).2 c hqueued).2
    rw [hc] at hchecked
    cases hchecked
  have hqueue : ∀ o' u, u ∈ (ManySchedulers.fallAsleep g t o).queue o' →
      u ∈ g.queue o' ∨ u = t ∧ o' = o := by
    intro o' u hu
    by_cases ho : o' = o
    · subst ho
      simp only [ManySchedulers.fallAsleep, Function.update_self, List.mem_cons] at hu
      obtain rfl | hu := hu
      · exact Or.inr ⟨rfl, rfl⟩
      · exact Or.inl hu
    · simp only [ManySchedulers.fallAsleep, Function.update_of_ne ho] at hu
      exact Or.inl hu
  have hfree : ∀ o', t ∉ g.queue o' := fun o' hmem => hnot (Or.inl ⟨o', hmem⟩)
  have hkept : ∀ d, Kept 0 (g.setThread t fun th => { th with status := .intSleep }) d :=
    fun d => (h.kept d).setThread _ fun _ => ⟨rfl, rfl, rfl⟩
  refine ⟨hkept, h.seated, fun u hu => ?_,
    fun o' => ?_, fun o' o'' u hu hu' => ?_, h.waking, fun o' u hu hmem => ?_, fun u hu => ?_⟩
  · by_cases hut : u = t
    · subst hut
      refine ⟨by simp [ManySchedulers.fallAsleep, System.setThread], fun d hd => ?_⟩
      obtain rfl : d = c := ((h.kept d).cpu hd).symm.trans ((h.kept c).cpu hqueued)
      exact ⟨ht, by simp⟩
    · have haway : Away g u := by
        obtain ⟨o', hu⟩ | hu := hu
        · obtain hu | ⟨heq, -⟩ := hqueue o' u hu
          · exact Or.inl ⟨o', hu⟩
          · exact absurd heq hut
        · exact Or.inr hu
      refine ⟨?_, fun d hd => ?_⟩
      · simpa [ManySchedulers.fallAsleep, System.setThread, hut] using (h.asleep u haway).1
      · obtain ⟨hcur, hchecked⟩ := (h.asleep u haway).2 d hd
        refine ⟨hcur, ?_⟩
        by_cases hdc : d = c
        · simp [hdc]
        · simpa [hdc] using hchecked
  · by_cases ho : o' = o
    · subst ho
      simpa [ManySchedulers.fallAsleep] using ⟨hfree o', h.nodup o'⟩
    · simpa [ManySchedulers.fallAsleep, ho] using h.nodup o'
  · obtain hin | ⟨heq, ho⟩ := hqueue o' u hu
    · obtain hin' | ⟨heq, -⟩ := hqueue o'' u hu'
      · exact h.once o' o'' u hin hin'
      · exact absurd hin (heq ▸ hfree o')
    · obtain hin' | ⟨-, ho'⟩ := hqueue o'' u hu'
      · exact absurd hin' (heq ▸ hfree o'')
      · exact ho.trans ho'.symm
  · obtain hin | ⟨heq, -⟩ := hqueue o' u hu
    · exact h.taken o' u hin hmem
    · exact hnot (Or.inr (heq ▸ hmem))
  · obtain (⟨o', hu⟩ | hu) | hu := hu
    · obtain hin | ⟨heq, -⟩ := hqueue o' u hu
      · exact h.started u (Or.inl (Or.inl ⟨o', hin⟩))
      · exact h.started u (Or.inr ⟨c, heq ▸ hqueued⟩)
    · exact h.started u (Or.inl (Or.inr hu))
    · exact h.started u (Or.inr hu)

omit [DecidableEq τ] [DecidableEq ο] in
theorem Apart.check (h : Apart g) (c : BitVec 32) :
    Apart { g with checked := Function.update g.checked c true } := by
  refine ⟨h.kept, h.seated, fun u hu => ⟨(h.asleep u hu).1, fun d hd => ?_⟩, h.nodup, h.once,
    h.waking, h.taken, h.started⟩
  obtain ⟨hcur, hchecked⟩ := (h.asleep u hu).2 d hd
  refine ⟨hcur, ?_⟩
  by_cases hdc : d = c
  · simp [hdc]
  · simpa [hdc] using hchecked

theorem Apart.syncCheck (h : Apart g) (hc : g.checked c = false) {deadlock : Bool}
    (hs : syncCheck deadlock g c = some g') :
    Apart { g' with checked := Function.update g'.checked c true } := by
  rw [ManySchedulers.syncCheck] at hs
  split at hs
  · cases hs
    exact h.check c
  · rename_i t ht
    split at hs
    · cases hs
      exact h.check c
    · obtain ⟨o, -, rfl⟩ := Option.map_eq_some_iff.mp hs
      split
      · exact h.check c
      · exact h.fallAsleep ht hc o
    · obtain ⟨o, -, rfl⟩ := Option.map_eq_some_iff.mp hs
      exact h.fallAsleep ht hc o

omit [DecidableEq ο] in
/-- The scheduler of `c` gives up the current thread when it sleeps. -/
theorem Apart.schedResched (address : τ ↪ ThreadBlock) (h : Apart g) {env : Env τ}
    {max : BitVec 32} (hr : schedResched env max g c = some g') :
    Apart { g' with checked := Function.update g'.checked c false } := by
  obtain ⟨hothers, hkc, hseat, hcame⟩ := schedResched_others address h.kept h.seated hr
  obtain ⟨hqueue, hwaking, hchecked, hstarted⟩ := hothers.same
  have haway : ∀ u, Away g' u → Away g u := by
    intro u hu
    rwa [Away, hqueue, hwaking] at hu
  have hstill : ∀ u, Away g u → ∀ d, Queued g' d u → d ≠ c ∧ Queued g d u := by
    intro u hu d hd
    obtain ⟨hsleep, hrun⟩ := h.asleep u hu
    by_cases hdc : d = c
    · subst hdc
      obtain ⟨hold, hrunnable⟩ | ⟨e, -, he, hcur⟩ := hcame u hd
      · have hstatus := hrunnable (hrun d hold).1
        rw [hsleep] at hstatus
        cases hstatus
      · exact absurd (hrun e he).1 hcur
    · exact ⟨hdc, hothers.queued d hdc u hd⟩
  refine ⟨fun d => ?_, hseat, fun u hu => ⟨?_, fun d hd => ?_⟩, fun o => ?_, fun o o' u => ?_, ?_,
    fun o u => ?_, fun u hu => ?_⟩
  · by_cases hdc : d = c
    · subst hdc
      exact hkc
    · exact hothers.kept d hdc
  · exact (hothers.status u).trans (h.asleep u (haway u hu)).1
  · obtain ⟨hdc, hd⟩ := hstill u (haway u hu) d hd
    obtain ⟨hcur, hcheck⟩ := (h.asleep u (haway u hu)).2 d hd
    refine ⟨(hothers.current d hdc).trans hcur, ?_⟩
    simpa [hdc, hchecked] using hcheck
  · exact hqueue ▸ h.nodup o
  · exact hqueue ▸ h.once o o' u
  · exact hwaking ▸ h.waking
  · show u ∈ g'.queue o → u ∉ g'.waking
    rw [hqueue, hwaking]
    exact h.taken o u
  · show g'.started u = true
    rw [hstarted]
    obtain hu | ⟨d, hd⟩ := hu
    · exact h.started u (Or.inl (haway u hu))
    · by_cases hdc : d = c
      · subst hdc
        obtain ⟨hold, -⟩ | ⟨e, -, he, -⟩ := hcame u hd
        · exact h.started u (Or.inr ⟨d, hold⟩)
        · exact h.started u (Or.inr ⟨e, he⟩)
      · exact h.started u (Or.inr ⟨d, hothers.queued d hdc u hd⟩)

omit [DecidableEq τ] [DecidableEq ο] in
/-- A call that puts `t`, which is nowhere, on the running queue of `c`. -/
theorem Apart.enter (h : Apart g) (haway : ¬ Away g t) (hnone : ∀ d, ¬ Queued g d t)
    (hstarted : g.started t = true)
    (hin : ∀ R F, Members 0 (g.at c) R F → t ∉ R ∪ F →
      Members 1 s (insert t R) F ∧ Within (insert t (R ∪ F)) (g.at c) s)
    (hcur : s.sched.currentThread = (g.scheds c).currentThread) : Apart (g.put c s) := by
  obtain ⟨hid, R, F, hm⟩ := h.kept c
  have ht : t ∉ R ∪ F := fun hmem => hnone c (hm.queued_iff.mpr hmem)
  obtain ⟨hm', hwithin⟩ := hin R F hm ht
  have hset : insert t (R ∪ F) ⊆ insert t {u | Queued g c u} :=
    Set.insert_subset_insert fun u hu => hm.queued_iff.mpr hu
  have hcall : Call (insert t {u | Queued g c u}) 0 g c s := by
    refine ⟨hwithin.mono hset, insert t R, F, hm'.spare_le (Nat.zero_le 1), ?_⟩
    rw [Set.insert_union]
    exact hset
  refine h.put (hcall.all_insert h.kept hnone) ?_ hwithin.status hcur fun u hu => ?_
  · exact h.seated.put hm' ((h.seated.seated hm).mono (Set.subset_insert t R) hcur)
  · obtain heq | hold := hcall.queued hu
    · rw [heq]
      exact Or.inr ⟨haway, hstarted⟩
    · exact Or.inl hold

omit [DecidableEq ο] in
theorem Apart.threadInsert (address : τ ↪ ThreadBlock) (h : Apart g) (ht : g.started t = false)
    (min : BitVec 32) (alloc : Allocator) :
    Apart { threadInsert alloc min g t with started := Function.update g.started t true } := by
  have hnew : ¬ (Away g t ∨ ∃ d, Queued g d t) := by
    intro hold
    have htrue := h.started t hold
    rw [ht] at htrue
    cases htrue
  have haway : ¬ Away g t := fun haway => hnew (Or.inl haway)
  have hnone : ∀ d, ¬ Queued g d t := fun d hd => hnew (Or.inr ⟨d, hd⟩)
  have hstart : Apart { g with started := Function.update g.started t true } := by
    refine ⟨h.kept, h.seated, h.asleep, h.nodup, h.once, h.waking, h.taken, fun u hu => ?_⟩
    by_cases hut : u = t
    · simp [hut]
    · simpa [hut] using h.started u hu
  have hstatus := hstart.setThread haway (fun th => { th with
    status := .runnable, runStatus := .runnable }) fun _ => ⟨rfl, rfl, rfl⟩
  have htrue : Function.update g.started t true t = true := Function.update_self t true g.started
  refine hstatus.enter haway hnone htrue ?_ rfl
  intro R F hm hout
  exact ⟨hm.insertThread address alloc hout, hm.insertThread_within alloc hout⟩

omit [DecidableEq τ] [DecidableEq ο] in
theorem put_at (g : System τ ο) (c : BitVec 32) : g.put c (g.at c) = g := by
  simp [System.put, System.at]

/-- `thread_restart` exchanges a thread with the scheduler that it belongs to, which does
nothing. -/
theorem exchange_home (alloc : Allocator) (hid : s.sched.cpuId = (s.threads t).cpuId) :
    schedExchangeThread alloc s t = (s, t) := by
  rw [schedExchangeThread]
  split
  · rfl
  · rw [if_pos hid.symm]

omit [DecidableEq ο] in
/-- The thread is restarted on the CPU with the lowest load, whichever CPU it comes from. -/
theorem threadRestart_eq (hk : ∀ d, Kept m g d) (alloc : Allocator) (min : BitVec 32) (t : τ) :
    ManySchedulers.threadRestart alloc min g t =
      (g.setThread t fun th => { th with status := th.runStatus }).put min (schedRestartThread alloc
        ((g.setThread t fun th => { th with status := th.runStatus }).at min) t) := by
  rw [ManySchedulers.threadRestart]
  split
  · rfl
  · have hhome : schedExchangeThread alloc
        ((g.setThread t fun th => { th with status := th.runStatus }).at
          ((g.setThread t fun th => { th with status := th.runStatus }).threads t).cpuId) t =
        ((g.setThread t fun th => { th with status := th.runStatus }).at
          ((g.setThread t fun th => { th with status := th.runStatus }).threads t).cpuId, t) :=
      exchange_home alloc (hk _).1
    rw [hhome]
    dsimp only
    rw [put_at]

omit [DecidableEq ο] in
theorem Apart.threadRestart (address : τ ↪ ThreadBlock) (h : Apart g) (ht : t ∈ g.waking)
    (hcur : (g.scheds (g.threads t).cpuId).currentThread ≠ some t) (min : BitVec 32)
    (alloc : Allocator) :
    Apart { threadRestart alloc min g t with waking := g.waking.erase t } := by
  have hold : Away g t := Or.inr ht
  have hnone : ∀ d, ¬ Queued g d t := by
    intro d hd
    have hrun := ((h.asleep t hold).2 d hd).1
    rw [← (h.kept d).cpu hd] at hrun
    exact hcur hrun
  let g₁ : System τ ο := { g with waking := g.waking.erase t }
  have hsub : ∀ u, Away g₁ u → Away g u := by
    rintro u (hu | hu)
    · exact Or.inl hu
    · exact Or.inr (List.mem_of_mem_erase hu)
  have haway : ¬ Away g₁ t := by
    rintro (⟨o, hu⟩ | hu)
    · exact h.taken o t hu ht
    · exact h.waking.not_mem_erase hu
  have hgone : Apart g₁ :=
    ⟨h.kept, h.seated, fun u hu => h.asleep u (hsub u hu), h.nodup, h.once, h.waking.erase t,
      fun o u hu hmem => h.taken o u hu (List.mem_of_mem_erase hmem),
      fun u hu => h.started u (hu.imp_left (hsub u))⟩
  have hstatus := hgone.setThread haway (fun th => { th with status := th.runStatus })
    fun _ => ⟨rfl, rfl, rfl⟩
  have henter : Apart ((g₁.setThread t fun th => { th with status := th.runStatus }).put min
      (schedRestartThread alloc
        ((g₁.setThread t fun th => { th with status := th.runStatus }).at min) t)) := by
    refine hstatus.enter haway hnone (h.started t (Or.inl hold)) ?_ rfl
    intro R F hm hout
    exact ⟨hm.restartThread address alloc hout, hm.restartThread_within alloc hout⟩
  rw [threadRestart_eq h.kept]
  exact henter

theorem chargePriority_current (s : State τ) (t : τ) (diff : BitVec 32) :
    (chargePriority s t diff).sched.currentThread = s.sched.currentThread := by
  rw [chargePriority]
  split
  · rw [schedChangeRemaining]
    split
    · dsimp only
      split <;> rfl
    · rfl
  · rfl

omit [DecidableEq ο] in
theorem Apart.adjustPriority (h : Apart g) (t : τ) (priority : BitVec 32) :
    Apart (g.put (g.threads t).cpuId
      (threadAdjustPriority (g.at (g.threads t).cpuId) t priority)) := by
  obtain ⟨hid, R, F, hm⟩ := h.kept (g.threads t).cpuId
  have hseat := h.seated.seated hm
  have hsoft : Members 0 ((g.at (g.threads t).cpuId).setThread t fun th => { th with
      softPriority := th.softPriority + priority }) R F :=
    hm.setThread _ fun _ => ⟨rfl, rfl, rfl⟩
  obtain ⟨hm', hseat'⟩ := hsoft.chargePriority (t := t) hseat priority
  have hwithin : Within (insert t (R ∪ F)) (g.at (g.threads t).cpuId)
      (threadAdjustPriority (g.at (g.threads t).cpuId) t priority) := by
    refine Within.trans (within_setThread _ (Set.mem_insert _ _) ?_)
      (hsoft.chargePriority_within priority)
    exact fun _ => rfl
  have hcall : Call (insert t (R ∪ F)) 0 g (g.threads t).cpuId
      (threadAdjustPriority (g.at (g.threads t).cpuId) t priority) :=
    ⟨hwithin, R, F, hm', Set.subset_insert _ _⟩
  refine h.put (fun d => ?_) (h.seated.put hm' hseat') hwithin.status ?_ fun u hu => ?_
  · by_cases hd : d = (g.threads t).cpuId
    · subst hd
      exact hcall.kept hid
    · apply hcall.others (h.kept d) hd
      rintro u (rfl | hu) hq
      · exact hd ((h.kept d).cpu hq).symm
      · exact (h.kept _).only (h.kept d) hd (hm.queued_iff.mpr hu) hq
  · exact chargePriority_current _ t priority
  · rw [Queued, at_put_self] at hu
    exact Or.inl (hm.queued_iff.mpr (hm'.queued_iff.mp hu))

end Sleepers

/-- A wake-up finds one sleeper in the queue, and the CPU of the thread that it restarts has done
its `sched_resched` since the thread was put to sleep. -/
def WakesAfter (g : System τ ο) : Event τ ο → Prop
  | .mutexUnlock o _ => (g.queue o).length ≤ 1
  | .condSignal o _ => (g.queue o).length = 1
  | .threadRestart t _ _ => (g.scheds (g.threads t).cpuId).currentThread ≠ some t
  | _ => True

instance (g : System τ ο) (e : Event τ ο) : Decidable (WakesAfter g e) :=
  match e with
  | .mutexUnlock o _ => inferInstanceAs (Decidable ((g.queue o).length ≤ 1))
  | .condSignal o _ => inferInstanceAs (Decidable ((g.queue o).length = 1))
  | .threadRestart _ _ _ => inferInstanceAs (Decidable (_ ≠ _))
  | .threadInsert _ _ _ | .wait _ _ _ | .syncCheck _ _ | .schedResched _ _ _
  | .adjustPriority _ _ => inferInstanceAs (Decidable True)

theorem step_preserves_apart (address : τ ↪ ThreadBlock) {g g' : System τ ο} {e : Event τ ο}
    (h : Apart g) (hwakes : WakesAfter g e) (he : step g e = some g') : Apart g' := by
  cases e with
  | threadInsert t min alloc =>
    simp only [step] at he
    split at he <;> rename_i ht <;> cases he
    exact h.threadInsert address (Bool.eq_false_iff.mpr ht) min alloc
  | wait c waitType waitObj =>
    simp only [step] at he
    split at he
    · cases he
    · obtain ⟨t, -, rfl⟩ := Option.map_eq_some_iff.mp he
      exact ⟨h.kept, h.seated, h.asleep, h.nodup, h.once, h.waking, h.taken, h.started⟩
  | syncCheck c deadlock =>
    simp only [step] at he
    split at he
    · cases he
    · rename_i hc
      obtain ⟨g₁, hs, rfl⟩ := Option.map_eq_some_iff.mp he
      exact h.syncCheck (Bool.eq_false_iff.mpr hc) hs
  | schedResched c max env =>
    simp only [step] at he
    split at he
    · obtain ⟨g₁, hr, rfl⟩ := Option.map_eq_some_iff.mp he
      exact h.schedResched address hr
    · cases he
  | mutexUnlock o priority =>
    obtain ⟨w, hw, he⟩ := Option.bind_eq_some_iff.mp he
    have hq : g.queue o = [w] := by
      obtain ⟨l, hl⟩ := List.head?_eq_some_iff.mp hw
      have hlen : (g.queue o).length ≤ 1 := hwakes
      rw [hl, List.length_cons] at hlen
      have hnil : l = [] := List.length_eq_zero_iff.mp (by omega)
      rw [hl, hnil]
    have htake := h.take hq
    have hcleared : Apart { takeSleeper g o w with
        waitObj := Function.update g.waitObj w none } :=
      ⟨htake.kept, htake.seated, htake.asleep, htake.nodup, htake.once, htake.waking,
        htake.taken, htake.started⟩
    simp only [handOff] at he
    split at he <;> cases he
    exact hcleared.adjustPriority w priority
  | condSignal o stale =>
    cases he
    obtain ⟨w, hq⟩ := List.length_eq_one_iff.mp hwakes
    have htake := h.take hq
    rw [hq]
    exact ⟨htake.kept, htake.seated, htake.asleep, htake.nodup, htake.once, htake.waking,
      htake.taken, htake.started⟩
  | threadRestart t min alloc =>
    simp only [step] at he
    split at he <;> rename_i ht <;> cases he
    exact h.threadRestart address ht hwakes min alloc
  | adjustPriority t priority =>
    cases he
    exact h.adjustPriority t priority

omit [DecidableEq τ] [DecidableEq ο] in
theorem apart_start (alloc : BitVec 32 → Allocator) (any : τ) (threads : τ → Thread) :
    Apart (start alloc any threads : System τ ο) := by
  have hnone : ∀ c t, ¬ Queued (start alloc any threads : System τ ο) c t := by
    intro c t ht
    exact ((members_start (alloc c) any c threads).queued_iff.mp ht).elim id id
  refine ⟨fun c => ⟨rfl, ∅, ∅, members_start (alloc c) any c threads⟩, fun c t ht => ?_,
    fun t ht => ?_, fun _ => List.nodup_nil, fun _ _ _ ht => ?_, List.nodup_nil,
    fun _ _ ht => ?_, fun t ht => ?_⟩
  · cases ht
  · obtain ⟨o, ht⟩ | ht := ht <;> cases ht
  · cases ht
  · cases ht
  · obtain (⟨o, ht⟩ | ht) | ⟨c, ht⟩ := ht
    · cases ht
    · cases ht
    · exact absurd ht (hnone c t)

structure ScheduledOnce (g : System τ ο) : Prop where
  one_scheduler : ∀ c d t, Queued g c t → Queued g d t → c = d
  one_queue : ∀ c t, (g.scheds c).runningQueue.holds t → ¬ (g.scheds c).finishedQueue.holds t
  one_place : ∀ c, ∀ q ∈ [(g.scheds c).runningQueue, (g.scheds c).finishedQueue,
    (g.scheds c).affinityQueue], ∀ i j, 1 ≤ i → i ≤ q.size → 1 ≤ j → j ≤ q.size →
      q.dataName i = q.dataName j → i = j

omit [DecidableEq τ] [DecidableEq ο] in
theorem Apart.scheduledOnce {g : System τ ο} (h : Apart g) : ScheduledOnce g := by
  refine ⟨fun c d t hc hd => ((h.kept c).cpu hc).symm.trans ((h.kept d).cpu hd),
    fun c t hR hF => ?_, fun c q hq i j hi hin hj hjn heq => ?_⟩
  · obtain ⟨-, R, F, hm⟩ := h.kept c
    exact hm.notMem_finished ((holds_iff hm.parts.running).mp hR)
      ((holds_iff hm.parts.finished).mp hF)
  · obtain ⟨-, R, F, hm⟩ := h.kept c
    have hplace : ∀ (k : HeapKind) (S : Set τ), Held k g.threads q S → i = j := by
      intro k S hheld
      have hpos := hheld.pos i hi hin
      have hpos' := hheld.pos j hj hjn
      simp only [layout] at hpos hpos'
      rw [heq, hpos'] at hpos
      exact hpos.symm
    simp only [List.mem_cons, List.not_mem_nil, or_false] at hq
    obtain rfl | rfl | rfl := hq
    · exact hplace byRemaining R hm.parts.running
    · exact hplace byRemaining F hm.parts.finished
    · exact hplace byAffinity (R ∪ F) hm.parts.affinity

/-- No hand-off gets past a thread that `sync_check` has put on the queue of a mutex. -/
theorem handOff_null {g : System τ ο} {o : ο} {w : τ} (priority : BitVec 32)
    (hw : g.waitType w = .mutex) (hs : (g.threads w).status = .intSleep) :
    handOff g o w priority = none := by
  rw [handOff, if_pos]
  exact ⟨hw, by simp [takeSleeper, hs, Status.isRunnable]⟩

/-- In every run in which no wake-up comes between the two steps of a timer interrupt, and none
finds more than one sleeper, no thread is scheduled twice. `mutex_unlock` wakes none of the threads
that wait for a mutex. -/
theorem scheduled_once (address : τ ↪ ThreadBlock) {alloc : BitVec 32 → Allocator} {any : τ}
    {threads : τ → Thread} {g : System τ ο}
    (h : Execution step WakesAfter (start alloc any threads) g) : ScheduledOnce g ∧
      ∀ o, ∀ w ∈ (g.queue o).head?, g.waitType w = .mutex → ∀ priority,
        step g (.mutexUnlock o priority) = none := by
  have hapart : Apart g :=
    h.preserves (fun _ _ _ hg hw he => step_preserves_apart address hg hw he)
      (apart_start alloc any threads)
  refine ⟨hapart.scheduledOnce, fun o w hw htype priority => ?_⟩
  have hqueued : w ∈ g.queue o := List.mem_of_mem_head? hw
  have hasleep := (hapart.asleep w (Or.inl ⟨o, hqueued⟩)).1
  rw [step, Option.mem_def.mp hw, Option.bind_some, handOff_null priority htype hasleep]

def threeThreads : System (Fin 3) Unit := start (fun _ => exactSizes) 0 fun _ => newThread 2

/-- Thread 0 runs on CPU 0, thread 1 on CPU 1, and a timer interrupt on CPU 0 finds thread 0
waiting for the condition. -/
def putToSleep : List (Event (Fin 3) Unit) :=
  [.threadInsert 0 0 exactSizes, .threadInsert 1 1 exactSizes, .syncCheck 0 false,
    .schedResched 0 0 (alone true), .syncCheck 1 false, .schedResched 1 1 (alone true),
    .wait 0 .cond (some ()), .syncCheck 0 false]

/-- Thread 0 is awakened after it has left CPU 0, and is scheduled on CPU 1. -/
theorem scheduled_once_moved : ∃ g : System (Fin 3) Unit,
    Execution step WakesAfter threeThreads g ∧ Queued g 1 0 ∧ Queued g 1 1 ∧
      ScheduledOnce g := by
  have hrun : (follow step WakesAfter threeThreads (putToSleep ++
      [.schedResched 0 0 (alone true), .condSignal () 1, .threadRestart 0 1 exactSizes])).map
      (fun g => decide (Queued g 1 0 ∧ Queued g 1 1)) = some true := by decide +kernel
  obtain ⟨g, hg, hd⟩ := Option.map_eq_some_iff.mp hrun
  obtain ⟨hzero, hone⟩ := of_decide_eq_true hd
  have hexec := execution_of_follow hg
  exact ⟨g, hexec, hzero, hone, (scheduled_once firstBlocks hexec).1⟩

/-- Thread 0 is awakened and restarted on CPU 1 before the `sched_resched` of CPU 0. -/
theorem scheduled_twice : ∃ g : System (Fin 3) Unit,
    Execution step (fun _ _ => True) threeThreads g ∧ Queued g 0 0 ∧ Queued g 1 0 ∧
      ¬ ScheduledOnce g := by
  have hrun : (follow step (fun _ _ => True) threeThreads (putToSleep ++
      [.condSignal () 1, .threadRestart 0 1 exactSizes])).map
      (fun g => decide (Queued g 0 0 ∧ Queued g 1 0)) = some true := by decide +kernel
  obtain ⟨g, hg, hd⟩ := Option.map_eq_some_iff.mp hrun
  obtain ⟨hzero, hone⟩ := of_decide_eq_true hd
  refine ⟨g, execution_of_follow hg, hzero, hone, fun h => ?_⟩
  have heq := h.one_scheduler 0 1 0 hzero hone
  exact absurd heq (by decide)

end ManySchedulers
