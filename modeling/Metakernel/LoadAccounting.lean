import Mathlib.Algebra.BigOperators.Group.Finset.Basic
import Mathlib.Data.BitVec
import Mathlib.Tactic.Ring
import Mathlib.Tactic.LinearCombination
import Metakernel.PointUpdates
import Metakernel.SchedulerMembership

/-!
# The load of a scheduler

`total_count` is to follow the threads that are assigned to a scheduler. A thread weighs its
`stat.remaining`: that is what leaves the count with it. The calls are those that take a thread in,
change its weight or give it away, one after the other and without an epoch.
-/
namespace LoadAccounting

open Scheduler GuardedRuns IndexedHeaps PointUpdates

variable {τ : Type} [DecidableEq τ]

def assigned (s : State τ) : Finset τ :=
  (Finset.range s.sched.affinityQueue.size).image fun i => s.sched.affinityQueue.dataName (i + 1)

def load (s : State τ) : BitVec 32 := ∑ t ∈ assigned s, (s.threads t).remaining

inductive Call (τ : Type) where
  | insert (t : τ) (alloc : Allocator)
  | restart (t : τ) (alloc : Allocator)
  | reassign (t : τ)
  | changeRemaining (t : τ) (remaining : BitVec 32)
  | eschew
  | remove (t : τ) (env : Env τ)

/-- The caller of `sched_reassign_thread` knows that there is space. -/
def HasSpace (s : State τ) : Prop :=
  ∀ q ∈ [s.sched.runningQueue, s.sched.finishedQueue, s.sched.affinityQueue],
    s.sched.affinityQueue.size < q.capacity

instance (s : State τ) : Decidable (HasSpace s) := inferInstanceAs (Decidable (∀ _ ∈ _, _))

/-- The current thread is the last one of the running queue, and none is stolen for it. -/
def UsesUp (s : State τ) (t : τ) (env : Env τ) : Prop :=
  s.sched.currentThread = some t ∧ s.sched.runningQueue.size = 1 ∧ env.window.stolen = none

instance (s : State τ) (t : τ) (env : Env τ) : Decidable (UsesUp s t env) :=
  inferInstanceAs (Decidable (_ ∧ _ ∧ _))

/-- Threads come when the scheduler does not hold them and are changed or removed when it does. A
removal that starts an epoch is no step. -/
def step (s : State τ) : Call τ → Option (State τ)
  | .insert t alloc => if s.queued t then none else some (schedInsertThread alloc s t)
  | .restart t alloc => if s.queued t then none else some (schedRestartThread alloc s t)
  | .reassign t =>
    if s.queued t ∨ ¬ HasSpace s then none else some (schedReassignThread s t)
  | .changeRemaining t remaining =>
    if s.queued t then some (schedChangeRemaining s t remaining) else none
  | .eschew => some (schedEschewThread s).1
  | .remove t env =>
    if s.queued t ∧ ¬ (UsesUp s t env ∧ s.sched.finishedQueue.size ≠ 0) then
      schedRemoveThread { env with window := ⟨[], env.window.stolen⟩ } s t
    else none

/-- What `sched_restart_thread` leaves in `stat.remaining`. -/
def restartRemaining (s : State τ) (t : τ) : BitVec 32 :=
  if (s.threads t).epoch.ult s.sched.epoch then
    (s.threads t).remaining + restartIncrease s.sched.epoch (s.threads t)
  else (s.threads t).remaining

/-- What a call adds to `total_count` beyond the weight of the thread. -/
def drift (s : State τ) : Call τ → BitVec 32
  | .insert t _ => (s.threads t).softPriority - (s.threads t).softPriority / 2
  | .restart t _ => (s.threads t).softPriority - restartRemaining s t
  | .reassign _ => 0
  | .changeRemaining t _ =>
    if s.sched.currentThread = some t then
      s.sched.currentRemaining - (s.threads t).remaining
    else 0
  | .eschew => 0
  | .remove t env =>
    if UsesUp s t env then (s.threads t).remaining - s.sched.totalCount
    else if s.sched.currentThread = some t then -(s.threads t).remaining
    else 0

section Load

variable {s s' : State τ} {R F R' F' : Set τ} {t : τ} {m n : ℕ}

theorem mem_assigned : t ∈ assigned s ↔ s.sched.affinityQueue.holds t := by
  simp [assigned, Heap.holds]

theorem mem_assigned_iff (h : Members m s R F) : t ∈ assigned s ↔ t ∈ R ∪ F :=
  mem_assigned.trans (holds_iff h.parts.affinity)

theorem load_enter (h : assigned s' = insert t (assigned s)) (ht : t ∉ assigned s)
    (hsame : ∀ u, u ≠ t → (s'.threads u).remaining = (s.threads u).remaining) :
    load s' = load s + (s'.threads t).remaining := by
  have hrest : ∑ u ∈ assigned s, (s'.threads u).remaining = load s := by
    apply Finset.sum_congr rfl
    intro u hu
    exact hsame u fun hut => ht (hut ▸ hu)
  rw [load, h, Finset.sum_insert ht, hrest, add_comm]

theorem load_leave (h : assigned s' = (assigned s).erase t) (ht : t ∈ assigned s)
    (hsame : ∀ u, u ≠ t → (s'.threads u).remaining = (s.threads u).remaining) :
    load s' = load s - (s.threads t).remaining := by
  have hrest : ∑ u ∈ (assigned s).erase t, (s'.threads u).remaining =
      ∑ u ∈ (assigned s).erase t, (s.threads u).remaining := by
    apply Finset.sum_congr rfl
    intro u hu
    exact hsame u (Finset.ne_of_mem_erase hu)
  rw [load, h, hrest, load, ← Finset.add_sum_erase _ _ ht]
  ring

theorem load_stay (h : assigned s' = assigned s) (ht : t ∈ assigned s)
    (hsame : ∀ u, u ≠ t → (s'.threads u).remaining = (s.threads u).remaining) :
    load s' = load s - (s.threads t).remaining + (s'.threads t).remaining := by
  have hsum := sum_mem_change ht hsame
  rw [load, h, load]
  linear_combination hsum

theorem load_congr (h : assigned s' = assigned s)
    (hsame : ∀ u, (s'.threads u).remaining = (s.threads u).remaining) : load s' = load s := by
  rw [load, h]
  exact Finset.sum_congr rfl fun u _ => hsame u

theorem assigned_insert (h : Members m s R F) (h' : Members n s' (insert t R) F) :
    assigned s' = insert t (assigned s) := by
  ext u
  rw [mem_assigned_iff h', Finset.mem_insert, mem_assigned_iff h, Set.insert_union,
    Set.mem_insert_iff]

theorem assigned_erase (h : Members m s R F) (h' : Members n s' (R \ {t}) (F \ {t})) :
    assigned s' = (assigned s).erase t := by
  ext u
  rw [mem_assigned_iff h', Finset.mem_erase, mem_assigned_iff h, ← remove_union, Set.mem_sdiff,
    Set.mem_singleton_iff, and_comm]

end Load

section Weights

variable {s s' : State τ} {t u : τ}

theorem enterRunning_remaining (alloc : Allocator) (s : State τ) (t u : τ) (n : ℕ) :
    ((enterRunning alloc s t n).threads u).remaining = (s.threads u).remaining :=
  heapInsert_field Thread.remaining (k := byRemaining) (fun _ _ => rfl) _ _ _ _

theorem enterAffinity_remaining (alloc : Allocator) (s : State τ) (t u : τ) (n : ℕ) :
    ((enterAffinity alloc s t n).threads u).remaining = (s.threads u).remaining := by
  refine Eq.trans (heapInsert_field Thread.remaining (k := byAffinity) (fun _ _ => rfl) _ _ _ u) ?_
  refine State.threads_setThread_field Thread.remaining ?_ s t u
  exact fun _ => rfl

theorem insert_remaining (alloc : Allocator) (s : State τ) (t u : τ) :
    ((schedInsertThread alloc s t).threads u).remaining =
      if u = t then (s.threads t).softPriority / 2 else (s.threads u).remaining := by
  rw [schedInsertThread, enterRunning_remaining, enterAffinity_remaining]
  by_cases hu : u = t
  · subst hu
    simp [State.setThread, State.setSched]
  · simp [State.setThread, State.setSched, hu]

theorem restart_remaining (alloc : Allocator) (s : State τ) (t u : τ) :
    ((schedRestartThread alloc s t).threads u).remaining =
      if u = t then restartRemaining s t else (s.threads u).remaining := by
  rw [schedRestartThread]
  refine Eq.trans (State.threads_setThread_field Thread.remaining ?_ _ t u) ?_
  · exact fun _ => rfl
  · refine Eq.trans (enterRunning_remaining alloc _ t u _) ?_
    refine Eq.trans (enterAffinity_remaining alloc _ t u _) ?_
    by_cases hu : u = t
    · subst hu
      simp only [State.setThread, setThread_self, restartRemaining, if_true]
      split <;> rfl
    · simp [State.setThread, hu]

theorem restart_total (alloc : Allocator) (s : State τ) (t : τ) :
    (schedRestartThread alloc s t).sched.totalCount =
      s.sched.totalCount + (s.threads t).softPriority := by
  have hsoft : ((enterAffinity alloc (s.setThread t fun th =>
      if th.epoch.ult s.sched.epoch then
        { th with remaining := th.remaining + restartIncrease s.sched.epoch th }
      else th) t (s.sched.affinityQueue.size + 1)).threads t).softPriority =
      (s.threads t).softPriority := by
    refine Eq.trans (heapInsert_field Thread.softPriority (k := byAffinity) (fun _ _ => rfl)
      _ _ _ t) ?_
    refine Eq.trans (State.threads_setThread_field Thread.softPriority ?_ _ t t) ?_
    · exact fun _ => rfl
    · refine State.threads_setThread_field Thread.softPriority ?_ s t t
      intro th
      split <;> rfl
  exact congrArg (s.sched.totalCount + ·) hsoft

theorem reassign_remaining (s : State τ) (t u : τ) :
    ((schedReassignThread s t).threads u).remaining = (s.threads u).remaining := by
  rw [schedReassignThread]
  refine Eq.trans (State.threads_setThread_field Thread.remaining ?_ _ t u) ?_
  · exact fun _ => rfl
  · refine Eq.trans (heapInsert_field Thread.remaining (k := byRemaining) (fun _ _ => rfl)
      _ _ t u) ?_
    refine Eq.trans (heapInsert_field Thread.remaining (k := byAffinity) (fun _ _ => rfl)
      _ _ t u) ?_
    refine State.threads_setThread_field Thread.remaining ?_ s t u
    intro th
    split <;> rfl

theorem reassign_total (s : State τ) (t : τ) :
    (schedReassignThread s t).sched.totalCount =
      s.sched.totalCount + (s.threads t).remaining := by
  have hsame : (((s.setThread t fun th => if th.cpuId ≠ s.sched.cpuId then
      { th with cpuId := s.sched.cpuId, affinity := 0 } else th).onAffinity
        fun threads heap => heapInsert byAffinity threads heap t).threads t).remaining =
      (s.threads t).remaining := by
    refine Eq.trans (heapInsert_field Thread.remaining (k := byAffinity) (fun _ _ => rfl)
      _ _ t t) ?_
    refine State.threads_setThread_field Thread.remaining ?_ s t t
    intro th
    split <;> rfl
  exact congrArg (s.sched.totalCount + ·) hsame

theorem deleteFromQueue_remaining (s : State τ) (t u : τ) :
    ((deleteFromQueue s t).threads u).remaining = (s.threads u).remaining := by
  dsimp only [deleteFromQueue]
  refine Eq.trans (heapDelete_field Thread.remaining (k := byAffinity) (fun _ _ => rfl) _ _ _ u) ?_
  split
  · exact heapDelete_field Thread.remaining (k := byRemaining) (fun _ _ => rfl) _ _ _ u
  · exact heapDelete_field Thread.remaining (k := byRemaining) (fun _ _ => rfl) _ _ _ u

theorem deleteFromQueue_total (s : State τ) (t : τ) :
    (deleteFromQueue s t).sched.totalCount = s.sched.totalCount := by
  dsimp only [deleteFromQueue]
  split <;> rfl

theorem detach_remaining (env : Env τ) (s : State τ) (hu : u ≠ t) :
    ((detachCurrent env s t).threads u).remaining = (s.threads u).remaining := by
  dsimp only [detachCurrent]
  refine Eq.trans (heapDelete_field Thread.remaining (k := byRemaining) (fun _ _ => rfl) _ _ _ u) ?_
  refine Eq.trans (heapDelete_field Thread.remaining (k := byAffinity) (fun _ _ => rfl) _ _ _ u) ?_
  simp [State.setThread, State.setSched, hu]

theorem setKey_remaining {threads : τ → Thread} {heap : Heap τ} {index : ℕ}
    (h1 : 1 ≤ index) (hn : index ≤ heap.size) (hslot : heap.dataName index = t) (val : BitVec 32)
    (u : τ) : ((priorityHeapSetKey threads heap index val).1 u).remaining =
      if u = t then val else (threads u).remaining := by
  rw [priorityHeapSetKey, hslot]
  split
  · rename_i hskip
    have hval : (threads t).remaining = val := hskip.resolve_left (by omega) |>.resolve_left (by omega)
    split
    · rw [‹u = t›, hval]
    · rfl
  · refine Eq.trans (heapMoveKey_field Thread.remaining (k := byRemaining) (fun _ _ => rfl)
      _ _ _ _ u) ?_
    by_cases hu : u = t
    · subst hu
      simp
    · simp [hu]

theorem changeRemaining_remaining {R F : Set τ} {m : ℕ} (h : Members m s R F) (ht : t ∈ R ∪ F)
    (hcur : s.sched.currentThread ≠ some t) (remaining : BitVec 32) (u : τ) :
    ((schedChangeRemaining s t remaining).threads u).remaining =
      if u = t then remaining else (s.threads u).remaining := by
  rw [schedChangeRemaining, if_pos hcur]
  dsimp only
  split
  · rename_i hpos
    obtain ⟨h1, hn, hslot⟩ := Indexed.slot_pos h.parts.running ((h.inRunning_iff ht).mp hpos)
    exact setKey_remaining h1 hn hslot remaining u
  · rename_i hpos
    have hF : t ∈ F := ht.resolve_left fun hR => hpos ((h.inRunning_iff ht).mpr hR)
    obtain ⟨h1, hn, hslot⟩ := Indexed.slot_pos h.parts.finished hF
    exact setKey_remaining h1 hn hslot remaining u

end Weights

section Surplus

variable {s s' : State τ} {R F : Set τ} {t : τ} {m : ℕ}

/-- What `total_count` holds beyond the weight of the assigned threads. -/
def surplus (s : State τ) : BitVec 32 := s.sched.totalCount - load s

theorem insert_surplus (address : τ ↪ ThreadBlock) (alloc : Allocator) (h : Members 0 s R F)
    (ht : t ∉ R ∪ F) : surplus (schedInsertThread alloc s t) = surplus s +
      ((s.threads t).softPriority - (s.threads t).softPriority / 2) := by
  have hload := load_enter (assigned_insert h (h.insertThread address alloc ht))
    (fun hmem => ht ((mem_assigned_iff h).mp hmem))
    fun u hu => by rw [insert_remaining, if_neg hu]
  rw [insert_remaining, if_pos rfl] at hload
  have htotal : (schedInsertThread alloc s t).sched.totalCount =
      s.sched.totalCount + (s.threads t).softPriority := rfl
  rw [surplus, surplus, hload, htotal]
  ring

theorem restart_surplus (address : τ ↪ ThreadBlock) (alloc : Allocator) (h : Members 0 s R F)
    (ht : t ∉ R ∪ F) : surplus (schedRestartThread alloc s t) = surplus s +
      ((s.threads t).softPriority - restartRemaining s t) := by
  have hload := load_enter (assigned_insert h (h.restartThread address alloc ht))
    (fun hmem => ht ((mem_assigned_iff h).mp hmem))
    fun u hu => by rw [restart_remaining, if_neg hu]
  rw [restart_remaining, if_pos rfl] at hload
  rw [surplus, surplus, hload, restart_total]
  ring

theorem reassign_surplus (address : τ ↪ ThreadBlock) (h : Members 1 s R F) (ht : t ∉ R ∪ F) :
    surplus (schedReassignThread s t) = surplus s := by
  have hload := load_enter (assigned_insert h (h.reassignThread address ht))
    (fun hmem => ht ((mem_assigned_iff h).mp hmem)) fun u _ => reassign_remaining s t u
  rw [reassign_remaining] at hload
  rw [surplus, surplus, hload, reassign_total]
  ring

theorem delete_surplus (address : τ ↪ ThreadBlock) (h : Members m s R F) (ht : t ∈ R ∪ F) :
    surplus (deleteFromQueue s t) = surplus s + (s.threads t).remaining := by
  have hload := load_leave (assigned_erase h (h.deleteFromQueue address ht).1)
    ((mem_assigned_iff h).mpr ht) fun u _ => deleteFromQueue_remaining s t u
  rw [surplus, surplus, hload, deleteFromQueue_total]
  ring

theorem changeRemaining_surplus (h : Members m s R F) (hseat : Seated s R) (ht : t ∈ R ∪ F)
    (remaining : BitVec 32) : surplus (schedChangeRemaining s t remaining) = surplus s +
      if s.sched.currentThread = some t then
        s.sched.currentRemaining - (s.threads t).remaining
      else 0 := by
  by_cases hcur : s.sched.currentThread = some t
  · rw [if_pos hcur, schedChangeRemaining, if_neg (not_not_intro hcur)]
    show s.sched.totalCount + (s.sched.currentRemaining - (s.threads t).remaining) - load s = _
    rw [surplus]
    ring
  · have hassigned : assigned (schedChangeRemaining s t remaining) = assigned s := by
      ext u
      rw [mem_assigned_iff (h.changeRemaining hseat remaining).1, mem_assigned_iff h]
    have hload := load_stay hassigned ((mem_assigned_iff h).mpr ht) fun u hu => by
      rw [changeRemaining_remaining h ht hcur, if_neg hu]
    rw [changeRemaining_remaining h ht hcur, if_pos rfl] at hload
    have htotal : (schedChangeRemaining s t remaining).sched.totalCount =
        s.sched.totalCount + (remaining - (s.threads t).remaining) := by
      rw [schedChangeRemaining, if_pos hcur]
      dsimp only
      split <;> rfl
    rw [if_neg hcur, surplus, surplus, hload, htotal]
    ring

theorem surplus_of_total (hqueue : s'.sched.affinityQueue = s.sched.affinityQueue)
    (hsame : ∀ u, (s'.threads u).remaining = (s.threads u).remaining) :
    surplus s' = s'.sched.totalCount - load s := by
  rw [surplus, load_congr (s := s) (by rw [assigned, hqueue, assigned]) hsame]

/-- `thread->epoch` and `total_count` of a thread that leaves. -/
theorem discharge_surplus (s : State τ) (t : τ) (epoch weight : BitVec 32) :
    surplus ((s.setSched fun sc => { sc with totalCount := sc.totalCount - weight }).setThread t
      fun th => { th with epoch }) = surplus s - weight := by
  have hsame : ∀ u, (((s.setSched fun sc => { sc with
      totalCount := sc.totalCount - weight }).setThread t fun th => { th with
        epoch }).threads u).remaining = (s.threads u).remaining := by
    intro u
    refine State.threads_setThread_field Thread.remaining ?_ _ t u
    exact fun _ => rfl
  refine (surplus_of_total (s := s) ?_ hsame).trans ?_
  · rfl
  · exact sub_right_comm _ _ _

theorem eschew_surplus (address : τ ↪ ThreadBlock) (h : Members 0 s R F) :
    surplus (schedEschewThread s).1 = surplus s := by
  rw [schedEschewThread]
  obtain hnone | ⟨out, hout, -, hsome⟩ := h.lowestAffinity
  · rw [hnone]
  · rw [hsome]
    dsimp only
    rw [discharge_surplus, delete_surplus address h hout, deleteFromQueue_remaining]
    ring

theorem rebalance_surplus (address : τ ↪ ThreadBlock) {stolen : Option τ} (h : Members 1 s R F)
    (hr : rebalanceLoad ⟨[], stolen⟩ s = some s') : surplus s' = surplus s := by
  obtain ⟨s₁, h₁, hend⟩ := rebalanceLoad_cases hr
  cases h₁
  rcases hend with ⟨-, rfl⟩ | ⟨u, -, hu, rfl⟩
  · rfl
  · apply reassign_surplus address h
    intro hmem
    exact hu (h.queued_iff.mpr hmem)

theorem detach_surplus (address : τ ↪ ThreadBlock) (env : Env τ) (h : Members 0 s R F)
    (ht : t ∈ R) : surplus (detachCurrent env s t) = surplus s := by
  have hd := h.detach address env ht
  rw [← Set.sdiff_singleton_eq_self (h.notMem_finished ht)] at hd
  have hload := load_leave (assigned_erase h hd) ((mem_assigned_iff h).mpr (Or.inl ht))
    fun u hu => detach_remaining env s hu
  have htotal : (detachCurrent env s t).sched.totalCount =
      s.sched.totalCount - (s.threads t).remaining := rfl
  rw [surplus, surplus, hload, htotal]
  ring

theorem load_of_empty (h : Members m s R F) (hR : s.sched.runningQueue.size = 0)
    (hF : s.sched.finishedQueue.size = 0) (hfin : (R ∪ F).Finite) : load s = 0 := by
  have hnone : ∀ u, u ∉ R ∪ F := by
    have hRe : R.ncard = 0 := (Indexed.ncard h.parts.running).trans hR
    have hFe : F.ncard = 0 := (Indexed.ncard h.parts.finished).trans hF
    rw [Set.ncard_eq_zero (hfin.subset Set.subset_union_left)] at hRe
    rw [Set.ncard_eq_zero (hfin.subset Set.subset_union_right)] at hFe
    simp [hRe, hFe]
  apply Finset.sum_eq_zero
  intro u hu
  exact absurd ((mem_assigned_iff h).mp hu) (hnone u)

theorem goIdle_surplus (h : goIdle s = some s')
    (hloaded : ∀ c, s.sched.currentThread = some c →
      s.sched.currentRemaining = (s.threads c).remaining) : surplus s' = surplus s := by
  obtain ⟨c, hc, rfl⟩ := Option.map_eq_some_iff.mp h
  have hsame : ∀ u, ((s.setThread c fun th => { th with
      remaining := s.sched.currentRemaining }).threads u).remaining =
      (s.threads u).remaining := by
    intro u
    by_cases hu : u = c
    · subst hu
      simp [State.setThread, hloaded u hc]
    · simp [State.setThread, hu]
  exact surplus_of_total rfl hsame

omit [DecidableEq τ] in
theorem loadRemaining_loaded (s : State τ) (c : τ)
    (hc : (loadRemaining s).sched.currentThread = some c) :
    (loadRemaining s).sched.currentRemaining = ((loadRemaining s).threads c).remaining := by
  rw [loadRemaining] at hc ⊢
  split at hc
  · rename_i d hd
    simp only [State.setSched] at hc ⊢
    rw [hd] at hc
    cases hc
    rfl
  · rename_i hd
    simp only [State.setSched] at hc
    rw [hd] at hc
    cases hc

/-- The running queue is used up by a removal of its last thread, unless one is stolen. -/
theorem removed_members (address : τ ↪ ThreadBlock) {env : Env τ} {stolen : Option τ}
    (h : Members 0 s R F) (ht : t ∈ R)
    (hr : rebalanceLoad ⟨[], stolen⟩ (detachCurrent env s t) = some s') :
    ∃ R', Members 0 s' R' F ∧
      (s'.sched.runningQueue.size = 0 ↔ s.sched.runningQueue.size = 1 ∧ stolen = none) := by
  have hd := h.detach address env ht
  have hbefore := Indexed.ncard h.parts.running
  have hremove := ncard_remove address R ht
  obtain ⟨s₁, h₁, hend⟩ := rebalanceLoad_cases hr
  cases h₁
  rcases hend with ⟨hstolen, rfl⟩ | ⟨u, hstolen, hu, rfl⟩
  · have hafter := Indexed.ncard hd.parts.running
    refine ⟨_, hd.spare_le (Nat.zero_le 1), ?_⟩
    simp only [show stolen = none from hstolen, and_true]
    omega
  · have hm := hd.reassignThread address fun hmem => hu (hd.queued_iff.mpr hmem)
    have hafter := Indexed.ncard hm.parts.running
    have hpos : 0 < (insert u (R \ {t})).ncard :=
      (Set.ncard_pos (ncard_le_blocks address _).1).mpr (Set.insert_nonempty _ _)
    refine ⟨_, hm, ?_⟩
    simp only [show stolen = some u from hstolen, reduceCtorEq, and_false, iff_false]
    omega

theorem loadRemaining_idle (h : s.sched.currentThread = none) (hload : load s = 0) :
    surplus (loadRemaining s) = 0 := by
  rw [loadRemaining, h]
  show 0 - load s = 0
  rw [hload, sub_zero]

theorem loadRemaining_busy (h : s.sched.currentThread ≠ none) :
    surplus (loadRemaining s) = surplus s := by
  obtain ⟨c, hc⟩ := Option.ne_none_iff_exists'.mp h
  rw [loadRemaining, hc]
  rfl

/-- The end of `sched_remove_resched`. -/
theorem resumed_surplus {env : Env τ} (hepoch : s.sched.currentThread = none →
    heapHead s.sched.finishedQueue = none)
    (hr : (if env.admitted then some (loadRemaining (epochWhenIdle env s))
      else goIdle (loadRemaining (epochWhenIdle env s))) = some s') :
    surplus s' = surplus (loadRemaining s) := by
  have hsame : epochWhenIdle env s = s := by
    rw [epochWhenIdle, if_neg]
    exact fun hidle => hidle.2 (hepoch hidle.1)
  rw [hsame] at hr
  split at hr
  · cases hr
    rfl
  · exact goIdle_surplus hr (loadRemaining_loaded s)

theorem removeResched_surplus (address : τ ↪ ThreadBlock) {env : Env τ} (h : Members 0 s R F)
    (hseat : Seated s R) (hcur : s.sched.currentThread = some t)
    (hepoch : ¬ (UsesUp s t env ∧ s.sched.finishedQueue.size ≠ 0))
    (hr : schedRemoveResched { env with window := ⟨[], env.window.stolen⟩ } s t = some s') :
    surplus s' = if UsesUp s t env then 0 else surplus s := by
  have ht : t ∈ R := hseat t hcur
  rw [schedRemoveResched, removeCurrent_eq] at hr
  obtain ⟨s₁, h₁, hr⟩ := Option.bind_eq_some_iff.mp hr
  obtain ⟨s₂, h₂, rfl⟩ := Option.map_eq_some_iff.mp h₁
  obtain ⟨R', hm, hsize⟩ := removed_members address h ht h₂
  have hfinished : s₂.sched.finishedQueue.size = s.sched.finishedQueue.size :=
    (Indexed.ncard hm.parts.finished).symm.trans (Indexed.ncard h.parts.finished)
  have hkept : surplus s₂ = surplus s :=
    (rebalance_surplus address (h.detach address _ ht) h₂).trans (detach_surplus address _ h ht)
  by_cases hidle : s₂.sched.runningQueue.size = 0
  · obtain ⟨hone, hstolen⟩ := hsize.mp hidle
    have husesUp : UsesUp s t env := ⟨hcur, hone, hstolen⟩
    have hempty : s₂.sched.finishedQueue.size = 0 := by
      rw [hfinished]
      by_contra hne
      exact hepoch ⟨husesUp, hne⟩
    have hhead : heapHead s₂.sched.runningQueue = none := by simp [heapHead, hidle]
    rw [if_pos husesUp, resumed_surplus (fun _ => by simp [heapHead, State.setSched, hempty]) hr]
    apply loadRemaining_idle
    · exact hhead
    · exact load_of_empty (hm.setSched _ ⟨rfl, rfl, rfl, rfl⟩) hidle hempty
        (ncard_le_blocks address _).1
  · have hhead : heapHead s₂.sched.runningQueue ≠ none := by simp [heapHead, hidle]
    have hnot : ¬ UsesUp s t env := fun husesUp => hidle (hsize.mpr husesUp.2)
    rw [if_neg hnot, resumed_surplus (fun hnone => absurd hnone hhead) hr, loadRemaining_busy hhead]
    exact hkept

theorem load_of_last (h : Members m s R F) (ht : t ∈ R) (hone : s.sched.runningQueue.size = 1)
    (hF : s.sched.finishedQueue.size = 0) (hfin : F.Finite) :
    load s = (s.threads t).remaining := by
  have hR : R = {t} := by
    obtain ⟨u, rfl⟩ := Set.ncard_eq_one.mp ((Indexed.ncard h.parts.running).trans hone)
    rw [Set.mem_singleton_iff.mp ht]
  have hFe : F = ∅ := (Set.ncard_eq_zero hfin).mp ((Indexed.ncard h.parts.finished).trans hF)
  have hassigned : assigned s = {t} := by
    ext u
    rw [mem_assigned_iff h, hR, hFe]
    simp
  rw [load, hassigned, Finset.sum_singleton]

/-- The first lines of `sched_remove_thread`. -/
def discharged (s : State τ) (t : τ) : State τ :=
  (s.setSched fun sc => { sc with totalCount := sc.totalCount - (s.threads t).remaining }).setThread
    t fun th => { th with epoch := s.sched.epoch }

theorem discharged_members (h : Members m s R F) : Members m (discharged s t) R F := by
  refine Members.setThread (Members.setSched h _ ⟨rfl, rfl, rfl, rfl⟩) _ ?_
  exact fun _ => ⟨rfl, rfl, rfl⟩

theorem removeThread_eq (env : Env τ) (h : Members m s R F)
    (ht : t ∈ R ∪ F) : schedRemoveThread env s t =
      if s.sched.currentThread = some t then schedRemoveResched env (discharged s t) t
      else rebalanceLoad env.window (deleteFromQueue (discharged s t) t) := by
  have hcpu : ¬ ((discharged s t).sched.cpuId ≠ ((discharged s t).threads t).cpuId) :=
    not_not_intro ((discharged_members h).cpu t ht).symm
  show (if (discharged s t).sched.cpuId ≠ ((discharged s t).threads t).cpuId then _ else _) = _
  rw [if_neg hcpu]
  rfl

theorem remove_surplus (address : τ ↪ ThreadBlock) {env : Env τ} (h : Members 0 s R F)
    (hseat : Seated s R) (ht : t ∈ R ∪ F)
    (hepoch : ¬ (UsesUp s t env ∧ s.sched.finishedQueue.size ≠ 0))
    (hr : schedRemoveThread { env with window := ⟨[], env.window.stolen⟩ } s t = some s') :
    surplus s' = surplus s + drift s (.remove t env) := by
  have h₀ : Members 0 (discharged s t) R F := discharged_members h
  have hdischarge : surplus (discharged s t) = surplus s - (s.threads t).remaining :=
    discharge_surplus s t s.sched.epoch (s.threads t).remaining
  rw [removeThread_eq _ h ht] at hr
  rw [drift]
  by_cases hcur : s.sched.currentThread = some t
  · rw [if_pos hcur] at hr
    have hremoved : surplus s' = if UsesUp s t env then 0 else surplus (discharged s t) :=
      removeResched_surplus address h₀ hseat hcur hepoch hr
    rw [hremoved]
    by_cases hlast : UsesUp s t env
    · have hempty : s.sched.finishedQueue.size = 0 := by
        by_contra hne
        exact hepoch ⟨hlast, hne⟩
      have hload := load_of_last h (hseat t hcur) hlast.2.1 hempty (ncard_le_blocks address F).1
      rw [if_pos hlast, if_pos hlast, surplus, hload]
      ring
    · rw [if_neg hlast, if_neg hlast, if_pos hcur, hdischarge]
      ring
  · have hnot : ¬ UsesUp s t env := fun hlast => hcur hlast.1
    have hsame : ((discharged s t).threads t).remaining = (s.threads t).remaining := by
      refine State.threads_setThread_field Thread.remaining ?_ _ t t
      exact fun _ => rfl
    rw [if_neg hcur] at hr
    rw [if_neg hnot, if_neg hcur, rebalance_surplus address (h₀.deleteFromQueue address ht).1 hr,
      delete_surplus address h₀ ht, hdischarge, hsame]
    ring

end Surplus

section Runs

variable {s s' s₀ : State τ} {R F : Set τ} {e : Call τ}

omit [DecidableEq τ] in
theorem HasSpace.members (h : Members 0 s R F) (hs : HasSpace s) : Members 1 s R F := by
  refine ⟨h.parts, h.cpu, fun q hq => ⟨(h.room q hq).1, ?_⟩⟩
  have hsize := Indexed.ncard h.parts.affinity
  have hlt := hs q hq
  omega

/-- A step changes the count by the weight that comes or goes, and by its drift. -/
theorem step_surplus (address : τ ↪ ThreadBlock) (h : Members 0 s R F) (hseat : Seated s R)
    (he : step s e = some s') : surplus s' = surplus s + drift s e := by
  have hout : ∀ {t : τ}, ¬ s.queued t → t ∉ R ∪ F := fun ht hmem => ht (h.queued_iff.mpr hmem)
  cases e with
  | insert t alloc =>
    simp only [step] at he
    split at he <;> cases he
    exact insert_surplus address alloc h (hout ‹_›)
  | restart t alloc =>
    simp only [step] at he
    split at he <;> cases he
    exact restart_surplus address alloc h (hout ‹_›)
  | reassign t =>
    simp only [step] at he
    split at he <;> cases he
    rename_i hcan
    obtain ⟨hq, hspace⟩ := not_or.mp hcan
    rw [drift, add_zero]
    exact reassign_surplus address ((not_not.mp hspace).members h) (hout hq)
  | changeRemaining t remaining =>
    simp only [step] at he
    split at he <;> cases he
    exact changeRemaining_surplus h hseat (h.queued_iff.mp ‹_›) remaining
  | eschew =>
    cases he
    rw [drift, add_zero]
    exact eschew_surplus address h
  | remove t env =>
    simp only [step] at he
    split at he
    · rename_i hcan
      exact remove_surplus address h hseat (h.queued_iff.mp hcan.1) hcan.2 he
    · cases he

theorem step_members (address : τ ↪ ThreadBlock) (h : Members 0 s R F) (hseat : Seated s R)
    (he : step s e = some s') : ∃ R' F', Members 0 s' R' F' ∧ Seated s' R' := by
  cases e with
  | insert t alloc =>
    exact step_preserves_members address (e := .meanwhile (.insert t alloc)) h hseat he
  | restart t alloc =>
    exact step_preserves_members address (e := .meanwhile (.restart t alloc)) h hseat he
  | reassign t =>
    simp only [step] at he
    split at he <;> cases he
    rename_i hcan
    obtain ⟨hq, hspace⟩ := not_or.mp hcan
    have hout : t ∉ R ∪ F := fun hmem => hq (h.queued_iff.mpr hmem)
    refine ⟨insert t R, F, ((not_not.mp hspace).members h).reassignThread address hout, ?_⟩
    exact hseat.mono (Set.subset_insert _ _) rfl
  | changeRemaining t remaining =>
    exact step_preserves_members address (e := .changeRemaining t remaining) h hseat he
  | eschew => exact step_preserves_members address (e := .eschew) h hseat he
  | remove t env =>
    simp only [step] at he
    split at he
    · rename_i hcan
      refine step_preserves_members address (e := .remove t { env with
        window := ⟨[], env.window.stolen⟩ }) h hseat ?_
      simp only [Scheduler.step]
      rw [if_pos hcan.1]
      exact he
    · cases he

def Fair (s : State τ) : Call τ → Prop
  | .insert t _ => (s.threads t).softPriority = 0
  | .restart t _ => (s.threads t).softPriority = restartRemaining s t
  | .reassign _ => True
  | .changeRemaining t _ =>
    s.sched.currentThread = some t → s.sched.currentRemaining = (s.threads t).remaining
  | .eschew => True
  | .remove t env =>
    if UsesUp s t env then (s.threads t).remaining = s.sched.totalCount
    else s.sched.currentThread = some t → (s.threads t).remaining = 0

instance (s : State τ) (e : Call τ) : Decidable (Fair s e) :=
  match e with
  | .insert _ _ => inferInstanceAs (Decidable (_ = _))
  | .restart _ _ => inferInstanceAs (Decidable (_ = _))
  | .reassign _ => inferInstanceAs (Decidable True)
  | .changeRemaining _ _ => inferInstanceAs (Decidable (_ → _))
  | .eschew => inferInstanceAs (Decidable True)
  | .remove t env => inferInstanceAs (Decidable (if UsesUp s t env then _ else _))

theorem half_eq_self (x : BitVec 32) : x = x / 2 ↔ x = 0 := by
  constructor
  · intro h
    have hnat : x.toNat = x.toNat / 2 := by
      conv_lhs => rw [h]
      rfl
    apply BitVec.eq_of_toNat_eq
    show x.toNat = 0
    omega
  · rintro rfl
    rfl

theorem drift_eq_zero (s : State τ) (e : Call τ) : drift s e = 0 ↔ Fair s e := by
  cases e with
  | insert t alloc =>
    rw [drift, Fair, sub_eq_zero]
    exact half_eq_self _
  | restart t alloc =>
    rw [drift, Fair]
    exact sub_eq_zero
  | reassign t => simp [drift, Fair]
  | changeRemaining t remaining =>
    rw [drift, Fair]
    split
    · rename_i hcur
      rw [sub_eq_zero]
      exact ⟨fun h _ => h, fun h => h hcur⟩
    · rename_i hcur
      exact ⟨fun _ h => absurd h hcur, fun _ => rfl⟩
  | eschew => simp [drift, Fair]
  | remove t env =>
    rw [drift, Fair]
    split
    · exact sub_eq_zero
    · split
      · rename_i hcur
        rw [neg_eq_zero]
        exact ⟨fun h _ => h, fun h => h hcur⟩
      · rename_i hcur
        exact ⟨fun _ h => absurd h hcur, fun _ => rfl⟩

/-- The change of the count is the weight that has come less the weight that has gone: a thread
that has come and gone leaves nothing behind. -/
def Conserved (s₀ s : State τ) : Prop :=
  s.sched.totalCount - s₀.sched.totalCount = load s - load s₀

theorem conserved_iff : Conserved s₀ s ↔ surplus s = surplus s₀ := by
  rw [Conserved, surplus, surplus, sub_eq_sub_iff_add_eq_add, sub_eq_sub_iff_add_eq_add]
  constructor <;> intro h
  · rw [h]
    ring
  · rw [h]
    ring

theorem run_members (address : τ ↪ ThreadBlock) (h : Members 0 s₀ R F) (hseat : Seated s₀ R)
    (hrun : Execution step Fair s₀ s) :
    (∃ R' F', Members 0 s R' F' ∧ Seated s R') ∧ surplus s = surplus s₀ := by
  refine hrun.preserves (I := fun s => (∃ R' F', Members 0 s R' F' ∧ Seated s R') ∧
    surplus s = surplus s₀) ?_ ⟨⟨R, F, h, hseat⟩, rfl⟩
  rintro s₁ e s₂ ⟨⟨R₁, F₁, hm, hs⟩, hsurplus⟩ hfair he
  refine ⟨step_members address hm hs he, ?_⟩
  rw [step_surplus address hm hs he, (drift_eq_zero s₁ e).mpr hfair, add_zero]
  exact hsurplus

/-- From every state that a scheduler reaches, a run of fair calls conserves the count, which comes
back to its earlier value with the threads and their weights; and the first call that is not fair
breaks this. -/
theorem load_conserved (address : τ ↪ ThreadBlock) {alloc : Allocator} {any : τ} {id : BitVec 32}
    {threads : τ → Thread}
    (h₀ : Execution Scheduler.step (fun _ _ => True) ⟨threads, schedInit alloc any id⟩ s₀)
    (hrun : Execution step Fair s₀ s) :
    Conserved s₀ s ∧
      (assigned s = assigned s₀ → (∀ t ∈ assigned s₀,
        (s.threads t).remaining = (s₀.threads t).remaining) →
          s.sched.totalCount = s₀.sched.totalCount) ∧
      ∀ e s', step s e = some s' → (Conserved s₀ s' ↔ Fair s e) := by
  obtain ⟨R, F, hm, hseat⟩ := reachable_members address h₀
  obtain ⟨⟨R', F', hm', hseat'⟩, hsurplus⟩ := run_members address hm hseat hrun
  refine ⟨conserved_iff.mpr hsurplus, fun hassigned hsame => ?_, fun e s' he => ?_⟩
  · have hload : load s = load s₀ := by
      rw [load, hassigned]
      exact Finset.sum_congr rfl hsame
    rw [surplus, surplus, hload] at hsurplus
    exact sub_left_injective hsurplus
  · rw [conserved_iff, step_surplus address hm' hseat' he, hsurplus, add_eq_left]
    exact drift_eq_zero s e

end Runs

/-- A scheduler without threads; every thread has its whole soft priority left. -/
def rested : State (Fin 3) :=
  ⟨fun _ => { newThread 4 with remaining := 4 }, schedInit exactSizes 0 0⟩

theorem load_conserved_returns : ∃ s : State (Fin 3), Execution step Fair rested s ∧
    assigned s = assigned rested ∧ s.sched.totalCount = rested.sched.totalCount := by
  have hrun : (follow step Fair rested [.restart 1 exactSizes, .reassign 2, .changeRemaining 2 6,
      .eschew, .remove 2 (alone true)]).map (fun s => decide (assigned s = assigned rested)) =
      some true := by decide +kernel
  obtain ⟨s, hs, hd⟩ := Option.map_eq_some_iff.mp hrun
  have hassigned := of_decide_eq_true hd
  have hexec := execution_of_follow hs
  have hreturns := (load_conserved firstBlocks (.refl _) hexec).2.1
  refine ⟨s, hexec, hassigned, hreturns hassigned fun t ht => ?_⟩
  simp [assigned, schedInit, Scheduler.heapInit] at ht

theorem inserted_and_removed : ∃ s : State (Fin 3),
    Execution step (fun _ _ => True) emptyScheduler s ∧ assigned s = assigned emptyScheduler ∧
      assigned s = ∅ ∧ emptyScheduler.sched.totalCount = 0 ∧ s.sched.totalCount = 5 := by
  have hrun : (follow step (fun _ _ => True) emptyScheduler
      [.insert 1 exactSizes, .remove 1 (alone true)]).map (fun s => decide
        (assigned s = assigned emptyScheduler ∧ assigned s = ∅ ∧
          emptyScheduler.sched.totalCount = 0 ∧ s.sched.totalCount = 5)) = some true := by
    decide +kernel
  obtain ⟨s, hs, hd⟩ := Option.map_eq_some_iff.mp hrun
  exact ⟨s, execution_of_follow hs, of_decide_eq_true hd⟩

end LoadAccounting
