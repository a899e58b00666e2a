import Metakernel.ManySchedulers

/-!
# Restarting a thread on the CPU that it comes from

A sleeping thread whose affinity is larger than that of a thread on its own CPU is to change places
with it: the sleeper stays, the other one goes to the CPU with the lowest load. `thread_restart`
calls `sched_exchange_thread` for this with the scheduler of the thread's own CPU, and for such a
thread the first test of `sched_exchange_thread` returns.
-/
namespace ManySchedulers

open Scheduler GuardedRuns

variable {τ ο : Type} [DecidableEq τ] [DecidableEq ο]

/-- The loop of `lowest_load` up to the CPU `i`, which keeps the CPU and its load. -/
def lowestLoadLoop (scheds : BitVec 32 → Sched τ) : ℕ → BitVec 32 × BitVec 32
  | 0 => (0, (scheds 0).totalCount)
  | i + 1 =>
    let r := lowestLoadLoop scheds i
    let load := (scheds (BitVec.ofNat 32 (i + 1))).totalCount
    if load.slt r.2 then (BitVec.ofNat 32 (i + 1), load) else r

def lowestLoad (cpuNum : ℕ) (scheds : BitVec 32 → Sched τ) : BitVec 32 :=
  (lowestLoadLoop scheds (cpuNum - 1)).1

/-- The indices of the affinity queue that `sched_exchange_thread` reads. -/
def exchangeReads (s : State τ) (t : τ) : List ℕ :=
  match heapHead s.sched.affinityQueue with
  | none => []
  | some head =>
    if (s.threads t).cpuId = s.sched.cpuId then [1]
    else if s.sched.currentThread ≠ some head then [1] else [1, 2, 3]

def Colder (g : System τ ο) (t u : τ) : Prop :=
  Queued g (g.threads t).cpuId u ∧ (g.scheds (g.threads t).cpuId).currentThread ≠ some u ∧
    (g.threads u).affinity < (g.threads t).affinity

/-- What `thread_restart` is to do with a sleeping thread whose CPU has not the lowest load. -/
structure WarmRestart (alloc : Allocator) (cpuNum : ℕ) (g : System τ ο) (t : τ) : Prop where
  warm : (∃ u, Colder g t u) →
    Queued (threadRestart alloc (lowestLoad cpuNum g.scheds) g t) (g.threads t).cpuId t ∧
      ∃ u, Colder g t u ∧ Queued (threadRestart alloc (lowestLoad cpuNum g.scheds) g t)
        (lowestLoad cpuNum g.scheds) u
  cold : (¬ ∃ u, Colder g t u) →
    Queued (threadRestart alloc (lowestLoad cpuNum g.scheds) g t) (lowestLoad cpuNum g.scheds) t
  once : ∀ u, (u = t ∨ ∃ c, Queued g c u) →
    ∃! c, Queued (threadRestart alloc (lowestLoad cpuNum g.scheds) g t) c u
  reads : ∀ i ∈ exchangeReads ((g.setThread t fun th => { th with status := th.runStatus }).at
      (g.threads t).cpuId) t, i ≤ (g.scheds (g.threads t).cpuId).affinityQueue.size

section Loads

variable {scheds : BitVec 32 → Sched τ}

end Loads

section Restart

variable {g : System τ ο} {c min : BitVec 32} {t u : τ}

omit [DecidableEq ο] in
/-- After the restart the CPU `min` has got the thread, and the other CPUs are as they were. -/
theorem restart_queued (address : τ ↪ ThreadBlock) (hk : ∀ d, Kept 0 g d)
    (ht : ∀ d, ¬ Queued g d t) (alloc : Allocator) (min c : BitVec 32) (u : τ) :
    Queued (threadRestart alloc min g t) c u ↔ Queued g c u ∨ c = min ∧ u = t := by
  rw [threadRestart_eq hk]
  set g₁ := g.setThread t fun th => { th with status := th.runStatus } with hg₁
  have hk₁ : Kept 0 g₁ min := (hk min).setThread _ fun _ => ⟨rfl, rfl, rfl⟩
  obtain ⟨-, R, F, hm⟩ := hk₁
  have hout : t ∉ R ∪ F := fun hmem => ht min (hm.queued_iff.mpr hmem)
  have hm' := hm.restartThread address alloc hout
  by_cases hc : c = min
  · subst hc
    rw [Queued, at_put_self, hm'.queued_iff, Set.insert_union, Set.mem_insert_iff,
      ← hm.queued_iff]
    change u = t ∨ Queued g c u ↔ _
    rw [or_comm, and_iff_right rfl]
  · rw [queued_put_ne _ hc]
    change Queued g c u ↔ _
    rw [or_iff_left fun hmin => hc hmin.1]

omit [DecidableEq ο] in
/-- Every thread stays where it was, and `t` is on one CPU. -/
theorem restart_once (address : τ ↪ ThreadBlock) (hk : ∀ d, Kept 0 g d)
    (ht : ∀ d, ¬ Queued g d t) (alloc : Allocator) (min : BitVec 32)
    (hu : u = t ∨ ∃ c, Queued g c u) : ∃! c, Queued (threadRestart alloc min g t) c u := by
  by_cases hut : u = t
  · subst hut
    refine ⟨min, (restart_queued address hk ht alloc min min u).mpr (Or.inr ⟨rfl, rfl⟩), ?_⟩
    intro d hd
    rcases (restart_queued address hk ht alloc min d u).mp hd with hold | ⟨heq, -⟩
    · exact absurd hold (ht d)
    · exact heq
  · obtain ⟨c, hc⟩ := hu.resolve_left hut
    refine ⟨c, (restart_queued address hk ht alloc min c u).mpr (Or.inl hc), ?_⟩
    intro d hd
    rcases (restart_queued address hk ht alloc min d u).mp hd with hold | ⟨-, heq⟩
    · by_contra hne
      exact (hk c).only (hk d) hne hc hold
    · exact absurd heq hut

theorem exchangeReads_home {s : State τ} (hid : s.sched.cpuId = (s.threads t).cpuId) :
    ∀ i ∈ exchangeReads s t, i ≤ s.sched.affinityQueue.size := by
  intro i hi
  rw [exchangeReads, heapHead] at hi
  by_cases hsize : s.sched.affinityQueue.size = 0
  · simp [hsize] at hi
  · rw [if_pos hsize] at hi
    dsimp only at hi
    rw [if_pos hid.symm, List.mem_singleton] at hi
    omega

omit [DecidableEq ο] in
/-- The exchange takes place never: the thread is restarted as it should be exactly when its own
CPU has no colder thread that could take its place elsewhere. -/
theorem warm_restart (address : τ ↪ ThreadBlock) (alloc : Allocator) {cpuNum : ℕ}
    (hk : ∀ d, Kept 0 g d) (ht : ∀ d, ¬ Queued g d t)
    (hhome : (g.threads t).cpuId ≠ lowestLoad cpuNum g.scheds) :
    WarmRestart alloc cpuNum g t ↔ ¬ ∃ u, Colder g t u := by
  have hqueued := restart_queued address hk ht alloc (lowestLoad cpuNum g.scheds)
  constructor
  · intro h hcolder
    rcases (hqueued _ t).mp (h.warm hcolder).1 with hold | ⟨heq, -⟩
    · exact ht _ hold
    · exact hhome heq
  · intro hnone
    refine ⟨fun hcolder => absurd hcolder hnone, fun _ => ?_, fun u hu => ?_, ?_⟩
    · exact (hqueued _ t).mpr (Or.inr ⟨rfl, rfl⟩)
    · exact restart_once address hk ht alloc _ hu
    · apply exchangeReads_home
      have hid := (hk (g.threads t).cpuId).1
      simpa [System.at, System.setThread] using hid

end Restart

/-- On CPU 0 thread 0 has used up its time with some page faults, then two other threads come, and
thread 0 is put to sleep and awakened. -/
def leaveCpu (pageFaults : BitVec 32) : List (Event (Fin 3) Unit) :=
  [.threadInsert 0 0 exactSizes, .syncCheck 0 false, .schedResched 0 0 (alone true),
    .syncCheck 0 false, .schedResched 0 0 { (alone true : Env (Fin 3)) with pageFaults },
    .threadInsert 1 0 exactSizes, .threadInsert 2 0 exactSizes, .wait 0 .cond (some ()),
    .syncCheck 0 false, .schedResched 0 0 (alone true), .condSignal () 1]

/-- Where `thread_restart` starts from. -/
structure BeforeRestart (g : System (Fin 3) Unit) : Prop where
  run : Execution step WakesAfter threeThreads g
  kept : ∀ d, Kept 0 g d
  nowhere : ∀ d, ¬ Queued g d 0
  home : (g.threads 0).cpuId = 0 ∧ lowestLoad 2 g.scheds = 1

theorem before_restart {g : System (Fin 3) Unit} {pageFaults : BitVec 32}
    (hg : follow step WakesAfter threeThreads (leaveCpu pageFaults) = some g)
    (hnot : ¬ Queued g 0 0) (hhome : (g.threads 0).cpuId = 0) (hmin : lowestLoad 2 g.scheds = 1) :
    BeforeRestart g := by
  have hexec := execution_of_follow hg
  have hapart : Apart g :=
    hexec.preserves (fun _ _ _ hg hw he => step_preserves_apart firstBlocks hg hw he)
      (apart_start _ _ _)
  refine ⟨hexec, hapart.kept, fun d hd => ?_, hhome, hmin⟩
  have hcpu := (hapart.kept d).cpu hd
  rw [hhome] at hcpu
  exact hnot (hcpu ▸ hd)

theorem warm_restart_cold : ∃ g : System (Fin 3) Unit, BeforeRestart g ∧
    WarmRestart exactSizes 2 g 0 := by
  have hrun : (follow step WakesAfter threeThreads (leaveCpu 0)).map (fun g => decide
      (¬ Queued g 0 0 ∧ (g.threads 0).cpuId = 0 ∧ lowestLoad 2 g.scheds = 1 ∧
        (g.threads 0).affinity = 0)) = some true := by decide +kernel
  obtain ⟨g, hg, hd⟩ := Option.map_eq_some_iff.mp hrun
  obtain ⟨hnot, hhome, hmin, haffinity⟩ := of_decide_eq_true hd
  have hbefore := before_restart hg hnot hhome hmin
  have hne : (g.threads 0).cpuId ≠ lowestLoad 2 g.scheds := by
    rw [hhome, hmin]
    decide
  refine ⟨g, hbefore,
    (warm_restart firstBlocks exactSizes hbefore.kept hbefore.nowhere hne).mpr ?_⟩
  rintro ⟨u, -, -, hlt⟩
  rw [haffinity] at hlt
  exact BitVec.not_lt_zero hlt

/-- Thread 0 has the affinity 7, the waiting thread on its CPU has 0, and still thread 0 goes to
the other CPU. -/
theorem warm_restart_leaves : ∃ g : System (Fin 3) Unit, BeforeRestart g ∧
    (∃ u, Colder g 0 u) ∧ ¬ WarmRestart exactSizes 2 g 0 := by
  have hrun : (follow step WakesAfter threeThreads (leaveCpu 7)).map (fun g => decide
      ((¬ Queued g 0 0 ∧ (g.threads 0).cpuId = 0 ∧ lowestLoad 2 g.scheds = 1) ∧
        (∃ u, Queued g 0 u ∧ (g.scheds 0).currentThread ≠ some u ∧
          (g.threads u).affinity < (g.threads 0).affinity) ∧
        ¬ Queued (threadRestart exactSizes 1 g 0) 0 0)) = some true := by decide +kernel
  obtain ⟨g, hg, hd⟩ := Option.map_eq_some_iff.mp hrun
  obtain ⟨⟨hnot, hhome, hmin⟩, hcolder, hgone⟩ := of_decide_eq_true hd
  have hex : ∃ u, Colder g 0 u := by
    simpa only [Colder, hhome] using hcolder
  refine ⟨g, before_restart hg hnot hhome hmin, hex, fun h => ?_⟩
  have hstays := (h.warm hex).1
  rw [hhome, hmin] at hstays
  exact hgone hstays

end ManySchedulers
