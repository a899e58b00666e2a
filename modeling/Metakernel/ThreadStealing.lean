import Metakernel.HeapOperations
import Metakernel.RunQueueOrder

/-!
# Giving a thread away

`sched_eschew_thread` takes the thread with the smallest affinity that is not the current one. It
reads fixed indices of the affinity queue: when the current thread is the head, the next one is at
the second or the third index.
-/
namespace Scheduler

open IndexedHeaps GuardedRuns

variable {τ : Type} [DecidableEq τ]

structure Orderly (s : State τ) (R F : Set τ) : Prop where
  members : Members 0 s R F
  seated : Seated s R
  sorted : Sorted s
  affinity : HeapFile.affinity.InOrder s.threads s.sched.affinityQueue (R ∪ F)

/-- What `sched_eschew_thread` may give away. -/
def Spare (s : State τ) (R F : Set τ) (t : τ) : Prop :=
  t ∈ R ∪ F ∧ s.sched.currentThread ≠ some t

structure GivenAway (s s' : State τ) (R F : Set τ) (out : τ) : Prop where
  spare : Spare s R F out
  coldest : ∀ u, Spare s R F u → (s.threads out).affinity ≤ (s.threads u).affinity
  affinityQueue : ∀ u, s'.sched.affinityQueue.holds u ↔ s.sched.affinityQueue.holds u ∧ u ≠ out
  runningQueue : ∀ u, s'.sched.runningQueue.holds u ↔ s.sched.runningQueue.holds u ∧ u ≠ out
  finishedQueue : ∀ u, s'.sched.finishedQueue.holds u ↔ s.sched.finishedQueue.holds u ∧ u ≠ out
  oneQueue : ¬ (s.sched.runningQueue.holds out ↔ s.sched.finishedQueue.holds out)
  current : s'.sched.currentThread = s.sched.currentThread
  orderly : Orderly s' (R \ {out}) (F \ {out})

section Stealing

variable {s : State τ} {R F : Set τ} {t out : τ}

omit [DecidableEq τ] in
theorem affinity_le_iff {threads : τ → Thread} {u : τ} :
    (threads out).affinity ≤ (threads u).affinity ↔
      HeapFile.affinity.rankOf threads u ≤ HeapFile.affinity.rankOf threads out := by
  simp only [HeapFile.rankOf, HeapFile.rank, HeapFile.key, BitVec.le_def]
  omega

omit [DecidableEq τ] in
theorem Orderly.spare_entry (h : Orderly s R F) {u : τ} (hu : Spare s R F u)
    (hcur : s.sched.currentThread = some (s.sched.affinityQueue.dataName 1)) :
    ∃ j, 2 ≤ j ∧ j ≤ s.sched.affinityQueue.size ∧ s.sched.affinityQueue.dataName j = u := by
  obtain ⟨j, hj, hjn, hslot⟩ := (Indexed.mem h.affinity.held u).mp hu.1
  have hslot' : s.sched.affinityQueue.dataName j = u := hslot
  have hne : j ≠ 1 := by
    rintro rfl
    exact hu.2 (hslot' ▸ hcur)
  exact ⟨j, by omega, hjn, hslot'⟩

theorem Orderly.lowest_none (h : Orderly s R F) (hnone : (getLowestAffinity s).2 = none) :
    ∀ u, ¬ Spare s R F u := by
  intro u hu
  rw [getLowestAffinity, heapHead] at hnone
  obtain ⟨j, hj, hjn, -⟩ := (Indexed.mem h.affinity.held u).mp hu.1
  rw [if_pos (show s.sched.affinityQueue.size ≠ 0 by omega)] at hnone
  dsimp only at hnone
  split at hnone
  · rename_i hcur
    obtain ⟨i, hi, hin, -⟩ := h.spare_entry hu hcur
    rw [if_neg (by omega)] at hnone
    cases hnone
  · cases hnone

theorem Orderly.lowest_coldest (h : Orderly s R F) (hsome : (getLowestAffinity s).2 = some out) :
    ∀ u, Spare s R F u → (s.threads out).affinity ≤ (s.threads u).affinity := by
  intro u hu
  rw [affinity_le_iff]
  rw [getLowestAffinity, heapHead] at hsome
  obtain ⟨j, hj, hjn, hslot⟩ := (Indexed.mem h.affinity.held u).mp hu.1
  rw [if_pos (show s.sched.affinityQueue.size ≠ 0 by omega)] at hsome
  dsimp only at hsome
  split at hsome
  · rename_i hcur
    obtain ⟨i, hi, hin, rfl⟩ := h.spare_entry hu hcur
    rw [if_neg (by omega)] at hsome
    cases hsome
    have hult : (s.threads (s.sched.affinityQueue.dataName 2)).affinity.ult
          (s.threads (s.sched.affinityQueue.dataName 3)).affinity = true ↔
        HeapFile.affinity.rankOf s.threads (s.sched.affinityQueue.dataName 3) <
          HeapFile.affinity.rankOf s.threads (s.sched.affinityQueue.dataName 2) := by
      simp only [HeapFile.rankOf, HeapFile.rank, HeapFile.key, BitVec.ult, decide_eq_true_eq]
      omega
    have hchild : HeapFile.affinity.rankOf s.threads (s.sched.affinityQueue.dataName i) ≤
          HeapFile.affinity.rankOf s.threads (s.sched.affinityQueue.dataName 2) ∨
        3 ≤ s.sched.affinityQueue.size ∧
          HeapFile.affinity.rankOf s.threads (s.sched.affinityQueue.dataName i) ≤
            HeapFile.affinity.rankOf s.threads (s.sched.affinityQueue.dataName 3) :=
      Ordered.le_second_or_third h.affinity.layout hi hin
    split
    · rename_i hsecond
      obtain hle | ⟨hn, hle⟩ := hchild
      · exact hle
      · obtain htwo | hlt := hsecond
        · omega
        · exact hle.trans (hult.mp hlt).le
    · rename_i hthird
      obtain ⟨hsize, hnot⟩ := not_or.mp hthird
      rw [hult, not_lt] at hnot
      obtain hle | ⟨-, hle⟩ := hchild
      · exact hle.trans hnot
      · exact hle
  · cases hsome
    have hhead : heapHead s.sched.affinityQueue = some (s.sched.affinityQueue.dataName 1) := by
      rw [heapHead, if_pos (by omega)]
    exact (h.affinity.head.1 _ hhead).2 u hu.1

theorem Orderly.lowest (h : Orderly s R F) :
    (getLowestAffinity s = (s, none) ∧ ∀ u, ¬ Spare s R F u) ∨
      ∃ out, Spare s R F out ∧
        (∀ u, Spare s R F u → (s.threads out).affinity ≤ (s.threads u).affinity) ∧
        getLowestAffinity s = (deleteFromQueue s out, some out) := by
  obtain hnone | ⟨out, hout, hcur, hsome⟩ := h.members.lowestAffinity
  · exact Or.inl ⟨hnone, h.lowest_none (by rw [hnone])⟩
  · exact Or.inr ⟨out, ⟨hout, hcur⟩, h.lowest_coldest (by rw [hsome]), hsome⟩

/-- The deletion from a run queue writes to no field of the affinity heap. -/
theorem delete_affinity_fields (threads : τ → Thread) (heap : Heap τ) (num : ℕ) (u : τ) :
    ((heapDelete byRemaining threads heap num).1 u).affinity = (threads u).affinity ∧
      ((heapDelete byRemaining threads heap num).1 u).affinityHeapPos =
        (threads u).affinityHeapPos := by
  rw [heapDelete]
  split
  · exact ⟨rfl, rfl⟩
  · dsimp only
    split <;> exact ⟨rfl, rfl⟩

theorem Orderly.deleteFromQueue_affinity (h : Orderly s R F) (ht : t ∈ R ∪ F) :
    HeapFile.affinity.InOrder (deleteFromQueue s t).threads
      (deleteFromQueue s t).sched.affinityQueue ((R ∪ F) \ {t}) := by
  have hdelete : ∀ threads' : τ → Thread,
      (∀ u, (threads' u).affinity = (s.threads u).affinity ∧
        (threads' u).affinityHeapPos = (s.threads u).affinityHeapPos) →
      HeapFile.affinity.InOrder
        (heapDelete byAffinity threads' s.sched.affinityQueue (threads' t).affinityHeapPos).1
        (heapDelete byAffinity threads' s.sched.affinityQueue (threads' t).affinityHeapPos).2
        ((R ∪ F) \ {t}) := by
    intro threads' hsame
    have hin : HeapFile.affinity.InOrder threads' s.sched.affinityQueue (R ∪ F) :=
      h.affinity.congr (fun u _ => (hsame u).1) fun u _ => (hsame u).2
    obtain ⟨h1, hn, hslot⟩ := Indexed.slot_pos hin.held ht
    have hentry : s.sched.affinityQueue.dataName (threads' t).affinityHeapPos = t := hslot
    have hrest := (hin.delete h1 hn).1
    change HeapFile.affinity.InOrder _ _
      ((R ∪ F) \ {s.sched.affinityQueue.dataName (threads' t).affinityHeapPos}) at hrest
    rw [hentry] at hrest
    exact hrest
  rw [Scheduler.deleteFromQueue]
  split
  · exact hdelete _ fun u => delete_affinity_fields _ _ _ u
  · exact hdelete _ fun u => delete_affinity_fields _ _ _ u

theorem eschew_eq (hsome : getLowestAffinity s = (deleteFromQueue s out, some out)) :
    schedEschewThread s = (((deleteFromQueue s out).setSched fun sc => { sc with
      totalCount := sc.totalCount - ((deleteFromQueue s out).threads out).remaining }).setThread
        out fun th => { th with epoch := (deleteFromQueue s out).sched.epoch }, some out) := by
  rw [schedEschewThread, hsome]
  rfl

theorem Orderly.eschew (address : τ ↪ ThreadBlock) (h : Orderly s R F) (hspare : Spare s R F out)
    (hsome : getLowestAffinity s = (deleteFromQueue s out, some out)) :
    Orderly (schedEschewThread s).1 (R \ {out}) (F \ {out}) ∧
      (schedEschewThread s).1.sched.currentThread = s.sched.currentThread := by
  obtain ⟨hdeleted, hcurrent⟩ := h.members.deleteFromQueue address hspare.1
  have hsorted := h.sorted.eschew h.members
  have haffinity := h.deleteFromQueue_affinity hspare.1
  rw [remove_union] at haffinity
  rw [eschew_eq hsome] at hsorted ⊢
  refine ⟨⟨?_, ?_, hsorted, ?_⟩, hcurrent⟩
  · apply Members.setThread
    · exact (hdeleted.spare_le (Nat.zero_le _)).setSched _ ⟨rfl, rfl, rfl, rfl⟩
    · exact fun _ => ⟨rfl, rfl, rfl⟩
  · intro c hc
    have hcur : s.sched.currentThread = some c := hcurrent.symm.trans hc
    refine ⟨h.seated c hcur, ?_⟩
    rintro rfl
    exact hspare.2 hcur
  · apply haffinity.congr
    · intro u _
      exact State.threads_setThread_field Thread.affinity (by exact fun _ => rfl) _ out u
    · intro u _
      exact State.threads_setThread_field Thread.affinityHeapPos (by exact fun _ => rfl) _ out u

omit [DecidableEq τ] in
theorem holds_removed {k : HeapKind} {threads threads' : τ → Thread} {heap heap' : Heap τ}
    {S : Set τ} (hheld : Held k threads heap S) (hheld' : Held k threads' heap' (S \ {out}))
    (u : τ) : heap'.holds u ↔ heap.holds u ∧ u ≠ out := by
  rw [holds_iff hheld, holds_iff hheld', Set.mem_sdiff, Set.mem_singleton_iff]

/-- `sched_eschew_thread` gives nothing away exactly when no other than the current thread is
assigned; else it gives away the coldest of the others, removes that one from the affinity queue
and from the run queue that held it, and leaves everything in order. -/
theorem eschew_coldest (address : τ ↪ ThreadBlock) (h : Orderly s R F) :
    ((schedEschewThread s).2 = none ↔ ∀ t ∈ R ∪ F, s.sched.currentThread = some t) ∧
    ((schedEschewThread s).2 = none → (schedEschewThread s).1 = s) ∧
    ∀ out, (schedEschewThread s).2 = some out →
      GivenAway s (schedEschewThread s).1 R F out := by
  rcases h.lowest with ⟨hnone, hno⟩ | ⟨out, hspare, hcoldest, hsome⟩
  · have heschew : schedEschewThread s = (s, none) := by rw [schedEschewThread, hnone]
    rw [heschew]
    refine ⟨?_, fun _ => rfl, by simp⟩
    constructor
    · intro _ t ht
      by_contra hcur
      exact hno t ⟨ht, hcur⟩
    · exact fun _ => rfl
  · obtain ⟨horderly, hcurrent⟩ := h.eschew address hspare hsome
    have hresult : (schedEschewThread s).2 = some out := by rw [eschew_eq hsome]
    rw [hresult]
    refine ⟨?_, by simp, ?_⟩
    · constructor
      · simp
      · intro hall
        exact absurd (hall out hspare.1) hspare.2
    · intro out' hout'
      cases hout'
      have hmem := h.members
      have hparts := horderly.members.parts
      have haffinity := hparts.affinity
      rw [← remove_union] at haffinity
      refine ⟨hspare, hcoldest, holds_removed hmem.parts.affinity haffinity,
        holds_removed hmem.parts.running hparts.running,
        holds_removed hmem.parts.finished hparts.finished, ?_, hcurrent, horderly⟩
      rw [holds_iff hmem.parts.running, holds_iff hmem.parts.finished]
      intro hiff
      rcases hspare.1 with hR | hF
      · exact hmem.notMem_finished hR (hiff.mp hR)
      · exact hmem.notMem_finished (hiff.mpr hF) hF

end Stealing

/-- Of three threads the current one is the head of the affinity queue. -/
theorem eschew_coldest_third : ∃ (s : State (Fin 3)) (R F : Set (Fin 3)), Orderly s R F ∧
    s.sched.currentThread = some 2 ∧ heapHead s.sched.affinityQueue = some 2 ∧
    GivenAway s (schedEschewThread s).1 R F 0 := by
  have hrun : (follow step (fun _ _ => True) emptyScheduler
      [.meanwhile (.insert 2 exactSizes), .meanwhile (.insert 1 exactSizes),
        .meanwhile (.insert 0 exactSizes), .resched (alone true)]).map (fun s => decide
        (MaxHeap s.threads s.sched.runningQueue ∧ MaxHeap s.threads s.sched.finishedQueue ∧
          (∀ j < s.sched.affinityQueue.size + 1, 2 ≤ j →
            HeapFile.affinity.rankOf s.threads (s.sched.affinityQueue.dataName j) ≤
              HeapFile.affinity.rankOf s.threads (s.sched.affinityQueue.dataName (j / 2))) ∧
          s.sched.currentThread = some 2 ∧ heapHead s.sched.affinityQueue = some 2 ∧
          (schedEschewThread s).2 = some 0)) = some true := by decide +kernel
  obtain ⟨s, hs, hd⟩ := Option.map_eq_some_iff.mp hrun
  obtain ⟨hrunning, hfinished, hordered, hcurrent, hhead, hout⟩ := of_decide_eq_true hd
  obtain ⟨R, F, hm, hseat⟩ := reachable_members firstBlocks (execution_of_follow hs)
  have horderly : Orderly s R F := by
    refine ⟨hm, hseat, ⟨hrunning, hfinished⟩, hm.parts.affinity, ?_, fun _ _ => trivial⟩
    exact fun j hj hjn => hordered j (Nat.lt_succ_of_le hjn) hj
  exact ⟨s, R, F, horderly, hcurrent, hhead,
    (eschew_coldest firstBlocks horderly).2.2 0 hout⟩

end Scheduler
