import Metakernel.Scheduler
import Mathlib.Order.CompletePartialOrder

/-!
# What the queues of a scheduler hold

`R` and `F` are the threads of the running and of the finished queue. Together they are those of
the affinity queue, every thread knows its place in both heaps that hold it, and each heap has room
for all of them. None of this depends on the keys.
-/
namespace Scheduler

open IndexedHeaps GuardedRuns

variable {τ : Type} [DecidableEq τ]

structure Parts (s : State τ) (R F A : Set τ) : Prop where
  running : Held byRemaining s.threads s.sched.runningQueue R
  finished : Held byRemaining s.threads s.sched.finishedQueue F
  affinity : Held byAffinity s.threads s.sched.affinityQueue A
  disjoint : Disjoint R F

section Parts

variable {s : State τ} {R F A S : Set τ} {t : τ} {threads threads' : τ → Thread} {heap : Heap τ}

section

omit [DecidableEq τ]

theorem Repositioned.affinity_held (h : Repositioned byRemaining S threads threads')
    (hA : Held byAffinity threads heap A) : Held byAffinity threads' heap A := by
  apply hA.congr
  intro t _
  obtain ⟨p, hp⟩ := (h t).1
  rw [hp]
  rfl

theorem Repositioned.priority_held (h : Repositioned byAffinity S threads threads')
    (hR : Held byRemaining threads heap R) : Held byRemaining threads' heap R := by
  apply hR.congr
  intro t _
  obtain ⟨p, hp⟩ := (h t).1
  rw [hp]
  rfl

theorem Repositioned.other_held (h : Repositioned byRemaining S threads threads')
    (hF : Held byRemaining threads heap F) (hd : Disjoint S F) :
    Held byRemaining threads' heap F := by
  apply hF.congr
  intro t ht
  rw [(h t).2 (Set.disjoint_right.mp hd ht)]

def State.swapQueues (s : State τ) : State τ := s.setSched fun sc => { sc with
  runningQueue := sc.finishedQueue
  finishedQueue := sc.runningQueue }

theorem Parts.swap (h : Parts s R F A) : Parts s.swapQueues F R A :=
  ⟨h.finished, h.running, h.affinity, h.disjoint.symm⟩

end

theorem Parts.insertRunning (h : Parts s R F A) (hR : t ∉ R) (hF : t ∉ F) :
    Parts (s.onRunning fun threads heap => heapInsert byRemaining threads heap t) (insert t R) F
      A := by
  obtain ⟨hheld, hrep⟩ := heapInsert_held h.running hR
  have hd : Disjoint (insert t R) F := Set.disjoint_insert_left.mpr ⟨hF, h.disjoint⟩
  exact ⟨hheld, hrep.other_held h.finished hd, hrep.affinity_held h.affinity, hd⟩

theorem Parts.insertFinished (h : Parts s R F A) (hR : t ∉ R) (hF : t ∉ F) :
    Parts (s.onFinished fun threads heap => heapInsert byRemaining threads heap t) R (insert t F)
      A := (h.swap.insertRunning hF hR).swap

theorem Parts.insertAffinity (h : Parts s R F A) (hA : t ∉ A) :
    Parts (s.onAffinity fun threads heap => heapInsert byAffinity threads heap t) R F
      (insert t A) := by
  obtain ⟨hheld, hrep⟩ := heapInsert_held h.affinity hA
  exact ⟨hrep.priority_held h.running, hrep.priority_held h.finished, hheld, h.disjoint⟩

theorem Parts.deleteRunning (h : Parts s R F A) (ht : t ∈ R) (index : (τ → Thread) → ℕ)
    (hindex : index s.threads = (s.threads t).priorityHeapPos) :
    Parts (s.onRunning fun threads heap => heapDelete byRemaining threads heap (index threads))
      (R \ {t}) F A := by
  obtain ⟨h1, hn, hslot⟩ := Indexed.slot_pos h.running ht
  have hslot : s.sched.runningQueue.dataName (index s.threads) = t := by
    rw [hindex]
    exact hslot
  obtain ⟨hheld, hrep, -, -⟩ := heapDelete_held h.running
    (show 1 ≤ index s.threads from h1.trans_eq hindex.symm) (hindex.trans_le hn)
  rw [hslot] at hheld hrep
  have hd : Disjoint (R \ {t}) F := h.disjoint.mono_left Set.sdiff_subset
  exact ⟨hheld, hrep.other_held h.finished hd, hrep.affinity_held h.affinity, hd⟩

theorem Parts.deleteFinished (h : Parts s R F A) (ht : t ∈ F) (index : (τ → Thread) → ℕ)
    (hindex : index s.threads = (s.threads t).priorityHeapPos) :
    Parts (s.onFinished fun threads heap => heapDelete byRemaining threads heap (index threads)) R
      (F \ {t}) A := (h.swap.deleteRunning ht index hindex).swap

theorem Parts.deleteAffinity (h : Parts s R F A) (ht : t ∈ A) :
    Parts (s.onAffinity fun threads heap =>
      heapDelete byAffinity threads heap (threads t).affinityHeapPos) R F (A \ {t}) := by
  obtain ⟨h1, hn, hslot⟩ := Indexed.slot_pos h.affinity ht
  obtain ⟨hheld, hrep, -, -⟩ := heapDelete_held h.affinity h1 hn
  have hslot : s.sched.affinityQueue.dataName (s.threads t).affinityHeapPos = t := hslot
  simp only [layout, byAffinity, hslot] at hheld hrep
  exact ⟨hrep.priority_held h.running, hrep.priority_held h.finished, hheld, h.disjoint⟩

omit [DecidableEq τ] in
/-- Writes to threads that leave the positions of the held ones alone. -/
theorem Parts.congr (h : Parts s R F A)
    (hpos : ∀ u, u ∈ R ∪ F ∪ A → (threads' u).priorityHeapPos = (s.threads u).priorityHeapPos ∧
      (threads' u).affinityHeapPos = (s.threads u).affinityHeapPos) :
    Parts { s with threads := threads' } R F A := by
  refine ⟨h.running.congr fun u hu => ?_, h.finished.congr fun u hu => ?_,
    h.affinity.congr fun u hu => ?_, h.disjoint⟩
  · exact (hpos u (Or.inl (Or.inl hu))).1
  · exact (hpos u (Or.inl (Or.inr hu))).1
  · exact (hpos u (Or.inr hu)).2

theorem Parts.setThread (h : Parts s R F A) (f : Thread → Thread)
    (hf : ∀ th, (f th).priorityHeapPos = th.priorityHeapPos ∧
      (f th).affinityHeapPos = th.affinityHeapPos) : Parts (s.setThread t f) R F A := by
  apply h.congr
  intro u _
  by_cases hu : u = t
  · subst hu
    simpa [State.setThread] using hf (s.threads u)
  · simp [hu]

theorem Parts.setOutside (h : Parts s R F A) (f : Thread → Thread) (ht : t ∉ R ∪ F ∪ A) :
    Parts (s.setThread t f) R F A := by
  apply h.congr
  intro u hu
  have hut : u ≠ t := fun heq => ht (heq ▸ hu)
  simp [hut]

omit [DecidableEq τ] in
theorem Parts.setSched (h : Parts s R F A) (f : Sched τ → Sched τ)
    (hR : (f s.sched).runningQueue.size = s.sched.runningQueue.size ∧
      (f s.sched).runningQueue.dataName = s.sched.runningQueue.dataName)
    (hF : (f s.sched).finishedQueue.size = s.sched.finishedQueue.size ∧
      (f s.sched).finishedQueue.dataName = s.sched.finishedQueue.dataName)
    (hA : (f s.sched).affinityQueue.size = s.sched.affinityQueue.size ∧
      (f s.sched).affinityQueue.dataName = s.sched.affinityQueue.dataName) :
    Parts (s.setSched f) R F A := by
  have hheld : ∀ (k : HeapKind) (q q' : Heap τ) (S : Set τ), q'.size = q.size ∧
      q'.dataName = q.dataName → Held k s.threads q S → Held k s.threads q' S := by
    intro k q q' S hq hS
    rw [Held, layout, hq.1, hq.2]
    exact hS
  exact ⟨hheld _ _ _ _ hR h.running, hheld _ _ _ _ hF h.finished, hheld _ _ _ _ hA h.affinity,
    h.disjoint⟩

theorem Parts.setKeyRunning (h : Parts s R F A) (index : (τ → Thread) → ℕ) (val : BitVec 32) :
    Parts (s.onRunning fun threads heap => priorityHeapSetKey threads heap (index threads) val) R F
      A := by
  rw [State.onRunning, priorityHeapSetKey]
  split
  · exact h
  · rename_i hin
    have hkey : Parts (s.setThread (s.sched.runningQueue.dataName (index s.threads))
        fun th => { th with remaining := val }) R F A := h.setThread _ fun _ => ⟨rfl, rfl⟩
    obtain ⟨hheld, hrep, -, -⟩ := heapMoveKey_held
      ((s.threads (s.sched.runningQueue.dataName (index s.threads))).remaining.ult val)
      hkey.running (by omega) (show index s.threads ≤ s.sched.runningQueue.size by omega)
    exact ⟨hheld, hrep.other_held hkey.finished h.disjoint, hrep.affinity_held hkey.affinity,
      h.disjoint⟩

theorem Parts.setKeyFinished (h : Parts s R F A) (index : (τ → Thread) → ℕ) (val : BitVec 32) :
    Parts (s.onFinished fun threads heap => priorityHeapSetKey threads heap (index threads) val) R
      F A :=
  (h.swap.setKeyRunning index val).swap

theorem Parts.setKeyAffinity (h : Parts s R F A) (index : (τ → Thread) → ℕ) (val : BitVec 32) :
    Parts (s.onAffinity fun threads heap => affinityHeapSetKey threads heap (index threads) val) R
      F A := by
  rw [State.onAffinity, affinityHeapSetKey]
  split
  · exact h
  · rename_i hin
    have hkey : Parts (s.setThread (s.sched.affinityQueue.dataName (index s.threads))
        fun th => { th with affinity := val }) R F A := h.setThread _ fun _ => ⟨rfl, rfl⟩
    obtain ⟨hheld, hrep, -, -⟩ := heapMoveKey_held
      (val.ult (s.threads (s.sched.affinityQueue.dataName (index s.threads))).affinity)
      hkey.affinity (by omega) (show index s.threads ≤ s.sched.affinityQueue.size by omega)
    exact ⟨hrep.priority_held hkey.running, hrep.priority_held hkey.finished, hheld, h.disjoint⟩

end Parts

def Roomy (s : State τ) (n : ℕ) : Prop :=
  ∀ q ∈ [s.sched.runningQueue, s.sched.finishedQueue, s.sched.affinityQueue],
    20 ≤ q.capacity ∧ n ≤ q.capacity

structure Members (spare : ℕ) (s : State τ) (R F : Set τ) : Prop where
  parts : Parts s R F (R ∪ F)
  cpu : ∀ t ∈ R ∪ F, (s.threads t).cpuId = s.sched.cpuId
  room : Roomy s ((R ∪ F).ncard + spare)

structure Steady (S : Set τ) (s s' : State τ) : Prop where
  cpu : ∀ t ∈ S, (s'.threads t).cpuId = (s.threads t).cpuId
  capacity : [s'.sched.runningQueue, s'.sched.finishedQueue, s'.sched.affinityQueue].map
      Heap.capacity =
    [s.sched.runningQueue, s.sched.finishedQueue, s.sched.affinityQueue].map Heap.capacity
  cpuId : s'.sched.cpuId = s.sched.cpuId
  current : s'.sched.currentThread = s.sched.currentThread

section Members

variable {s s' s'' : State τ} {R F R' F' S : Set τ} {t : τ} {m n : ℕ}

omit [DecidableEq τ] in
theorem Steady.refl (S : Set τ) (s : State τ) : Steady S s s := ⟨fun _ _ => rfl, rfl, rfl, rfl⟩

omit [DecidableEq τ] in
theorem Steady.trans (h : Steady S s s') (h' : Steady S s' s'') : Steady S s s'' :=
  ⟨fun t ht => (h'.cpu t ht).trans (h.cpu t ht), h'.capacity.trans h.capacity,
    h'.cpuId.trans h.cpuId, h'.current.trans h.current⟩

theorem steady_setThread (f : Thread → Thread) (hf : t ∈ S → ∀ th, (f th).cpuId = th.cpuId) :
    Steady S s (s.setThread t f) := by
  refine ⟨fun u hu => ?_, rfl, rfl, rfl⟩
  by_cases hut : u = t
  · subst hut
    simpa [State.setThread] using hf hu (s.threads u)
  · simp [State.setThread, hut]

def HeapCall (f : (τ → Thread) → Heap τ → (τ → Thread) × Heap τ) : Prop :=
  ∀ threads heap, (∀ t, ((f threads heap).1 t).cpuId = (threads t).cpuId) ∧
    (f threads heap).2.max = heap.max

omit [DecidableEq τ] in
theorem HeapCall.steady {f : (τ → Thread) → Heap τ → (τ → Thread) × Heap τ} (hf : HeapCall f)
    (S : Set τ) (s : State τ) : Steady S s (s.onRunning f) ∧ Steady S s (s.onFinished f) ∧
      Steady S s (s.onAffinity f) := by
  have hcap : ∀ heap, (f s.threads heap).2.capacity = heap.capacity := by
    intro heap
    rw [Heap.capacity, (hf s.threads heap).2, Heap.capacity]
  refine ⟨⟨fun t _ => (hf _ _).1 t, ?_, rfl, rfl⟩, ⟨fun t _ => (hf _ _).1 t, ?_, rfl, rfl⟩,
    ⟨fun t _ => (hf _ _).1 t, ?_, rfl, rfl⟩⟩
  all_goals simp [State.onRunning, State.onFinished, State.onAffinity, hcap]

theorem heapInsert_call {k : HeapKind} (hk : ∀ th p, (k.setPos th p).cpuId = th.cpuId) (t : τ) :
    HeapCall fun threads heap => heapInsert k threads heap t :=
  fun _ _ => ⟨fun _ => hk _ _, rfl⟩

theorem heapDelete_call {k : HeapKind} (hk : ∀ th p, (k.setPos th p).cpuId = th.cpuId)
    (num : (τ → Thread) → ℕ) :
    HeapCall fun threads heap => heapDelete k threads heap (num threads) := by
  intro threads heap
  dsimp only
  rw [heapDelete]
  split
  · exact ⟨fun _ => rfl, rfl⟩
  · dsimp only
    split
    · exact ⟨fun _ => rfl, rfl⟩
    · exact ⟨fun _ => hk _ _, rfl⟩

theorem heapMoveKey_call {k : HeapKind} (hk : ∀ th p, (k.setPos th p).cpuId = th.cpuId)
    (index : ℕ) (direction : Bool) :
    HeapCall fun threads (heap : Heap τ) => heapMoveKey k threads heap index direction := by
  intro threads heap
  dsimp only
  rw [heapMoveKey]
  split
  · split
    · exact ⟨fun _ => rfl, rfl⟩
    · exact ⟨fun _ => hk _ _, rfl⟩
  · exact ⟨fun _ => hk _ _, rfl⟩

theorem setKey_call {f : Thread → Thread} (hf : ∀ th, (f th).cpuId = th.cpuId) {k : HeapKind}
    (hk : ∀ th p, (k.setPos th p).cpuId = th.cpuId) (threads : τ → Thread) (heap : Heap τ)
    (index : ℕ) (direction : Bool) :
    (∀ t, ((heapMoveKey k (Scheduler.setThread threads (heap.dataName index) f) heap index
      direction).1 t).cpuId = (threads t).cpuId) ∧
      (heapMoveKey k (Scheduler.setThread threads (heap.dataName index) f) heap index
        direction).2.max = heap.max := by
  obtain ⟨hcpu, hmax⟩ := heapMoveKey_call hk index direction
    (Scheduler.setThread threads (heap.dataName index) f) heap
  refine ⟨fun t => (hcpu t).trans ?_, hmax⟩
  by_cases ht : t = heap.dataName index
  · subst ht
    simpa using hf _
  · simp [ht]

theorem priorityHeapSetKey_call (index : (τ → Thread) → ℕ) (val : BitVec 32) :
    HeapCall fun threads (heap : Heap τ) =>
      priorityHeapSetKey threads heap (index threads) val := by
  intro threads heap
  dsimp only
  rw [priorityHeapSetKey]
  split
  · exact ⟨fun _ => rfl, rfl⟩
  · exact setKey_call (f := fun th => { th with remaining := val }) (k := byRemaining)
      (fun _ => rfl) (fun _ _ => rfl) threads heap _ _

theorem affinityHeapSetKey_call (index : (τ → Thread) → ℕ) (val : BitVec 32) :
    HeapCall fun threads (heap : Heap τ) =>
      affinityHeapSetKey threads heap (index threads) val := by
  intro threads heap
  dsimp only
  rw [affinityHeapSetKey]
  split
  · exact ⟨fun _ => rfl, rfl⟩
  · exact setKey_call (f := fun th => { th with affinity := val }) (k := byAffinity)
      (fun _ => rfl) (fun _ _ => rfl) threads heap _ _

section

omit [DecidableEq τ]

theorem Roomy.steady (h : Roomy s m) (hs : Steady S s s') (hn : n ≤ m) : Roomy s' n := by
  have hmem : ∀ c ∈ [s.sched.runningQueue, s.sched.finishedQueue, s.sched.affinityQueue].map
      Heap.capacity, 20 ≤ c ∧ m ≤ c := by
    intro c hc
    obtain ⟨q, hq, rfl⟩ := List.mem_map.mp hc
    exact h q hq
  intro q hq
  rw [← hs.capacity] at hmem
  obtain ⟨h20, hm⟩ := hmem q.capacity (List.mem_map_of_mem hq)
  exact ⟨h20, hn.trans hm⟩

theorem Members.steady (h : Members m s R F) (hs : Steady (R ∪ F) s s')
    (hp : Parts s' R' F' (R' ∪ F')) (hsub : R' ∪ F' ⊆ R ∪ F)
    (hn : (R' ∪ F').ncard + n ≤ (R ∪ F).ncard + m) : Members n s' R' F' := by
  refine ⟨hp, fun t ht => ?_, h.room.steady hs hn⟩
  rw [hs.cpu t (hsub ht), hs.cpuId]
  exact h.cpu t (hsub ht)

theorem Members.spare_le (h : Members m s R F) (hn : n ≤ m) : Members n s R F :=
  h.steady (.refl _ _) h.parts le_rfl (by omega)

theorem holds_iff {heap : Heap τ} {k : HeapKind} {threads : τ → Thread} (h : Held k threads heap S) :
    heap.holds t ↔ t ∈ S := by
  rw [Indexed.mem h]
  constructor
  · rintro ⟨i, hi, rfl⟩
    exact ⟨i + 1, by omega, by omega, rfl⟩
  · rintro ⟨j, hj, hjn, rfl⟩
    refine ⟨j - 1, by omega, ?_⟩
    rw [show j - 1 + 1 = j by omega]
    rfl

theorem Members.queued_iff (h : Members m s R F) : s.queued t ↔ t ∈ R ∪ F := by
  rw [State.queued, holds_iff h.parts.running, holds_iff h.parts.finished,
    holds_iff h.parts.affinity, Set.mem_union]
  tauto

/-- `thread_t` has a name of 256 characters, so no two threads lie in one block of 256 bytes. -/
abbrev ThreadBlock := Fin (2 ^ 24)

theorem ncard_le_blocks (address : τ ↪ ThreadBlock) (S : Set τ) : S.Finite ∧ S.ncard ≤ 2 ^ 24 := by
  have hfin : Finite τ := Finite.of_injective address address.injective
  refine ⟨Set.toFinite S, ?_⟩
  have himage : (address '' S).ncard = S.ncard := address.injective.injOn.ncard_image
  have hle := Set.ncard_le_ncard (Set.subset_univ (address '' S)) Set.finite_univ
  rwa [himage, Set.ncard_univ, Nat.card_eq_fintype_card, Fintype.card_fin] at hle

theorem heapGrow_capacity (alloc : Allocator) {heap : Heap τ} (h20 : 20 ≤ heap.capacity)
    (hn : n ≤ heap.capacity) (hfew : n ≤ 2 ^ 24) :
    20 ≤ (heapGrow alloc heap (n + 1)).capacity ∧
      n + 2 ≤ (heapGrow alloc heap (n + 1)).capacity := by
  rw [heapGrow]
  split
  · rename_i hgrow
    have henough : (heap.max * 2).toNat ≤ (alloc.size (heap.max * 2)).toNat := alloc.enough _
    have hdouble : (heap.max * 2).toNat = heap.max.toNat * 2 := by
      rw [Heap.capacity] at hgrow
      rw [BitVec.toNat_mul]
      apply Nat.mod_eq_of_lt
      show heap.max.toNat * 2 < 2 ^ 32
      omega
    simp only [Heap.capacity] at *
    omega
  · omega

end

/-- A step that adds `t` to the queues. -/
theorem Members.enter (address : τ ↪ ThreadBlock) (alloc : Allocator) (h : Members 0 s R F)
    (ht : t ∉ R ∪ F) (count : BitVec 32) :
    Members 1 (enterRunning alloc ((enterAffinity alloc s t (s.sched.affinityQueue.size + 1)).setSched
      fun sc => { sc with totalCount := count }) t (s.sched.affinityQueue.size + 1))
      (insert t R) F := by
  obtain ⟨hfin, hfew⟩ := ncard_le_blocks address (R ∪ F)
  have hsize : s.sched.affinityQueue.size = (R ∪ F).ncard := (Indexed.ncard h.parts.affinity).symm
  have hgrow : ∀ q ∈ [s.sched.runningQueue, s.sched.finishedQueue, s.sched.affinityQueue],
      20 ≤ (heapGrow alloc q (s.sched.affinityQueue.size + 1)).capacity ∧
        (R ∪ F).ncard + 2 ≤ (heapGrow alloc q (s.sched.affinityQueue.size + 1)).capacity := by
    intro q hq
    obtain ⟨h20, hn⟩ := h.room q hq
    rw [hsize]
    exact heapGrow_capacity alloc h20 hn hfew
  have houter : t ∉ R ∪ F ∪ (R ∪ F) := by simpa using ht
  have hp₁ : Parts (enterAffinity alloc s t (s.sched.affinityQueue.size + 1)) R F
      (insert t (R ∪ F)) :=
    ((h.parts.setOutside _ houter).setSched _ ⟨rfl, rfl⟩ ⟨rfl, rfl⟩ (heapGrow_kept _ _ _)).insertAffinity ht
  have hp₂ := ((hp₁.setSched (fun sc => { sc with totalCount := count }) ⟨rfl, rfl⟩ ⟨rfl, rfl⟩
    ⟨rfl, rfl⟩).setSched (fun sc => { sc with
      runningQueue := heapGrow alloc sc.runningQueue (s.sched.affinityQueue.size + 1)
      finishedQueue := heapGrow alloc sc.finishedQueue (s.sched.affinityQueue.size + 1) })
    (heapGrow_kept _ _ _) (heapGrow_kept _ _ _) ⟨rfl, rfl⟩).insertRunning
    (fun hR => ht (Or.inl hR)) fun hF => ht (Or.inr hF)
  have hunion : insert t R ∪ F = insert t (R ∪ F) := Set.insert_union
  refine ⟨?_, fun u hu => ?_, ?_⟩
  · rw [hunion]
    exact hp₂
  · by_cases hut : u = t
    · subst hut
      simp [enterRunning, enterAffinity, State.setThread, State.setSched, State.onRunning,
        State.onAffinity, heapInsert, store, byRemaining, byAffinity]
    · have hmem : u ∈ R ∪ F := by
        rw [hunion] at hu
        exact (Set.mem_insert_iff.mp hu).resolve_left hut
      have hcpu := h.cpu u hmem
      simpa [enterRunning, enterAffinity, State.setThread, State.setSched, State.onRunning,
        State.onAffinity, heapInsert, store, byRemaining, byAffinity, hut] using hcpu
  · rw [hunion, Set.ncard_insert_of_notMem ht hfin]
    intro q hq
    simp only [List.mem_cons, List.not_mem_nil, or_false] at hq
    obtain rfl | rfl | rfl := hq
    · exact hgrow s.sched.runningQueue (by simp)
    · exact hgrow s.sched.finishedQueue (by simp)
    · exact hgrow s.sched.affinityQueue (by simp)

theorem Members.setOutside (h : Members m s R F) (f : Thread → Thread) (ht : t ∉ R ∪ F) :
    Members m (s.setThread t f) R F :=
  h.steady (steady_setThread f fun hmem => absurd hmem ht)
    (h.parts.setOutside f (by simpa using ht)) le_rfl le_rfl

theorem Members.setThread (h : Members m s R F) (f : Thread → Thread)
    (hf : ∀ th, (f th).priorityHeapPos = th.priorityHeapPos ∧
      (f th).affinityHeapPos = th.affinityHeapPos ∧ (f th).cpuId = th.cpuId) :
    Members m (s.setThread t f) R F :=
  h.steady (steady_setThread f fun _ th => (hf th).2.2)
    (h.parts.setThread f fun th => ⟨(hf th).1, (hf th).2.1⟩) le_rfl le_rfl

omit [DecidableEq τ] in
theorem Members.setSched (h : Members m s R F) (f : Sched τ → Sched τ)
    (hf : (f s.sched).runningQueue = s.sched.runningQueue ∧
      (f s.sched).finishedQueue = s.sched.finishedQueue ∧
      (f s.sched).affinityQueue = s.sched.affinityQueue ∧ (f s.sched).cpuId = s.sched.cpuId) :
    Members m (s.setSched f) R F := by
  obtain ⟨hR, hF, hA, hid⟩ := hf
  refine ⟨h.parts.setSched f ?_ ?_ ?_, fun t ht => (h.cpu t ht).trans hid.symm, ?_⟩
  · rw [hR]
    exact ⟨rfl, rfl⟩
  · rw [hF]
    exact ⟨rfl, rfl⟩
  · rw [hA]
    exact ⟨rfl, rfl⟩
  · have hroom := h.room
    rw [Roomy] at hroom ⊢
    rw [State.setSched, hR, hF, hA]
    exact hroom

theorem Members.insertThread (address : τ ↪ ThreadBlock) (alloc : Allocator)
    (h : Members 0 s R F) (ht : t ∉ R ∪ F) :
    Members 1 (schedInsertThread alloc s t) (insert t R) F := by
  have hstart := (h.setSched (fun sc => { sc with
    totalCount := sc.totalCount + (s.threads t).softPriority }) ⟨rfl, rfl, rfl, rfl⟩).setOutside
      (fun th => { th with remaining := th.softPriority / 2, epoch := s.sched.epoch }) ht
  exact hstart.enter address alloc ht _

theorem Members.restartThread (address : τ ↪ ThreadBlock) (alloc : Allocator)
    (h : Members 0 s R F) (ht : t ∉ R ∪ F) :
    Members 1 (schedRestartThread alloc s t) (insert t R) F := by
  have hstart := h.setOutside (fun th => if th.epoch.ult s.sched.epoch then
    { th with remaining := th.remaining + restartIncrease s.sched.epoch th } else th) ht
  exact (hstart.enter address alloc ht _).setThread _ fun _ => ⟨rfl, rfl, rfl⟩

theorem Members.reassignThread (address : τ ↪ ThreadBlock) (h : Members 1 s R F)
    (ht : t ∉ R ∪ F) : Members 0 (schedReassignThread s t) (insert t R) F := by
  obtain ⟨hfin, -⟩ := ncard_le_blocks address (R ∪ F)
  have hunion : insert t R ∪ F = insert t (R ∪ F) := Set.insert_union
  refine ⟨?_, fun u hu => ?_, ?_⟩
  · rw [hunion]
    refine Parts.setThread (Parts.insertRunning (Parts.setSched (Parts.insertAffinity
      (h.parts.setOutside _ ?_) ht) _ ⟨rfl, rfl⟩ ⟨rfl, rfl⟩ ⟨rfl, rfl⟩) ?_ ?_) _
        fun _ => ⟨rfl, rfl⟩
    · simpa using ht
    · exact fun hR => ht (Or.inl hR)
    · exact fun hF => ht (Or.inr hF)
  · by_cases hut : u = t
    · subst hut
      by_cases hcpu : (s.threads u).cpuId = s.sched.cpuId
      all_goals simp [schedReassignThread, State.setThread, State.setSched, State.onRunning,
        State.onAffinity, heapInsert, store, byRemaining, byAffinity, hcpu]
    · have hmem : u ∈ R ∪ F := by
        rw [hunion] at hu
        exact (Set.mem_insert_iff.mp hu).resolve_left hut
      have hcpu := h.cpu u hmem
      simpa [schedReassignThread, State.setThread, State.setSched, State.onRunning,
        State.onAffinity, heapInsert, store, byRemaining, byAffinity, hut] using hcpu
  · rw [hunion, Set.ncard_insert_of_notMem ht hfin]
    exact h.room.steady (S := ∅) ⟨fun _ hu => hu.elim, rfl, rfl, rfl⟩ le_rfl

/-- What happens while the lock is dropped leaves the finished queue alone. -/
theorem Members.meanwhile (address : τ ↪ ThreadBlock) {a : Meanwhile τ} (h : Members m s R F)
    (hm : m ≤ 1) (ha : meanwhile s a = some s') : ∃ R', Members m s' R' F ∧ R ⊆ R' ∧
      s'.sched.currentThread = s.sched.currentThread := by
  have h₀ : Members 0 s R F := h.spare_le (Nat.zero_le m)
  have hout : ∀ {t : τ}, ¬ s.queued t → t ∉ R ∪ F := fun ht hmem => ht (h.queued_iff.mpr hmem)
  cases a with
  | insert t alloc =>
    simp only [Scheduler.meanwhile] at ha
    split at ha <;> rename_i ht <;> cases ha
    exact ⟨_, (h₀.insertThread address alloc (hout ht)).spare_le hm, Set.subset_insert _ _, rfl⟩
  | restart t alloc =>
    simp only [Scheduler.meanwhile] at ha
    split at ha <;> rename_i ht <;> cases ha
    exact ⟨_, (h₀.restartThread address alloc (hout ht)).spare_le hm, Set.subset_insert _ _, rfl⟩
  | elsewhere t th =>
    simp only [Scheduler.meanwhile] at ha
    split at ha <;> rename_i ht <;> cases ha
    exact ⟨R, h.setOutside _ (hout ht), subset_rfl, rfl⟩

theorem Members.window (address : τ ↪ ThreadBlock) {actions : List (Meanwhile τ)}
    (h : Members 1 s R F) (ha : actions.foldlM Scheduler.meanwhile s = some s') :
    ∃ R', Members 1 s' R' F ∧ R ⊆ R' ∧ s'.sched.currentThread = s.sched.currentThread := by
  induction actions generalizing s R with
  | nil =>
    cases ha
    exact ⟨R, h, subset_rfl, rfl⟩
  | cons a actions ih =>
    rw [List.foldlM_cons] at ha
    obtain ⟨s₁, h₁, hrest⟩ := Option.bind_eq_some_iff.mp ha
    obtain ⟨R₁, hm₁, hsub₁, hcur₁⟩ := h.meanwhile address le_rfl h₁
    obtain ⟨R₂, hm₂, hsub₂, hcur₂⟩ := ih hm₁ hrest
    exact ⟨R₂, hm₂, hsub₁.trans hsub₂, hcur₂.trans hcur₁⟩

/-- After what the other CPUs do in between, a thread is stolen or nothing happens. -/
theorem rebalanceLoad_cases {w : Window τ} (hw : rebalanceLoad w s = some s') :
    ∃ s₁, w.actions.foldlM meanwhile s = some s₁ ∧ (w.stolen = none ∧ s' = s₁ ∨
      ∃ u, w.stolen = some u ∧ ¬ s₁.queued u ∧ s' = schedReassignThread s₁ u) := by
  obtain ⟨s₁, h₁, hend⟩ := Option.bind_eq_some_iff.mp hw
  refine ⟨s₁, h₁, ?_⟩
  split at hend
  · rename_i hstolen
    cases hend
    exact Or.inl ⟨hstolen, rfl⟩
  · rename_i u hstolen
    split at hend
    · cases hend
    · rename_i hu
      cases hend
      exact Or.inr ⟨u, hstolen, hu, rfl⟩

theorem Members.rebalance (address : τ ↪ ThreadBlock) {w : Window τ} (h : Members 1 s R F)
    (hw : rebalanceLoad w s = some s') :
    ∃ R', Members 0 s' R' F ∧ R ⊆ R' ∧ s'.sched.currentThread = s.sched.currentThread := by
  obtain ⟨s₁, h₁, hend⟩ := rebalanceLoad_cases hw
  obtain ⟨R₁, hm₁, hsub₁, hcur₁⟩ := h.window address h₁
  rcases hend with ⟨-, rfl⟩ | ⟨u, -, hu, rfl⟩
  · exact ⟨R₁, hm₁.spare_le (Nat.zero_le 1), hsub₁, hcur₁⟩
  · have hout := fun hmem => hu (hm₁.queued_iff.mpr hmem)
    exact ⟨_, hm₁.reassignThread address hout, hsub₁.trans (Set.subset_insert _ _), hcur₁⟩

section

omit [DecidableEq τ]

theorem ncard_remove (address : τ ↪ ThreadBlock) (S : Set τ) (ht : t ∈ S) :
    (S \ {t}).ncard + 1 = S.ncard :=
  Set.ncard_sdiff_singleton_add_one ht (ncard_le_blocks address S).1

theorem remove_union (R F : Set τ) (t : τ) : (R ∪ F) \ {t} = R \ {t} ∪ F \ {t} :=
  Set.union_sdiff_distrib

theorem Members.notMem_finished (h : Members m s R F) (ht : t ∈ R) : t ∉ F :=
  Set.disjoint_left.mp h.parts.disjoint ht

/-- The test by which `delete_from_queue` and `sched_change_remaining` tell the queues apart. -/
theorem Members.inRunning_iff (h : Members m s R F) (ht : t ∈ R ∪ F) :
    ((s.threads t).priorityHeapPos ≤ s.sched.runningQueue.size ∧
      s.sched.runningQueue.dataName (s.threads t).priorityHeapPos = t) ↔ t ∈ R := by
  constructor
  · intro hpos
    have h1 : 1 ≤ (s.threads t).priorityHeapPos := by
      obtain hR | hF := ht
      · exact (Indexed.slot_pos h.parts.running hR).1
      · exact (Indexed.slot_pos h.parts.finished hF).1
    exact (Indexed.mem_iff h.parts.running t).mpr ⟨h1, hpos⟩
  · exact fun hR => (Indexed.slot_pos h.parts.running hR).2

end

theorem Members.deleteFromQueue (address : τ ↪ ThreadBlock) (h : Members m s R F)
    (ht : t ∈ R ∪ F) : Members (m + 1) (deleteFromQueue s t) (R \ {t}) (F \ {t}) ∧
      (deleteFromQueue s t).sched.currentThread = s.sched.currentThread := by
  have hcard := ncard_remove address (R ∪ F) ht
  have hsteady : Steady (R ∪ F) s (Scheduler.deleteFromQueue s t) := by
    rw [Scheduler.deleteFromQueue]
    split
    · exact (HeapCall.steady (heapDelete_call (fun _ _ => rfl) _) _ _).1.trans
        (HeapCall.steady (heapDelete_call (fun _ _ => rfl) _) _ _).2.2
    · exact (HeapCall.steady (heapDelete_call (fun _ _ => rfl) _) _ _).2.1.trans
        (HeapCall.steady (heapDelete_call (fun _ _ => rfl) _) _ _).2.2
  have hparts : Parts (Scheduler.deleteFromQueue s t) (R \ {t}) (F \ {t}) ((R ∪ F) \ {t}) := by
    rw [Scheduler.deleteFromQueue]
    by_cases hR : t ∈ R
    · rw [if_pos ((h.inRunning_iff ht).mpr hR),
        Set.sdiff_singleton_eq_self (h.notMem_finished hR)]
      exact (h.parts.deleteRunning hR _ rfl).deleteAffinity ht
    · rw [if_neg fun hpos => hR ((h.inRunning_iff ht).mp hpos), Set.sdiff_singleton_eq_self hR]
      exact (h.parts.deleteFinished (ht.resolve_left hR) _ rfl).deleteAffinity ht
  rw [remove_union] at hcard hparts
  refine ⟨h.steady hsteady hparts ?_ (by omega), hsteady.current⟩
  rw [← remove_union]
  exact Set.sdiff_subset

def Seated (s : State τ) (R : Set τ) : Prop := ∀ c, s.sched.currentThread = some c → c ∈ R

section

omit [DecidableEq τ]

theorem Seated.mono (h : Seated s R) (hR : R ⊆ R')
    (hc : s'.sched.currentThread = s.sched.currentThread) : Seated s' R' :=
  fun c hcur => hR (h c (hc.symm.trans hcur))

theorem Members.head_mem (h : Members m s R F) {c : τ}
    (hc : heapHead s.sched.runningQueue = some c) : c ∈ R := by
  rw [heapHead] at hc
  split at hc <;> rename_i hsize
  · cases hc
    exact Indexed.slot_mem h.parts.running le_rfl (Nat.one_le_iff_ne_zero.mpr hsize)
  · cases hc

theorem Members.takeHead (h : Members m s R F) (ht : takeHead s = some s') :
    Members m s' R F ∧ Seated s' R := by
  obtain ⟨c, hc, rfl⟩ := Option.map_eq_some_iff.mp ht
  refine ⟨h.setSched _ ⟨rfl, rfl, rfl, rfl⟩, fun d hd => ?_⟩
  cases hd
  exact h.head_mem hc

theorem Members.doEpoch (h : Members m s R F) (globalEpoch : BitVec 32) :
    Members m (doEpoch globalEpoch s) F R := by
  have hroom := h.room
  refine ⟨?_, ?_, ?_⟩
  · rw [Set.union_comm]
    exact ⟨h.parts.finished, h.parts.running, h.parts.affinity, h.parts.disjoint.symm⟩
  · rw [Set.union_comm]
    exact h.cpu
  · rw [Set.union_comm F R]
    intro q hq
    apply hroom q
    simp only [List.mem_cons, List.not_mem_nil, or_false] at hq ⊢
    obtain rfl | rfl | rfl := hq
    · exact Or.inr (Or.inl rfl)
    · exact Or.inl rfl
    · exact Or.inr (Or.inr rfl)

end

theorem Members.setKeyAffinity (h : Members m s R F) (index : (τ → Thread) → ℕ)
    (val : BitVec 32) :
    Members m (s.onAffinity fun threads heap =>
      affinityHeapSetKey threads heap (index threads) val) R F :=
  h.steady (HeapCall.steady (affinityHeapSetKey_call index val) _ _).2.2
    (h.parts.setKeyAffinity index val) le_rfl le_rfl

theorem Members.setKeyRunning (h : Members m s R F) (index : (τ → Thread) → ℕ) (val : BitVec 32) :
    Members m (s.onRunning fun threads heap =>
      priorityHeapSetKey threads heap (index threads) val) R F :=
  h.steady (HeapCall.steady (priorityHeapSetKey_call index val) _ _).1
    (h.parts.setKeyRunning index val) le_rfl le_rfl

theorem Members.setKeyFinished (h : Members m s R F) (index : (τ → Thread) → ℕ)
    (val : BitVec 32) :
    Members m (s.onFinished fun threads heap =>
      priorityHeapSetKey threads heap (index threads) val) R F :=
  h.steady (HeapCall.steady (priorityHeapSetKey_call index val) _ _).2.1
    (h.parts.setKeyFinished index val) le_rfl le_rfl

omit [DecidableEq τ] in
theorem retired_union {c : τ} (hc : c ∈ R) : R \ {c} ∪ insert c F = R ∪ F := by
  rw [Set.union_insert, ← Set.insert_union, Set.insert_sdiff_singleton, Set.insert_eq_of_mem hc]

theorem Members.moveFinished (h : Members m s R F) {c : τ} (hc : c ∈ R) :
    Members m ((s.onRunning fun threads heap =>
      heapDelete byRemaining threads heap (threads c).priorityHeapPos).onFinished
        fun threads heap => heapInsert byRemaining threads heap c) (R \ {c}) (insert c F) := by
  have hunion : R \ {c} ∪ insert c F = R ∪ F := retired_union hc
  have hsteady := (HeapCall.steady (heapDelete_call (k := byRemaining) (fun _ _ => rfl)
    fun threads => (threads c).priorityHeapPos) (R ∪ F) s).1.trans
      (HeapCall.steady (heapInsert_call (k := byRemaining) (fun _ _ => rfl) c) _ _).2.1
  have hparts := (h.parts.deleteRunning hc (fun threads => (threads c).priorityHeapPos)
    rfl).insertFinished (fun hmem => hmem.2 rfl) (h.notMem_finished hc)
  refine h.steady hsteady ?_ (hunion ▸ subset_rfl) (by rw [hunion])
  rw [hunion]
  exact hparts

theorem Members.retire (h : Members m s R F) {c : τ} (hc : c ∈ R) :
    Members m (retireCurrentThread s c) (R \ {c}) (insert c F) := by
  refine Members.moveFinished (Members.setKeyAffinity (Members.setSched (Members.setThread h _ ?_)
    _ ?_) (fun threads => (threads c).affinityHeapPos) _) hc
  · exact fun _ => ⟨rfl, rfl, rfl⟩
  · exact ⟨rfl, rfl, rfl, rfl⟩

theorem Members.keep (h : Members m s R F) {env : Env τ} {c : τ} (hseat : Seated s R)
    (hk : keepCurrentThread env s c = some s') : Members m s' R F ∧ Seated s' R := by
  obtain ⟨x, -, hk⟩ := Option.bind_eq_some_iff.mp hk
  split at hk
  · exact ((h.setKeyAffinity (fun threads => (threads c).affinityHeapPos) _).setKeyRunning
      (fun threads => (threads c).priorityHeapPos) _).takeHead hk
  · cases hk
    exact ⟨h, hseat⟩

omit [DecidableEq τ] in
theorem Members.nextHead (h : Members m s R F) {globalEpoch : BitVec 32}
    (ht : Scheduler.takeHead (if s.sched.runningQueue.size = 0 then
      Scheduler.doEpoch globalEpoch s else s) = some s') :
    ∃ R' F', Members m s' R' F' ∧ Seated s' R' ∧ R' ∪ F' = R ∪ F := by
  split at ht
  · obtain ⟨hm, hseat⟩ := (h.doEpoch globalEpoch).takeHead ht
    exact ⟨F, R, hm, hseat, Set.union_comm F R⟩
  · obtain ⟨hm, hseat⟩ := h.takeHead ht
    exact ⟨R, F, hm, hseat, rfl⟩

theorem Members.check (h : Members m s R F) (hseat : Seated s R) {env : Env τ}
    (hc : checkCurrentThread env s = some s') :
    ∃ R' F', Members m s' R' F' ∧ Seated s' R' ∧ R' ∪ F' = R ∪ F := by
  rw [checkCurrentThread] at hc
  split at hc
  · rename_i c hcur
    split at hc
    · cases hc
      exact ⟨R, F, h, hseat, rfl⟩
    · split at hc
      · have hR := hseat c hcur
        obtain ⟨R', F', hm, hs, hunion⟩ := (h.retire hR).nextHead hc
        refine ⟨R', F', hm, hs, hunion.trans ?_⟩
        exact retired_union hR
      · obtain ⟨hm, hs⟩ := h.keep hseat hc
        exact ⟨R, F, hm, hs, rfl⟩
  · exact h.nextHead hc

theorem Members.takeOut (address : τ ↪ ThreadBlock) (h : Members m s R F) {c : τ} (hc : c ∈ R) :
    Members (m + 1) ((s.onAffinity fun threads heap =>
      heapDelete byAffinity threads heap (threads c).affinityHeapPos).onRunning
        fun threads heap => heapDelete byRemaining threads heap (threads c).priorityHeapPos)
      (R \ {c}) F := by
  have hcR : c ∈ R ∪ F := Or.inl hc
  have hcard := ncard_remove address (R ∪ F) hcR
  have hunion : (R ∪ F) \ {c} = R \ {c} ∪ F := by
    rw [remove_union, Set.sdiff_singleton_eq_self (h.notMem_finished hc)]
  have hsteady := (HeapCall.steady (heapDelete_call (k := byAffinity) (fun _ _ => rfl)
    fun threads : τ → Thread => (threads c).affinityHeapPos) (R ∪ F) s).2.2.trans
      (HeapCall.steady (heapDelete_call (k := byRemaining) (fun _ _ => rfl)
        fun threads => (threads c).priorityHeapPos) _ _).1
  have hparts := (h.parts.deleteAffinity hcR).deleteRunning hc
    (fun threads => (threads c).priorityHeapPos) rfl
  rw [hunion] at hparts hcard
  exact h.steady hsteady hparts (hunion ▸ Set.sdiff_subset) (by omega)

theorem Members.detach (address : τ ↪ ThreadBlock) (h : Members 0 s R F) (env : Env τ) {c : τ}
    (hc : c ∈ R) : Members 1 (detachCurrent env s c) (R \ {c}) F := by
  refine Members.takeOut address (Members.setSched (Members.setThread (Members.setSched h _ ?_)
    _ ?_) _ ?_) hc
  · exact ⟨rfl, rfl, rfl, rfl⟩
  · exact fun _ => ⟨rfl, rfl, rfl⟩
  · exact ⟨rfl, rfl, rfl, rfl⟩

theorem Members.removeCurrent (address : τ ↪ ThreadBlock) (h : Members 0 s R F) {env : Env τ}
    {c : τ} (hc : c ∈ R) (hr : removeCurrent env s c = some s') :
    ∃ R', Members 0 s' R' F ∧ Seated s' R' := by
  rw [removeCurrent_eq] at hr
  obtain ⟨s₁, hw, rfl⟩ := Option.map_eq_some_iff.mp hr
  obtain ⟨R', h', -, -⟩ := (h.detach address env hc).rebalance address hw
  exact ⟨R', h'.setSched _ ⟨rfl, rfl, rfl, rfl⟩, fun d hd => h'.head_mem hd⟩

theorem Members.testRunnable (address : τ ↪ ThreadBlock) (h : Members 0 s R F)
    (hseat : Seated s R) {env : Env τ} (ht : testRunnable env s = some s') :
    ∃ R', Members 0 s' R' F ∧ Seated s' R' := by
  rw [Scheduler.testRunnable] at ht
  split at ht
  · rename_i c hcur
    split at ht
    · cases ht
      exact ⟨R, h, hseat⟩
    · obtain ⟨s₁, hr, rfl⟩ := Option.map_eq_some_iff.mp ht
      obtain ⟨R', h', -⟩ := h.removeCurrent address (hseat c hcur) hr
      refine ⟨R', h'.setSched _ ⟨rfl, rfl, rfl, rfl⟩, fun d hd => ?_⟩
      cases hd
  · cases ht
    exact ⟨R, h, hseat⟩

omit [DecidableEq τ] in
theorem Members.doExclusion (h : Members m s R F) (hseat : Seated s R) (env : Env τ) (c : τ) :
    Members m (doExclusion env s c).1 R F ∧ Seated (doExclusion env s c).1 R := by
  rw [Scheduler.doExclusion]
  split
  · split
    · dsimp only
      split
      · exact ⟨h.setSched _ ⟨rfl, rfl, rfl, rfl⟩, hseat⟩
      · exact ⟨h, hseat⟩
    · dsimp only
      exact ⟨h.setSched _ ⟨rfl, rfl, rfl, rfl⟩, hseat⟩
  · exact ⟨h, hseat⟩

theorem Members.goIdle (h : Members m s R F) (hi : goIdle s = some s') :
    Members m s' R F ∧ Seated s' R := by
  obtain ⟨c, -, rfl⟩ := Option.map_eq_some_iff.mp hi
  refine ⟨Members.setSched (Members.setThread h _ ?_) _ ⟨rfl, rfl, rfl, rfl⟩, fun d hd => ?_⟩
  · exact fun _ => ⟨rfl, rfl, rfl⟩
  · cases hd

omit [DecidableEq τ] in
theorem Members.chargeTick (h : Members m s R F) (hseat : Seated s R) :
    Members m (chargeTick s) R F ∧ Seated (chargeTick s) R := by
  rw [Scheduler.chargeTick]
  split
  · exact ⟨h.setSched _ ⟨rfl, rfl, rfl, rfl⟩, hseat⟩
  · exact ⟨h, hseat⟩

theorem Members.afterTest (h : Members m s R F) (hseat : Seated s R) {env : Env τ}
    {out : Option τ} (hr : afterTest env s = some (s', out)) :
    ∃ R' F', Members m s' R' F' ∧ Seated s' R' ∧ R' ∪ F' = R ∪ F := by
  rw [Scheduler.afterTest] at hr
  split at hr
  · cases hr
    exact ⟨R, F, h, hseat, rfl⟩
  · obtain ⟨s₂, h₂, hr⟩ := Option.bind_eq_some_iff.mp hr
    obtain ⟨hmc, hsc⟩ := h.chargeTick hseat
    obtain ⟨R₂, F₂, hm₂, hs₂, hunion⟩ := hmc.check hsc h₂
    obtain ⟨c, -, hr⟩ := Option.bind_eq_some_iff.mp hr
    obtain ⟨hm₃, hs₃⟩ := hm₂.doExclusion hs₂ env c
    dsimp only at hr
    split at hr
    · cases hr
      exact ⟨R₂, F₂, hm₃, hs₃, hunion⟩
    · obtain ⟨s₃, h₃, hr⟩ := Option.bind_eq_some_iff.mp hr
      cases hr
      obtain ⟨hm₄, hs₄⟩ := hm₃.goIdle h₃
      exact ⟨R₂, F₂, hm₄, hs₄, hunion⟩

theorem Members.resched (address : τ ↪ ThreadBlock) (h : Members 0 s R F) (hseat : Seated s R)
    {env : Env τ} {out : Option τ} (hr : schedResched env s = some (s', out)) :
    ∃ R' F', Members 0 s' R' F' ∧ Seated s' R' := by
  rw [schedResched_eq] at hr
  obtain ⟨s₁, h₁, hr⟩ := Option.bind_eq_some_iff.mp hr
  have h₀ : Members 0 (s.setSched fun sc => { sc with
      affinityCount := sc.affinityCount + env.pageFaults }) R F :=
    h.setSched _ ⟨rfl, rfl, rfl, rfl⟩
  obtain ⟨R₁, hm₁, hs₁⟩ := h₀.testRunnable address hseat h₁
  obtain ⟨R₂, F₂, hm₂, hs₂, -⟩ := hm₁.afterTest hs₁ hr
  exact ⟨R₂, F₂, hm₂, hs₂⟩

omit [DecidableEq τ] in
theorem Members.epochWhenIdle (h : Members m s R F) (hseat : Seated s R) (env : Env τ) :
    ∃ R' F', Members m (epochWhenIdle env s) R' F' ∧ Seated (epochWhenIdle env s) R' ∧
      R' ∪ F' = R ∪ F := by
  rw [Scheduler.epochWhenIdle]
  split
  · have hm := h.doEpoch env.globalEpoch
    exact ⟨F, R, hm.setSched _ ⟨rfl, rfl, rfl, rfl⟩, fun d hd => hm.head_mem hd, Set.union_comm F R⟩
  · exact ⟨R, F, h, hseat, rfl⟩

omit [DecidableEq τ] in
theorem Members.loadRemaining (h : Members m s R F) (hseat : Seated s R) :
    Members m (loadRemaining s) R F ∧ Seated (loadRemaining s) R := by
  rw [Scheduler.loadRemaining]
  split <;> exact ⟨h.setSched _ ⟨rfl, rfl, rfl, rfl⟩, hseat⟩

theorem Members.removeResched (address : τ ↪ ThreadBlock) (h : Members 0 s R F) {env : Env τ}
    {c : τ} (hc : c ∈ R) (hr : schedRemoveResched env s c = some s') :
    ∃ R' F', Members 0 s' R' F' ∧ Seated s' R' := by
  obtain ⟨s₁, h₁, hr⟩ := Option.bind_eq_some_iff.mp hr
  obtain ⟨R₁, hm₁, hs₁⟩ := h.removeCurrent address hc h₁
  obtain ⟨R₂, F₂, hm₂, hs₂, -⟩ := hm₁.epochWhenIdle hs₁ env
  obtain ⟨hm₃, hs₃⟩ := hm₂.loadRemaining hs₂
  dsimp only at hr
  split at hr
  · cases hr
    exact ⟨R₂, F₂, hm₃, hs₃⟩
  · exact ⟨R₂, F₂, hm₃.goIdle hr⟩

theorem Members.removeThread (address : τ ↪ ThreadBlock) (h : Members 0 s R F)
    (hseat : Seated s R) {env : Env τ} (ht : t ∈ R ∪ F)
    (hr : schedRemoveThread env s t = some s') : ∃ R' F', Members 0 s' R' F' ∧ Seated s' R' := by
  have h₀ : Members 0 ((s.setSched fun sc => { sc with
      totalCount := sc.totalCount - (s.threads t).remaining }).setThread t fun th => { th with
        epoch := s.sched.epoch }) R F := by
    refine Members.setThread (Members.setSched h _ ⟨rfl, rfl, rfl, rfl⟩) _ ?_
    exact fun _ => ⟨rfl, rfl, rfl⟩
  rw [schedRemoveThread] at hr
  split at hr
  · cases hr
    exact ⟨R, F, h₀, hseat⟩
  · split at hr
    · rename_i hcur
      exact h₀.removeResched address (hseat t hcur) hr
    · rename_i hcur
      obtain ⟨hd, hsame⟩ := h₀.deleteFromQueue address ht
      obtain ⟨R', h', hsub, hsame'⟩ := hd.rebalance address hr
      refine ⟨R', _, h', fun c hc => hsub ?_⟩
      have hc₀ : s.sched.currentThread = some c := hsame.symm.trans (hsame'.symm.trans hc)
      refine ⟨hseat c hc₀, fun hct => hcur ?_⟩
      obtain rfl : c = t := hct
      exact hc₀

theorem Members.changeRemaining (h : Members m s R F) (hseat : Seated s R) (remaining : BitVec 32) :
    Members m (schedChangeRemaining s t remaining) R F ∧
      Seated (schedChangeRemaining s t remaining) R := by
  rw [schedChangeRemaining]
  split
  · have h₀ : Members m (s.setSched fun sc => { sc with
        totalCount := sc.totalCount + (remaining - (s.threads t).remaining) }) R F :=
      h.setSched _ ⟨rfl, rfl, rfl, rfl⟩
    dsimp only
    split
    · exact ⟨h₀.setKeyRunning (fun _ => (s.threads t).priorityHeapPos) remaining, hseat⟩
    · exact ⟨h₀.setKeyFinished (fun _ => (s.threads t).priorityHeapPos) remaining, hseat⟩
  · exact ⟨h.setSched _ ⟨rfl, rfl, rfl, rfl⟩, hseat⟩

theorem Members.clampRemaining (h : Members m s R F) : Members m (s.setThread t fun th =>
    if th.remaining.slt 0 then { th with remaining := 0 } else th) R F := by
  apply h.setThread
  intro th
  split <;> exact ⟨rfl, rfl, rfl⟩

theorem Members.chargePriority (h : Members m s R F) (hseat : Seated s R) (diff : BitVec 32) :
    Members m (chargePriority s t diff) R F ∧ Seated (chargePriority s t diff) R := by
  rw [Scheduler.chargePriority]
  split
  · exact h.clampRemaining.changeRemaining hseat _
  · exact ⟨h.clampRemaining, hseat⟩

theorem Members.lowestAffinity (h : Members m s R F) :
    getLowestAffinity s = (s, none) ∨ ∃ out ∈ R ∪ F, s.sched.currentThread ≠ some out ∧
      getLowestAffinity s = (Scheduler.deleteFromQueue s out, some out) := by
  have hentry : ∀ j, 1 ≤ j → j ≤ s.sched.affinityQueue.size →
      s.sched.affinityQueue.dataName j ∈ R ∪ F := fun j hj hn =>
    Indexed.slot_mem h.parts.affinity hj hn
  have hfirst : ∀ j, 2 ≤ j → j ≤ s.sched.affinityQueue.size →
      s.sched.affinityQueue.dataName j ≠ s.sched.affinityQueue.dataName 1 := by
    intro j hj hn heq
    have hpos := Indexed.pos h.parts.affinity j (by omega) hn
    have hpos1 := Indexed.pos h.parts.affinity 1 le_rfl (by omega)
    have hslot : (layout byAffinity s.threads s.sched.affinityQueue).slot j =
        (layout byAffinity s.threads s.sched.affinityQueue).slot 1 := heq
    rw [hslot, hpos1] at hpos
    omega
  rw [getLowestAffinity, heapHead]
  by_cases hsize : s.sched.affinityQueue.size = 0
  · simp [hsize]
  · simp only [hsize, ne_eq, not_false_eq_true, if_true]
    split
    · rename_i hcur
      split
      · exact Or.inl rfl
      · rename_i hone
        right
        split
        · refine ⟨_, hentry 2 (by omega) (by omega), ?_, rfl⟩
          rw [hcur]
          exact fun heq => hfirst 2 le_rfl (by omega) (Option.some_inj.mp heq).symm
        · rename_i hthird
          have hthree : 3 ≤ s.sched.affinityQueue.size := by
            by_contra hlt
            exact hthird (Or.inl (by omega))
          refine ⟨_, hentry 3 (by omega) hthree, ?_, rfl⟩
          rw [hcur]
          exact fun heq => hfirst 3 (by omega) hthree (Option.some_inj.mp heq).symm
    · rename_i hcur
      exact Or.inr ⟨_, hentry 1 le_rfl (by omega), hcur, rfl⟩

theorem Members.eschew (address : τ ↪ ThreadBlock) (h : Members 0 s R F) :
    schedEschewThread s = (s, none) ∨ ∃ out ∈ R ∪ F, s.sched.currentThread ≠ some out ∧
      (schedEschewThread s).2 = some out ∧
      Members 0 (schedEschewThread s).1 (R \ {out}) (F \ {out}) ∧
      (schedEschewThread s).1.sched.currentThread = s.sched.currentThread := by
  rw [schedEschewThread]
  obtain hnone | ⟨out, hout, hcur, hsome⟩ := h.lowestAffinity
  · rw [hnone]
    exact Or.inl rfl
  · obtain ⟨hd, hsame⟩ := h.deleteFromQueue address hout
    have hrest : Members 0 (Scheduler.deleteFromQueue s out) (R \ {out}) (F \ {out}) :=
      hd.spare_le (Nat.zero_le _)
    rw [hsome]
    refine Or.inr ⟨out, hout, hcur, rfl, Members.setThread (Members.setSched hrest _
      ⟨rfl, rfl, rfl, rfl⟩) _ ?_, hsame⟩
    exact fun _ => ⟨rfl, rfl, rfl⟩

end Members

theorem step_preserves_members (address : τ ↪ ThreadBlock) {s s' : State τ} {R F : Set τ}
    {e : Event τ} (h : Members 0 s R F) (hseat : Seated s R) (he : step s e = some s') :
    ∃ R' F', Members 0 s' R' F' ∧ Seated s' R' := by
  cases e with
  | meanwhile a =>
    obtain ⟨R', h', hsub, hcur⟩ := h.meanwhile address (Nat.zero_le 1) he
    exact ⟨R', F, h', hseat.mono hsub hcur⟩
  | remove t env =>
    simp only [step] at he
    split at he
    · rename_i ht
      exact h.removeThread address hseat (h.queued_iff.mp ht) he
    · cases he
  | eschew =>
    cases he
    obtain hnone | ⟨out, -, hcur, -, hm, hsame⟩ := h.eschew address
    · rw [hnone]
      exact ⟨R, F, h, hseat⟩
    · refine ⟨R \ {out}, F \ {out}, hm, fun c hc => ?_⟩
      have hc₀ := hsame.symm.trans hc
      refine ⟨hseat c hc₀, fun heq => hcur ?_⟩
      obtain rfl : c = out := heq
      exact hc₀
  | resched env =>
    obtain ⟨⟨s₁, out⟩, hr, rfl⟩ := Option.map_eq_some_iff.mp he
    exact h.resched address hseat hr
  | changeRemaining t remaining =>
    simp only [step] at he
    split at he <;> cases he
    exact ⟨R, F, h.changeRemaining hseat remaining⟩
  | adjustPriority t priority =>
    simp only [step] at he
    split at he <;> cases he
    refine ⟨R, F, Members.chargePriority (Members.setThread h _ ?_) hseat priority⟩
    exact fun _ => ⟨rfl, rfl, rfl⟩
  | setPriority t priority =>
    simp only [step] at he
    split at he <;> cases he
    refine ⟨R, F, Members.chargePriority (Members.setThread h _ ?_) hseat _⟩
    exact fun _ => ⟨rfl, rfl, rfl⟩
  | setHardPriority t priority =>
    simp only [step] at he
    split at he <;> cases he
    refine ⟨R, F, Members.chargePriority (Members.setThread h _ ?_) hseat _⟩
    exact fun _ => ⟨rfl, rfl, rfl⟩
  | setStatus t status =>
    cases he
    refine ⟨R, F, Members.setThread h _ ?_, hseat⟩
    exact fun _ => ⟨rfl, rfl, rfl⟩

omit [DecidableEq τ] in
theorem members_start (alloc : Allocator) (any : τ) (id : BitVec 32) (threads : τ → Thread) :
    Members 0 ⟨threads, schedInit alloc any id⟩ ∅ ∅ := by
  have hcap : 20 ≤ (heapInit alloc any 20).capacity := by
    have henough : ((20 : BitVec 32) * 4).toNat ≤ (alloc.size (20 * 4)).toNat := alloc.enough _
    have h80 : ((20 : BitVec 32) * 4).toNat = 80 := rfl
    rw [Heap.capacity, heapInit]
    dsimp only
    omega
  refine ⟨⟨indexed_empty _, indexed_empty _, ?_, Set.disjoint_empty _⟩, by simp, fun q hq => ?_⟩
  · rw [Set.union_empty]
    exact indexed_empty _
  · simp only [schedInit, List.mem_cons, List.not_mem_nil, or_false, or_self] at hq
    subst hq
    simpa using hcap

theorem reachable_members (address : τ ↪ ThreadBlock) {alloc : Allocator} {any : τ}
    {id : BitVec 32} {threads : τ → Thread} {s : State τ}
    (h : Execution step (fun _ _ => True) ⟨threads, schedInit alloc any id⟩ s) :
    ∃ R F, Members 0 s R F ∧ Seated s R := by
  refine h.preserves (I := fun s => ∃ R F, Members 0 s R F ∧ Seated s R) ?_
    ⟨∅, ∅, members_start alloc any id threads, fun c hc => by cases hc⟩
  rintro s₁ e s₂ ⟨R, F, hm, hseat⟩ - he
  exact step_preserves_members address hm hseat he

/-- In every state that the calls of a scheduler reach, the running and the finished queue hold
disjoint sets of threads, the affinity queue holds their union, every thread knows its index in
the heaps that hold it, the current thread is in the running queue, and no array is overrun. -/
theorem scheduler_membership (address : τ ↪ ThreadBlock) {alloc : Allocator} {any : τ}
    {id : BitVec 32} {threads : τ → Thread} {s : State τ}
    (h : Execution step (fun _ _ => True) ⟨threads, schedInit alloc any id⟩ s) :
    ∃ R F : Set τ, Disjoint R F ∧
      Held byRemaining s.threads s.sched.runningQueue R ∧
      Held byRemaining s.threads s.sched.finishedQueue F ∧
      Held byAffinity s.threads s.sched.affinityQueue (R ∪ F) ∧
      (∀ c, s.sched.currentThread = some c → c ∈ R) ∧
      ∀ q ∈ [s.sched.runningQueue, s.sched.finishedQueue, s.sched.affinityQueue],
        q.size ≤ q.capacity := by
  obtain ⟨R, F, hm, hseat⟩ := reachable_members address h
  have hfin := (ncard_le_blocks address (R ∪ F)).1
  refine ⟨R, F, hm.parts.disjoint, hm.parts.running, hm.parts.finished, hm.parts.affinity, hseat,
    fun q hq => ?_⟩
  have hroom := (hm.room q hq).2
  have hsize : q.size ≤ (R ∪ F).ncard := by
    simp only [List.mem_cons, List.not_mem_nil, or_false] at hq
    obtain rfl | rfl | rfl := hq
    · rw [← Indexed.ncard hm.parts.running]
      exact Set.ncard_le_ncard Set.subset_union_left hfin
    · rw [← Indexed.ncard hm.parts.finished]
      exact Set.ncard_le_ncard Set.subset_union_right hfin
    · exact (Indexed.ncard hm.parts.affinity).ge
  omega

def exactSizes : Allocator := ⟨fun n => n, BitVec.le_refl⟩

/-- A thread with a given soft priority, as `thread_create` leaves it. -/
def newThread (softPriority : BitVec 32) : Thread :=
  ⟨0, softPriority, softPriority, .runnable, .runnable, 0, 0, 0, 0, 0⟩

def alone (admitted : Bool) : Env τ := ⟨0, 0, 0, 0, admitted, ⟨[], none⟩⟩

def firstBlocks : Fin 3 ↪ ThreadBlock := Fin.castLEEmb (by decide)

/-- A scheduler without threads; thread `t` has the soft priority `10 t`. -/
def emptyScheduler : State (Fin 3) :=
  ⟨fun t => newThread (BitVec.ofNat 32 (10 * t)), schedInit exactSizes 0 0⟩

/-- Two threads run, the current one goes to sleep, and a third one is started while the lock is
dropped. -/
def startedMeanwhile : List (Event (Fin 3)) :=
  [.meanwhile (.insert 0 exactSizes), .meanwhile (.insert 1 exactSizes), .resched (alone true),
    .setStatus 1 .intSleep,
    .resched { (alone true : Env (Fin 3)) with window := ⟨[.insert 2 exactSizes], none⟩ }]

theorem scheduler_membership_window : ∃ s : State (Fin 3),
    Execution step (fun _ _ => True) emptyScheduler s ∧
      s.sched.affinityQueue.size = 2 ∧ s.sched.currentThread = some 2 ∧
      ∃ R F : Set (Fin 3), Disjoint R F ∧ (2 : Fin 3) ∈ R ∧
        Held byAffinity s.threads s.sched.affinityQueue (R ∪ F) := by
  have hrun : (follow step (fun _ _ => True) emptyScheduler startedMeanwhile).map
      (fun s => decide (s.sched.affinityQueue.size = 2 ∧ s.sched.currentThread = some 2)) =
      some true := by decide +kernel
  obtain ⟨s, hs, hd⟩ := Option.map_eq_some_iff.mp hrun
  obtain ⟨hsize, hcur⟩ := of_decide_eq_true hd
  have hexec := execution_of_follow hs
  obtain ⟨R, F, hdisj, -, -, haff, hseat, -⟩ := scheduler_membership firstBlocks hexec
  exact ⟨s, hexec, hsize, hcur, R, F, hdisj, hseat 2 hcur, haff⟩

end Scheduler
