import Metakernel.SchedulerMembership

/-!
# The run queues as heaps

Both run queues are to be max-heaps with respect to the signed key `stat.remaining`. The heap
calls keep them so, but the key is also written in place, and `priority_heap_set_key` decides on
the direction by an unsigned comparison.
-/
namespace Scheduler

open IndexedHeaps GuardedRuns

variable {τ : Type} [DecidableEq τ]

def keyOf (threads : τ → Thread) (t : τ) : ℤ := (threads t).remaining.toInt

def MaxHeap (threads : τ → Thread) (heap : Heap τ) : Prop :=
  ∀ j, 2 ≤ j → j ≤ heap.size →
    keyOf threads (heap.dataName j) ≤ keyOf threads (heap.dataName (j / 2))

instance (threads : τ → Thread) (heap : Heap τ) : Decidable (MaxHeap threads heap) :=
  decidable_of_iff (∀ j < heap.size + 1, 2 ≤ j →
      keyOf threads (heap.dataName j) ≤ keyOf threads (heap.dataName (j / 2)))
    ⟨fun h j hj hjn => h j (Nat.lt_succ_of_le hjn) hj,
      fun h j hjn hj => h j hj (Nat.le_of_lt_succ hjn)⟩

def BelowParent (threads : τ → Thread) (heap : Heap τ) (i : ℕ) (v : BitVec 32) : Prop :=
  2 ≤ i → v.toInt ≤ keyOf threads (heap.dataName (i / 2))

def AboveChildren (threads : τ → Thread) (heap : Heap τ) (i : ℕ) (v : BitVec 32) : Prop :=
  (2 * i ≤ heap.size → keyOf threads (heap.dataName (2 * i)) ≤ v.toInt) ∧
    (2 * i + 1 ≤ heap.size → keyOf threads (heap.dataName (2 * i + 1)) ≤ v.toInt)

/-- The key at index `i` can be `v` without a move. -/
def Fits (threads : τ → Thread) (heap : Heap τ) (i : ℕ) (v : BitVec 32) : Prop :=
  BelowParent threads heap i v ∧ AboveChildren threads heap i v

/-- When `priority_heap_set_key` from the key `old` to `v` ends in a heap: it makes no move for
equal keys, none at the head for a key that is larger as an unsigned number, and none upwards
for one that is smaller. -/
def SetKeyFits (threads : τ → Thread) (heap : Heap τ) (i : ℕ) (old v : BitVec 32) : Prop :=
  (old = v → Fits threads heap i v) ∧
    (old ≠ v → old.ult v → i = 1 → AboveChildren threads heap i v) ∧
    (old ≠ v → old.ult v = false → BelowParent threads heap i v)

instance (threads : τ → Thread) (heap : Heap τ) (i : ℕ) (v : BitVec 32) :
    Decidable (BelowParent threads heap i v) := inferInstanceAs (Decidable (_ → _))

instance (threads : τ → Thread) (heap : Heap τ) (i : ℕ) (v : BitVec 32) :
    Decidable (AboveChildren threads heap i v) := inferInstanceAs (Decidable (_ ∧ _))

instance (threads : τ → Thread) (heap : Heap τ) (i : ℕ) (v : BitVec 32) :
    Decidable (Fits threads heap i v) := inferInstanceAs (Decidable (_ ∧ _))

instance (threads : τ → Thread) (heap : Heap τ) (i : ℕ) (old v : BitVec 32) :
    Decidable (SetKeyFits threads heap i old v) := inferInstanceAs (Decidable (_ ∧ _ ∧ _))

section Heaps

variable {threads threads' : τ → Thread} {heap : Heap τ} {i num : ℕ} {v : BitVec 32}

section

omit [DecidableEq τ]

theorem maxHeap_iff : MaxHeap threads heap ↔
    Ordered (keyOf threads) (layout byRemaining threads heap) heap.size := Iff.rfl

theorem MaxHeap.congr {heap' : Heap τ} (h : MaxHeap threads heap) (hsize : heap'.size = heap.size)
    (hslot : heap'.dataName = heap.dataName)
    (hkey : ∀ j, 1 ≤ j → j ≤ heap.size → (threads' (heap.dataName j)).remaining =
      (threads (heap.dataName j)).remaining) : MaxHeap threads' heap' := by
  intro j hj hjn
  rw [hsize] at hjn
  rw [hslot, keyOf, keyOf, hkey j (by omega) hjn, hkey (j / 2) (by omega) (by omega)]
  exact h j hj hjn

theorem store_maxHeap {l : Layout τ} {size : ℕ} (hl : Ordered (keyOf threads) l size) :
    MaxHeap (store byRemaining threads heap size l).1 (store byRemaining threads heap size l).2 :=
  hl

end

theorem heapInsert_maxHeap (h : MaxHeap threads heap) (t : τ) :
    MaxHeap (heapInsert byRemaining threads heap t).1
      (heapInsert byRemaining threads heap t).2 := by
  apply store_maxHeap
  exact settle_ordered (Ordered.holed_succ (maxHeap_iff.mp h)) (by omega) le_rfl

theorem heapDelete_maxHeap (h1 : 1 ≤ num) (hn : num ≤ heap.size)
    (h : OrderedAround (keyOf threads) (layout byRemaining threads heap) heap.size num) :
    MaxHeap (heapDelete byRemaining threads heap num).1
      (heapDelete byRemaining threads heap num).2 := by
  rw [heapDelete, if_neg (by omega)]
  dsimp only
  split
  · intro j hj hjn
    dsimp only at hjn
    exact h.except j hj (by omega) (by omega) (by omega)
  · apply store_maxHeap
    apply settle_ordered _ h1 (by omega)
    exact ⟨fun j hj hjn => h.except j hj (by omega), fun h2 c hcn => h.bridge h2 c (by omega)⟩

section

omit [DecidableEq τ]

/-- The key at `i` does not count. -/
theorem around_congr (h : OrderedAround (keyOf threads) (layout byRemaining threads heap)
      heap.size i) (hin : i ≤ heap.size)
    (hkey : ∀ j, 1 ≤ j → j ≤ heap.size → j ≠ i →
      keyOf threads' (heap.dataName j) = keyOf threads (heap.dataName j)) :
    OrderedAround (keyOf threads') (layout byRemaining threads' heap) heap.size i := by
  constructor
  · intro j hj hjn hji hpar
    have hpair := h.except j hj hjn hji hpar
    simp only [layout] at hpair ⊢
    rwa [hkey j (by omega) hjn hji, hkey (j / 2) (by omega) (by omega) hpar]
  · intro h2 c hcn hc
    have hpair := h.bridge h2 c hcn hc
    simp only [layout] at hpair ⊢
    rwa [hkey c (by omega) hcn (by omega), hkey (i / 2) (by omega) (by omega) (by omega)]

theorem MaxHeap.around (h : MaxHeap threads heap) (hin : i ≤ heap.size) :
    OrderedAround (keyOf threads) (layout byRemaining threads heap) heap.size i :=
  Ordered.around (maxHeap_iff.mp h) hin fun _ _ _ _ => rfl

theorem index_inj {S : Set τ} {j : ℕ} (h : Held byRemaining threads heap S) (hj : 1 ≤ j)
    (hjn : j ≤ heap.size) (h1 : 1 ≤ i) (hn : i ≤ heap.size)
    (heq : heap.dataName j = heap.dataName i) : j = i := by
  have hpos := Indexed.pos h j hj hjn
  have hpos' := Indexed.pos h i h1 hn
  simp only [layout] at hpos hpos'
  rw [heq, hpos'] at hpos
  exact hpos.symm

theorem BelowParent.congr (h : BelowParent threads heap i v) (hn : i ≤ heap.size)
    (hkey : ∀ j, 1 ≤ j → j ≤ heap.size → j ≠ i →
      keyOf threads' (heap.dataName j) = keyOf threads (heap.dataName j)) :
    BelowParent threads' heap i v := by
  intro h2
  rw [hkey (i / 2) (by omega) (by omega) (by omega)]
  exact h h2

theorem AboveChildren.congr (h : AboveChildren threads heap i v) (h1 : 1 ≤ i)
    (hkey : ∀ j, 1 ≤ j → j ≤ heap.size → j ≠ i →
      keyOf threads' (heap.dataName j) = keyOf threads (heap.dataName j)) :
    AboveChildren threads' heap i v := by
  refine ⟨fun hin => ?_, fun hin => ?_⟩
  · rw [hkey (2 * i) (by omega) hin (by omega)]
    exact h.1 hin
  · rw [hkey (2 * i + 1) (by omega) hin (by omega)]
    exact h.2 hin

theorem Fits.congr (h : Fits threads heap i v) (h1 : 1 ≤ i) (hn : i ≤ heap.size)
    (hkey : ∀ j, 1 ≤ j → j ≤ heap.size → j ≠ i →
      keyOf threads' (heap.dataName j) = keyOf threads (heap.dataName j)) :
    Fits threads' heap i v := ⟨h.1.congr hn hkey, h.2.congr h1 hkey⟩

theorem SetKeyFits.congr {old : BitVec 32} (h : SetKeyFits threads heap i old v) (h1 : 1 ≤ i)
    (hn : i ≤ heap.size)
    (hkey : ∀ j, 1 ≤ j → j ≤ heap.size → j ≠ i →
      keyOf threads' (heap.dataName j) = keyOf threads (heap.dataName j)) :
    SetKeyFits threads' heap i old v :=
  ⟨fun hv => (h.1 hv).congr h1 hn hkey, fun hv hup hone => (h.2.1 hv hup hone).congr h1 hkey,
    fun hv hup => (h.2.2 hv hup).congr hn hkey⟩

theorem maxHeap_of_fits (h : OrderedAround (keyOf threads) (layout byRemaining threads heap)
      heap.size i)
    (hfit : Fits threads heap i (threads (heap.dataName i)).remaining) : MaxHeap threads heap := by
  obtain ⟨hbelow, hleft, hright⟩ := hfit
  intro j hj hjn
  by_cases hji : j = i
  · subst hji
    exact hbelow hj
  · by_cases hpar : j / 2 = i
    · rw [hpar]
      obtain rfl | rfl : j = 2 * i ∨ j = 2 * i + 1 := by omega
      · exact hleft hjn
      · exact hright hjn
    · exact h.except j hj hjn hji hpar

theorem MaxHeap.fits (h : MaxHeap threads heap) (h1 : 1 ≤ i) (hn : i ≤ heap.size) :
    Fits threads heap i (threads (heap.dataName i)).remaining := by
  refine ⟨fun h2 => h i h2 hn, fun hin => ?_, fun hin => ?_⟩
  · have hchild := h (2 * i) (by omega) hin
    rwa [show 2 * i / 2 = i by omega] at hchild
  · have hchild := h (2 * i + 1) (by omega) hin
    rwa [show (2 * i + 1) / 2 = i by omega] at hchild

end

/-- Writes to the thread at `i` do not change the keys off `i`. -/
theorem keyOf_setThread {S : Set τ} {t : τ} (h : Held byRemaining threads heap S) (ht : t ∈ S)
    (f : Thread → Thread) {j : ℕ} (hj : 1 ≤ j) (hjn : j ≤ heap.size)
    (hne : j ≠ (threads t).priorityHeapPos) :
    keyOf (setThread threads t f) (heap.dataName j) = keyOf threads (heap.dataName j) := by
  obtain ⟨h1, hn, hslot⟩ := Indexed.slot_pos h ht
  have hother : heap.dataName j ≠ t :=
    fun heq => hne (index_inj h hj hjn h1 hn (heq.trans hslot.symm))
  simp [keyOf, hother]

theorem heapMoveKey_maxHeap {direction : Bool} (h1 : 1 ≤ i) (hn : i ≤ heap.size)
    (h : OrderedAround (keyOf threads) (layout byRemaining threads heap) heap.size i)
    (hhead : direction = true → i = 1 →
      AboveChildren threads heap i (threads (heap.dataName i)).remaining)
    (hdown : direction = false →
      BelowParent threads heap i (threads (heap.dataName i)).remaining) :
    MaxHeap (heapMoveKey byRemaining threads heap i direction).1
      (heapMoveKey byRemaining threads heap i direction).2 := by
  rw [heapMoveKey]
  split
  · rename_i hup
    split
    · rename_i hone
      exact maxHeap_of_fits h ⟨fun h2 => absurd hone (by omega), hhead hup hone⟩
    · exact store_maxHeap (settle_ordered h h1 hn)
  · rename_i hup
    exact store_maxHeap (settleDown_ordered h h1 hn (hdown (Bool.eq_false_iff.mpr hup)))

theorem priorityHeapSetKey_maxHeap {S : Set τ} (hheld : Held byRemaining threads heap S)
    (h1 : 1 ≤ i) (hn : i ≤ heap.size)
    (h : OrderedAround (keyOf threads) (layout byRemaining threads heap) heap.size i)
    (hfit : SetKeyFits threads heap i (threads (heap.dataName i)).remaining v) :
    MaxHeap (priorityHeapSetKey threads heap i v).1 (priorityHeapSetKey threads heap i v).2 := by
  obtain ⟨hsame, hhead, hdown⟩ := hfit
  rw [priorityHeapSetKey]
  split
  · rename_i hno
    have hv : (threads (heap.dataName i)).remaining = v := by
      obtain h0 | hlt | hv := hno
      · omega
      · omega
      · exact hv
    apply maxHeap_of_fits h
    rw [hv]
    exact hsame hv
  · rename_i hno
    have hv : (threads (heap.dataName i)).remaining ≠ v := fun hv => hno (Or.inr (Or.inr hv))
    let threads₁ := setThread threads (heap.dataName i) fun th => { th with remaining := v }
    have hkey : ∀ j, 1 ≤ j → j ≤ heap.size → j ≠ i →
        keyOf threads₁ (heap.dataName j) = keyOf threads (heap.dataName j) := by
      intro j hj hjn hji
      have hne : heap.dataName j ≠ heap.dataName i :=
        fun heq => hji (index_inj hheld hj hjn h1 hn heq)
      simp [threads₁, keyOf, hne]
    have hself : (threads₁ (heap.dataName i)).remaining = v := by simp [threads₁]
    apply heapMoveKey_maxHeap h1 hn (around_congr h hn hkey)
    · intro hup hone
      rw [hself]
      exact (hhead hv hup hone).congr h1 hkey
    · intro hup
      rw [hself]
      exact (hdown hv hup).congr hn hkey

theorem priorityHeapSetKey_remaining (threads : τ → Thread) (heap : Heap τ) (i : ℕ)
    (v : BitVec 32) {u : τ} (hu : u ≠ heap.dataName i) :
    ((priorityHeapSetKey threads heap i v).1 u).remaining = (threads u).remaining := by
  rw [priorityHeapSetKey]
  split
  · rfl
  · have hset : (setThread threads (heap.dataName i) (fun th => { th with remaining := v })
        u).remaining = (threads u).remaining := by simp [hu]
    rw [heapMoveKey]
    split
    · split <;> exact hset
    · exact hset

end Heaps

structure Sorted (s : State τ) : Prop where
  running : MaxHeap s.threads s.sched.runningQueue
  finished : MaxHeap s.threads s.sched.finishedQueue

structure SortedBut (t : τ) (s : State τ) : Prop where
  running : OrderedAround (keyOf s.threads) (layout byRemaining s.threads s.sched.runningQueue)
    s.sched.runningQueue.size (s.threads t).priorityHeapPos
  finished : MaxHeap s.threads s.sched.finishedQueue

def AffinityOnly (f : (τ → Thread) → Heap τ → (τ → Thread) × Heap τ) : Prop :=
  ∀ threads heap t, ((f threads heap).1 t).remaining = (threads t).remaining ∧
    ((f threads heap).1 t).priorityHeapPos = (threads t).priorityHeapPos

section Frames

variable {s : State τ} {R F A : Set τ} {t : τ} {v : BitVec 32}

theorem heapInsert_affinityOnly (t : τ) :
    AffinityOnly fun threads heap => heapInsert byAffinity threads heap t :=
  fun _ _ _ => ⟨rfl, rfl⟩

theorem heapDelete_affinityOnly (num : (τ → Thread) → ℕ) :
    AffinityOnly fun threads heap => heapDelete byAffinity threads heap (num threads) := by
  intro threads heap u
  dsimp only
  rw [heapDelete]
  split
  · exact ⟨rfl, rfl⟩
  · dsimp only
    split <;> exact ⟨rfl, rfl⟩

theorem affinityHeapSetKey_affinityOnly (index : (τ → Thread) → ℕ) (val : BitVec 32) :
    AffinityOnly fun threads (heap : Heap τ) =>
      affinityHeapSetKey threads heap (index threads) val := by
  intro threads heap u
  dsimp only
  rw [affinityHeapSetKey]
  split
  · exact ⟨rfl, rfl⟩
  · have hset : ∀ tmp, (Scheduler.setThread threads tmp (fun th => { th with affinity := val })
          u).remaining = (threads u).remaining ∧
        (Scheduler.setThread threads tmp (fun th => { th with affinity := val })
          u).priorityHeapPos = (threads u).priorityHeapPos := by
      intro tmp
      by_cases hu : u = tmp
      · subst hu
        simp
      · simp [hu]
    rw [heapMoveKey]
    split
    · split <;> exact hset _
    · exact hset _

omit [DecidableEq τ] in
theorem Sorted.onAffinity {f : (τ → Thread) → Heap τ → (τ → Thread) × Heap τ} (h : Sorted s)
    (hf : AffinityOnly f) : Sorted (s.onAffinity f) :=
  ⟨h.running.congr rfl rfl fun _ _ _ => (hf _ _ _).1,
    h.finished.congr rfl rfl fun _ _ _ => (hf _ _ _).1⟩

omit [DecidableEq τ] in
theorem SortedBut.onAffinity {f : (τ → Thread) → Heap τ → (τ → Thread) × Heap τ}
    (h : SortedBut t s) (hf : AffinityOnly f) : SortedBut t (s.onAffinity f) := by
  refine ⟨?_, h.finished.congr rfl rfl fun _ _ _ => (hf _ _ _).1⟩
  have hpos : ((s.onAffinity f).threads t).priorityHeapPos = (s.threads t).priorityHeapPos :=
    (hf _ _ _).2
  have hkeys : keyOf (s.onAffinity f).threads = keyOf s.threads := by
    funext u
    exact congrArg BitVec.toInt (hf _ _ u).1
  rw [hpos, hkeys]
  exact ⟨h.running.except, h.running.bridge⟩

theorem Sorted.setThread (h : Sorted s) (f : Thread → Thread)
    (hf : ∀ th, (f th).remaining = th.remaining) : Sorted (s.setThread t f) := by
  have hkey : ∀ u, ((s.setThread t f).threads u).remaining = (s.threads u).remaining := by
    intro u
    by_cases hu : u = t
    · subst hu
      simpa [State.setThread] using hf (s.threads u)
    · simp [State.setThread, hu]
  exact ⟨h.running.congr rfl rfl fun _ _ _ => hkey _, h.finished.congr rfl rfl fun _ _ _ => hkey _⟩

theorem Sorted.setOutside (h : Sorted s) (hp : Parts s R F A) (f : Thread → Thread)
    (ht : t ∉ R ∪ F) : Sorted (s.setThread t f) := by
  have hkey : ∀ u, u ∈ R ∪ F →
      ((s.setThread t f).threads u).remaining = (s.threads u).remaining := by
    intro u hu
    have hut : u ≠ t := fun heq => ht (heq ▸ hu)
    simp [State.setThread, hut]
  exact ⟨h.running.congr rfl rfl fun j hj hjn =>
      hkey _ (Or.inl (Indexed.slot_mem hp.running hj hjn)),
    h.finished.congr rfl rfl fun j hj hjn =>
      hkey _ (Or.inr (Indexed.slot_mem hp.finished hj hjn))⟩

omit [DecidableEq τ] in
theorem Sorted.setSched (h : Sorted s) (f : Sched τ → Sched τ)
    (hR : (f s.sched).runningQueue.size = s.sched.runningQueue.size ∧
      (f s.sched).runningQueue.dataName = s.sched.runningQueue.dataName)
    (hF : (f s.sched).finishedQueue.size = s.sched.finishedQueue.size ∧
      (f s.sched).finishedQueue.dataName = s.sched.finishedQueue.dataName) :
    Sorted (s.setSched f) :=
  ⟨h.running.congr hR.1 hR.2 fun _ _ _ => rfl, h.finished.congr hF.1 hF.2 fun _ _ _ => rfl⟩

omit [DecidableEq τ] in
theorem Sorted.swap (h : Sorted s) : Sorted s.swapQueues := ⟨h.finished, h.running⟩

/-- The key of `t` changes in place. -/
theorem Sorted.but (h : Sorted s) (hp : Parts s R F A) (ht : t ∈ R) (f : Thread → Thread)
    (hf : ∀ th, (f th).priorityHeapPos = th.priorityHeapPos) : SortedBut t (s.setThread t f) := by
  have hn := (Indexed.slot_pos hp.running ht).2.1
  constructor
  · have hpos : ((s.setThread t f).threads t).priorityHeapPos = (s.threads t).priorityHeapPos := by
      simpa [State.setThread] using hf (s.threads t)
    rw [hpos]
    exact around_congr (h.running.around hn) hn fun j => keyOf_setThread hp.running ht f
  · apply h.finished.congr rfl rfl
    intro j hj hjn
    have hne : s.sched.finishedQueue.dataName j ≠ t := by
      intro heq
      exact Set.disjoint_left.mp hp.disjoint ht (heq ▸ Indexed.slot_mem hp.finished hj hjn)
    simp [State.setThread, hne]

theorem Sorted.insertRunning (h : Sorted s) (t : τ) :
    Sorted (s.onRunning fun threads heap => heapInsert byRemaining threads heap t) :=
  ⟨heapInsert_maxHeap h.running t, h.finished.congr rfl rfl fun _ _ _ => rfl⟩

theorem Sorted.insertFinished (h : Sorted s) (t : τ) :
    Sorted (s.onFinished fun threads heap => heapInsert byRemaining threads heap t) :=
  (h.swap.insertRunning t).swap

theorem heapDelete_remaining (threads : τ → Thread) (heap : Heap τ) (num : ℕ) (u : τ) :
    ((heapDelete byRemaining threads heap num).1 u).remaining = (threads u).remaining := by
  rw [heapDelete]
  split
  · rfl
  · dsimp only
    split <;> rfl

theorem SortedBut.deleteRunning (h : SortedBut t s) (hp : Parts s R F A) (ht : t ∈ R)
    (index : (τ → Thread) → ℕ) (hindex : index s.threads = (s.threads t).priorityHeapPos) :
    Sorted (s.onRunning fun threads heap =>
      heapDelete byRemaining threads heap (index threads)) := by
  obtain ⟨h1, hn, -⟩ := Indexed.slot_pos hp.running ht
  refine ⟨heapDelete_maxHeap (h1.trans_eq hindex.symm) (hindex.trans_le hn) ?_,
    h.finished.congr rfl rfl fun _ _ _ => heapDelete_remaining _ _ _ _⟩
  rw [hindex]
  exact h.running

/-- The key of `t` becomes `v`. -/
theorem SortedBut.setKeyRunning (h : SortedBut t s) (hp : Parts s R F A) (ht : t ∈ R)
    (index : (τ → Thread) → ℕ) (hindex : index s.threads = (s.threads t).priorityHeapPos)
    (hfit : SetKeyFits s.threads s.sched.runningQueue (s.threads t).priorityHeapPos
      (s.threads t).remaining v) :
    Sorted (s.onRunning fun threads heap =>
      priorityHeapSetKey threads heap (index threads) v) := by
  obtain ⟨h1, hn, hslot⟩ := Indexed.slot_pos hp.running ht
  have hslot : s.sched.runningQueue.dataName (s.threads t).priorityHeapPos = t := hslot
  constructor
  · have hmax := priorityHeapSetKey_maxHeap (v := v) hp.running h1 hn h.running (by
      show SetKeyFits s.threads s.sched.runningQueue (s.threads t).priorityHeapPos
        (s.threads (s.sched.runningQueue.dataName (s.threads t).priorityHeapPos)).remaining v
      rw [hslot]
      exact hfit)
    rw [State.onRunning, hindex]
    exact hmax
  · apply h.finished.congr rfl rfl
    intro j hj hjn
    have hne : s.sched.finishedQueue.dataName j ≠ t := by
      intro heq
      exact Set.disjoint_left.mp hp.disjoint ht (heq ▸ Indexed.slot_mem hp.finished hj hjn)
    rw [State.onRunning, hindex, priorityHeapSetKey_remaining _ _ _ _ (hslot.symm ▸ hne)]

end Frames

/-- The queue that `delete_from_queue` and `sched_change_remaining` look for `t` in. -/
def queueOf (s : State τ) (t : τ) : Heap τ :=
  if (s.threads t).priorityHeapPos ≤ s.sched.runningQueue.size ∧
      s.sched.runningQueue.dataName (s.threads t).priorityHeapPos = t then s.sched.runningQueue
  else s.sched.finishedQueue

/-- `keep_current_thread` finds a head that overwhelms the current thread. -/
def Overwhelmed (s : State τ) (c : τ) (left : BitVec 32) : Prop :=
  ∃ h, heapHead s.sched.runningQueue = some h ∧
    (left + priorityBoost).slt (s.threads h).remaining ∧ h ≠ c

/-- `check_current_thread` returns at once. -/
def Unswitchable (status : Status) : Prop := status = .atomic ∨ status = .noResched

/-- `do_exclusion` lets the thread run. -/
def Granted (env : Env τ) (s : State τ) (c : τ) : Prop :=
  ((s.threads c).status = .atomic ∧ s.sched.holdingExclusion = false) ∨ env.admitted = true

/-- Of the keys that a tick writes for the current thread `c` with `left` ticks to go, two can get
out of order: that of a thread which is overwhelmed, and that of a thread which stays the current
one and is then excluded. -/
structure TickFits (env : Env τ) (s : State τ) (c : τ) (left : BitVec 32) : Prop where
  overwhelmed : ¬ Unswitchable (s.threads c).status → left.sle 0 = false → Overwhelmed s c left →
    SetKeyFits s.threads s.sched.runningQueue (s.threads c).priorityHeapPos
      (s.threads c).remaining left
  excluded : Unswitchable (s.threads c).status ∨ left.sle 0 = false ∧ ¬ Overwhelmed s c left →
    ¬ Granted env s c → Fits s.threads s.sched.runningQueue (s.threads c).priorityHeapPos left

def notNegative (r : BitVec 32) : BitVec 32 := if r.slt 0 then 0 else r

/-- `sched_change_remaining` goes to a heap. -/
def Requeued (s : State τ) (t : τ) : Prop :=
  (s.threads t).status.isRunnable = true ∧ s.sched.currentThread ≠ some t

/-- A change of priority makes a negative key zero in place. A thread that is then given a new key
by way of the heap has to fit with that key, any other one with the zero. -/
structure ChargeFits (s : State τ) (t : τ) (diff : BitVec 32) : Prop where
  requeued : Requeued s t →
    SetKeyFits s.threads (queueOf s t) (s.threads t).priorityHeapPos
      (notNegative (s.threads t).remaining) (notNegative (s.threads t).remaining + diff)
  in_place : ¬ Requeued s t →
    Fits s.threads (queueOf s t) (s.threads t).priorityHeapPos
      (notNegative (s.threads t).remaining)

def KeepsOrder (s : State τ) : Event τ → Prop
  | .resched env => ∀ c ∈ s.sched.currentThread, (s.threads c).status.isRunnable →
      TickFits env s c (s.sched.currentRemaining - 1)
  | .changeRemaining t remaining => s.sched.currentThread ≠ some t →
      SetKeyFits s.threads (queueOf s t) (s.threads t).priorityHeapPos (s.threads t).remaining
        remaining
  | .adjustPriority t priority => ChargeFits s t priority
  | .setPriority t priority => ChargeFits s t ((s.threads t).softPriority - priority)
  | .setHardPriority t priority => ChargeFits s t ((s.threads t).hardPriority - priority)
  | _ => True

instance (s : State τ) (c : τ) (left : BitVec 32) : Decidable (Overwhelmed s c left) :=
  decidable_of_iff (∃ h ∈ heapHead s.sched.runningQueue,
    (left + priorityBoost).slt (s.threads h).remaining ∧ h ≠ c) Iff.rfl

instance (status : Status) : Decidable (Unswitchable status) :=
  inferInstanceAs (Decidable (_ ∨ _))

instance (env : Env τ) (s : State τ) (c : τ) : Decidable (Granted env s c) :=
  inferInstanceAs (Decidable (_ ∨ _))

instance (env : Env τ) (s : State τ) (c : τ) (left : BitVec 32) :
    Decidable (TickFits env s c left) :=
  decidable_of_iff (_ ∧ _) ⟨fun h => ⟨h.1, h.2⟩, fun h => ⟨h.overwhelmed, h.excluded⟩⟩

instance (s : State τ) (t : τ) : Decidable (Requeued s t) := inferInstanceAs (Decidable (_ ∧ _))

instance (s : State τ) (t : τ) (diff : BitVec 32) : Decidable (ChargeFits s t diff) :=
  decidable_of_iff (_ ∧ _) ⟨fun h => ⟨h.1, h.2⟩, fun h => ⟨h.requeued, h.in_place⟩⟩

instance (s : State τ) (e : Event τ) : Decidable (KeepsOrder s e) :=
  match e with
  | .resched _ => inferInstanceAs (Decidable (∀ c ∈ s.sched.currentThread, _))
  | .changeRemaining _ _ => inferInstanceAs (Decidable (_ → _))
  | .adjustPriority _ _ => inferInstanceAs (Decidable (ChargeFits _ _ _))
  | .setPriority _ _ => inferInstanceAs (Decidable (ChargeFits _ _ _))
  | .setHardPriority _ _ => inferInstanceAs (Decidable (ChargeFits _ _ _))
  | .meanwhile _ | .remove _ _ | .eschew | .setStatus _ _ => inferInstanceAs (Decidable True)

section Calls

variable {s s' : State τ} {R F : Set τ} {t c : τ} {m : ℕ} {env : Env τ}

theorem Sorted.enter (alloc : Allocator) (h : Sorted s) (t : τ) (n : ℕ) (count : BitVec 32) :
    Sorted (enterRunning alloc ((enterAffinity alloc s t n).setSched fun sc => { sc with
      totalCount := count }) t n) := by
  have hcpu : Sorted (s.setThread t fun th => { th with cpuId := s.sched.cpuId, affinity := 0 }) :=
    h.setThread _ fun _ => rfl
  have haff : Sorted (enterAffinity alloc s t n) :=
    (hcpu.setSched _ ⟨rfl, rfl⟩ ⟨rfl, rfl⟩).onAffinity (heapInsert_affinityOnly t)
  have hcount := haff.setSched (fun sc => { sc with totalCount := count }) ⟨rfl, rfl⟩ ⟨rfl, rfl⟩
  exact (hcount.setSched _ (heapGrow_kept _ _ _) (heapGrow_kept _ _ _)).insertRunning t

theorem Sorted.meanwhile {a : Meanwhile τ} (h : Sorted s) (hm : Members m s R F)
    (ha : meanwhile s a = some s') : Sorted s' := by
  have hout : ∀ {t : τ}, ¬ s.queued t → t ∉ R ∪ F := fun ht hmem => ht (hm.queued_iff.mpr hmem)
  cases a with
  | insert t alloc =>
    simp only [Scheduler.meanwhile] at ha
    split at ha <;> rename_i ht <;> cases ha
    have hcount := h.setSched (fun sc => { sc with
      totalCount := sc.totalCount + (s.threads t).softPriority }) ⟨rfl, rfl⟩ ⟨rfl, rfl⟩
    have hparts := hm.parts.setSched (fun sc => { sc with
      totalCount := sc.totalCount + (s.threads t).softPriority }) ⟨rfl, rfl⟩ ⟨rfl, rfl⟩ ⟨rfl, rfl⟩
    exact Sorted.enter alloc (hcount.setOutside hparts _ (hout ht)) t _ _
  | restart t alloc =>
    simp only [Scheduler.meanwhile] at ha
    split at ha <;> rename_i ht <;> cases ha
    exact Sorted.setThread (Sorted.enter alloc (h.setOutside hm.parts _ (hout ht)) t _ _) _
      fun _ => rfl
  | elsewhere t th =>
    simp only [Scheduler.meanwhile] at ha
    split at ha <;> rename_i ht <;> cases ha
    exact h.setOutside hm.parts _ (hout ht)

theorem Sorted.window (address : τ ↪ ThreadBlock) {actions : List (Meanwhile τ)} (h : Sorted s)
    (hm : Members 1 s R F) (ha : actions.foldlM Scheduler.meanwhile s = some s') : Sorted s' := by
  induction actions generalizing s R with
  | nil =>
    cases ha
    exact h
  | cons a actions ih =>
    rw [List.foldlM_cons] at ha
    obtain ⟨s₁, h₁, hrest⟩ := Option.bind_eq_some_iff.mp ha
    obtain ⟨R₁, hm₁, -, -⟩ := hm.meanwhile address le_rfl h₁
    exact ih (h.meanwhile hm h₁) hm₁ hrest

theorem Sorted.rebalance (address : τ ↪ ThreadBlock) {w : Window τ} (h : Sorted s)
    (hm : Members 1 s R F) (hw : rebalanceLoad w s = some s') : Sorted s' := by
  obtain ⟨s₁, h₁, hend⟩ := rebalanceLoad_cases hw
  have hs₁ := h.window address hm h₁
  rcases hend with ⟨-, rfl⟩ | ⟨u, -, -, rfl⟩
  · exact hs₁
  · rw [schedReassignThread]
    refine Sorted.setThread (Sorted.insertRunning (Sorted.setSched (Sorted.onAffinity
      (Sorted.setThread hs₁ _ ?_) (heapInsert_affinityOnly u)) _ ⟨rfl, rfl⟩ ⟨rfl, rfl⟩) u) _ ?_
    · intro th
      split <;> rfl
    · exact fun _ => rfl

omit [DecidableEq τ] in
theorem Sorted.self_but (h : Sorted s) (hp : Parts s R F (R ∪ F)) (ht : t ∈ R) : SortedBut t s :=
  ⟨h.running.around (Indexed.slot_pos hp.running ht).2.1, h.finished⟩

theorem Sorted.deleteFromQueue (h : Sorted s) (hm : Members m s R F) (ht : t ∈ R ∪ F) :
    Sorted (deleteFromQueue s t) := by
  rw [Scheduler.deleteFromQueue]
  apply Sorted.onAffinity _ (heapDelete_affinityOnly fun threads => (threads t).affinityHeapPos)
  by_cases hR : t ∈ R
  · rw [if_pos ((hm.inRunning_iff ht).mpr hR)]
    exact (h.self_but hm.parts hR).deleteRunning hm.parts hR _ rfl
  · rw [if_neg fun hpos => hR ((hm.inRunning_iff ht).mp hpos)]
    have hF : t ∈ F := ht.resolve_left hR
    have hp : Parts s.swapQueues F R (F ∪ R) := by
      rw [Set.union_comm]
      exact hm.parts.swap
    exact ((h.swap.self_but hp hF).deleteRunning hp hF
      (fun _ => (s.threads t).priorityHeapPos) rfl).swap

section

omit [DecidableEq τ]

theorem Sorted.takeHead (h : Sorted s) (ht : takeHead s = some s') : Sorted s' := by
  obtain ⟨c, -, rfl⟩ := Option.map_eq_some_iff.mp ht
  exact h.setSched _ ⟨rfl, rfl⟩ ⟨rfl, rfl⟩

theorem Sorted.doEpoch (h : Sorted s) (globalEpoch : BitVec 32) : Sorted (doEpoch globalEpoch s) :=
  ⟨h.finished, h.running⟩

theorem SortedBut.setSched (h : SortedBut t s) (f : Sched τ → Sched τ)
    (hR : (f s.sched).runningQueue = s.sched.runningQueue)
    (hF : (f s.sched).finishedQueue = s.sched.finishedQueue) : SortedBut t (s.setSched f) := by
  constructor
  · rw [State.setSched, hR]
    exact h.running
  · rw [State.setSched, hF]
    exact h.finished

end

theorem SortedBut.moveFinished (h : SortedBut c s) (hp : Parts s R F (R ∪ F)) (hc : c ∈ R)
    (count : BitVec 32) :
    Sorted (((s.onAffinity fun threads heap =>
      affinityHeapSetKey threads heap (threads c).affinityHeapPos count).onRunning
        fun threads heap => heapDelete byRemaining threads heap
          (threads c).priorityHeapPos).onFinished
            fun threads heap => heapInsert byRemaining threads heap c) := by
  apply Sorted.insertFinished
  exact SortedBut.deleteRunning
    (h.onAffinity (affinityHeapSetKey_affinityOnly (fun threads => (threads c).affinityHeapPos) _))
    (hp.setKeyAffinity (fun threads => (threads c).affinityHeapPos) _) hc
    (fun threads => (threads c).priorityHeapPos) rfl

/-- The key that `retire_current_thread` writes does not count, since the thread is then taken out
of the running queue. -/
theorem Sorted.retire (h : Sorted s) (hm : Members m s R F) (hc : c ∈ R) :
    Sorted (retireCurrentThread s c) := by
  refine SortedBut.moveFinished (SortedBut.setSched (h.but hm.parts hc _ ?_) _ ?_ ?_)
    (Parts.setSched (Parts.setThread hm.parts _ ?_) _ ?_ ?_ ?_) hc _
  · exact fun _ => rfl
  · rfl
  · rfl
  · exact fun _ => ⟨rfl, rfl⟩
  · exact ⟨rfl, rfl⟩
  · exact ⟨rfl, rfl⟩
  · exact ⟨rfl, rfl⟩

def Fresh (s : State τ) : Prop :=
  ∀ c, s.sched.currentThread = some c → s.sched.currentRemaining = (s.threads c).remaining

omit [DecidableEq τ] in
theorem takeHead_fresh (ht : takeHead s = some s') : Fresh s' := by
  obtain ⟨c, -, rfl⟩ := Option.map_eq_some_iff.mp ht
  intro d hd
  cases hd
  rfl

theorem Sorted.keep (h : Sorted s) (hm : Members m s R F) (hc : c ∈ R)
    (hfit : Overwhelmed s c s.sched.currentRemaining →
      SetKeyFits s.threads s.sched.runningQueue (s.threads c).priorityHeapPos
        (s.threads c).remaining s.sched.currentRemaining)
    (hk : keepCurrentThread env s c = some s') :
    Sorted s' ∧ (Fresh s' ∨ s' = s ∧ ¬ Overwhelmed s c s.sched.currentRemaining) := by
  obtain ⟨x, hx, hk⟩ := Option.bind_eq_some_iff.mp hk
  split at hk
  · rename_i hover
    have hpos := (Indexed.slot_pos hm.parts.running hc).1
    have hn := (Indexed.slot_pos hm.parts.running hc).2.1
    have haff := affinityHeapSetKey_affinityOnly (fun threads : τ → Thread =>
      (threads c).affinityHeapPos) env.preemptionPageFaults
    -- the call on the affinity heap changes neither the key nor the position
    have hsort : Sorted ((s.onAffinity fun threads heap => affinityHeapSetKey threads heap
        (threads c).affinityHeapPos env.preemptionPageFaults).onRunning fun threads heap =>
          priorityHeapSetKey threads heap (threads c).priorityHeapPos s.sched.currentRemaining) := by
      refine SortedBut.setKeyRunning ((h.self_but hm.parts hc).onAffinity haff)
        (hm.parts.setKeyAffinity (fun threads => (threads c).affinityHeapPos) _) hc
        (fun threads => (threads c).priorityHeapPos) rfl ?_
      have hkept := haff s.threads s.sched.affinityQueue
      have hfits := hfit ⟨x, hx, hover⟩
      rw [← (hkept c).1, ← (hkept c).2] at hfits
      refine SetKeyFits.congr hfits ?_ ?_ fun j _ _ _ => congrArg BitVec.toInt (hkept _).1
      · exact hpos.trans_eq (hkept c).2.symm
      · exact (hkept c).2.trans_le hn
    exact ⟨hsort.takeHead hk, Or.inl (takeHead_fresh hk)⟩
  · rename_i hover
    cases hk
    refine ⟨h, Or.inr ⟨rfl, ?_⟩⟩
    rintro ⟨y, hy, hless⟩
    rw [hx] at hy
    cases hy
    exact hover hless

/-- After `check_current_thread` the current thread is newly selected or as before. -/
theorem Sorted.check (h : Sorted s) (hm : Members m s R F) (hseat : Seated s R)
    (hfit : ∀ c, s.sched.currentThread = some c → TickFits env s c s.sched.currentRemaining)
    (hk : checkCurrentThread env s = some s') :
    Sorted s' ∧ (Fresh s' ∨ s' = s ∧ ∀ c, s.sched.currentThread = some c →
      ¬ Granted env s c → Fits s.threads s.sched.runningQueue (s.threads c).priorityHeapPos
        s.sched.currentRemaining) := by
  rw [checkCurrentThread] at hk
  split at hk
  · rename_i c hcur
    have hc := hseat c hcur
    have htick := hfit c hcur
    split at hk
    · rename_i hstay
      cases hk
      refine ⟨h, Or.inr ⟨rfl, fun d hd hno => ?_⟩⟩
      rw [hcur] at hd
      cases hd
      exact htick.excluded (Or.inl hstay) hno
    · rename_i hstay
      split at hk
      · have hret := h.retire hm hc
        refine ⟨Sorted.takeHead ?_ hk, Or.inl (takeHead_fresh hk)⟩
        split
        · exact hret.doEpoch env.globalEpoch
        · exact hret
      · rename_i hleft
        have hleft := Bool.eq_false_iff.mpr hleft
        obtain ⟨hsort, hfresh | ⟨rfl, hover⟩⟩ := h.keep hm hc (htick.overwhelmed hstay hleft) hk
        · exact ⟨hsort, Or.inl hfresh⟩
        · refine ⟨hsort, Or.inr ⟨rfl, fun d hd hno => ?_⟩⟩
          rw [hcur] at hd
          cases hd
          exact htick.excluded (Or.inr ⟨hleft, hover⟩) hno
  · refine ⟨Sorted.takeHead ?_ hk, Or.inl (takeHead_fresh hk)⟩
    split
    · exact h.doEpoch env.globalEpoch
    · exact h

omit [DecidableEq τ] in
theorem doExclusion_flags (env : Env τ) (s : State τ) (c : τ) : ∃ held out,
    (doExclusion env s c).1 = s.setSched fun sc => { sc with
      holdingExclusion := held
      excluded := out } := by
  rw [doExclusion]
  split
  · split
    · dsimp only
      split
      · exact ⟨true, s.sched.excluded, rfl⟩
      · exact ⟨s.sched.holdingExclusion, s.sched.excluded, rfl⟩
    · exact ⟨s.sched.holdingExclusion, true, rfl⟩
  · exact ⟨s.sched.holdingExclusion, s.sched.excluded, rfl⟩

omit [DecidableEq τ] in
theorem doExclusion_granted (h : Granted env s c) : (doExclusion env s c).2 = true := by
  rw [doExclusion]
  split
  · rename_i htest
    split
    · rfl
    · rename_i hno
      obtain ⟨hatomic, hfree⟩ | hadmitted := h
      · simp [hatomic, hfree] at htest
      · exact absurd hadmitted hno
  · rfl

theorem queueOf_running (hm : Members m s R F) (ht : t ∈ R) :
    queueOf s t = s.sched.runningQueue := if_pos ((hm.inRunning_iff (Or.inl ht)).mpr ht)

theorem queueOf_finished (hm : Members m s R F) (ht : t ∈ F) :
    queueOf s t = s.sched.finishedQueue :=
  if_neg fun hpos => Set.disjoint_right.mp hm.parts.disjoint ht
    ((hm.inRunning_iff (Or.inr ht)).mp hpos)

/-- The thread `t` is written to in place and fits with its new key. -/
theorem Sorted.writeKey (h : Sorted s) (hm : Members m s R F) (ht : t ∈ R ∪ F)
    (f : Thread → Thread) (hpos : ∀ th, (f th).priorityHeapPos = th.priorityHeapPos)
    (hfit : Fits s.threads (queueOf s t) (s.threads t).priorityHeapPos
      (f (s.threads t)).remaining) : Sorted (s.setThread t f) := by
  -- the finished queue is treated as the running one of the swapped state
  have hrunning : ∀ {s : State τ} {R F : Set τ}, Sorted s → Parts s R F (R ∪ F) → t ∈ R →
      Fits s.threads s.sched.runningQueue (s.threads t).priorityHeapPos
        (f (s.threads t)).remaining → Sorted (s.setThread t f) := by
    intro s R F h hp ht hfit
    obtain ⟨h1, hn, hslot⟩ := Indexed.slot_pos hp.running ht
    have hslot : s.sched.runningQueue.dataName (s.threads t).priorityHeapPos = t := hslot
    have hbut := h.but hp ht f hpos
    refine ⟨maxHeap_of_fits hbut.running ?_, hbut.finished⟩
    simp only [State.setThread, setThread_self, hpos, hslot]
    exact hfit.congr h1 hn fun j => keyOf_setThread hp.running ht f
  obtain hmem | hmem := ht
  · rw [queueOf_running hm hmem] at hfit
    exact hrunning h hm.parts hmem hfit
  · rw [queueOf_finished hm hmem] at hfit
    have hparts := hm.parts.swap
    rw [Set.union_comm] at hparts
    exact (hrunning h.swap hparts hmem hfit).swap

/-- The thread `t`, not the current one, is written to and given a new key by way of its heap. -/
theorem Sorted.rekey (h : Sorted s) (hm : Members m s R F) (ht : t ∈ R ∪ F) (f : Thread → Thread)
    (hf : ∀ th, (f th).priorityHeapPos = th.priorityHeapPos ∧
      (f th).affinityHeapPos = th.affinityHeapPos)
    (hcur : s.sched.currentThread ≠ some t) {remaining : BitVec 32}
    (hfit : SetKeyFits s.threads (queueOf s t) (s.threads t).priorityHeapPos
      (f (s.threads t)).remaining remaining) :
    Sorted (schedChangeRemaining (s.setThread t f) t remaining) := by
  have hpos : ((s.setThread t f).threads t).priorityHeapPos = (s.threads t).priorityHeapPos := by
    simp [State.setThread, hf]
  have hrunning : ∀ {s : State τ} {R F A : Set τ}, Sorted s → Parts s R F A → t ∈ R →
      SetKeyFits s.threads s.sched.runningQueue (s.threads t).priorityHeapPos
        (f (s.threads t)).remaining remaining →
      Sorted ((s.setThread t f).onRunning fun threads heap => priorityHeapSetKey threads heap
        ((s.setThread t f).threads t).priorityHeapPos remaining) := by
    intro s R F A h hp ht hfit
    obtain ⟨h1, hn, -⟩ := Indexed.slot_pos hp.running ht
    apply (h.but hp ht f fun th => (hf th).1).setKeyRunning (hp.setThread f hf) ht
      (fun _ => ((s.setThread t f).threads t).priorityHeapPos) rfl
    simp only [State.setThread, setThread_self, hf]
    exact hfit.congr h1 hn fun j => keyOf_setThread hp.running ht f
  refine Eq.mpr (congrArg Sorted (if_pos hcur)) ?_
  dsimp only
  obtain hmem | hmem := ht
  · rw [queueOf_running hm hmem] at hfit
    have hset := hrunning h hm.parts hmem hfit
    have hin := (hm.inRunning_iff (Or.inl hmem)).mpr hmem
    rw [← hpos] at hin
    refine Eq.mpr (congrArg Sorted (if_pos hin)) ?_
    exact ⟨hset.running, hset.finished⟩
  · rw [queueOf_finished hm hmem] at hfit
    have hset := hrunning h.swap hm.parts.swap hmem hfit
    have hout := fun hin => Set.disjoint_right.mp hm.parts.disjoint hmem
      ((hm.inRunning_iff (Or.inr hmem)).mp hin)
    rw [← hpos] at hout
    refine Eq.mpr (congrArg Sorted (if_neg hout)) ?_
    exact ⟨hset.finished, hset.running⟩

theorem Sorted.goIdle (h : Sorted s) (hm : Members m s R F) (hseat : Seated s R)
    (hfit : ∀ c, s.sched.currentThread = some c →
      Fits s.threads s.sched.runningQueue (s.threads c).priorityHeapPos s.sched.currentRemaining)
    (hi : goIdle s = some s') : Sorted s' := by
  obtain ⟨c, hc, rfl⟩ := Option.map_eq_some_iff.mp hi
  have hR := hseat c hc
  have hwrite := h.writeKey hm (Or.inl hR) (fun th => { th with
    remaining := s.sched.currentRemaining }) (fun _ => rfl) (by
      rw [queueOf_running hm hR]
      exact hfit c hc)
  exact hwrite.setSched _ ⟨rfl, rfl⟩ ⟨rfl, rfl⟩

omit [DecidableEq τ] in
/-- A thread that was selected just now is in order with the time it has left. -/
theorem Sorted.fresh_fits (h : Sorted s) (hm : Members m s R F) (hseat : Seated s R)
    (hfresh : Fresh s) (hc : s.sched.currentThread = some c) :
    Fits s.threads s.sched.runningQueue (s.threads c).priorityHeapPos
      s.sched.currentRemaining := by
  obtain ⟨h1, hn, hslot⟩ := Indexed.slot_pos hm.parts.running (hseat c hc)
  have hslot : s.sched.runningQueue.dataName (s.threads c).priorityHeapPos = c := hslot
  have hfits := h.running.fits h1 hn
  simp only [layout, byRemaining, hslot] at hfits
  rw [hfresh c hc]
  exact hfits

theorem Sorted.removeCurrent (address : τ ↪ ThreadBlock) (h : Sorted s) (hm : Members 0 s R F)
    (hc : c ∈ R) (hr : removeCurrent env s c = some s') : Sorted s' := by
  obtain ⟨s₁, hw, rfl⟩ := Option.map_eq_some_iff.mp hr
  have h₀ : Members 0 (((s.setSched fun sc => { sc with
      totalCount := sc.totalCount - (s.threads c).remaining }).setThread c fun th => { th with
        epoch := s.sched.epoch, remaining := s.sched.currentRemaining }).setSched fun sc => { sc with
          affinityCount := sc.affinityCount + env.removalPageFaults }) R F := by
    refine Members.setSched (Members.setThread (Members.setSched hm _ ?_) _ ?_) _ ?_
    · exact ⟨rfl, rfl, rfl, rfl⟩
    · exact fun _ => ⟨rfl, rfl, rfl⟩
    · exact ⟨rfl, rfl, rfl, rfl⟩
  have hcount := hm.setSched (fun sc => { sc with
      totalCount := sc.totalCount - (s.threads c).remaining }) ⟨rfl, rfl, rfl, rfl⟩
  have hbut := SortedBut.setSched (Sorted.but (h.setSched (fun sc => { sc with
      totalCount := sc.totalCount - (s.threads c).remaining }) ⟨rfl, rfl⟩ ⟨rfl, rfl⟩) hcount.parts hc
        (fun th => { th with
          epoch := s.sched.epoch
          remaining := s.sched.currentRemaining }) fun _ => rfl) (fun sc => { sc with
            affinityCount := sc.affinityCount + env.removalPageFaults }) rfl rfl
  have hsort := SortedBut.deleteRunning
    (hbut.onAffinity (heapDelete_affinityOnly fun threads => (threads c).affinityHeapPos))
    (h₀.parts.deleteAffinity (Or.inl hc)) hc (fun threads => (threads c).priorityHeapPos) rfl
  exact (hsort.rebalance address (h₀.takeOut address hc) hw).setSched _ ⟨rfl, rfl⟩ ⟨rfl, rfl⟩

theorem Sorted.testRunnable (address : τ ↪ ThreadBlock) (h : Sorted s) (hm : Members 0 s R F)
    (hseat : Seated s R) (ht : testRunnable env s = some s') : Sorted s' ∧
      ∀ c, s'.sched.currentThread = some c → s' = s ∧ (s.threads c).status.isRunnable = true := by
  rw [Scheduler.testRunnable] at ht
  split at ht
  · rename_i c hcur
    split at ht
    · rename_i hrun
      cases ht
      refine ⟨h, fun d hd => ⟨rfl, ?_⟩⟩
      rw [hcur] at hd
      cases hd
      exact hrun
    · obtain ⟨s₁, hr, rfl⟩ := Option.map_eq_some_iff.mp ht
      refine ⟨(h.removeCurrent address hm (hseat c hcur) hr).setSched _ ⟨rfl, rfl⟩ ⟨rfl, rfl⟩,
        fun d hd => ?_⟩
      cases hd
  · rename_i hcur
    cases ht
    refine ⟨h, fun d hd => ?_⟩
    rw [hcur] at hd
    cases hd

theorem Sorted.resched (address : τ ↪ ThreadBlock) (h : Sorted s) (hm : Members 0 s R F)
    (hseat : Seated s R) (hkeep : KeepsOrder s (.resched env)) {out : Option τ}
    (hr : schedResched env s = some (s', out)) : Sorted s' := by
  obtain ⟨s₁, h₁, hr⟩ := Option.bind_eq_some_iff.mp hr
  have hm₀ : Members 0 (s.setSched fun sc => { sc with
      affinityCount := sc.affinityCount + env.pageFaults }) R F :=
    hm.setSched _ ⟨rfl, rfl, rfl, rfl⟩
  obtain ⟨R₁, hm₁, hs₁⟩ := hm₀.testRunnable address hseat h₁
  obtain ⟨hsort₁, hsame⟩ := Sorted.testRunnable address
    (h.setSched _ ⟨rfl, rfl⟩ ⟨rfl, rfl⟩) hm₀ hseat h₁
  split at hr
  · cases hr
    exact hsort₁
  · obtain ⟨s₂, h₂, hr⟩ := Option.bind_eq_some_iff.mp hr
    obtain ⟨hmc, hsc⟩ := hm₁.chargeTick hs₁
    have hsortc : Sorted (chargeTick s₁) := by
      rw [chargeTick]
      split
      · exact hsort₁.setSched _ ⟨rfl, rfl⟩ ⟨rfl, rfl⟩
      · exact hsort₁
    have htick : ∀ c, (chargeTick s₁).sched.currentThread = some c →
        TickFits env (chargeTick s₁) c (chargeTick s₁).sched.currentRemaining := by
      intro c hc
      have hc₁ : s₁.sched.currentThread = some c := by
        rw [chargeTick] at hc
        split at hc <;> exact hc
      obtain ⟨rfl, hrun⟩ := hsame c hc₁
      have hfits := hkeep c hc₁ hrun
      rw [chargeTick, if_pos (by rw [hc₁]; exact Option.some_ne_none c)]
      exact ⟨hfits.overwhelmed, hfits.excluded⟩
    obtain ⟨R₂, F₂, hm₂, hs₂, -⟩ := hmc.check hsc h₂
    obtain ⟨hsort₂, hcases⟩ := hsortc.check hmc hsc htick h₂
    obtain ⟨c, hc, hr⟩ := Option.bind_eq_some_iff.mp hr
    obtain ⟨hm₃, hs₃⟩ := hm₂.doExclusion hs₂ env c
    obtain ⟨held, excl, hflags⟩ := doExclusion_flags env s₂ c
    have hsort₃ : Sorted (doExclusion env s₂ c).1 := by
      rw [hflags]
      exact hsort₂.setSched _ ⟨rfl, rfl⟩ ⟨rfl, rfl⟩
    dsimp only at hr
    split at hr
    · cases hr
      exact hsort₃
    · rename_i hno
      obtain ⟨s₃, h₃, hr⟩ := Option.bind_eq_some_iff.mp hr
      cases hr
      refine hsort₃.goIdle hm₃ hs₃ (fun d hd => ?_) h₃
      rw [hflags] at hd ⊢
      obtain hfresh | ⟨rfl, hfits⟩ := hcases
      · exact hsort₂.fresh_fits hm₂ hs₂ hfresh hd
      · obtain rfl : c = d := Option.some_inj.mp (hc.symm.trans hd)
        exact hfits c hc fun hgranted => hno (doExclusion_granted hgranted)

theorem Sorted.removeResched (address : τ ↪ ThreadBlock) (h : Sorted s) (hm : Members 0 s R F)
    (hc : c ∈ R) (hr : schedRemoveResched env s c = some s') : Sorted s' := by
  obtain ⟨s₁, h₁, hr⟩ := Option.bind_eq_some_iff.mp hr
  obtain ⟨R₁, hm₁, hs₁⟩ := hm.removeCurrent address hc h₁
  have hsort₁ := h.removeCurrent address hm hc h₁
  obtain ⟨R₂, F₂, hm₂, hs₂, -⟩ := hm₁.epochWhenIdle hs₁ env
  have hsort₂ : Sorted (epochWhenIdle env s₁) := by
    rw [epochWhenIdle]
    split
    · exact (hsort₁.doEpoch env.globalEpoch).setSched _ ⟨rfl, rfl⟩ ⟨rfl, rfl⟩
    · exact hsort₁
  obtain ⟨hm₃, hs₃⟩ := hm₂.loadRemaining hs₂
  have hsort₃ : Sorted (loadRemaining (epochWhenIdle env s₁)) := by
    rw [loadRemaining]
    split <;> exact hsort₂.setSched _ ⟨rfl, rfl⟩ ⟨rfl, rfl⟩
  have hfresh : Fresh (loadRemaining (epochWhenIdle env s₁)) := by
    intro d hd
    rw [loadRemaining] at hd ⊢
    split at hd
    · rename_i x hx
      obtain rfl : x = d := Option.some_inj.mp (hx.symm.trans hd)
      simp [hx, State.setSched]
    · rename_i hnone
      exact absurd (hnone.symm.trans hd) (by simp)
  dsimp only at hr
  split at hr
  · cases hr
    exact hsort₃
  · exact hsort₃.goIdle hm₃ hs₃ (fun d hd => hsort₃.fresh_fits hm₃ hs₃ hfresh hd) hr

theorem Sorted.removeThread (address : τ ↪ ThreadBlock) (h : Sorted s) (hm : Members 0 s R F)
    (hseat : Seated s R) (ht : t ∈ R ∪ F) (hr : schedRemoveThread env s t = some s') :
    Sorted s' := by
  have hm₀ : Members 0 ((s.setSched fun sc => { sc with
      totalCount := sc.totalCount - (s.threads t).remaining }).setThread t fun th => { th with
        epoch := s.sched.epoch }) R F := by
    refine Members.setThread (Members.setSched hm _ ⟨rfl, rfl, rfl, rfl⟩) _ ?_
    exact fun _ => ⟨rfl, rfl, rfl⟩
  have h₀ : Sorted ((s.setSched fun sc => { sc with
      totalCount := sc.totalCount - (s.threads t).remaining }).setThread t fun th => { th with
        epoch := s.sched.epoch }) := by
    refine Sorted.setThread (Sorted.setSched h _ ⟨rfl, rfl⟩ ⟨rfl, rfl⟩) _ ?_
    exact fun _ => rfl
  rw [schedRemoveThread] at hr
  split at hr
  · cases hr
    exact h₀
  · split at hr
    · rename_i hcur
      exact h₀.removeResched address hm₀ (hseat t hcur) hr
    · exact (h₀.deleteFromQueue hm₀ ht).rebalance address (hm₀.deleteFromQueue address ht).1 hr

theorem Sorted.eschew (h : Sorted s) (hm : Members m s R F) :
    Sorted (schedEschewThread s).1 := by
  rw [schedEschewThread]
  obtain hnone | ⟨out, hout, -, hsome⟩ := hm.lowestAffinity
  · rw [hnone]
    exact h
  · rw [hsome]
    refine Sorted.setThread (Sorted.setSched (h.deleteFromQueue hm hout) _ ⟨rfl, rfl⟩
      ⟨rfl, rfl⟩) _ ?_
    exact fun _ => rfl

/-- The priority of `t` has been written, and a negative key becomes zero. -/
theorem Sorted.chargePriority {diff : BitVec 32} (h : Sorted s) (hm : Members m s R F)
    (ht : t ∈ R ∪ F) (hfit : ChargeFits s t diff) : Sorted (chargePriority s t diff) := by
  let f : Thread → Thread := fun th => if th.remaining.slt 0 then { th with remaining := 0 } else th
  have hf : ∀ th, f th = { th with remaining := notNegative th.remaining } := by
    intro th
    simp only [f, notNegative]
    split <;> rfl
  have hself : (s.setThread t f).threads t = { s.threads t with
      remaining := notNegative (s.threads t).remaining } := by
    simp [State.setThread, hf]
  by_cases hreq : Requeued s t
  · have hrun : ((s.setThread t f).threads t).status.isRunnable = true := by
      rw [hself]
      exact hreq.1
    refine Eq.mpr (congrArg Sorted (if_pos hrun)) ?_
    apply h.rekey hm ht f (fun th => by simp [hf]) hreq.2
    rw [hself, hf]
    exact hfit.requeued hreq
  · have hplace : Sorted (s.setThread t f) := by
      apply h.writeKey hm ht f (fun th => by simp [hf])
      rw [hf]
      exact hfit.in_place hreq
    rw [Scheduler.chargePriority]
    split
    · rename_i hrun
      have hcur : s.sched.currentThread = some t := by
        by_contra hcur
        have hrun : ((s.setThread t f).threads t).status.isRunnable = true := hrun
        rw [hself] at hrun
        exact hreq ⟨hrun, hcur⟩
      refine Eq.mpr (congrArg Sorted (if_neg fun hne => hne hcur)) ?_
      exact ⟨hplace.running, hplace.finished⟩
    · exact hplace

theorem ChargeFits.setThread {diff : BitVec 32} (h : ChargeFits s t diff) (f : Thread → Thread)
    (hf : ∀ th, (f th).remaining = th.remaining ∧ (f th).status = th.status ∧
      (f th).priorityHeapPos = th.priorityHeapPos) : ChargeFits (s.setThread t f) t diff := by
  have hkeys : keyOf (s.setThread t f).threads = keyOf s.threads := by
    funext u
    by_cases hu : u = t
    · subst hu
      simp [State.setThread, keyOf, hf]
    · simp [State.setThread, keyOf, hu]
  have hreq : Requeued (s.setThread t f) t ↔ Requeued s t := by
    simp [Requeued, State.setThread, hf]
  have hqueue : queueOf (s.setThread t f) t = queueOf s t := by
    simp [queueOf, State.setThread, hf]
  have hself : ((s.setThread t f).threads t).remaining = (s.threads t).remaining ∧
      ((s.setThread t f).threads t).priorityHeapPos = (s.threads t).priorityHeapPos := by
    simp [State.setThread, hf]
  refine ⟨fun hr => ?_, fun hr => ?_⟩
  · have hfits := h.requeued (hreq.mp hr)
    rw [hqueue, hself.1, hself.2]
    simpa only [SetKeyFits, Fits, BelowParent, AboveChildren, hkeys] using hfits
  · have hfits := h.in_place (mt hreq.mpr hr)
    rw [hqueue, hself.1, hself.2]
    simpa only [Fits, BelowParent, AboveChildren, hkeys] using hfits

end Calls

theorem step_preserves_sorted (address : τ ↪ ThreadBlock) {s s' : State τ} {R F : Set τ}
    {e : Event τ} (h : Sorted s) (hm : Members 0 s R F) (hseat : Seated s R)
    (hkeep : KeepsOrder s e) (he : step s e = some s') : Sorted s' := by
  cases e with
  | meanwhile a => exact h.meanwhile hm he
  | remove t env =>
    simp only [step] at he
    split at he
    · rename_i ht
      exact h.removeThread address hm hseat (hm.queued_iff.mp ht) he
    · cases he
  | eschew =>
    cases he
    exact h.eschew hm
  | resched env =>
    obtain ⟨⟨s₁, out⟩, hr, rfl⟩ := Option.map_eq_some_iff.mp he
    exact h.resched address hm hseat hkeep hr
  | changeRemaining t remaining =>
    simp only [step] at he
    split at he <;> rename_i ht <;> cases he
    by_cases hcur : s.sched.currentThread = some t
    · rw [schedChangeRemaining, if_neg fun hne => hne hcur]
      exact h.setSched _ ⟨rfl, rfl⟩ ⟨rfl, rfl⟩
    · have hset := h.rekey hm (hm.queued_iff.mp ht) id (fun _ => ⟨rfl, rfl⟩) hcur (hkeep hcur)
      rwa [State.setThread, Scheduler.setThread, id, Function.update_eq_self] at hset
  | adjustPriority t priority =>
    simp only [step] at he
    split at he <;> rename_i ht <;> cases he
    have hsoft : Sorted (s.setThread t fun th => { th with
        softPriority := th.softPriority + priority }) := h.setThread _ fun _ => rfl
    exact hsoft.chargePriority (hm.setThread _ fun _ => ⟨rfl, rfl, rfl⟩) (hm.queued_iff.mp ht)
      (ChargeFits.setThread hkeep _ fun _ => ⟨rfl, rfl, rfl⟩)
  | setPriority t priority =>
    simp only [step] at he
    split at he <;> rename_i ht <;> cases he
    have hsoft : Sorted (s.setThread t fun th => { th with softPriority := priority }) :=
      h.setThread _ fun _ => rfl
    exact hsoft.chargePriority (hm.setThread _ fun _ => ⟨rfl, rfl, rfl⟩) (hm.queued_iff.mp ht)
      (ChargeFits.setThread hkeep _ fun _ => ⟨rfl, rfl, rfl⟩)
  | setHardPriority t priority =>
    simp only [step] at he
    split at he <;> rename_i ht <;> cases he
    have hsoft : Sorted (s.setThread t fun th => { th with
        hardPriority := priority
        softPriority := th.softPriority + ((s.threads t).hardPriority - priority) }) :=
      h.setThread _ fun _ => rfl
    exact hsoft.chargePriority (hm.setThread _ fun _ => ⟨rfl, rfl, rfl⟩) (hm.queued_iff.mp ht)
      (ChargeFits.setThread hkeep _ fun _ => ⟨rfl, rfl, rfl⟩)
  | setStatus t status =>
    cases he
    exact h.setThread _ fun _ => rfl

/-- Both run queues are heaps after every call of a run in which no key is written that does not
fit. -/
theorem run_queues_heaps (address : τ ↪ ThreadBlock) {alloc : Allocator} {any : τ}
    {id : BitVec 32} {threads : τ → Thread} {s : State τ}
    (h : Execution step KeepsOrder ⟨threads, schedInit alloc any id⟩ s) :
    MaxHeap s.threads s.sched.runningQueue ∧ MaxHeap s.threads s.sched.finishedQueue := by
  have hstart : Sorted (⟨threads, schedInit alloc any id⟩ : State τ) := by
    refine ⟨fun j hj hjn => ?_, fun j hj hjn => ?_⟩
    all_goals
      have hempty : j ≤ 0 := hjn
      omega
  obtain ⟨R, F, -, -, hsort⟩ : ∃ R F, Members 0 s R F ∧ Seated s R ∧ Sorted s := by
    refine h.preserves (I := fun s => ∃ R F, Members 0 s R F ∧ Seated s R ∧ Sorted s) ?_
      ⟨∅, ∅, members_start alloc any id threads, fun c hc => (by cases hc), hstart⟩
    rintro s₁ e s₂ ⟨R, F, hm, hseat, hsort⟩ hkeep he
    obtain ⟨R', F', hm', hseat'⟩ := step_preserves_members address hm hseat he
    exact ⟨R', F', hm', hseat', step_preserves_sorted address hsort hm hseat hkeep he⟩
  exact ⟨hsort.running, hsort.finished⟩

/-- A thread is excluded and continues, and the priority of another one is raised. -/
def raisedBehindExcluded : List (Event (Fin 3)) :=
  [.meanwhile (.insert 1 exactSizes), .meanwhile (.insert 2 exactSizes), .resched (alone true),
    .resched (alone false), .adjustPriority 1 3, .resched (alone true)]

theorem run_queues_heaps_excluded : ∃ s : State (Fin 3),
    Execution step KeepsOrder emptyScheduler s ∧ s.sched.currentThread = some 2 ∧
      (s.threads 2).remaining = 9 ∧ (s.threads 1).remaining = 8 ∧
      MaxHeap s.threads s.sched.runningQueue := by
  have hrun : (follow step KeepsOrder emptyScheduler raisedBehindExcluded).map
      (fun s => decide (s.sched.currentThread = some 2 ∧ (s.threads 2).remaining = 9 ∧
        (s.threads 1).remaining = 8)) = some true := by decide +kernel
  obtain ⟨s, hs, hd⟩ := Option.map_eq_some_iff.mp hrun
  obtain ⟨hcur, htwo, hone⟩ := of_decide_eq_true hd
  have hexec := execution_of_follow hs
  exact ⟨s, hexec, hcur, htwo, hone, (run_queues_heaps firstBlocks hexec).1⟩

/-- The head of the queue loses so much priority that its key becomes negative, which as an
unsigned number is larger than before: it stays at the head. -/
def headBelowZero : List (Event (Fin 3)) :=
  [.meanwhile (.insert 1 exactSizes), .meanwhile (.insert 2 exactSizes),
    .adjustPriority 2 (-20)]

theorem run_queue_out_of_order : ∃ s : State (Fin 3),
    Execution step (fun _ _ => True) emptyScheduler s ∧
      ¬ MaxHeap s.threads s.sched.runningQueue := by
  have hrun : (follow step (fun _ _ => True) emptyScheduler headBelowZero).map
      (fun s => decide (s.sched.runningQueue.size = 2 ∧
        keyOf s.threads (s.sched.runningQueue.dataName 1) = -10 ∧
        keyOf s.threads (s.sched.runningQueue.dataName 2) = 5)) = some true := by decide +kernel
  obtain ⟨s, hs, hd⟩ := Option.map_eq_some_iff.mp hrun
  obtain ⟨hsize, hfirst, hsecond⟩ := of_decide_eq_true hd
  refine ⟨s, execution_of_follow hs, fun hheap => ?_⟩
  have hpair := hheap 2 le_rfl hsize.ge
  rw [hsecond, show 2 / 2 = 1 from rfl, hfirst] at hpair
  exact absurd hpair (by decide)

end Scheduler
