import Metakernel.SchedulerHeaps

/-!
# The calls of priority_heap.c and affinity_heap.c on a heap in order

The two files are treated as one: a key goes further up the higher its rank is, which is the signed
time left in the one file and the reversed affinity in the other.
-/
namespace Scheduler

open IndexedHeaps

inductive HeapFile where
  | priority | affinity

namespace HeapFile

variable {τ : Type} [DecidableEq τ]

def kind : HeapFile → HeapKind
  | priority => byRemaining
  | affinity => byAffinity

def key : HeapFile → Thread → BitVec 32
  | priority => Thread.remaining
  | affinity => Thread.affinity

def writeKey : HeapFile → BitVec 32 → Thread → Thread
  | priority, val, th => { th with remaining := val }
  | affinity, val, th => { th with affinity := val }

def setKey : HeapFile → (τ → Thread) → Heap τ → ℕ → BitVec 32 → (τ → Thread) × Heap τ
  | priority => priorityHeapSetKey
  | affinity => affinityHeapSetKey

/-- The largest signed key is the head of the one heap, the smallest unsigned key of the other. -/
def rank : HeapFile → BitVec 32 → ℤ
  | priority, val => val.toInt
  | affinity, val => -(val.toNat : ℤ)

def Proper : HeapFile → BitVec 32 → Prop
  | priority, val => 0 ≤ val.toInt
  | affinity, _ => True

def rankOf (w : HeapFile) (threads : τ → Thread) (t : τ) : ℤ := w.rank (w.key (threads t))

structure InOrder (w : HeapFile) (threads : τ → Thread) (heap : Heap τ) (S : Set τ) : Prop where
  held : Held w.kind threads heap S
  ordered : ∀ j, 2 ≤ j → j ≤ heap.size →
    w.rankOf threads (heap.dataName j) ≤ w.rankOf threads (heap.dataName (j / 2))
  proper : ∀ t ∈ S, w.Proper (w.key (threads t))

instance (w : HeapFile) : w.kind.Lawful := by
  cases w
  · exact inferInstanceAs byRemaining.Lawful
  · exact inferInstanceAs byAffinity.Lawful

variable {w : HeapFile} {threads threads' : τ → Thread} {heap : Heap τ} {S : Set τ} {t : τ}
  {num index : ℕ} {val : BitVec 32}

omit [DecidableEq τ] in
theorem goesBefore_kind (w : HeapFile) (threads : τ → Thread) :
    goesBefore w.kind threads = byKey (w.rankOf threads) := by
  funext a b
  cases w with
  | priority => rfl
  | affinity =>
    show (threads a).affinity.ult (threads b).affinity = _
    rw [BitVec.ult, byKey, decide_eq_decide]
    simp [rankOf, rank, key]

theorem key_setPos (w : HeapFile) (th : Thread) (p : ℕ) : w.key (w.kind.setPos th p) = w.key th := by
  cases w <;> rfl

section

omit [DecidableEq τ]

theorem store_inOrder {l : Layout τ} {size : ℕ}
    (hheld : Held w.kind (store w.kind threads heap size l).1 (store w.kind threads heap size l).2 S)
    (hord : Ordered (w.rankOf threads) l size) (hproper : ∀ t ∈ S, w.Proper (w.key (threads t))) :
    w.InOrder (store w.kind threads heap size l).1 (store w.kind threads heap size l).2 S := by
  have hkey : ∀ t, w.key ((store w.kind threads heap size l).1 t) = w.key (threads t) :=
    fun t => w.key_setPos _ _
  refine ⟨hheld, ?_, ?_⟩
  · intro j hj hjn
    rw [rankOf, rankOf, hkey, hkey]
    exact hord j hj hjn
  · intro t ht
    rw [hkey]
    exact hproper t ht

theorem InOrder.layout (h : w.InOrder threads heap S) :
    Ordered (w.rankOf threads) (layout w.kind threads heap) heap.size := h.ordered

/-- Writes that leave the keys and the positions of the members alone. -/
theorem InOrder.congr (h : w.InOrder threads heap S)
    (hkey : ∀ t ∈ S, w.key (threads' t) = w.key (threads t))
    (hpos : ∀ t ∈ S, w.kind.pos (threads' t) = w.kind.pos (threads t)) :
    w.InOrder threads' heap S := by
  refine ⟨h.held.congr hpos, fun j hj hjn => ?_, fun t ht => ?_⟩
  · have hslot : ∀ i, 1 ≤ i → i ≤ heap.size →
        w.rankOf threads' (heap.dataName i) = w.rankOf threads (heap.dataName i) := by
      intro i hi hin
      have hmem : heap.dataName i ∈ S := Indexed.slot_mem h.held hi hin
      rw [rankOf, rankOf, hkey _ hmem]
    rw [hslot j (by omega) hjn, hslot (j / 2) (by omega) (by omega)]
    exact h.ordered j hj hjn
  · rw [hkey t ht]
    exact h.proper t ht

end

theorem InOrder.insert (h : w.InOrder threads heap S) (ht : t ∉ S) (hkey : w.Proper (w.key (threads t))) :
    w.InOrder (heapInsert w.kind threads heap t).1 (heapInsert w.kind threads heap t).2 (insert t S) ∧
      Repositioned w.kind (insert t S) threads (heapInsert w.kind threads heap t).1 := by
  obtain ⟨hheld, hrep⟩ := heapInsert_held h.held ht
  refine ⟨store_inOrder hheld ?_ ?_, hrep⟩
  · rw [goesBefore_kind]
    exact settle_ordered (Ordered.holed_succ h.layout) (by omega) le_rfl
  · rintro u (rfl | hu)
    · exact hkey
    · exact h.proper u hu

theorem InOrder.delete (h : w.InOrder threads heap S) (h1 : 1 ≤ num) (hn : num ≤ heap.size) :
    w.InOrder (heapDelete w.kind threads heap num).1 (heapDelete w.kind threads heap num).2
        (S \ {heap.dataName num}) ∧
      Repositioned w.kind (S \ {heap.dataName num}) threads (heapDelete w.kind threads heap num).1 := by
  obtain ⟨hheld, hrep, -, -⟩ := heapDelete_held h.held h1 hn
  refine ⟨?_, hrep⟩
  have hproper : ∀ u ∈ S \ {heap.dataName num}, w.Proper (w.key (threads u)) :=
    fun u hu => h.proper u hu.1
  rw [heapDelete, if_neg (by omega)] at hheld ⊢
  dsimp only at hheld ⊢
  split at hheld
  · rename_i hlast
    rw [if_pos hlast]
    exact ⟨hheld, fun j hj hjn => h.ordered j hj (hjn.trans (Nat.sub_le _ _)), hproper⟩
  · rename_i hlast
    rw [if_neg hlast]
    refine store_inOrder hheld ?_ hproper
    rw [goesBefore_kind]
    refine settle_ordered ?_ h1 (by omega)
    exact Ordered.around (h.layout.mono (Nat.sub_le _ _)) (by omega) fun _ _ _ _ => rfl

/-- Whether `set_key` looks at the threads above. -/
def direction : HeapFile → BitVec 32 → BitVec 32 → Bool
  | priority, old, val => old.ult val
  | affinity, old, val => val.ult old

theorem setKey_eq (w : HeapFile) (threads : τ → Thread) (heap : Heap τ) (index : ℕ) (val : BitVec 32) :
    w.setKey threads heap index val =
      if index = 0 ∨ heap.size < index ∨ w.key (threads (heap.dataName index)) = val then (threads, heap)
      else heapMoveKey w.kind (setThread threads (heap.dataName index) (w.writeKey val)) heap index
        (w.direction (w.key (threads (heap.dataName index))) val) := by
  cases w <;> rfl

theorem direction_iff {old : BitVec 32} (hold : w.Proper old) (hval : w.Proper val) :
    w.direction old val = true ↔ w.rank old < w.rank val := by
  cases w with
  | priority =>
    have hold' : 0 ≤ old.toInt := hold
    have hval' : 0 ≤ val.toInt := hval
    show old.ult val = true ↔ old.toInt < val.toInt
    rw [BitVec.ult, decide_eq_true_eq]
    rw [BitVec.toInt_eq_toNat_cond] at hold' hval' ⊢
    rw [BitVec.toInt_eq_toNat_cond]
    split at hold' <;> split at hval' <;> simp_all <;> omega
  | affinity =>
    show val.ult old = true ↔ -(old.toNat : ℤ) < -(val.toNat : ℤ)
    rw [BitVec.ult, decide_eq_true_eq]
    omega

theorem writeKey_key (w : HeapFile) (val : BitVec 32) (th : Thread) : w.key (w.writeKey val th) = val := by
  cases w <;> rfl

theorem writeKey_pos (w : HeapFile) (val : BitVec 32) (th : Thread) :
    w.kind.pos (w.writeKey val th) = w.kind.pos th := by
  cases w <;> rfl

theorem writeKey_self (w : HeapFile) (th : Thread) : w.writeKey (w.key th) th = th := by
  cases w <;> rfl

omit [DecidableEq τ] in
theorem InOrder.index_inj (h : w.InOrder threads heap S) {i j : ℕ} (hi : 1 ≤ i) (hin : i ≤ heap.size)
    (hj : 1 ≤ j) (hjn : j ≤ heap.size) (heq : heap.dataName i = heap.dataName j) : i = j := by
  have hposi := Indexed.pos h.held i hi hin
  have hposj := Indexed.pos h.held j hj hjn
  have hslot : (Scheduler.layout w.kind threads heap).slot i =
      (Scheduler.layout w.kind threads heap).slot j := heq
  rw [hslot, hposj] at hposi
  exact hposi.symm

section Written

def written (w : HeapFile) (threads : τ → Thread) (heap : Heap τ) (index : ℕ) (val : BitVec 32) :
    τ → Thread := setThread threads (heap.dataName index) (w.writeKey val)

theorem written_key (w : HeapFile) (threads : τ → Thread) (heap : Heap τ) (index : ℕ) (val : BitVec 32)
    (t : τ) : w.key (w.written threads heap index val t) =
      if t = heap.dataName index then val else w.key (threads t) := by
  rw [written]
  split
  · rename_i heq
    rw [heq, setThread_self, writeKey_key]
  · rename_i hne
    rw [setThread_ne _ _ hne]

theorem written_pos (w : HeapFile) (threads : τ → Thread) (heap : Heap τ) (index : ℕ) (val : BitVec 32)
    (t : τ) : w.kind.pos (w.written threads heap index val t) = w.kind.pos (threads t) := by
  by_cases heq : t = heap.dataName index
  · rw [written, heq, setThread_self, writeKey_pos]
  · rw [written, setThread_ne _ _ heq]

theorem InOrder.written_other (h : w.InOrder threads heap S) (val : BitVec 32) (h1 : 1 ≤ index)
    (hn : index ≤ heap.size) {j : ℕ} (hj : 1 ≤ j) (hjn : j ≤ heap.size) (hne : j ≠ index) :
    w.rankOf (w.written threads heap index val) (heap.dataName j) =
      w.rankOf threads (heap.dataName j) := by
  rw [rankOf, rankOf, written_key, if_neg]
  exact fun heq => hne (h.index_inj hj hjn h1 hn heq)

theorem rankOf_written (w : HeapFile) (threads : τ → Thread) (heap : Heap τ) (index : ℕ)
    (val : BitVec 32) :
    w.rankOf (w.written threads heap index val) (heap.dataName index) = w.rank val := by
  rw [rankOf, written_key, if_pos rfl]

theorem InOrder.written_around (h : w.InOrder threads heap S) (val : BitVec 32) (h1 : 1 ≤ index)
    (hn : index ≤ heap.size) : OrderedAround (w.rankOf (w.written threads heap index val))
      (Scheduler.layout w.kind (w.written threads heap index val) heap) heap.size index :=
  Ordered.around h.layout hn fun _ hj hjn hne => h.written_other val h1 hn hj hjn hne

theorem InOrder.written_proper (h : w.InOrder threads heap S) (index : ℕ) (hval : w.Proper val) :
    ∀ t ∈ S, w.Proper (w.key (w.written threads heap index val t)) := by
  intro t ht
  rw [written_key]
  split
  · exact hval
  · exact h.proper t ht

theorem InOrder.written_head (h : w.InOrder threads heap S) (hn : 1 ≤ heap.size)
    (hup : w.rankOf threads (heap.dataName 1) < w.rank val) (j : ℕ) (hj : 2 ≤ j) (hjn : j ≤ heap.size) :
    w.rankOf (w.written threads heap 1 val) (heap.dataName j) ≤
      w.rankOf (w.written threads heap 1 val) (heap.dataName (j / 2)) := by
  have hold := h.ordered j hj hjn
  rw [h.written_other val le_rfl hn (by omega) hjn (by omega)]
  by_cases hpar : j / 2 = 1
  · rw [hpar] at hold ⊢
    rw [rankOf_written]
    exact hold.trans hup.le
  · rw [h.written_other val le_rfl hn (by omega) (by omega) hpar]
    exact hold

end Written

theorem InOrder.setKey (h : w.InOrder threads heap S) (h1 : 1 ≤ index) (hn : index ≤ heap.size)
    (hval : w.Proper val) :
    w.InOrder (w.setKey threads heap index val).1 (w.setKey threads heap index val).2 S ∧
      Repositioned w.kind S (w.written threads heap index val) (w.setKey threads heap index val).1 := by
  rw [setKey_eq]
  by_cases hsame : w.key (threads (heap.dataName index)) = val
  · have hwritten : w.written threads heap index val = threads := by
      rw [written, setThread, ← hsame, writeKey_self, Function.update_eq_self]
    rw [if_pos (Or.inr (Or.inr hsame)), hwritten]
    exact ⟨h, .refl _ _ _⟩
  · have hin : ¬ (index = 0 ∨ heap.size < index ∨ w.key (threads (heap.dataName index)) = val) := by
      rintro (hzero | hlt | heq)
      · omega
      · omega
      · exact hsame heq
    rw [if_neg hin]
    have hold : w.Proper (w.key (threads (heap.dataName index))) :=
      h.proper _ (Indexed.slot_mem h.held h1 hn)
    have hdir := direction_iff hold hval
    have hheld : Held w.kind (w.written threads heap index val) heap S :=
      h.held.congr fun t _ => w.written_pos threads heap index val t
    have haround := h.written_around val h1 hn
    have hproper := h.written_proper index hval
    obtain ⟨hheld', hrep, -, -⟩ := heapMoveKey_held
      (w.direction (w.key (threads (heap.dataName index))) val) hheld h1 hn
    refine ⟨?_, hrep⟩
    change w.InOrder (heapMoveKey w.kind (w.written threads heap index val) heap index _).1
      (heapMoveKey w.kind (w.written threads heap index val) heap index _).2 S
    unfold heapMoveKey at hheld' ⊢
    cases hup : w.direction (w.key (threads (heap.dataName index))) val with
    | true =>
      rw [hup, if_pos rfl] at hheld'
      rw [if_pos rfl]
      split at hheld'
      · rename_i hone
        rw [if_pos hone]
        subst hone
        exact ⟨hheld', h.written_head hn (hdir.mp hup), hproper⟩
      · rename_i hone
        rw [if_neg hone]
        refine store_inOrder hheld' ?_ hproper
        rw [goesBefore_kind]
        exact settle_ordered haround h1 hn
    | false =>
      rw [hup, if_neg nofun] at hheld'
      rw [if_neg nofun]
      refine store_inOrder hheld' ?_ hproper
      rw [goesBefore_kind]
      refine settleDown_ordered haround h1 hn fun h2 => ?_
      have hdown : w.rank val ≤ w.rankOf threads (heap.dataName index) := by
        by_contra hlt
        rw [hdir.mpr (not_le.mp hlt)] at hup
        exact absurd hup nofun
      have hparent := h.written_other val h1 hn (show 1 ≤ index / 2 by omega) (by omega) (by omega)
      change w.rankOf (w.written threads heap index val) (heap.dataName index) ≤
        w.rankOf (w.written threads heap index val) (heap.dataName (index / 2))
      rw [rankOf_written, hparent]
      exact hdown.trans (h.ordered index h2 hn)

omit [DecidableEq τ] in
theorem InOrder.head (h : w.InOrder threads heap S) :
    (∀ t, heapHead heap = some t → t ∈ S ∧ ∀ u ∈ S, w.rankOf threads u ≤ w.rankOf threads t) ∧
      (heapHead heap = none ↔ S = ∅) := by
  refine ⟨fun t ht => ?_, Held.head_eq_none_iff h.held⟩
  rw [heapHead] at ht
  split at ht <;> rename_i hsize <;> cases ht
  refine ⟨Indexed.slot_mem h.held le_rfl (by omega), fun u hu => ?_⟩
  obtain ⟨j, hj, hjn, rfl⟩ := (Indexed.mem h.held u).mp hu
  exact Ordered.le_first h.layout hj hjn

/-- On a heap in order every call ends and leaves a heap in order. The members change by the thread
inserted or deleted, the keys by the one set, and a call with an index outside of the heap does
nothing. -/
theorem heap_operations (w : HeapFile) (h : w.InOrder threads heap S) :
    (∀ t ∉ S, w.Proper (w.key (threads t)) → heap.size < heap.capacity →
      w.InOrder (heapInsert w.kind threads heap t).1 (heapInsert w.kind threads heap t).2 (insert t S) ∧
        Repositioned w.kind (insert t S) threads (heapInsert w.kind threads heap t).1) ∧
    (∀ num, 1 ≤ num → num ≤ heap.size →
      w.InOrder (heapDelete w.kind threads heap num).1 (heapDelete w.kind threads heap num).2
          (S \ {heap.dataName num}) ∧
        Repositioned w.kind (S \ {heap.dataName num}) threads (heapDelete w.kind threads heap num).1) ∧
    (∀ index val, 1 ≤ index → index ≤ heap.size → w.Proper val →
      w.InOrder (w.setKey threads heap index val).1 (w.setKey threads heap index val).2 S ∧
        Repositioned w.kind S (setThread threads (heap.dataName index) (w.writeKey val))
          (w.setKey threads heap index val).1) ∧
    (∀ index, index = 0 ∨ heap.size < index → heapDelete w.kind threads heap index = (threads, heap) ∧
      ∀ val, w.setKey threads heap index val = (threads, heap)) ∧
    (∀ t, heapHead heap = some t → t ∈ S ∧ ∀ u ∈ S, w.rankOf threads u ≤ w.rankOf threads t) ∧
    (heapHead heap = none ↔ S = ∅) ∧
    ∀ (before : τ → τ → Bool) (x : τ) (l : Layout τ) (i n extra : ℕ), 1 ≤ i →
      siftUp before x (i + extra) l i = siftUp before x i l i ∧
        siftDown before x n (n + extra) l i = siftDown before x n n l i := by
  refine ⟨fun t ht hkey _ => h.insert ht hkey, fun num h1 hn => h.delete h1 hn,
    fun index val h1 hn hval => h.setKey h1 hn hval, ?_, h.head.1, h.head.2, ?_⟩
  · intro index hout
    refine ⟨?_, fun val => ?_⟩
    · rw [heapDelete, if_pos (by omega)]
    · rw [setKey_eq, if_pos (by omega)]
  · intro before x l i n extra h1
    exact ⟨siftUp_extra before x extra h1 le_rfl, siftDown_extra before x n extra h1 (by omega)⟩

def twoThreads (t : ℕ) : Thread where
  remaining := if t = 1 then 5 else 3
  softPriority := 0
  hardPriority := 0
  status := .runnable
  runStatus := .runnable
  epoch := 0
  cpuId := 0
  affinity := 0
  affinityHeapPos := t
  priorityHeapPos := t

theorem heap_operations_two : ∃ heap : Heap ℕ, priority.InOrder twoThreads heap {t | t = 1 ∨ t = 2} ∧
    heapHead heap = some 1 ∧
    priority.InOrder (heapDelete byRemaining twoThreads heap 1).1
      (heapDelete byRemaining twoThreads heap 1).2 ({t | t = 1 ∨ t = 2} \ {1}) := by
  have h : priority.InOrder twoThreads ⟨2, 64, id⟩ {t | t = 1 ∨ t = 2} := by
    refine ⟨⟨fun j _ _ => rfl, fun t => ?_⟩, fun j hj hjn => ?_, fun t _ => ?_⟩
    · constructor
      · rintro (rfl | rfl)
        · exact ⟨1, le_rfl, by decide, rfl⟩
        · exact ⟨2, by decide, le_rfl, rfl⟩
      · rintro ⟨j, hj, hjn, rfl⟩
        have hjn' : j ≤ 2 := hjn
        have hor : j = 1 ∨ j = 2 := by omega
        exact hor
    · have hjn' : j ≤ 2 := hjn
      obtain rfl : j = 2 := by omega
      decide
    · show 0 ≤ (if t = 1 then (5 : BitVec 32) else 3).toInt
      split <;> decide
  exact ⟨⟨2, 64, id⟩, h, rfl, ((heap_operations priority h).2.1 1 le_rfl (by decide)).1⟩

end HeapFile

end Scheduler
