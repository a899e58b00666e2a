import Mathlib.Order.BooleanAlgebra.Set
import Metakernel.IndexedHeaps

/-!
# priority_heap.c and affinity_heap.c

The two files are one program over different fields: the priority heap keeps the largest
`stat.remaining` at its head, the affinity heap the smallest `affinity`. `dataName i` is
`data_name[i - 1]`. `kern_realloc` is a parameter that returns at least what it is asked for.
-/
namespace Scheduler

open IndexedHeaps

inductive Status where
  | runnable | noResched | exclusive | atomic | stopped | intSleep | unintSleep | dead
  deriving DecidableEq, Repr

def Status.isRunnable : Status → Bool
  | .runnable | .noResched | .exclusive | .atomic => true
  | _ => false

structure Thread where
  remaining : BitVec 32
  softPriority : BitVec 32
  hardPriority : BitVec 32
  status : Status
  runStatus : Status
  epoch : BitVec 32
  cpuId : BitVec 32
  affinity : BitVec 32
  affinityHeapPos : ℕ
  priorityHeapPos : ℕ
  deriving DecidableEq, Repr

structure Heap (τ : Type) where
  size : ℕ
  max : BitVec 32
  dataName : ℕ → τ

def Heap.capacity {τ : Type} (heap : Heap τ) : ℕ := heap.max.toNat / 4

/-- What `kern_malloc` and `kern_realloc` make of a requested size. -/
structure Allocator where
  size : BitVec 32 → BitVec 32
  enough : ∀ n, n ≤ size n

structure HeapKind where
  pos : Thread → ℕ
  setPos : Thread → ℕ → Thread
  before : Thread → Thread → Bool

def byRemaining : HeapKind where
  pos := Thread.priorityHeapPos
  setPos th p := { th with priorityHeapPos := p }
  before a b := b.remaining.slt a.remaining

def byAffinity : HeapKind where
  pos := Thread.affinityHeapPos
  setPos th p := { th with affinityHeapPos := p }
  before a b := a.affinity.ult b.affinity

variable {τ : Type} [DecidableEq τ]

def layout (k : HeapKind) (threads : τ → Thread) (heap : Heap τ) : Layout τ :=
  ⟨heap.dataName, fun t => k.pos (threads t)⟩

def goesBefore (k : HeapKind) (threads : τ → Thread) (a b : τ) : Bool :=
  k.before (threads a) (threads b)

def store (k : HeapKind) (threads : τ → Thread) (heap : Heap τ) (size : ℕ) (l : Layout τ) :
    (τ → Thread) × Heap τ :=
  (fun t => k.setPos (threads t) (l.pos t), { heap with size, dataName := l.slot })

def heapInit (alloc : Allocator) (first : τ) (size : BitVec 32) : Heap τ :=
  ⟨0, alloc.size (size * 4), fun _ => first⟩

def heapGrow (alloc : Allocator) (heap : Heap τ) (size : ℕ) : Heap τ :=
  if heap.capacity ≤ size then { heap with max := alloc.size (heap.max * 2) } else heap

def heapInsert (k : HeapKind) (threads : τ → Thread) (heap : Heap τ) (t : τ) :
    (τ → Thread) × Heap τ :=
  let size := heap.size + 1
  store k threads heap size
    (settle (goesBefore k threads) t size (layout k threads heap) size)

def heapHead (heap : Heap τ) : Option τ := if heap.size ≠ 0 then some (heap.dataName 1) else none

def heapDelete (k : HeapKind) (threads : τ → Thread) (heap : Heap τ) (num : ℕ) :
    (τ → Thread) × Heap τ :=
  if heap.size = 0 ∨ num = 0 ∨ heap.size < num then (threads, heap)
  else
    let size := heap.size - 1
    if num - 1 = size then (threads, { heap with size })
    else store k threads heap size
      (settle (goesBefore k threads) (heap.dataName heap.size) size (layout k threads heap) num)

/-- The part of `set_key` that moves the entry at `index`; `direction` says whether its key now
goes further up. -/
def heapMoveKey (k : HeapKind) (threads : τ → Thread) (heap : Heap τ) (index : ℕ)
    (direction : Bool) : (τ → Thread) × Heap τ :=
  if direction then
    if index = 1 then (threads, heap)
    else store k threads heap heap.size
      (settle (goesBefore k threads) (heap.dataName index) heap.size (layout k threads heap) index)
  else store k threads heap heap.size
    (settleDown (goesBefore k threads) (heap.dataName index) heap.size (layout k threads heap)
      index)

def setThread (threads : τ → Thread) (t : τ) (f : Thread → Thread) : τ → Thread :=
  Function.update threads t (f (threads t))

@[simp] theorem setThread_self (threads : τ → Thread) (t : τ) (f : Thread → Thread) :
    setThread threads t f t = f (threads t) := Function.update_self t _ _

@[simp] theorem setThread_ne (threads : τ → Thread) {t u : τ} (f : Thread → Thread)
    (hu : u ≠ t) : setThread threads t f u = threads u := Function.update_of_ne hu _ _

/-- `direction` compares the key with the unsigned `val`. -/
def priorityHeapSetKey (threads : τ → Thread) (heap : Heap τ) (index : ℕ) (val : BitVec 32) :
    (τ → Thread) × Heap τ :=
  if index = 0 ∨ heap.size < index ∨ (threads (heap.dataName index)).remaining = val then
    (threads, heap)
  else
    let tmp := heap.dataName index
    let direction := (threads tmp).remaining.ult val
    heapMoveKey byRemaining (setThread threads tmp fun th => { th with remaining := val }) heap
      index direction

def affinityHeapSetKey (threads : τ → Thread) (heap : Heap τ) (index : ℕ) (val : BitVec 32) :
    (τ → Thread) × Heap τ :=
  if index = 0 ∨ heap.size < index ∨ (threads (heap.dataName index)).affinity = val then
    (threads, heap)
  else
    let tmp := heap.dataName index
    let direction := val.ult (threads tmp).affinity
    heapMoveKey byAffinity (setThread threads tmp fun th => { th with affinity := val }) heap
      index direction

section Fields

variable {β : Type} (field : Thread → β)

theorem heapInsert_field {k : HeapKind} (hf : ∀ th p, field (k.setPos th p) = field th)
    (threads : τ → Thread) (heap : Heap τ) (t u : τ) :
    field ((heapInsert k threads heap t).1 u) = field (threads u) := hf _ _

theorem heapDelete_field {k : HeapKind} (hf : ∀ th p, field (k.setPos th p) = field th)
    (threads : τ → Thread) (heap : Heap τ) (num : ℕ) (u : τ) :
    field ((heapDelete k threads heap num).1 u) = field (threads u) := by
  rw [heapDelete]
  split
  · rfl
  · dsimp only
    split
    · rfl
    · exact hf _ _

theorem heapMoveKey_field {k : HeapKind} (hf : ∀ th p, field (k.setPos th p) = field th)
    (threads : τ → Thread) (heap : Heap τ) (index : ℕ) (direction : Bool) (u : τ) :
    field ((heapMoveKey k threads heap index direction).1 u) = field (threads u) := by
  rw [heapMoveKey]
  split
  · split
    · rfl
    · exact hf _ _
  · exact hf _ _

theorem setThread_field {f : Thread → Thread} (hf : ∀ th, field (f th) = field th)
    (threads : τ → Thread) (t u : τ) : field (setThread threads t f u) = field (threads u) := by
  by_cases hu : u = t
  · rw [hu, setThread_self]
    exact hf _
  · rw [setThread_ne threads f hu]

theorem priorityHeapSetKey_field (hf : ∀ th p, field (byRemaining.setPos th p) = field th)
    (hkey : ∀ th val, field { th with remaining := val } = field th) (threads : τ → Thread)
    (heap : Heap τ) (index : ℕ) (val : BitVec 32) (u : τ) :
    field ((priorityHeapSetKey threads heap index val).1 u) = field (threads u) := by
  rw [priorityHeapSetKey]
  split
  · rfl
  · exact (heapMoveKey_field field hf _ _ _ _ u).trans
      (setThread_field field (fun th => hkey th val) _ _ _)

end Fields

class HeapKind.Lawful (k : HeapKind) : Prop where
  pos_setPos : ∀ th p, k.pos (k.setPos th p) = p
  setPos_pos : ∀ th, k.setPos th (k.pos th) = th

instance : byRemaining.Lawful := ⟨fun _ _ => rfl, fun _ => rfl⟩

instance : byAffinity.Lawful := ⟨fun _ _ => rfl, fun _ => rfl⟩

def Held (k : HeapKind) (threads : τ → Thread) (heap : Heap τ) (S : Set τ) : Prop :=
  Indexed (layout k threads heap) heap.size S

omit [DecidableEq τ] in
theorem Held.size_eq_zero_iff {k : HeapKind} {threads : τ → Thread} {heap : Heap τ} {S : Set τ}
    (h : Held k threads heap S) : heap.size = 0 ↔ S = ∅ := by
  rw [Set.eq_empty_iff_forall_notMem]
  constructor
  · intro hsize t ht
    have hpos := Indexed.slot_pos h ht
    omega
  · intro hempty
    by_contra hsize
    exact hempty _ (Indexed.slot_mem h le_rfl (Nat.one_le_iff_ne_zero.mpr hsize))

omit [DecidableEq τ] in
theorem Held.head_eq_none_iff {k : HeapKind} {threads : τ → Thread} {heap : Heap τ} {S : Set τ}
    (h : Held k threads heap S) : heapHead heap = none ↔ S = ∅ := by
  rw [← h.size_eq_zero_iff, heapHead]
  split <;> simp_all

def Repositioned (k : HeapKind) (S : Set τ) (threads threads' : τ → Thread) : Prop :=
  ∀ t, (∃ p, threads' t = k.setPos (threads t) p) ∧ (t ∉ S → threads' t = threads t)

variable {k : HeapKind} [k.Lawful] {threads : τ → Thread} {heap : Heap τ} {S : Set τ}

section

omit [DecidableEq τ]

theorem Repositioned.refl (k : HeapKind) [k.Lawful] (S : Set τ) (threads : τ → Thread) :
    Repositioned k S threads threads :=
  fun t => ⟨⟨k.pos (threads t), (HeapKind.Lawful.setPos_pos _).symm⟩, fun _ => rfl⟩

theorem store_held {l : Layout τ} {size : ℕ} (hl : Indexed l size S) :
    Held k (store k threads heap size l).1 (store k threads heap size l).2 S := by
  refine Indexed.congr hl (fun j _ _ => rfl) fun t _ => ?_
  exact HeapKind.Lawful.pos_setPos _ _

theorem store_repositioned {l : Layout τ} {size : ℕ} {S : Set τ}
    (hl : SameOutside S (layout k threads heap) l) :
    Repositioned k S threads (store k threads heap size l).1 := by
  intro t
  refine ⟨⟨l.pos t, rfl⟩, fun ht => ?_⟩
  show k.setPos (threads t) (l.pos t) = threads t
  rw [hl t ht]
  exact HeapKind.Lawful.setPos_pos _

end

theorem heapInsert_held {t : τ} (h : Held k threads heap S) (ht : t ∉ S) :
    Held k (heapInsert k threads heap t).1 (heapInsert k threads heap t).2 (insert t S) ∧
      Repositioned k (insert t S) threads (heapInsert k threads heap t).1 := by
  obtain ⟨hind, hsame⟩ := settle_indexed (goesBefore k threads) (Indexed.holed_succ h) ht
  exact ⟨store_held hind, store_repositioned hsame⟩

omit [DecidableEq τ] in
theorem heapGrow_kept (alloc : Allocator) (heap : Heap τ) (n : ℕ) :
    (heapGrow alloc heap n).size = heap.size ∧
      (heapGrow alloc heap n).dataName = heap.dataName := by
  rw [heapGrow]
  split <;> exact ⟨rfl, rfl⟩

theorem heapDelete_held {num : ℕ} (h : Held k threads heap S) (h1 : 1 ≤ num)
    (hn : num ≤ heap.size) :
    Held k (heapDelete k threads heap num).1 (heapDelete k threads heap num).2
        (S \ {heap.dataName num}) ∧
      Repositioned k (S \ {heap.dataName num}) threads (heapDelete k threads heap num).1 ∧
      (heapDelete k threads heap num).2.size + 1 = heap.size ∧
      (heapDelete k threads heap num).2.max = heap.max := by
  obtain ⟨n, hsize⟩ : ∃ n, heap.size = n + 1 := ⟨heap.size - 1, by omega⟩
  have hind : Indexed (layout k threads heap) (n + 1) S := hsize ▸ h
  rw [heapDelete, if_neg (by omega)]
  by_cases hlast : num = n + 1
  · rw [if_pos (by omega), hlast]
    refine ⟨?_, .refl _ _ _, by simp; omega, rfl⟩
    have hdrop := hind.dropLast
    rw [show heap.size - 1 = n by omega]
    exact hdrop
  · rw [if_neg (by omega), show heap.size - 1 = n by omega, hsize]
    -- the last entry fills the hole
    have hdrop := hind.dropLast
    have hholed := hdrop.holed h1 (show num ≤ n by omega)
    have hout : heap.dataName (n + 1) ∉
        (S \ {(layout k threads heap).slot (n + 1)}) \ {(layout k threads heap).slot num} := by
      rintro ⟨⟨-, hne⟩, -⟩
      exact hne rfl
    obtain ⟨hset, hsame⟩ := settle_indexed (goesBefore k threads) hholed hout
    have hlast' : heap.dataName (n + 1) ∈ S \ {heap.dataName num} := by
      refine ⟨hind.slot_mem (by omega) le_rfl, fun heq => hlast ?_⟩
      have hpos := hind.pos (n + 1) (by omega) le_rfl
      have hpos' := hind.pos num h1 (by omega)
      have hslot : (layout k threads heap).slot (n + 1) = (layout k threads heap).slot num := heq
      rw [hslot, hpos'] at hpos
      exact hpos
    have hS : insert (heap.dataName (n + 1))
        ((S \ {(layout k threads heap).slot (n + 1)}) \ {(layout k threads heap).slot num}) =
        S \ {heap.dataName num} := by
      ext t
      simp only [Set.mem_insert_iff, Set.mem_sdiff, Set.mem_singleton_iff]
      constructor
      · rintro (rfl | ⟨⟨hS, -⟩, hne⟩)
        · exact hlast'
        · exact ⟨hS, hne⟩
      · rintro ⟨hS, hne⟩
        by_cases ht : t = heap.dataName (n + 1)
        · exact Or.inl ht
        · exact Or.inr ⟨⟨hS, ht⟩, hne⟩
    rw [hS] at hset hsame
    exact ⟨store_held hset, store_repositioned hsame, by simp [store], rfl⟩

theorem heapMoveKey_held {index : ℕ} (direction : Bool) (h : Held k threads heap S)
    (h1 : 1 ≤ index) (hn : index ≤ heap.size) :
    Held k (heapMoveKey k threads heap index direction).1
        (heapMoveKey k threads heap index direction).2 S ∧
      Repositioned k S threads (heapMoveKey k threads heap index direction).1 ∧
      (heapMoveKey k threads heap index direction).2.size = heap.size ∧
      (heapMoveKey k threads heap index direction).2.max = heap.max := by
  have hholed := Indexed.holed h h1 hn
  have hout : heap.dataName index ∉ S \ {(layout k threads heap).slot index} :=
    fun hmem => hmem.2 rfl
  have hS : insert (heap.dataName index) (S \ {(layout k threads heap).slot index}) = S := by
    have hmem : heap.dataName index ∈ S := Indexed.slot_mem h h1 hn
    rw [show (layout k threads heap).slot index = heap.dataName index from rfl,
      Set.insert_sdiff_singleton, Set.insert_eq_of_mem hmem]
  rw [heapMoveKey]
  split
  · split
    · exact ⟨h, .refl _ _ _, rfl, rfl⟩
    · obtain ⟨hset, hsame⟩ := settle_indexed (goesBefore k threads) hholed hout
      rw [hS] at hset hsame
      exact ⟨store_held hset, store_repositioned hsame, rfl, rfl⟩
  · obtain ⟨hset, hsame⟩ := settleDown_indexed (goesBefore k threads) hholed hout
    rw [hS] at hset hsame
    exact ⟨store_held hset, store_repositioned hsame, rfl, rfl⟩

omit [DecidableEq τ] [k.Lawful] in
theorem Held.congr {threads' : τ → Thread} (h : Held k threads heap S)
    (hpos : ∀ t ∈ S, k.pos (threads' t) = k.pos (threads t)) : Held k threads' heap S :=
  Indexed.congr h (fun _ _ _ => rfl) hpos

end Scheduler
