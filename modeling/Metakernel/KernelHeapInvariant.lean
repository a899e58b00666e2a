import Metakernel.DyadicBlocks
import Metakernel.KernelHeap

/-!
# The free-list invariant of the kernel heap

`HeapRep h F` says that the rings, the hash chains and the headers in memory index exactly
the free blocks `F`. One lemma per primitive describes its effect on `F`; everything above
them reasons about sets of blocks only.
-/
namespace KernelHeap

open LinkedNodes ByteMemory DataStructures DyadicBlocks

theorem padicValNat_lt_word {p : ℕ} (hp : 0 < p) (hlt : p < 4294967296) :
    padicValNat 2 p < 32 := by
  by_contra hge
  have hpow : 2 ^ 32 ≤ lowBit p := Nat.pow_le_pow_right (by norm_num) (by omega)
  have hle := lowBit_le hp
  omega

theorem bsf_eq {p : ℕ} (hp : 0 < p) (hlt : p < 4294967296) : bsf p = some (padicValNat 2 p) := by
  obtain ⟨q, hq⟩ := lowBit_dvd p
  have hval := padicValNat_lt_word hp hlt
  have hbit : ∀ j, p.testBit j = (decide (j ≥ padicValNat 2 p) && q.testBit (j - padicValNat 2 p)) := by
    intro j
    conv_lhs => rw [hq]
    exact Nat.testBit_two_pow_mul
  have hodd : q.testBit 0 = true := by
    rw [Nat.testBit_zero, decide_eq_true_eq]
    by_contra heven
    obtain ⟨r, hr⟩ : ∃ r, q = 2 * r := ⟨q / 2, by omega⟩
    have hmul : 2 ^ padicValNat 2 p * (2 * r) = 2 ^ (padicValNat 2 p + 1) * r := by ring
    have hbig : 2 ^ (padicValNat 2 p + 1) ∣ p := ⟨r, by rw [← hmul, ← hr]; exact hq⟩
    have := (two_pow_dvd_iff hp).mp hbig
    unfold lowBit at this
    rw [Nat.pow_le_pow_iff_right (by norm_num)] at this
    omega
  rw [bsf, List.find?_range_eq_some]
  refine ⟨by rw [hbit]; simpa using hodd, by simpa using hval, ?_⟩
  intro j hj
  rw [hbit]
  simp [Nat.not_le.mpr hj]

theorem find_reverse_range {f : ℕ → Bool} {i : ℕ} (hi : f i = true) :
    ∀ {n : ℕ}, i < n → (∀ j, i < j → j < n → f j = false) →
      (List.range n).reverse.find? f = some i
  | n + 1, hin, h => by
    rw [List.range_succ, List.reverse_append, List.reverse_singleton, List.singleton_append]
    by_cases hn : i = n
    · subst hn
      simp [hi]
    · rw [List.find?_cons_of_neg (by simp [h n (by omega) (by omega)])]
      exact find_reverse_range hi (by omega) fun j hj hjn => h j hj (by omega)

theorem bsr_eq {n : ℕ} (hn : 0 < n) (hlt : n < 4294967296) : bsr n = some (Nat.log 2 n) := by
  have hlog : Nat.log 2 n < 32 := Nat.log_lt_of_lt_pow (by omega) (by simpa using hlt)
  refine find_reverse_range ?_ hlog ?_
  · rw [← Nat.log2_eq_log_two]
    exact Nat.testBit_log2 (by omega)
  · intro j hj _
    exact Nat.testBit_lt_two_pow (Nat.lt_pow_of_log_lt (by norm_num) hj)

theorem sizeTab_eq {i : ℕ} (hi : i < 32) : sizeTab[i]? = some (2 ^ i) := by
  interval_cases i <;> rfl

theorem addrSize_eq {p : ℕ} (hp : 0 < p) (hlt : p < 4294967296) :
    addrSize p = some (lowBit p) := by
  have hval := padicValNat_lt_word hp hlt
  simp [addrSize, bsf_eq hp hlt, sizeTab_eq hval, lowBit]

theorem addrPower_eq {n : ℕ} (hn : 0 < n) (hlt : n < 4294967296) :
    addrPower n = some (Nat.log 2 n) := bsr_eq hn hlt

theorem roundDown_eq {n : ℕ} (hn : 0 < n) (hlt : n < 4294967296) :
    roundDown n = some (highBit n) := by
  have hlog : Nat.log 2 n < 32 := Nat.log_lt_of_lt_pow (by omega) (by simpa using hlt)
  simp [roundDown, bsr_eq hn hlt, sizeTab_eq hlog, highBit]

/-- Rounding up gives the least power of two that is not below the request. -/
theorem roundUp_eq {n : ℕ} (hn : 2 ≤ n) (hlt : n ≤ 2147483648) :
    ∃ k, roundUp n = some (2 ^ k) ∧ k < 32 ∧ n ≤ 2 ^ k ∧ 2 ^ k < 2 * n := by
  have hw : wsub n 1 = n - 1 := wsub_eq (by omega) (by omega)
  have hlog : Nat.log 2 (n - 1) < 31 :=
    Nat.log_lt_of_lt_pow (by omega) (by norm_num; omega)
  refine ⟨Nat.log 2 (n - 1) + 1, ?_, by omega, ?_, ?_⟩
  · simp [roundUp, hw, bsr_eq (n := n - 1) (by omega) (by omega), sizeTab_eq (i := Nat.log 2 (n - 1) + 1)
      (by omega)]
  · have := lt_two_mul_highBit (n - 1)
    rw [pow_succ, ← highBit]
    omega
  · have := highBit_le (n := n - 1) (by omega)
    rw [pow_succ, ← highBit]
    omega

/-- Where headers live: aligned, not NULL, and below the sign bit of the hash key. -/
def Node (p : ℕ) : Prop := 16 ∣ p ∧ 0 < p ∧ p < 2147483648

theorem not_node_zero : ¬ Node 0 := fun h => absurd h.2.1 (by omega)

theorem Node.lt_word {p : ℕ} (h : Node p) : p < 4294967296 := by
  have := h.2.2
  omega

theorem ringFields : RingFields nodeNext nodeLast Node where
  next_lawful := wordField_lawful (n := 16) (by norm_num) (fun _ h => h.1) fun _ h => h.lt_word
  last_lawful := wordField_lawful (n := 16) (by norm_num) (fun _ h => h.1) fun _ h => h.lt_word
  next_untouched := wordField_untouched (n := 16) (by norm_num) (by norm_num) (by norm_num)
    fun _ h => h.1
  last_untouched := wordField_untouched (n := 16) (by norm_num) (by norm_num) (by norm_num)
    fun _ h => h.1

def LinkValue (v : ℕ) : Prop := v = 0 ∨ Node v

theorem hashNext_lawful : nodeHashNext.Lawful Node LinkValue :=
  wordField_lawful (n := 16) (by norm_num) (fun _ h => h.1) fun _ h =>
    h.elim (fun h => by omega) Node.lt_word

theorem size_lawful : nodeSize.Lawful Node (· < 4294967296) :=
  wordField_lawful (n := 16) (by norm_num) (fun _ h => h.1) fun _ h => h

section Untouched

theorem untouched_of_offsets {o₁ o₂ : ℕ} (h₁ : o₁ + 4 ≤ 16) (h₂ : o₂ + 4 ≤ 16)
    (hne : o₁ + 4 ≤ o₂ ∨ o₂ + 4 ≤ o₁) : (wordField o₁).Untouched (wordField o₂) Node :=
  wordField_untouched h₁ h₂ hne fun _ h => h.1

theorem next_untouched_hash : nodeNext.Untouched nodeHashNext Node :=
  untouched_of_offsets (by norm_num) (by norm_num) (by norm_num)

theorem last_untouched_hash : nodeLast.Untouched nodeHashNext Node :=
  untouched_of_offsets (by norm_num) (by norm_num) (by norm_num)

theorem hash_untouched_next : nodeHashNext.Untouched nodeNext Node :=
  untouched_of_offsets (by norm_num) (by norm_num) (by norm_num)

theorem hash_untouched_last : nodeHashNext.Untouched nodeLast Node :=
  untouched_of_offsets (by norm_num) (by norm_num) (by norm_num)

theorem size_untouched_next : nodeSize.Untouched nodeNext Node :=
  untouched_of_offsets (by norm_num) (by norm_num) (by norm_num)

theorem size_untouched_last : nodeSize.Untouched nodeLast Node :=
  untouched_of_offsets (by norm_num) (by norm_num) (by norm_num)

theorem size_untouched_hash : nodeSize.Untouched nodeHashNext Node :=
  untouched_of_offsets (by norm_num) (by norm_num) (by norm_num)

end Untouched

/-- A byte outside the header of `p`. -/
def OffHeader (x p : ℕ) : Prop := x < p ∨ p + 16 ≤ x

theorem wordField_set_off {offset x p v : ℕ} (hoff : offset + 4 ≤ 16) (h : OffHeader x p)
    (m : Memory) : (wordField offset).set m p v x = m x :=
  store32_frame m _ v (by unfold OffHeader at h; omega)

/-- A free block: a power of two in [16, LARGEST_BLOCK], aligned on its size, inside a region
above address 0 and below 2^31. -/
def FreeBlock (b : Block) : Prop :=
  ∃ k, 4 ≤ k ∧ k ≤ 20 ∧ b.size = 2 ^ k ∧ 2 ^ k ∣ b.addr ∧ 0 < b.addr ∧
    b.addr + b.size ≤ 2147483648

theorem FreeBlock.dyadic {b : Block} (h : FreeBlock b) : IsDyadic b := by
  obtain ⟨k, _, _, hs, ha, _⟩ := h
  exact ⟨k, hs, ha⟩

theorem two_pow_range {k : ℕ} (h₁ : 4 ≤ k) (h₂ : k ≤ 20) :
    16 ≤ 2 ^ k ∧ 2 ^ k ≤ largestBlock ∧ 16 ∣ 2 ^ k := by
  refine ⟨?_, ?_, ?_⟩
  · calc 16 = 2 ^ 4 := by norm_num
      _ ≤ 2 ^ k := Nat.pow_le_pow_right (by norm_num) h₁
  · calc 2 ^ k ≤ 2 ^ 20 := Nat.pow_le_pow_right (by norm_num) h₂
      _ = largestBlock := by norm_num [largestBlock]
  · exact pow_dvd_pow 2 h₁

theorem FreeBlock.bounds {b : Block} (h : FreeBlock b) :
    16 ≤ b.size ∧ b.size ≤ largestBlock ∧ 16 ∣ b.size ∧ 16 ∣ b.addr ∧ 0 < b.addr ∧
      b.addr + b.size ≤ 2147483648 := by
  obtain ⟨k, h4, h20, hs, ha, hpos, hend⟩ := h
  obtain ⟨h1, h2, h3⟩ := two_pow_range h4 h20
  rw [hs] at *
  exact ⟨h1, h2, h3, h3.trans ha, hpos, hend⟩

theorem FreeBlock.node {b : Block} (h : FreeBlock b) : Node b.addr := by
  obtain ⟨h1, _, _, h4, h5, h6⟩ := h.bounds
  exact ⟨h4, h5, by omega⟩

def Starts (F : Finset Block) (a : ℕ) : Prop := ∃ n, ⟨a, n⟩ ∈ F

def Rings (m : Memory) (lists : ℕ → ℕ) (F : Finset Block) : Prop :=
  ∀ k, k ≤ 16 → ∃ l, NodeRing nodeNext nodeLast Node m l ∧ lists k = l.head?.getD 0 ∧
    ∀ a, a ∈ l ↔ ⟨a, 2 ^ (k + 4)⟩ ∈ F

def Chains (m : Memory) (table : ℕ → ℕ) (F : Finset Block) : Prop :=
  ∀ i, i < hashTableSize → ∃ l, Chain nodeHashNext 0 m (table i) l ∧ l.Nodup ∧
    ∀ a, a ∈ l ↔ Starts F a ∧ hashIndex a = i

structure FreeSet (F : Finset Block) : Prop where
  block : ∀ b ∈ F, FreeBlock b
  apart : PairwiseApart F

structure HeapRep (h : Heap) (F : Finset Block) : Prop extends FreeSet F where
  high : h.highList = 16
  counter : h.heapFree < 4294967296
  sizes : ∀ b ∈ F, h.size b.addr = b.size
  rings : Rings h.mem h.blockLists F
  chains : Chains h.mem h.hashTable F

/-- Two apart blocks of a free set do not start at the same address. -/
theorem FreeSet.start_unique {F : Finset Block} (hr : FreeSet F) {b c : Block}
    (hb : b ∈ F) (hc : c ∈ F) (ha : b.addr = c.addr) : b = c := by
  by_contra hne
  have hap := hr.apart b hb c hc hne
  have h1 := (hr.block b hb).bounds.1
  have h2 := (hr.block c hc).bounds.1
  unfold Block.Apart at hap
  omega

theorem FreeSet.starts_node {F : Finset Block} (hF : FreeSet F) {a : ℕ} (ha : Starts F a) :
    Node a := by
  obtain ⟨n, hn⟩ := ha
  exact (hF.block _ hn).node

theorem FreeSet.insert {F : Finset Block} (hF : FreeSet F) {b : Block} (hb : FreeBlock b)
    (hap : ∀ c ∈ F, b.Apart c) : FreeSet (insert b F) := by
  refine ⟨?_, hF.apart.insert hap⟩
  intro c hc
  rcases Finset.mem_insert.mp hc with rfl | hc
  · exact hb
  · exact hF.block c hc

theorem FreeSet.erase {F : Finset Block} (hF : FreeSet F) (b : Block) : FreeSet (F.erase b) :=
  ⟨fun c hc => hF.block c (Finset.mem_of_mem_erase hc), hF.apart.subset (Finset.erase_subset b F)⟩

theorem FreeBlock.not_starts {F : Finset Block} (hF : FreeSet F) {b : Block} (hb : FreeBlock b)
    (hap : ∀ c ∈ F, b.Apart c) : ¬ Starts F b.addr := by
  rintro ⟨n, hn⟩
  have h1 := hap _ hn
  have h2 := hb.bounds.1
  have h3 := (hF.block _ hn).bounds.1
  unfold Block.Apart at h1
  simp only at h1 h3
  omega

theorem FreeSet.offHeader {F : Finset Block} (hF : FreeSet F) {a x : ℕ} (ha : Starts F a)
    (hx : ¬ Covers F x) : OffHeader x a := by
  obtain ⟨n, hn⟩ := ha
  have hb := (hF.block _ hn).bounds.1
  by_contra hoff
  refine hx ⟨_, hn, ?_⟩
  unfold OffHeader at hoff
  unfold Block.covers
  simp only at *
  omega

theorem starts_insert {F : Finset Block} {b : Block} {a : ℕ} :
    Starts (insert b F) a ↔ a = b.addr ∨ Starts F a := by
  constructor
  · rintro ⟨n, hn⟩
    rcases Finset.mem_insert.mp hn with heq | hn
    · exact Or.inl (by rw [← heq])
    · exact Or.inr ⟨n, hn⟩
  · rintro (rfl | ⟨n, hn⟩)
    · exact ⟨b.size, Finset.mem_insert_self _ _⟩
    · exact ⟨n, Finset.mem_insert_of_mem hn⟩

theorem FreeSet.starts_erase {F : Finset Block} (hF : FreeSet F) {b : Block} (hb : b ∈ F)
    {a : ℕ} : Starts (F.erase b) a ↔ Starts F a ∧ a ≠ b.addr := by
  constructor
  · rintro ⟨n, hn⟩
    obtain ⟨hne, hn⟩ := Finset.mem_erase.mp hn
    exact ⟨⟨n, hn⟩, fun ha => hne (hF.start_unique hn hb ha)⟩
  · rintro ⟨⟨n, hn⟩, ha⟩
    refine ⟨n, Finset.mem_erase.mpr ⟨?_, hn⟩⟩
    rintro rfl
    exact ha rfl

structure LinkFrame (m m' : Memory) (S : List ℕ) : Prop where
  next : ∀ x, Node x → x ∉ S → nodeNext.get m' x = nodeNext.get m x
  last : ∀ x, Node x → x ∉ S → nodeLast.get m' x = nodeLast.get m x
  hashNext : ∀ x, Node x → nodeHashNext.get m' x = nodeHashNext.get m x
  size : ∀ x, Node x → nodeSize.get m' x = nodeSize.get m x
  byte : ∀ x, (∀ p ∈ S, OffHeader x p) → m' x = m x

theorem clistInsert_linkFrame {m : Memory} {l : List ℕ} {a : ℕ}
    (hring : NodeRing nodeNext nodeLast Node m l) (ha : Node a) (hni : a ∉ l) :
    LinkFrame m (clistInsert nodeNext nodeLast 0 m (l.head?.getD 0) a).1 (a :: l) := by
  have node : ∀ p ∈ a :: l, Node p := by
    intro p hp
    rcases List.mem_cons.mp hp with rfl | hp
    · exact ha
    · exact hring.nodes p hp
  have apart : ∀ {x p : ℕ}, x ∉ a :: l → p ∈ a :: l → x ≠ p := fun hx hp h => hx (h ▸ hp)
  constructor
  · intro x hx hxS
    exact clistInsert_frame (g := fun m => nodeNext.get m x) ringFields not_node_zero hring ha hni
      (fun m p v hp => ringFields.next_lawful.get_set_ne (node p hp) hx (apart hxS hp))
      (fun m p v hp => ringFields.next_untouched (node p hp) hx)
  · intro x hx hxS
    exact clistInsert_frame (g := fun m => nodeLast.get m x) ringFields not_node_zero hring ha hni
      (fun m p v hp => ringFields.last_untouched (node p hp) hx)
      (fun m p v hp => ringFields.last_lawful.get_set_ne (node p hp) hx (apart hxS hp))
  · intro x hx
    exact clistInsert_frame (g := fun m => nodeHashNext.get m x) ringFields not_node_zero hring ha
      hni (fun m p v hp => hash_untouched_next (node p hp) hx)
      (fun m p v hp => hash_untouched_last (node p hp) hx)
  · intro x hx
    exact clistInsert_frame (g := fun m => nodeSize.get m x) ringFields not_node_zero hring ha hni
      (fun m p v hp => size_untouched_next (node p hp) hx)
      (fun m p v hp => size_untouched_last (node p hp) hx)
  · intro x hx
    exact clistInsert_frame (g := fun m : Memory => m x) ringFields not_node_zero hring ha hni
      (fun m p v hp => wordField_set_off (by norm_num) (hx p hp) m)
      (fun m p v hp => wordField_set_off (by norm_num) (hx p hp) m)

theorem clistDelete_linkFrame {m : Memory} {l : List ℕ} {a : ℕ}
    (hring : NodeRing nodeNext nodeLast Node m (a :: l)) :
    LinkFrame m (clistDelete nodeNext nodeLast 0 m a).1 l := by
  have node : ∀ p ∈ l, Node p := fun p hp => hring.nodes p (List.mem_cons_of_mem _ hp)
  have apart : ∀ {x p : ℕ}, x ∉ l → p ∈ l → x ≠ p := fun hx hp h => hx (h ▸ hp)
  constructor
  · intro x hx hxS
    exact clistDelete_frame (g := fun m => nodeNext.get m x) ringFields not_node_zero hring
      (fun m p v hp => ringFields.next_lawful.get_set_ne (node p hp) hx (apart hxS hp))
      (fun m p v hp => ringFields.next_untouched (node p hp) hx)
  · intro x hx hxS
    exact clistDelete_frame (g := fun m => nodeLast.get m x) ringFields not_node_zero hring
      (fun m p v hp => ringFields.last_untouched (node p hp) hx)
      (fun m p v hp => ringFields.last_lawful.get_set_ne (node p hp) hx (apart hxS hp))
  · intro x hx
    exact clistDelete_frame (g := fun m => nodeHashNext.get m x) ringFields not_node_zero hring
      (fun m p v hp => hash_untouched_next (node p hp) hx)
      (fun m p v hp => hash_untouched_last (node p hp) hx)
  · intro x hx
    exact clistDelete_frame (g := fun m => nodeSize.get m x) ringFields not_node_zero hring
      (fun m p v hp => size_untouched_next (node p hp) hx)
      (fun m p v hp => size_untouched_last (node p hp) hx)
  · intro x hx
    exact clistDelete_frame (g := fun m : Memory => m x) ringFields not_node_zero hring
      (fun m p v hp => wordField_set_off (by norm_num) (hx p hp) m)
      (fun m p v hp => wordField_set_off (by norm_num) (hx p hp) m)

theorem hashIndex_eq {a : ℕ} (ha : a < 2147483648) : hashIndex a = a % 65535 := by
  unfold hashIndex ptrToUint hashTableSize
  rw [if_pos ha]
  norm_num only
  rw [Int.tmod_eq_emod_of_nonneg (by omega)]
  omega

theorem hashIndex_lt {a : ℕ} (ha : a < 2147483648) : hashIndex a < hashTableSize := by
  rw [hashIndex_eq ha, hashTableSize]
  omega

theorem inTable_eq {a : ℕ} (ha : a < 2147483648) : inTable a = some () := by
  rw [inTable, if_pos (hashIndex_lt ha)]

/-- In the upper half the pointer difference is negative, and so is its remainder. -/
theorem hashIndex_upper {a : ℕ} (hlow : 2147483648 ≤ a) (ha : a < 4294967296) :
    hashIndex a = (4294967296 - (4294967296 - a) % 65535) % 4294967296 := by
  have hneg : (a : ℤ) - 4294967296 = -((4294967296 - a : ℕ) : ℤ) := by omega
  unfold hashIndex ptrToUint hashTableSize
  rw [if_neg (by omega), hneg, Int.neg_tmod]
  norm_num only
  rw [Int.tmod_eq_emod_of_nonneg (by omega)]
  omega

/-- A block of the upper half has a bucket only if its distance from 2^32 is a multiple of the
table size, which leaves the residue 1. For any other one the three functions leave the table. -/
theorem hash_index_in_range {ptr : ℕ} (h : ptr < 4294967296) :
    (hashIndex ptr < hashTableSize ↔ ptr < 2147483648 ∨ ptr % hashTableSize = 1) ∧
    (¬ (ptr < 2147483648 ∨ ptr % hashTableSize = 1) → ∀ s : Heap,
      lookupAddr s ptr = none ∧ insertAddr s ptr = none ∧ deleteAddr s ptr = none) := by
  have hiff : hashIndex ptr < hashTableSize ↔ ptr < 2147483648 ∨ ptr % hashTableSize = 1 := by
    rcases Nat.lt_or_ge ptr 2147483648 with hlow | hhigh
    · exact iff_of_true (hashIndex_lt hlow) (Or.inl hlow)
    · rw [hashIndex_upper hhigh h, hashTableSize]
      omega
  refine ⟨hiff, fun hout s => ?_⟩
  have hnone : inTable ptr = none := by rw [inTable, if_neg (mt hiff.mp hout)]
  refine ⟨?_, ?_, ?_⟩
  · rw [lookupAddr, hnone]
    rfl
  · simp [insertAddr, hnone]
  · simp [deleteAddr, hnone]

/-- One address of the upper half has a bucket, the other one has none. -/
theorem hash_index_in_range_two : hashIndex 0x80008000 < hashTableSize ∧
    ∀ s : Heap, lookupAddr s 0xc0000000 = none ∧ insertAddr s 0xc0000000 = none ∧
      deleteAddr s 0xc0000000 = none := by
  refine ⟨(hash_index_in_range (by norm_num)).1.mpr (Or.inr ?_),
    (hash_index_in_range (by norm_num)).2 ?_⟩ <;> norm_num [hashTableSize]

theorem hash_index_out_of_range : hashIndex 0x80000000 = 0xffff8000 ∧
    ¬ hashIndex 0x80000000 < hashTableSize := by
  have hindex : hashIndex 0x80000000 = 0xffff8000 := hashIndex_upper (by norm_num) (by norm_num)
  exact ⟨hindex, by rw [hindex, hashTableSize]; norm_num⟩

/-- A duplicate-free list of nodes is shorter than the bound of the walks. -/
theorem length_lt_loopBound {l : List ℕ} (hnd : l.Nodup) (hl : ∀ a ∈ l, a < 2147483648) :
    l.length < loopBound := by
  have hsub : l.toFinset ⊆ Finset.range 2147483648 := by
    intro a ha
    exact Finset.mem_range.mpr (hl a (List.mem_toFinset.mp ha))
  have hcard := Finset.card_le_card hsub
  rw [List.toFinset_card_of_nodup hnd, Finset.card_range] at hcard
  unfold loopBound
  omega

theorem HeapRep.lookupAddr_mem {h : Heap} {F : Finset Block} (hr : HeapRep h F) {a : ℕ}
    (ha : Starts F a) : lookupAddr h a = some a := by
  have hnode := hr.starts_node ha
  obtain ⟨l, hch, hnd, hmem⟩ := hr.chains (hashIndex a) (hashIndex_lt hnode.2.2)
  have hal : a ∈ l := (hmem a).mpr ⟨ha, rfl⟩
  have hlen := length_lt_loopBound hnd fun x hx => (hr.starts_node ((hmem x).mp hx).1).2.2
  have hfind : (l.find? fun x => x == a) = some a := by
    rw [List.find?_eq_some_iff_append]
    obtain ⟨l₁, l₂, rfl⟩ := List.append_of_mem hal
    refine ⟨by simp, l₁, l₂, rfl, ?_⟩
    intro x hx
    have hxa : x ≠ a := fun hh => (List.nodup_append.mp hnd).2.2 x hx a (by simp) hh
    simpa using hxa
  simp only [lookupAddr, inTable_eq hnode.2.2, hashTableLookup, Option.bind_eq_bind,
    Option.bind_some, hashTableLookupFrom_chain hch hlen, hfind, Option.getD_some]

theorem HeapRep.lookupAddr_not_mem {h : Heap} {F : Finset Block} (hr : HeapRep h F) {a : ℕ}
    (hlt : a < 2147483648) (ha : ¬ Starts F a) : lookupAddr h a = some 0 := by
  obtain ⟨l, hch, hnd, hmem⟩ := hr.chains (hashIndex a) (hashIndex_lt hlt)
  have hlen := length_lt_loopBound hnd fun x hx => (hr.starts_node ((hmem x).mp hx).1).2.2
  have hfind : (l.find? fun x => x == a) = none := by
    rw [List.find?_eq_none]
    intro x hx hxa
    obtain rfl : x = a := by simpa using hxa
    exact ha ((hmem x).mp hx).1
  simp only [lookupAddr, inTable_eq hlt, hashTableLookup, Option.bind_eq_bind,
    Option.bind_some, hashTableLookupFrom_chain hch hlen, hfind, Option.getD_none]

theorem FreeBlock.list_index {b : Block} (hb : FreeBlock b) :
    ∃ k, k ≤ 16 ∧ b.size = 2 ^ (k + 4) ∧
      addrPower b.size = some (k + 4) ∧ wsub (k + 4) listOffset = k := by
  obtain ⟨k, h4, h20, hs, _⟩ := id hb
  obtain ⟨j, rfl⟩ : ∃ j, k = j + 4 := ⟨k - 4, by omega⟩
  refine ⟨j, by omega, hs, ?_, ?_⟩
  · have hbd := hb.bounds
    rw [addrPower_eq (by omega) (by omega), hs, Nat.log_pow (by norm_num)]
  · unfold wsub listOffset
    omega

/-- Writing ring links leaves the hash chains alone, and writing a hash link the rings. -/
theorem Chains.linkFrame {m m' : Memory} {table : ℕ → ℕ} {F : Finset Block} {S : List ℕ}
    (hF : FreeSet F) (hc : Chains m table F) (hfr : LinkFrame m m' S) : Chains m' table F := by
  intro i hi
  obtain ⟨c, hch, hnd, hmem⟩ := hc i hi
  exact ⟨c, hch.congr fun x hx => hfr.hashNext x (hF.starts_node ((hmem x).mp hx).1), hnd, hmem⟩

theorem Rings.hashNext_set {m : Memory} {lists : ℕ → ℕ} {F : Finset Block} {a v : ℕ}
    (ha : Node a) (h : Rings m lists F) : Rings (nodeHashNext.set m a v) lists F := by
  intro k hk
  obtain ⟨l, hring, hhead, hmem⟩ := h k hk
  refine ⟨l, hring.congr ?_ ?_, hhead, hmem⟩
  · exact fun x hx => next_untouched_hash ha (hring.nodes x hx)
  · exact fun x hx => last_untouched_hash ha (hring.nodes x hx)

theorem FreeSet.ring_unique {F : Finset Block} (hF : FreeSet F) {a j k : ℕ}
    (hj : ⟨a, 2 ^ (j + 4)⟩ ∈ F) (hk : ⟨a, 2 ^ (k + 4)⟩ ∈ F) : j = k := by
  have heq := hF.start_unique hj hk rfl
  simp only [Block.mk.injEq, true_and] at heq
  have := Nat.pow_right_injective (le_refl 2) heq
  omega

theorem Rings.insert {m : Memory} {lists : ℕ → ℕ} {F : Finset Block} (hr : Rings m lists F)
    (hF : FreeSet F) {b : Block} (hb : FreeBlock b) (hap : ∀ c ∈ F, b.Apart c) {k : ℕ}
    (hk : k ≤ 16) (hsize : b.size = 2 ^ (k + 4)) :
    let m' := (clistInsert nodeNext nodeLast 0 m (lists k) b.addr).1
    Rings m' (Function.update lists k b.addr) (insert b F) ∧
      ∃ S, LinkFrame m m' S ∧ ∀ p ∈ S, Starts (insert b F) p := by
  have hbF := hb.not_starts hF hap
  obtain ⟨l, hring, hhead, hmem⟩ := hr k hk
  have hni : b.addr ∉ l := fun hh => hbF ⟨_, (hmem _).mp hh⟩
  have hfr := clistInsert_linkFrame hring hb.node hni
  have hnew := clistInsert_ring ringFields not_node_zero hring hb.node hni
  rw [← hhead] at hfr hnew
  refine ⟨?_, b.addr :: l, hfr, ?_⟩
  · intro j hj
    by_cases hjk : j = k
    · subst hjk
      refine ⟨b.addr :: l, hnew, by simp, ?_⟩
      intro a
      rw [List.mem_cons, Finset.mem_insert, hmem a]
      refine or_congr_left ⟨?_, ?_⟩
      · rintro rfl
        rw [← hsize]
      · intro heq
        rw [← heq]
    · obtain ⟨l', hring', hhead', hmem'⟩ := hr j hj
      have hoff : ∀ x ∈ l', x ∉ b.addr :: l := by
        intro x hx hx'
        rcases List.mem_cons.mp hx' with rfl | hx'
        · exact hbF ⟨_, (hmem' _).mp hx⟩
        · exact hjk (hF.ring_unique ((hmem' x).mp hx) ((hmem x).mp hx'))
      refine ⟨l', hring'.congr ?_ ?_, by simpa [hjk] using hhead', ?_⟩
      · exact fun x hx => hfr.next x (hring'.nodes x hx) (hoff x hx)
      · exact fun x hx => hfr.last x (hring'.nodes x hx) (hoff x hx)
      · intro a
        rw [hmem' a, Finset.mem_insert]
        refine ⟨Or.inr, ?_⟩
        rintro (heq | hm)
        · have hpow : 2 ^ (j + 4) = 2 ^ (k + 4) := by rw [← hsize, ← heq]
          have := Nat.pow_right_injective (le_refl 2) hpow
          omega
        · exact hm
  · intro p hp
    rw [starts_insert]
    rcases List.mem_cons.mp hp with rfl | hp
    · exact Or.inl rfl
    · exact Or.inr ⟨_, (hmem p).mp hp⟩

theorem Chains.insert {m : Memory} {table : ℕ → ℕ} {F : Finset Block} (hc : Chains m table F)
    (hF : FreeSet F) {b : Block} (hb : FreeBlock b) (hap : ∀ c ∈ F, b.Apart c) :
    let r := hashTableInsert nodeHashNext (fun _ p => p) hashIndex m table b.addr
    Chains r.1 r.2 (insert b F) := by
  have hbF := hb.not_starts hF hap
  have hnode := hb.node
  intro r i hi
  obtain ⟨c, hch, hnd, hmem⟩ := hc i hi
  have cnode : ∀ a ∈ c, Node a := fun a ha => hF.starts_node ((hmem a).mp ha).1
  have hnc : b.addr ∉ c := fun hh => hbF ((hmem _).mp hh).1
  by_cases hib : hashIndex b.addr = i
  · have hvalue : LinkValue (table (hashIndex b.addr)) := by
      rw [hib]
      cases c with
      | nil => exact Or.inl hch
      | cons y ys => exact Or.inr (hch.1 ▸ cnode y (by simp))
    refine ⟨b.addr :: c, ?_, List.nodup_cons.mpr ⟨hnc, hnd⟩, ?_⟩
    · subst hib
      exact hashTableInsert_chain hashNext_lawful hch cnode hnode hnc
        (by have := hnode.2.1; omega) hvalue
    · intro a
      rw [List.mem_cons, hmem a, starts_insert]
      constructor
      · rintro (rfl | ⟨ha, hi⟩)
        · exact ⟨Or.inl rfl, hib⟩
        · exact ⟨Or.inr ha, hi⟩
      · rintro ⟨rfl | ha, hi⟩
        · exact Or.inl rfl
        · exact Or.inr ⟨ha, hi⟩
  · refine ⟨c, ?_, hnd, ?_⟩
    · simp only [r, hashTableInsert, Function.update_of_ne (Ne.symm hib)]
      refine hch.congr fun x hx => hashNext_lawful.get_set_ne hnode (cnode x hx) ?_
      rintro rfl
      exact hnc hx
    · intro a
      rw [hmem a, starts_insert]
      constructor
      · rintro ⟨ha, hi⟩
        exact ⟨Or.inr ha, hi⟩
      · rintro ⟨rfl | ha, hi⟩
        · exact absurd hi hib
        · exact ⟨ha, hi⟩

theorem insertAddr_eq {h : Heap} {ptr power list : ℕ} (hpow : addrPower (h.size ptr) = some power)
    (hlist : wsub power listOffset = list) (hle : list ≤ h.highList) (htab : inTable ptr = some ()) :
    KernelHeap.insertAddr h ptr =
      let m := nodeHashNext.set (clistInsert nodeNext nodeLast 0 h.mem (h.blockLists list) ptr).1
        ptr (h.hashTable (hashIndex ptr))
      some { h with
        mem := m
        blockLists := Function.update h.blockLists list
          (clistInsert nodeNext nodeLast 0 h.mem (h.blockLists list) ptr).2
        hashTable := Function.update h.hashTable (hashIndex ptr) ptr
        heapFree := wadd h.heapFree (nodeSize.get m ptr) } := by
  subst hlist
  rw [insertAddr, hpow, Option.bind_eq_bind, Option.bind_some, if_pos hle, htab]
  rfl

/-- Inserting a block whose header already holds its size adds it to the free set. -/
theorem HeapRep.insertAddr {h : Heap} {F : Finset Block} (hr : HeapRep h F) {b : Block}
    (hb : FreeBlock b) (hs : h.size b.addr = b.size) (hap : ∀ c ∈ F, b.Apart c) :
    ∃ h', insertAddr h b.addr = some h' ∧ HeapRep h' (insert b F) ∧
      h'.heapFree = wadd h.heapFree b.size ∧
      ∀ x, ¬ Covers (insert b F) x → h'.mem x = h.mem x := by
  obtain ⟨k, hk, hsize, hpow, hlist⟩ := hb.list_index
  have hnode := hb.node
  have hF := hr.toFreeSet
  have hF' := hF.insert hb hap
  obtain ⟨hrings, S, hfr, hS⟩ := hr.rings.insert hF hb hap hk hsize
  have hchains := (hr.chains.linkFrame hF hfr).insert hF hb hap
  have hentry : (clistInsert nodeNext nodeLast 0 h.mem (h.blockLists k) b.addr).2 = b.addr :=
    clistInsert_entry h.mem (h.blockLists k) b.addr
  set m₁ := (clistInsert nodeNext nodeLast 0 h.mem (h.blockLists k) b.addr).1 with hm₁
  have hsz : ∀ d, Node d → nodeSize.get (nodeHashNext.set m₁ b.addr
      (h.hashTable (hashIndex b.addr))) d = h.size d := by
    intro d hd
    rw [size_untouched_hash hnode hd, hfr.size _ hd]
    rfl
  refine ⟨{ h with
      mem := nodeHashNext.set m₁ b.addr (h.hashTable (hashIndex b.addr))
      blockLists := Function.update h.blockLists k b.addr
      hashTable := Function.update h.hashTable (hashIndex b.addr) b.addr
      heapFree := wadd h.heapFree b.size }, ?_, ⟨hF', hr.high, ?_, ?_, ?_, hchains⟩, rfl, ?_⟩
  · rw [insertAddr_eq (by rw [hs]; exact hpow) hlist (by rw [hr.high]; exact hk)
      (inTable_eq hnode.2.2)]
    simp only [← hm₁, hentry, hsz _ hnode, hs]
  · exact wadd_lt _ _
  · intro d hd
    refine (hsz _ (hF'.block d hd).node).trans ?_
    rcases Finset.mem_insert.mp hd with rfl | hd
    · exact hs
    · exact hr.sizes d hd
  · exact hrings.hashNext_set hnode
  · intro x hx
    have hoff : OffHeader x b.addr := hF'.offHeader (starts_insert.mpr (Or.inl rfl)) hx
    calc nodeHashNext.set m₁ b.addr (h.hashTable (hashIndex b.addr)) x = m₁ x :=
          wordField_set_off (by norm_num) hoff m₁
      _ = h.mem x := hfr.byte x fun p hp => hF'.offHeader (hS p hp) hx

theorem Rings.erase {m : Memory} {lists : ℕ → ℕ} {F : Finset Block} (hr : Rings m lists F)
    (hF : FreeSet F) {b : Block} (hb : b ∈ F) {k : ℕ} (hk : k ≤ 16)
    (hsize : b.size = 2 ^ (k + 4)) :
    let r := clistDelete nodeNext nodeLast 0 m b.addr
    Rings r.1 (Function.update lists k r.2) (F.erase b) ∧
      ∃ S, LinkFrame m r.1 S ∧ ∀ p ∈ S, Starts F p := by
  intro r
  have hbk : ⟨b.addr, 2 ^ (k + 4)⟩ ∈ F := by rw [← hsize]; exact hb
  obtain ⟨l, hring, _, hmem⟩ := hr k hk
  obtain ⟨l₁, l₂, rfl⟩ := List.append_of_mem ((hmem b.addr).mpr hbk)
  have hrot : NodeRing nodeNext nodeLast Node m (b.addr :: (l₂ ++ l₁)) := by
    simpa using hring.rotate
  have hnotin : b.addr ∉ l₂ ++ l₁ := (List.nodup_cons.mp hrot.nodup).1
  have hsub : ∀ a, a ∈ l₂ ++ l₁ ↔ a ≠ b.addr ∧ ⟨a, 2 ^ (k + 4)⟩ ∈ F := by
    intro a
    rw [← hmem a]
    constructor
    · intro ha
      exact ⟨fun hh => hnotin (hh ▸ ha), by simp at ha ⊢; tauto⟩
    · rintro ⟨hne, ha⟩
      simp at ha ⊢
      tauto
  obtain ⟨hnew, hentry⟩ := clistDelete_ring ringFields not_node_zero hrot
  have hfr := clistDelete_linkFrame hrot
  refine ⟨?_, l₂ ++ l₁, hfr, fun p hp => ⟨_, ((hsub p).mp hp).2⟩⟩
  intro j hj
  by_cases hjk : j = k
  · subst hjk
    refine ⟨l₂ ++ l₁, hnew, by simpa using hentry, ?_⟩
    intro a
    rw [hsub, Finset.mem_erase]
    refine and_congr_left fun _ => not_congr ⟨?_, ?_⟩
    · rintro rfl
      rw [← hsize]
    · intro heq
      rw [← heq]
  · obtain ⟨l', hring', hhead', hmem'⟩ := hr j hj
    have hoff : ∀ x ∈ l', x ∉ l₂ ++ l₁ := by
      intro x hx hx'
      exact hjk (hF.ring_unique ((hmem' x).mp hx) ((hsub x).mp hx').2)
    refine ⟨l', hring'.congr ?_ ?_, by simpa [hjk] using hhead', ?_⟩
    · exact fun x hx => hfr.next x (hring'.nodes x hx) (hoff x hx)
    · exact fun x hx => hfr.last x (hring'.nodes x hx) (hoff x hx)
    · intro a
      rw [hmem' a, Finset.mem_erase]
      refine ⟨fun ha => ⟨?_, ha⟩, And.right⟩
      rintro rfl
      exact hjk (hF.ring_unique ha hbk)

theorem Chains.erase {m : Memory} {table : ℕ → ℕ} {F : Finset Block} (hc : Chains m table F)
    (hF : FreeSet F) {b : Block} (hb : b ∈ F) :
    ∃ m' table', hashTableDelete nodeHashNext 0 (fun _ p => p) (fun a b => a == b) hashIndex
        loopBound m table b.addr = some (m', table', b.addr) ∧
      Chains m' table' (F.erase b) ∧
      (m' = m ∨ ∃ w v, Starts F w ∧ m' = nodeHashNext.set m w v) := by
  have hnode := (hF.block b hb).node
  obtain ⟨c, hch, hnd, hmem⟩ := hc (hashIndex b.addr) (hashIndex_lt hnode.2.2)
  have hbc : b.addr ∈ c := (hmem _).mpr ⟨⟨b.size, hb⟩, rfl⟩
  have hlen := length_lt_loopBound hnd fun x hx => (hF.starts_node ((hmem x).mp hx).1).2.2
  obtain ⟨l, r, rfl⟩ := List.append_of_mem hbc
  have cnode : ∀ a ∈ l ++ b.addr :: r, Node a := fun a ha => hF.starts_node ((hmem a).mp ha).1
  have hsplit := List.nodup_append.mp hnd
  have hvalue : LinkValue (nodeHashNext.get m b.addr) := by
    rw [hch.tail.head]
    cases r with
    | nil => exact Or.inl rfl
    | cons y ys => exact Or.inr (cnode y (by simp))
  have hother : ∀ a ∈ l, (a == b.addr) = false := by
    intro a ha
    simpa using hsplit.2.2 a ha b.addr (by simp)
  have hlen' : l.length < loopBound := by simp at hlen; omega
  obtain ⟨m', table', hdel, hchain, htab, hwrite⟩ := hashTableDelete_chain (fun _ p => p)
    (fun a b => a == b) hashNext_lawful hch hnd cnode hvalue (by simp) hother hlen'
  refine ⟨m', table', hdel, ?_, ?_⟩
  · intro i hi
    by_cases hib : hashIndex b.addr = i
    · subst hib
      refine ⟨l ++ r, hchain, (List.nodup_middle.mp hnd).of_cons, ?_⟩
      intro a
      have hbl : b.addr ∉ l ++ r := (List.nodup_cons.mp (List.nodup_middle.mp hnd)).1
      rw [hF.starts_erase hb, and_right_comm, ← hmem a]
      constructor
      · intro ha
        exact ⟨by simp at ha ⊢; tauto, fun hh => hbl (hh ▸ ha)⟩
      · rintro ⟨ha, hne⟩
        simp at ha ⊢
        tauto
    · obtain ⟨c, hci, hndi, hmemi⟩ := hc i hi
      refine ⟨c, ?_, hndi, ?_⟩
      · rw [htab i (Ne.symm hib)]
        rcases hwrite with rfl | ⟨w, hw, rfl⟩
        · exact hci
        · have hwi := ((hmem w).mp (by simp [hw])).2
          refine hci.congr fun x hx => hashNext_lawful.get_set_ne (cnode w (by simp [hw]))
            (hF.starts_node ((hmemi x).mp hx).1) ?_
          rintro rfl
          exact hib (hwi ▸ ((hmemi x).mp hx).2)
      · intro a
        rw [hmemi a, hF.starts_erase hb]
        refine ⟨fun ⟨ha, hi⟩ => ⟨⟨ha, ?_⟩, hi⟩, fun ⟨⟨ha, _⟩, hi⟩ => ⟨ha, hi⟩⟩
        rintro rfl
        exact hib hi
  · rcases hwrite with rfl | ⟨w, hw, rfl⟩
    · exact Or.inl rfl
    · exact Or.inr ⟨w, _, ((hmem w).mp (by simp [hw])).1, rfl⟩

theorem deleteAddr_eq {h : Heap} {ptr power list x : ℕ} {m : Memory} {table : ℕ → ℕ}
    (hpow : addrPower (h.size ptr) = some power) (hlist : wsub power listOffset = list)
    (hle : list ≤ h.highList) (htab : inTable ptr = some ())
    (hdel : hashTableDelete nodeHashNext 0 (fun _ p => p) (fun a b => a == b) hashIndex loopBound
      (clistDelete nodeNext nodeLast 0 h.mem ptr).1 h.hashTable ptr = some (m, table, x)) :
    deleteAddr h ptr = some { h with
        mem := m
        blockLists := Function.update h.blockLists list
          (clistDelete nodeNext nodeLast 0 h.mem ptr).2
        hashTable := table
        heapFree := wsub h.heapFree (nodeSize.get m ptr) } ∧
      deleteAddrNolock h ptr = some { h with
        mem := m
        blockLists := Function.update h.blockLists list
          (clistDelete nodeNext nodeLast 0 h.mem ptr).2
        hashTable := table
        heapFree := wsub h.heapFree
          (nodeSize.get (clistDelete nodeNext nodeLast 0 h.mem ptr).1 ptr) } := by
  subst hlist
  constructor
  · rw [deleteAddr, hpow, Option.bind_eq_bind, Option.bind_some, if_pos hle]
    simp only [htab, hdel, Option.bind_eq_bind, Option.bind_some]
  · rw [deleteAddrNolock, hpow, Option.bind_eq_bind, Option.bind_some, if_pos hle]
    simp only [htab, hdel, Option.bind_eq_bind, Option.bind_some]

/-- Both deletions take a block out of the free set, and leave every header's size alone. -/
theorem HeapRep.deleteAddr {h : Heap} {F : Finset Block} (hr : HeapRep h F) {b : Block}
    (hb : b ∈ F) :
    ∃ h', deleteAddr h b.addr = some h' ∧ deleteAddrNolock h b.addr = some h' ∧
      HeapRep h' (F.erase b) ∧ h'.heapFree = wsub h.heapFree b.size ∧ h'.size b.addr = b.size ∧
      ∀ x, ¬ Covers F x → h'.mem x = h.mem x := by
  have hF := hr.toFreeSet
  have hblock := hF.block b hb
  have hnode := hblock.node
  obtain ⟨k, hk, hsize, hpow, hlist⟩ := hblock.list_index
  obtain ⟨hrings, S, hfr, hS⟩ := hr.rings.erase hF hb hk hsize
  obtain ⟨m', table', hdel, hchains, hwrite⟩ := (hr.chains.linkFrame hF hfr).erase hF hb
  have hs := hr.sizes b hb
  obtain ⟨hlocked, hnolock⟩ := deleteAddr_eq (by rw [hs]; exact hpow) hlist
    (by rw [hr.high]; exact hk) (inTable_eq hnode.2.2) hdel
  set m₁ := (clistDelete nodeNext nodeLast 0 h.mem b.addr).1 with hm₁
  have hsz₁ : ∀ d, Node d → nodeSize.get m₁ d = h.size d := fun d hd => hfr.size d hd
  have hsz : ∀ d, Node d → nodeSize.get m' d = h.size d := by
    intro d hd
    rcases hwrite with rfl | ⟨w, v, hw, rfl⟩
    · exact hsz₁ d hd
    · rw [size_untouched_hash (hF.starts_node hw) hd, hsz₁ d hd]
  rw [hsz _ hnode, hs] at hlocked
  rw [hsz₁ _ hnode, hs] at hnolock
  refine ⟨_, hlocked, hnolock, ⟨hF.erase b, hr.high, wsub_lt _ _, ?_, ?_, hchains⟩, rfl, ?_, ?_⟩
  · intro d hd
    have hdF := Finset.mem_of_mem_erase hd
    exact (hsz _ (hF.block d hdF).node).trans (hr.sizes d hdF)
  · rcases hwrite with rfl | ⟨w, v, hw, rfl⟩
    · exact hrings
    · exact hrings.hashNext_set (hF.starts_node hw)
  · exact (hsz _ hnode).trans hs
  · intro x hx
    have hlinks : m₁ x = h.mem x := hfr.byte x fun p hp => hF.offHeader (hS p hp) hx
    rcases hwrite with rfl | ⟨w, v, hw, rfl⟩
    · exact hlinks
    · exact (wordField_set_off (by norm_num) (hF.offHeader hw hx) m₁).trans hlinks

end KernelHeap
