import Metakernel.KernelHeapInvariant
import Mathlib.Logic.Relation

/-!
# The loops of the kernel heap

Each loop takes blocks out of the free set or puts the pieces of an interval into it. The
lemmas below say which bytes move, and that everything outside the free bytes and the block
in hand keeps its value.
-/
namespace KernelHeap

open LinkedNodes ByteMemory DyadicBlocks

theorem wordField_get_congr {offset p : ℕ} {m m' : Memory} (hoff : offset + 4 ≤ 16)
    (h : ∀ x, p ≤ x → x < p + 16 → m' x = m x) :
    (wordField offset).get m' p = (wordField offset).get m p := by
  simp only [wordField, load32]
  rw [h _ (by omega) (by omega), h _ (by omega) (by omega), h _ (by omega) (by omega),
    h _ (by omega) (by omega)]

/-- Memory outside the free bytes is not part of the representation. -/
theorem HeapRep.congr_mem {h : Heap} {F : Finset Block} (hr : HeapRep h F) {m : Memory}
    (hm : ∀ x, Covers F x → m x = h.mem x) : HeapRep { h with mem := m } F := by
  have hfield : ∀ {offset a : ℕ}, offset + 4 ≤ 16 → Starts F a →
      (wordField offset).get m a = (wordField offset).get h.mem a := by
    intro offset a hoff ha
    refine wordField_get_congr hoff fun x h₁ h₂ => hm x ?_
    by_contra hx
    rcases hr.offHeader ha hx with h | h <;> omega
  refine ⟨hr.toFreeSet, hr.high, hr.counter, ?_, ?_, ?_⟩
  · intro b hb
    exact (hfield (by norm_num) ⟨b.size, hb⟩).trans (hr.sizes b hb)
  · intro k hk
    obtain ⟨l, hring, hhead, hmem⟩ := hr.rings k hk
    refine ⟨l, hring.congr ?_ ?_, hhead, hmem⟩
    · exact fun x hx => hfield (by norm_num) ⟨_, (hmem x).mp hx⟩
    · exact fun x hx => hfield (by norm_num) ⟨_, (hmem x).mp hx⟩
  · intro i hi
    obtain ⟨l, hch, hnd, hmem⟩ := hr.chains i hi
    exact ⟨l, hch.congr fun x hx => hfield (by norm_num) ((hmem x).mp hx).1, hnd, hmem⟩

/-- From the free set `F` to `F'`: the new heap indexes `F'`, the counter follows the sizes,
and no byte outside `R` is written. -/
structure Evolves (R : ℕ → Prop) (h : Heap) (F : Finset Block) (h' : Heap) (F' : Finset Block) :
    Prop where
  rep : HeapRep h' F'
  count : wadd h'.heapFree (bytes F) = wadd h.heapFree (bytes F')
  frame : ∀ x, ¬ R x → h'.mem x = h.mem x

theorem Evolves.refl {R : ℕ → Prop} {h : Heap} {F : Finset Block} (hr : HeapRep h F) :
    Evolves R h F h F := ⟨hr, rfl, fun _ _ => rfl⟩

theorem Evolves.trans {R : ℕ → Prop} {h h' h'' : Heap} {F F' F'' : Finset Block}
    (h₁ : Evolves R h F h' F') (h₂ : Evolves R h' F' h'' F'') : Evolves R h F h'' F'' := by
  exact ⟨h₂.rep, wadd_trans h₁.count h₂.count, fun x hx => (h₂.frame x hx).trans (h₁.frame x hx)⟩

theorem Evolves.setSize {R : ℕ → Prop} {h : Heap} {F : Finset Block} (hr : HeapRep h F)
    {ptr : ℕ} (size : ℕ) (hfree : ∀ x, ptr ≤ x → x < ptr + 16 → ¬ Covers F x ∧ R x) :
    Evolves R h F (h.setSize ptr size) F := by
  refine ⟨hr.congr_mem ?_, rfl, ?_⟩
  · intro x hx
    refine wordField_set_off (by norm_num) ?_ h.mem
    by_contra hoff
    unfold OffHeader at hoff
    exact (hfree x (by omega) (by omega)).1 hx
  · intro x hx
    refine wordField_set_off (by norm_num) ?_ h.mem
    by_contra hoff
    unfold OffHeader at hoff
    exact hx (hfree x (by omega) (by omega)).2

theorem setSize_size {h : Heap} {ptr size : ℕ} (hp : Node ptr) (hs : size < 4294967296) :
    (h.setSize ptr size).size ptr = size := size_lawful.get_set hp hs

/-- Storing a size and inserting the block adds it to the free set. -/
theorem Evolves.insertSized {R : ℕ → Prop} {h : Heap} {F : Finset Block} (hr : HeapRep h F)
    {b : Block} (hb : FreeBlock b) (hap : ∀ c ∈ F, b.Apart c)
    (hR : ∀ x, Covers (insert b F) x → R x) :
    ∃ h', insertAddr (h.setSize b.addr b.size) b.addr = some h' ∧
      Evolves R h F h' (insert b F) := by
  have hbd := hb.bounds
  have hcov : ∀ x, b.addr ≤ x → x < b.addr + 16 → ¬ Covers F x ∧ R x := by
    intro x h₁ h₂
    have hx : b.covers x := ⟨h₁, by omega⟩
    refine ⟨?_, hR x (covers_insert.mpr (Or.inl hx))⟩
    rintro ⟨c, hc, hcx⟩
    exact (hap c hc).not_covers hx hcx
  have hset := Evolves.setSize hr b.size hcov
  have hlarge : b.size < 4294967296 := by omega
  obtain ⟨h', heq, hrep, hfree, hframe⟩ :=
    hset.rep.insertAddr hb (setSize_size hb.node hlarge) hap
  refine ⟨h', heq, hset.trans ⟨hrep, ?_, fun x hx => hframe x fun hc => hx (hR x hc)⟩⟩
  have hnot := not_mem_of_apart (by omega) hap
  rw [hfree, bytes_insert hnot]
  unfold wadd
  omega

theorem Evolves.deleteAddr {R : ℕ → Prop} {h : Heap} {F : Finset Block} (hr : HeapRep h F)
    {b : Block} (hb : b ∈ F) (hR : ∀ x, Covers F x → R x) :
    ∃ h', deleteAddr h b.addr = some h' ∧ deleteAddrNolock h b.addr = some h' ∧
      Evolves R h F h' (F.erase b) ∧ h'.size b.addr = b.size := by
  obtain ⟨h', heq, heq', hrep, hfree, hsize, hframe⟩ := hr.deleteAddr hb
  refine ⟨h', heq, heq', ⟨hrep, ?_, fun x hx => hframe x fun hc => hx (hR x hc)⟩, hsize⟩
  have hbytes := bytes_erase hb
  have hc := hr.counter
  rw [hfree, ← hbytes]
  unfold wadd wsub
  omega

/-- Free blocks that fill the interval from `lo` to `hi`. -/
structure Tiles (P : Finset Block) (lo hi : ℕ) : Prop where
  block : ∀ q ∈ P, FreeBlock q
  apart : PairwiseApart P
  covers : ∀ x, Covers P x ↔ lo ≤ x ∧ x < hi

def DistinctSizes (P : Finset Block) : Prop :=
  ∀ q ∈ P, ∀ r ∈ P, q.size = r.size → q.size < largestBlock → q = r

theorem Tiles.empty (a : ℕ) : Tiles ∅ a a := by
  refine ⟨by simp, ?_, ?_⟩
  · intro b hb
    exact absurd hb (Finset.notMem_empty b)
  · intro x
    simp only [covers_empty, false_iff]
    omega

theorem Tiles.within {P : Finset Block} {lo hi : ℕ} (hP : Tiles P lo hi) {q : Block}
    (hq : q ∈ P) : lo ≤ q.addr ∧ q.addr + q.size ≤ hi := by
  have hs := (hP.block q hq).bounds.1
  have hfirst := (hP.covers q.addr).mp ⟨q, hq, by unfold Block.covers; omega⟩
  have hlast := (hP.covers (q.addr + q.size - 1)).mp ⟨q, hq, by unfold Block.covers; omega⟩
  omega

theorem Tiles.insert_front {P : Finset Block} {lo hi : ℕ} (hP : Tiles P lo hi) {q : Block}
    (hq : FreeBlock q) (hend : q.addr + q.size = lo) (hle : lo ≤ hi) :
    Tiles (insert q P) q.addr hi := by
  refine ⟨?_, ?_, ?_⟩
  · intro r hr
    rcases Finset.mem_insert.mp hr with rfl | hr
    · exact hq
    · exact hP.block r hr
  · refine hP.apart.insert fun c hc => Or.inl ?_
    have := (hP.within hc).1
    omega
  · intro x
    rw [covers_insert, hP.covers x]
    unfold Block.covers
    omega

theorem Tiles.insert_back {P : Finset Block} {lo hi : ℕ} (hP : Tiles P lo hi) {q : Block}
    (hq : FreeBlock q) (hstart : q.addr = hi) (hle : lo ≤ hi) :
    Tiles (insert q P) lo (q.addr + q.size) := by
  refine ⟨?_, ?_, ?_⟩
  · intro r hr
    rcases Finset.mem_insert.mp hr with rfl | hr
    · exact hq
    · exact hP.block r hr
  · refine hP.apart.insert fun c hc => Or.inr ?_
    have := (hP.within hc).2
    omega
  · intro x
    rw [covers_insert, hP.covers x]
    unfold Block.covers
    omega

theorem DistinctSizes.insert {P : Finset Block} {q : Block} (hP : DistinctSizes P)
    (hq : q.size < largestBlock → ∀ r ∈ P, r.size < q.size) : DistinctSizes (insert q P) := by
  intro a ha b hb heq hlt
  rcases Finset.mem_insert.mp ha with haq | haP
  · rcases Finset.mem_insert.mp hb with hbq | hbP
    · rw [haq, hbq]
    · have := hq (haq ▸ hlt) b hbP
      rw [haq] at heq
      omega
  · rcases Finset.mem_insert.mp hb with hbq | hbP
    · rw [hbq] at heq
      have := hq (heq ▸ hlt) a haP
      omega
    · exact hP a haP b hbP heq hlt

theorem insert_union_tiles (q : Block) (F P : Finset Block) :
    insert q F ∪ P = F ∪ insert q P := by
  rw [Finset.insert_union, Finset.union_insert]

theorem log_range {n : ℕ} (h₁ : 16 ≤ n) (h₂ : n < 2097152) :
    4 ≤ Nat.log 2 n ∧ Nat.log 2 n ≤ 20 := by
  constructor
  · exact Nat.le_log_of_pow_le (by norm_num) h₁
  · have : Nat.log 2 n < 21 := Nat.log_lt_of_lt_pow (by omega) (by norm_num; omega)
    omega

/-- The interval from `lo` to `hi` is not free; it and the free bytes are inside `R`. -/
structure Room (R : ℕ → Prop) (F : Finset Block) (lo hi : ℕ) : Prop where
  apart : ∀ c ∈ F, hi ≤ c.addr ∨ c.addr + c.size ≤ lo
  inside : ∀ x, Covers F x ∨ lo ≤ x ∧ x < hi → R x

theorem Room.insert {R : ℕ → Prop} {F : Finset Block} {lo hi lo' hi' : ℕ} (h : Room R F lo hi)
    {q : Block} (hlo : lo ≤ q.addr) (hhi : q.addr + q.size ≤ hi) (hlo' : lo ≤ lo')
    (hhi' : hi' ≤ hi) (hq : hi' ≤ q.addr ∨ q.addr + q.size ≤ lo') :
    Room R (insert q F) lo' hi' := by
  constructor
  · intro c hc
    rcases Finset.mem_insert.mp hc with rfl | hc
    · exact hq
    · have := h.apart c hc
      omega
  · intro x hx
    refine h.inside x ?_
    rw [covers_insert] at hx
    unfold Block.covers at hx
    rcases hx with (hx | hx) | hx
    · exact Or.inr (by omega)
    · exact Or.inl hx
    · exact Or.inr (by omega)

theorem Room.insertSized {R : ℕ → Prop} {h : Heap} {F : Finset Block} {lo hi a n : ℕ}
    (hroom : Room R F lo hi) (hr : HeapRep h F) (hb : FreeBlock ⟨a, n⟩) (hlo : lo ≤ a)
    (hhi : a + n ≤ hi) :
    ∃ h', insertAddr (h.setSize a n) a = some h' ∧ Evolves R h F h' (Insert.insert ⟨a, n⟩ F) := by
  refine Evolves.insertSized (b := ⟨a, n⟩) hr hb ?_ ?_
  · intro c hc
    have := hroom.apart c hc
    unfold Block.Apart
    simp only
    omega
  · intro x hx
    have hrest : Room R (Insert.insert ⟨a, n⟩ F) (a + n) (a + n) :=
      hroom.insert hlo hhi (by omega) hhi (Or.inr (le_refl _))
    exact hrest.inside x (Or.inl hx)

/-- The loop of `split_block` carves powers of two off the end of an interval. -/
theorem splitLoop_tiles {R : ℕ → Prop} {fuel : ℕ} : ∀ {h : Heap} {F : Finset Block}
    {front diff : ℕ}, HeapRep h F → diff < fuel → front ≤ 2147483648 → diff < front →
    diff < 2097152 → (∀ k, 2 ^ k ≤ diff → 2 ^ k ∣ front) → Room R F (front - diff) front →
    ∃ h' P, splitLoop fuel h front diff = some (h', diff % 16) ∧
      Tiles P (front - (diff - diff % 16)) front ∧ DistinctSizes P ∧
      Evolves R h F h' (F ∪ P) := by
  induction fuel with
  | zero => intro h F front diff _ hf; omega
  | succ fuel ih =>
    intro h F front diff hr hfuel hend hpos hlt hdvd hroom
    by_cases hsmall : 16 ≤ diff
    · obtain ⟨h4, h20⟩ := log_range hsmall hlt
      have hle := highBit_le (n := diff) (by omega)
      have h2 := lt_two_mul_highBit diff
      obtain ⟨h16, _, hdvd16⟩ := two_pow_range h4 h20
      have hfront : highBit diff ∣ front := hdvd (Nat.log 2 diff) hle
      rw [← highBit] at h16 hdvd16
      have hq : FreeBlock ⟨front - highBit diff, highBit diff⟩ :=
        ⟨Nat.log 2 diff, h4, h20, rfl, Nat.dvd_sub hfront (dvd_refl _), by simp only; omega,
          by simp only; omega⟩
      obtain ⟨h₁, heq₁, hev₁⟩ := hroom.insertSized hr hq (by omega) (by omega)
      have hdvd' : ∀ k, 2 ^ k ≤ diff - highBit diff → 2 ^ k ∣ front - highBit diff := by
        intro k hk
        exact Nat.dvd_sub (hdvd k (by omega)) (two_pow_dvd_of_le (by rw [← highBit]; omega))
      have hroom' : Room R (insert ⟨front - highBit diff, highBit diff⟩ F)
          (front - highBit diff - (diff - highBit diff)) (front - highBit diff) :=
        hroom.insert (by simp only; omega) (by simp only; omega) (by omega) (by omega)
          (Or.inl (le_refl _))
      obtain ⟨h₂, P, heq₂, htile, hdist, hev₂⟩ := ih hev₁.rep (by omega) (by omega) (by omega)
        (by omega) hdvd' hroom'
      have hmod : (diff - highBit diff) % 16 = diff % 16 := by omega
      rw [hmod] at heq₂ htile
      refine ⟨h₂, insert ⟨front - highBit diff, highBit diff⟩ P, ?_, ?_, ?_, ?_⟩
      · have hw : wsub front (highBit diff) = front - highBit diff := wsub_eq (by omega) (by omega)
        have hw' : wsub diff (highBit diff) = diff - highBit diff := wsub_eq (by omega) (by omega)
        simp only [splitLoop, smallestBlock, hsmall, if_true, roundDown_eq (n := diff) (by omega)
          (by omega), Option.bind_eq_bind, Option.bind_some, hw, hw', heq₁, heq₂]
      · have := htile.insert_back hq rfl (by omega)
        convert this using 1
        · omega
        · simp only
          omega
      · refine hdist.insert fun _ r hr => ?_
        have := htile.within hr
        simp only
        omega
      · rw [← insert_union_tiles]
        exact hev₁.trans hev₂
    · refine ⟨h, ∅, ?_, ?_, ?_, ?_⟩
      · rw [splitLoop, if_neg (by unfold smallestBlock; omega), Nat.mod_eq_of_lt (by omega)]
      · convert Tiles.empty front using 1
        omega
      · intro q hq
        exact absurd hq (Finset.notMem_empty q)
      · rw [Finset.union_empty]
        exact Evolves.refl hr

/-- The loop of `kern_free` fills an interval from its front, by powers of two up to the
largest block. -/
theorem freeLoop_tiles {R : ℕ → Prop} {size fuel : ℕ} : ∀ {h : Heap} {F : Finset Block}
    {ptr i : ℕ}, HeapRep h F → size - i < fuel → i ≤ size → 0 < ptr →
    ptr + (size - i) ≤ 2147483648 → 16 ∣ size - i → size < 4294967296 →
    (∀ k, k ≤ 20 → 2 ^ k ≤ size - i → 2 ^ k ∣ ptr) → Room R F ptr (ptr + (size - i)) →
    ∃ h' P, freeLoop fuel h ptr size i = some h' ∧ Tiles P ptr (ptr + (size - i)) ∧
      DistinctSizes P ∧ Evolves R h F h' (F ∪ P) := by
  induction fuel with
  | zero => intro h F ptr i _ hf; omega
  | succ fuel ih =>
    intro h F ptr i hr hfuel hi hpos hend hunit hword hdvd hroom
    by_cases hdone : i < size
    · have h16 : 16 ≤ size - i := Nat.le_of_dvd (by omega) hunit
      have hle := highBit_le (n := size - i) (by omega)
      have h2 := lt_two_mul_highBit (size - i)
      -- the piece is capped at the largest block
      obtain ⟨k, hk4, hk20, hpow, hkle, hcap⟩ : ∃ k, 4 ≤ k ∧ k ≤ 20 ∧
          (if highBit (size - i) > largestBlock then largestBlock else highBit (size - i)) = 2 ^ k ∧
          2 ^ k ≤ size - i ∧
          (2 ^ k < largestBlock → size - i < 2 * 2 ^ k) := by
        by_cases hcap : highBit (size - i) > largestBlock
        · refine ⟨20, by norm_num, le_refl _, by rw [if_pos hcap]; norm_num [largestBlock], ?_, ?_⟩
          · unfold largestBlock at hcap
            omega
          · unfold largestBlock
            omega
        · rw [if_neg hcap]
          refine ⟨Nat.log 2 (size - i), Nat.le_log_of_pow_le (by norm_num) h16, ?_, rfl, hle, ?_⟩
          · refine (Nat.pow_le_pow_iff_right (a := 2) (by norm_num)).mp ?_
            rw [← highBit]
            unfold largestBlock at hcap
            omega
          · intro _
            exact h2
      have hrange := two_pow_range hk4 hk20
      have hq : FreeBlock ⟨ptr, 2 ^ k⟩ :=
        ⟨k, hk4, hk20, rfl, hdvd k hk20 hkle, hpos, by simp only; omega⟩
      obtain ⟨h₁, heq₁, hev₁⟩ := hroom.insertSized hr hq (le_refl _) (by omega)
      have hsub : size - (i + 2 ^ k) = size - i - 2 ^ k := by omega
      have hdvd' : ∀ j, j ≤ 20 → 2 ^ j ≤ size - (i + 2 ^ k) → 2 ^ j ∣ ptr + 2 ^ k := by
        intro j hj hjle
        refine Dvd.dvd.add (hdvd j hj (by omega)) (two_pow_dvd_of_le ?_)
        by_cases htop : 2 ^ k < largestBlock
        · have := hcap htop
          omega
        · have := (two_pow_range (k := 20) (by norm_num) (le_refl _)).2.1
          have := Nat.pow_le_pow_right (n := 2) (by norm_num) hj
          omega
      have hroom' : Room R (insert ⟨ptr, 2 ^ k⟩ F) (ptr + 2 ^ k)
          (ptr + 2 ^ k + (size - (i + 2 ^ k))) :=
        hroom.insert (le_refl _) (by simp only; omega) (by omega) (by omega) (Or.inr (le_refl _))
      obtain ⟨h₂, P, heq₂, htile, hdist, hev₂⟩ := ih hev₁.rep (by omega) (by omega) (by omega)
        (by omega) (by rw [hsub]; exact Nat.dvd_sub hunit hrange.2.2) hword hdvd' hroom'
      have hhi : ptr + 2 ^ k + (size - (i + 2 ^ k)) = ptr + (size - i) := by omega
      rw [hhi] at htile
      refine ⟨h₂, insert ⟨ptr, 2 ^ k⟩ P, ?_, htile.insert_front hq rfl (by omega), ?_, ?_⟩
      · have hw : wsub size i = size - i := wsub_eq hword hi
        have hw' : wadd ptr (2 ^ k) = ptr + 2 ^ k := wadd_eq (by omega)
        have hw'' : wadd i (2 ^ k) = i + 2 ^ k := wadd_eq (by omega)
        simp only [freeLoop, hdone, if_true, hw, roundDown_eq (n := size - i) (by omega) (by omega),
          Option.bind_eq_bind, Option.bind_some, hpow, hw', hw'', heq₁, heq₂]
      · refine hdist.insert fun hlt r hr => ?_
        have := htile.within hr
        have := hcap hlt
        simp only
        omega
      · rw [← insert_union_tiles]
        exact hev₁.trans hev₂
    · have hzero : size - i = 0 := by omega
      refine ⟨h, ∅, ?_, ?_, ?_, ?_⟩
      · rw [freeLoop, if_neg hdone]
      · rw [hzero]
        exact Tiles.empty ptr
      · intro q hq
        exact absurd hq (Finset.notMem_empty q)
      · rw [Finset.union_empty]
        exact Evolves.refl hr

structure Held (b : Block) : Prop where
  pos : 0 < b.addr
  unit : 16 ∣ b.size
  large : 16 ≤ b.size
  aligned : b.size ≤ lowBit b.addr
  inside : b.addr + b.size ≤ 2147483648

theorem Held.sixteen_dvd {b : Block} (h : Held b) : 16 ∣ b.addr := by
  have : 2 ^ 4 ∣ b.addr := (two_pow_dvd_iff h.pos).mpr (le_trans (by simpa using h.large) h.aligned)
  simpa using this

theorem Held.node {b : Block} (h : Held b) : Node b.addr := by
  have h1 := h.inside
  have h2 := h.large
  exact ⟨h.sixteen_dvd, h.pos, by omega⟩

theorem Held.addrSize {b : Block} (h : Held b) : addrSize b.addr = some (lowBit b.addr) :=
  addrSize_eq h.pos h.node.lt_word

/-- A block below its alignment does not end at the end of the region. -/
theorem Held.end_lt {b : Block} (h : Held b) (hlt : b.size < lowBit b.addr) :
    b.addr + b.size < 2147483648 := by
  have hin := h.inside
  by_contra hge
  have hend : b.addr + b.size = 2147483648 := by omega
  have hlarge := h.large
  have hk : 2 ^ 31 ∣ b.addr + b.size := by rw [hend]; norm_num
  have hfit := (dvd_size_of_forward h.pos (by omega) hlt hk).2
  have := lowBit_le h.pos
  omega

/-- `b` with free set `F` has become `b'` with free set `F'`: the blocks that left `F` are now
part of `b'`. -/
structure Absorbs (b : Block) (F : Finset Block) (b' : Block) (F' : Finset Block) : Prop where
  subset : F' ⊆ F
  held : Held b'
  apart : ∀ c ∈ F', b'.Apart c
  covers : ∀ x, Covers F' x ∨ b'.covers x ↔ Covers F x ∨ b.covers x
  inner : ∀ x, b.covers x → b'.covers x

theorem Absorbs.refl {b : Block} {F : Finset Block} (hb : Held b) (hap : ∀ c ∈ F, b.Apart c) :
    Absorbs b F b F :=
  ⟨Finset.Subset.refl F, hb, hap, fun _ => Iff.rfl, fun _ hx => hx⟩

theorem Absorbs.trans {b b' b'' : Block} {F F' F'' : Finset Block} (h₁ : Absorbs b F b' F')
    (h₂ : Absorbs b' F' b'' F'') : Absorbs b F b'' F'' :=
  ⟨h₂.subset.trans h₁.subset, h₂.held, h₂.apart, fun x => (h₂.covers x).trans (h₁.covers x),
    fun x hx => h₂.inner x (h₁.inner x hx)⟩

theorem Absorbs.inside {R : ℕ → Prop} {b b' : Block} {F F' : Finset Block}
    (h : Absorbs b F b' F') (hR : ∀ x, Covers F x ∨ b.covers x → R x) :
    ∀ x, Covers F' x ∨ b'.covers x → R x := fun x hx => hR x ((h.covers x).mp hx)

theorem Absorbs.join {F : Finset Block} (hF : FreeSet F) {b b' c : Block} (hb' : Held b')
    (hap : ∀ d ∈ F, b.Apart d) (hc : c ∈ F) (hj : ∀ x, b'.covers x ↔ b.covers x ∨ c.covers x) :
    Absorbs b F b' (F.erase c) := by
  refine ⟨Finset.erase_subset _ _, hb', ?_, ?_, fun x hx => (hj x).mpr (Or.inl hx)⟩
  · intro d hd
    obtain ⟨hne, hd⟩ := Finset.mem_erase.mp hd
    have hlarge := hb'.large
    have hsize := (hF.block d hd).bounds.1
    refine Block.apart_of_not_covers (by omega) (by omega) fun x hx => ?_
    rcases (hj x).mp hx with hx | hx
    · exact (hap d hd).not_covers hx
    · exact (hF.apart c hc d hd (Ne.symm hne)).not_covers hx
  · intro x
    rw [covers_erase hF.apart hc, hj x]
    have hin : c.covers x → Covers F x := fun hx => ⟨c, hc, hx⟩
    by_cases hx : c.covers x
    · simp [hx, hin hx]
    · simp [hx]

/-- Joining with the free block behind. The joined block cannot overshoot the alignment. -/
theorem Absorbs.forward {F : Finset Block} (hF : FreeSet F) {p n s : ℕ} (hb : Held ⟨p, n⟩)
    (hap : ∀ c ∈ F, Block.Apart ⟨p, n⟩ c) (hlt : n < lowBit p) (hs : ⟨p + n, s⟩ ∈ F) :
    Absorbs ⟨p, n⟩ F ⟨p, n + s⟩ (F.erase ⟨p + n, s⟩) := by
  have hfree := hF.block _ hs
  obtain ⟨_, _, hunit, _, _, hend⟩ := hfree.bounds
  obtain ⟨k, _, _, hsize, hdvd, _⟩ := hfree
  obtain ⟨hpos, hunit', hlarge, _, _⟩ := hb
  simp only at *
  have hfit := (dvd_size_of_forward hpos (by omega) hlt hdvd).2
  have hheld : Held ⟨p, n + s⟩ := by
    constructor <;> simp only <;> omega
  refine Absorbs.join hF hheld hap hs fun x => ?_
  simp only [Block.covers]
  omega

theorem Absorbs.backward {F : Finset Block} (hF : FreeSet F) {p n : ℕ} (hb : Held ⟨p, n⟩)
    (hap : ∀ c ∈ F, Block.Apart ⟨p, n⟩ c) (heq : n = lowBit p) (hs : ⟨p - n, n⟩ ∈ F) :
    Absorbs ⟨p, n⟩ F ⟨p - n, 2 * n⟩ (F.erase ⟨p - n, n⟩) := by
  have hfree := (hF.block _ hs).bounds.2.2.2.2.1
  obtain ⟨hpos, hunit, hlarge, _, hin⟩ := hb
  simp only at *
  have hle : n ≤ p := heq ▸ lowBit_le hpos
  -- the lower buddy is aligned on twice the size
  have halign : 2 * n ≤ lowBit (p - n) := by
    have hd : 2 * n ∣ p - n := heq ▸ two_mul_lowBit_dvd_sub hpos
    have h2 : 2 * n = 2 ^ (padicValNat 2 p + 1) := by rw [heq, lowBit]; ring
    rw [h2] at hd ⊢
    exact (two_pow_dvd_iff hfree).mp hd
  have hheld : Held ⟨p - n, 2 * n⟩ := by
    constructor <;> simp only <;> omega
  refine Absorbs.join hF hheld hap hs fun x => ?_
  simp only [Block.covers]
  omega

theorem FreeSet.card_lt {F : Finset Block} (hF : FreeSet F) : F.card < loopBound := by
  have hinj : Set.InjOn Block.addr F := fun b hb c hc h => hF.start_unique hb hc h
  have hsub : F.image Block.addr ⊆ Finset.range 2147483648 := by
    intro a ha
    obtain ⟨b, hb, rfl⟩ := Finset.mem_image.mp ha
    exact Finset.mem_range.mpr (hF.block b hb).node.2.2
  have hcard := Finset.card_le_card hsub
  rw [Finset.card_image_of_injOn hinj, Finset.card_range] at hcard
  unfold loopBound
  omega

/-- One merge of a block with a free neighbour: the block behind while there is alignment left,
or the equal block in front once there is none. -/
inductive Absorb (F : Finset Block) : Block → Block → Prop where
  | forward {p n s : ℕ} : n < lowBit p → ⟨p + n, s⟩ ∈ F → Absorb F ⟨p, n⟩ ⟨p, n + s⟩
  | backward {p n : ℕ} : n = lowBit p → ⟨p - n, n⟩ ∈ F → Absorb F ⟨p, n⟩ ⟨p - n, 2 * n⟩

theorem Absorb.mono {F F' : Finset Block} (hsub : F' ⊆ F) {b c : Block} (h : Absorb F' b c) :
    Absorb F b c := by
  cases h with
  | forward hlt hs => exact .forward hlt (hsub hs)
  | backward heq hs => exact .backward heq (hsub hs)

def Growth (wanted : ℕ → Bool) (F : Finset Block) : Block → Block → Prop :=
  Relation.ReflTransGen fun b c => wanted b.size = true ∧ Absorb F b c

theorem Growth.mono {wanted : ℕ → Bool} {F F' : Finset Block} (hsub : F' ⊆ F) {b c : Block}
    (h : Growth wanted F' b c) : Growth wanted F b c := by
  induction h with
  | refl => exact .refl
  | tail _ hs ih => exact ih.tail ⟨hs.1, hs.2.mono hsub⟩

/-- Both forward merges absorb the blocks behind and stop at the alignment, at the limit or
before a block that is not free. -/
theorem forwardLoop_absorbs {R : ℕ → Prop} (wanted : ℕ → Bool) {p fuel : ℕ} :
    ∀ {h : Heap} {F : Finset Block} {n : ℕ}, HeapRep h F → F.card < fuel → Held ⟨p, n⟩ →
    (∀ c ∈ F, Block.Apart ⟨p, n⟩ c) → (∀ x, Covers F x → R x) →
    ∃ h' n' F', forwardLoop wanted fuel h p n = some (h', n') ∧ Evolves R h F h' F' ∧
      Absorbs ⟨p, n⟩ F ⟨p, n'⟩ F' ∧ Growth wanted F ⟨p, n⟩ ⟨p, n'⟩ ∧
      (n' = lowBit p ∨ wanted n' = false ∨ ¬ Starts F' (p + n')) := by
  induction fuel with
  | zero => intro h F n _ hf; omega
  | succ fuel ih =>
    intro h F n hr hfuel hb hap hR
    have halign : addrSize p = some (lowBit p) := hb.addrSize
    by_cases hgo : n < lowBit p ∧ wanted n = true
    · have hin := hb.end_lt hgo.1
      simp only at hin
      have hw : wadd p n = p + n := wadd_eq (by omega)
      by_cases hst : Starts F (p + n)
      · obtain ⟨s, hs⟩ := hst
        obtain ⟨h₁, hdel, _, hev₁, hsize⟩ := Evolves.deleteAddr hr hs hR
        have habs := Absorbs.forward hr.toFreeSet hb hap hgo.1 hs
        have hcard := Finset.card_erase_lt_of_mem hs
        have hsub := Finset.erase_subset (⟨p + n, s⟩ : Block) F
        obtain ⟨h₂, n', F', heq, hev₂, habs₂, hgrow, hstop⟩ := ih hev₁.rep (by omega) habs.held
          habs.apart (fun x hx => hR x (covers_mono hsub hx))
        refine ⟨h₂, n', F', ?_, hev₁.trans hev₂, habs.trans habs₂,
          (hgrow.mono hsub).head ⟨hgo.2, .forward hgo.1 hs⟩, hstop⟩
        have hlook := hr.lookupAddr_mem ⟨s, hs⟩
        have hend := habs.held.inside
        have hw' : wadd n s = n + s := wadd_eq (by simp only at hend; omega)
        have hne : p + n ≠ 0 := by have := hb.pos; simp only at this; omega
        simp only [forwardLoop, halign, Option.bind_eq_bind, Option.bind_some, hgo, and_self,
          if_true, hw, hlook, ne_eq, hne, not_false_eq_true, hdel, hsize, hw', heq]
      · refine ⟨h, n, F, ?_, Evolves.refl hr, Absorbs.refl hb hap, .refl, Or.inr (Or.inr hst)⟩
        have hlook := hr.lookupAddr_not_mem hin hst
        simp only [forwardLoop, halign, Option.bind_eq_bind, Option.bind_some, hgo, and_self,
          if_true, hw, hlook, ne_eq, not_true_eq_false, if_false]
    · refine ⟨h, n, F, ?_, Evolves.refl hr, Absorbs.refl hb hap, .refl, ?_⟩
      · simp only [forwardLoop, halign, Option.bind_eq_bind, Option.bind_some, if_neg hgo]
      · have hle := hb.aligned
        simp only at hle
        by_cases hn : n = lowBit p
        · exact Or.inl hn
        · refine Or.inr (Or.inl ?_)
          by_contra hw
          exact hgo ⟨by omega, by simpa using hw⟩

theorem Evolves.setHeldSize {R : ℕ → Prop} {h : Heap} {F : Finset Block} (hr : HeapRep h F)
    {b : Block} (hb : Held b) (hap : ∀ c ∈ F, b.Apart c)
    (hR : ∀ x, Covers F x ∨ b.covers x → R x) (size : ℕ) :
    Evolves R h F (h.setSize b.addr size) F := by
  refine Evolves.setSize hr size fun x h₁ h₂ => ?_
  have hlarge := hb.large
  have hx : b.covers x := ⟨h₁, by omega⟩
  refine ⟨?_, hR x (Or.inr hx)⟩
  rintro ⟨c, hc, hcx⟩
  exact (hap c hc).not_covers hx hcx

theorem mergeBlockForward_absorbs {R : ℕ → Prop} {h : Heap} {F : Finset Block} {p n : ℕ}
    (hr : HeapRep h F) (hb : Held ⟨p, n⟩) (hap : ∀ c ∈ F, Block.Apart ⟨p, n⟩ c)
    (hR : ∀ x, Covers F x ∨ Block.covers ⟨p, n⟩ x → R x) :
    ∃ h' n' F', mergeBlockForward h p n = some (h', n') ∧ h'.size p = n' ∧ Evolves R h F h' F' ∧
      Absorbs ⟨p, n⟩ F ⟨p, n'⟩ F' ∧ (n' = lowBit p ∨ ¬ Starts F' (p + n')) := by
  obtain ⟨h₁, n', F', heq, hev, habs, _, hstop⟩ :=
    forwardLoop_absorbs (fun _ => true) hr hr.card_lt hb hap fun x hx => hR x (Or.inl hx)
  have hset := Evolves.setHeldSize hev.rep habs.held habs.apart (habs.inside hR) n'
  refine ⟨h₁.setSize p n', n', F', ?_, ?_, hev.trans hset, habs, by simpa using hstop⟩
  · simp only [mergeBlockForward, heq, Option.bind_eq_bind, Option.bind_some]
  · have hin := habs.held.inside
    simp only at hin
    exact setSize_size hb.node (by omega)

def Merged (F : Finset Block) (b : Block) : Prop :=
  (b.size = largestBlock ∨ b.size = lowBit b.addr ∨ ¬ Starts F (b.addr + b.size)) ∧
    (b.size = lowBit b.addr → b.size < largestBlock → ⟨b.addr - b.size, b.size⟩ ∉ F)

theorem mergeLoop_absorbs {R : ℕ → Prop} {fuel : ℕ} : ∀ {h : Heap} {F : Finset Block} {p n : ℕ},
    HeapRep h F → F.card < fuel → Held ⟨p, n⟩ → n ≤ largestBlock → h.size p = n →
    (∀ c ∈ F, Block.Apart ⟨p, n⟩ c) → (∀ x, Covers F x ∨ Block.covers ⟨p, n⟩ x → R x) →
    ∃ h' p' n' F', mergeLoop fuel h p n = some (h', p') ∧ h'.size p' = n' ∧ Evolves R h F h' F' ∧
      Absorbs ⟨p, n⟩ F ⟨p', n'⟩ F' ∧ Merged F' ⟨p', n'⟩ := by
  induction fuel with
  | zero => intro h F p n _ hf; omega
  | succ fuel ih =>
    intro h F p n hr hfuel hb htop hsize hap hR
    by_cases hsmall : n < largestBlock
    · obtain ⟨h₁, m, F₁, heq₁, hsize₁, hev₁, habs₁, hstop₁⟩ :=
        mergeBlockForward_absorbs hr hb hap hR
      have halign : addrSize p = some (lowBit p) := hb.addrSize
      have hstep : mergeLoop (fuel + 1) h p n = if m = lowBit p then (do
          let found ← lookupAddr h₁ (wsub p m)
          if found ≠ 0 ∧ h₁.size (wsub p m) = m ∧ m < largestBlock then
            let h ← deleteAddr h₁ (wsub p m)
            let h := h.setSize (wsub p m) (h.size (wsub p m) * 2)
            mergeLoop fuel h (wsub p m) (h.size (wsub p m))
          else some (h₁, p)) else some (h₁, p) := by
        simp only [mergeLoop, hsmall, if_true, heq₁, Option.bind_eq_bind, Option.bind_some, halign]
      rw [hstep]
      by_cases hfull : m = lowBit p
      · have hle : m ≤ p := hfull ▸ lowBit_le hb.pos
        have hw : wsub p m = p - m := wsub_eq hb.node.lt_word hle
        have hin := hb.node.2.2
        simp only at hin
        rw [if_pos hfull, hw]
        by_cases hback : ⟨p - m, m⟩ ∈ F₁ ∧ m < largestBlock
        · obtain ⟨h₂, hdel, _, hev₂, hsz⟩ := Evolves.deleteAddr hev₁.rep hback.1
            (fun x hx => habs₁.inside hR x (Or.inl hx))
          have habs₂ := Absorbs.backward hev₁.rep.toFreeSet habs₁.held habs₁.apart hfull hback.1
          have hev₃ := Evolves.setHeldSize hev₂.rep habs₂.held habs₂.apart
            ((habs₁.trans habs₂).inside hR) (m * 2)
          have hpow : 2 * m ≤ largestBlock := by
            have hlt := hback.2
            have h20 : largestBlock = 2 ^ 20 := by norm_num [largestBlock]
            rw [hfull, lowBit, h20] at hlt ⊢
            rw [Nat.pow_lt_pow_iff_right (by norm_num)] at hlt
            calc 2 * 2 ^ padicValNat 2 p = 2 ^ (padicValNat 2 p + 1) := by ring
              _ ≤ 2 ^ 20 := Nat.pow_le_pow_right (by norm_num) hlt
          have hsz' : (h₂.setSize (p - m) (m * 2)).size (p - m) = 2 * m := by
            have htop' : largestBlock < 4294967296 := by norm_num [largestBlock]
            rw [setSize_size habs₂.held.node (by omega)]
            omega
          have hcard : (F₁.erase ⟨p - m, m⟩).card < fuel := by
            have h1 := Finset.card_erase_lt_of_mem hback.1
            have h2 := Finset.card_le_card habs₁.subset
            omega
          obtain ⟨h₃, p', n', F', heq, hs, hev, habs, hmerged⟩ := ih hev₃.rep hcard habs₂.held
            hpow hsz' habs₂.apart ((habs₁.trans habs₂).inside hR)
          refine ⟨h₃, p', n', F', ?_, hs, ((hev₁.trans hev₂).trans hev₃).trans hev,
            (habs₁.trans habs₂).trans habs, hmerged⟩
          have hlook := hev₁.rep.lookupAddr_mem ⟨m, hback.1⟩
          have hne : p - m ≠ 0 := by have := habs₂.held.pos; simp only at this; omega
          have hread : h₁.size (p - m) = m := hev₁.rep.sizes _ hback.1
          simp only [hlook, Option.bind_eq_bind, Option.bind_some, ne_eq, hne, not_false_eq_true,
            hread, hback.2, and_self, if_true, hdel, hsz, hsz', heq]
        · refine ⟨h₁, p, m, F₁, ?_, hsize₁, hev₁, habs₁, Or.inr (Or.inl hfull), ?_⟩
          · by_cases hst : Starts F₁ (p - m)
            · obtain ⟨s, hs⟩ := hst
              have hread : h₁.size (p - m) = s := hev₁.rep.sizes _ hs
              have hcond : ¬ (p - m ≠ 0 ∧ s = m ∧ m < largestBlock) := by
                rintro ⟨_, rfl, hlt⟩
                exact hback ⟨hs, hlt⟩
              simp only [hev₁.rep.lookupAddr_mem ⟨s, hs⟩, Option.bind_eq_bind, Option.bind_some,
                hread, if_neg hcond]
            · simp only [hev₁.rep.lookupAddr_not_mem (by omega) hst, Option.bind_eq_bind,
                Option.bind_some, ne_eq, not_true_eq_false, false_and, if_false]
          · intro _ hlt hmem
            exact hback ⟨hmem, hlt⟩
      · refine ⟨h₁, p, m, F₁, if_neg hfull, hsize₁, hev₁, habs₁, ?_, fun h => absurd h hfull⟩
        exact Or.inr (hstop₁.imp_left fun h => absurd h hfull)
    · refine ⟨h, p, n, F, ?_, hsize, Evolves.refl hr, Absorbs.refl hb hap, ?_, ?_⟩
      · rw [mergeLoop, if_neg hsmall]
      · exact Or.inl (by simp only; omega)
      · exact fun _ hlt => absurd hlt hsmall

end KernelHeap
