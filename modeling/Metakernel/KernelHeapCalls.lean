import Metakernel.KernelHeapBlocks

/-!
# Allocation and release

What `kern_malloc` and `kern_free` do to the free set: the bytes of a live block leave it and
come back, and coalescing leaves no pair of free buddies behind.
-/
namespace KernelHeap

open LinkedNodes ByteMemory DyadicBlocks

theorem two_mul_dvd_of_lt {b : Block} {k m : ℕ} (hs : b.size = 2 ^ k) (h : b.size < 2 ^ m) :
    2 * b.size ∣ 2 ^ m := by
  rw [hs, Nat.pow_lt_pow_iff_right (by norm_num)] at h
  rw [hs, show 2 * 2 ^ k = 2 ^ (k + 1) by ring]
  exact pow_dvd_pow 2 h

/-- Filling a merged block with pieces makes no new pair of buddies. -/
theorem Merged.noBuddies {F P : Finset Block} {b : Block} (hF : FreeSet F)
    (hn : NoBuddies largestBlock F) (hb : Held b) (hap : ∀ c ∈ F, b.Apart c) (hm : Merged F b)
    (hP : Tiles P b.addr (b.addr + b.size)) (hd : DistinctSizes P) :
    NoBuddies largestBlock (F ∪ P) := by
  have h20 : largestBlock = 2 ^ 20 := by norm_num [largestBlock]
  intro q hq r hr hlt hbud
  obtain ⟨hsz, hadj, hdvd⟩ := id hbud
  rcases Finset.mem_union.mp hq with hqF | hqP <;> rcases Finset.mem_union.mp hr with hrF | hrP
  · exact hn q hqF r hrF hlt hbud
  · -- the lower buddy was free: it is the back neighbour that the merge has refused
    have hqpos := (hF.block q hqF).bounds.1
    have hin := hP.within hrP
    have hqb := hap q hqF
    obtain ⟨k, _, _, hrs, _⟩ := hP.block r hrP
    have haddr : r.addr = b.addr := by
      unfold Block.Apart at hqb
      omega
    have hodd := Buddies.not_dvd hbud (by omega)
    rw [haddr, hsz, hrs, show 2 * 2 ^ k = 2 ^ (k + 1) by ring, two_pow_dvd_iff hb.pos, lowBit,
      Nat.pow_le_pow_iff_right (by norm_num)] at hodd
    have hle : lowBit b.addr ≤ r.size := by
      rw [hrs, lowBit]
      exact Nat.pow_le_pow_right (by norm_num) (by omega)
    have hal := hb.aligned
    have hfull : b.size = lowBit b.addr := by omega
    refine hm.2 hfull (by omega) ?_
    have heq : (⟨b.addr - b.size, b.size⟩ : Block) = q := by
      cases q
      simp only [Block.mk.injEq] at *
      omega
    exact heq ▸ hqF
  · -- the upper buddy was free: it starts where the merge has stopped
    have hin := hP.within hqP
    have hrb := hap r hrF
    obtain ⟨k, _, _, hqs, _⟩ := hP.block q hqP
    have hqpos := (hP.block q hqP).bounds.1
    have hrpos := (hF.block r hrF).bounds.1
    have hend : r.addr = b.addr + b.size := by
      unfold Block.Apart at hrb
      omega
    have hodd := Buddies.not_dvd hbud (by omega)
    rw [hend] at hodd
    rcases hm.1 with htop | hfull | hstart
    · have hal := hb.aligned
      rw [htop, h20] at hal
      refine hodd (Dvd.dvd.add ?_ ?_)
      · exact (two_mul_dvd_of_lt hqs (h20 ▸ hlt)).trans ((two_pow_dvd_iff hb.pos).mpr hal)
      · rw [htop, h20]
        exact two_mul_dvd_of_lt hqs (h20 ▸ hlt)
    · refine hodd ?_
      have hle : q.size ≤ lowBit b.addr := by omega
      rw [hfull]
      rw [hqs, lowBit] at hle
      exact (hqs ▸ Nat.mul_dvd_mul_left 2 (two_pow_dvd_of_le hle)).trans
        (two_mul_lowBit_dvd_add hb.pos)
    · exact hstart ⟨r.size, hend ▸ hrF⟩
  · have heq := hd q hqP r hrP hsz hlt
    have hpos := (hP.block q hqP).bounds.1
    rw [heq] at hadj hpos
    omega

/-- Splitting a free block makes no new pair of buddies: the buddy of a piece is inside the
block that was split. -/
theorem split_noBuddies {F P : Finset Block} {b : Block} {lo : ℕ} (hF : FreeSet F)
    (hn : NoBuddies largestBlock F) (hb : b ∈ F) (hlo : b.addr < lo)
    (hP : Tiles P lo (b.addr + b.size)) (hd : DistinctSizes P) :
    NoBuddies largestBlock (F.erase b ∪ P) := by
  -- the common parent of two buddies of which one is a piece is inside the split block
  have hparent : ∀ {q r s : Block}, Buddies q r → s ∈ P → s = q ∨ s = r → FreeBlock q →
      b.addr ≤ q.addr ∧ r.addr + r.size ≤ b.addr + b.size := by
    intro q r s hbud hs hqr hq
    obtain ⟨hsz, hadj, hdvd⟩ := hbud
    have hin := hP.within hs
    have hpos := hq.bounds.1
    have hbd := (hF.block b hb).dyadic
    have hless : q.size < b.size := by
      rcases hqr with rfl | rfl <;> omega
    obtain ⟨k, _, _, hqs, _⟩ := hq
    have hdy : IsDyadic ⟨q.addr, 2 * q.size⟩ :=
      ⟨k + 1, by simp only [hqs]; ring, by rw [pow_succ, mul_comm, ← hqs]; exact hdvd⟩
    have hshare : Block.covers ⟨q.addr, 2 * q.size⟩ s.addr := by
      unfold Block.covers
      rcases hqr with rfl | rfl <;> simp only <;> omega
    have hsb : b.covers s.addr := by
      unfold Block.covers
      rcases hqr with rfl | rfl <;> omega
    have hle := hdy.nested hbd (IsDyadic.two_mul_le ⟨k, hqs, by
      exact (Dvd.intro_left 2 (by rw [hqs])).trans hdvd⟩ hbd hless) hshare hsb
    simp only at hle
    omega
  intro q hq r hr hlt hbud
  rcases Finset.mem_union.mp hq with hqF | hqP <;> rcases Finset.mem_union.mp hr with hrF | hrP
  · exact hn q (Finset.mem_of_mem_erase hqF) r (Finset.mem_of_mem_erase hrF) hlt hbud
  · obtain ⟨hne, hqF⟩ := Finset.mem_erase.mp hqF
    have hin := hparent hbud hrP (Or.inr rfl) (hF.block q hqF)
    have hap := hF.apart q hqF b hb hne
    have h1 := (hF.block q hqF).bounds.1
    have h2 := (hP.block r hrP).bounds.1
    have h3 := hbud.2.1
    unfold Block.Apart at hap
    omega
  · obtain ⟨hne, hrF⟩ := Finset.mem_erase.mp hrF
    have hin := hparent hbud hqP (Or.inl rfl) (hP.block q hqP)
    have hap := hF.apart r hrF b hb hne
    have h1 := (hF.block r hrF).bounds.1
    have h3 := hbud.2.1
    unfold Block.Apart at hap
    omega
  · have heq := hd q hqP r hrP hbud.1 hlt
    have hpos := (hP.block q hqP).bounds.1
    have hadj := hbud.2.1
    rw [heq] at hadj hpos
    omega

theorem kernFree_spec {R : ℕ → Prop} {h : Heap} {F : Finset Block} {p n : ℕ} (hr : HeapRep h F)
    (hb : Held ⟨p, n⟩) (htop : n ≤ largestBlock) (hap : ∀ c ∈ F, Block.Apart ⟨p, n⟩ c)
    (hR : ∀ x, Covers F x ∨ Block.covers ⟨p, n⟩ x → R x) :
    ∃ h' F', kernFree h p n = some h' ∧ Evolves R h F h' F' ∧
      (∀ x, Covers F' x ↔ Covers F x ∨ Block.covers ⟨p, n⟩ x) ∧
      (NoBuddies largestBlock F → NoBuddies largestBlock F') := by
  have hset := Evolves.setHeldSize hr hb hap hR n
  have hpos := hb.pos
  have hlarge := hb.large
  have hend := hb.inside
  simp only at hpos hlarge hend
  obtain ⟨h₁, p', n', F₁, heq₁, hsize₁, hev₁, habs, hmerged⟩ := mergeLoop_absorbs hset.rep
    hr.card_lt hb htop (setSize_size hb.node (by omega)) hap hR
  obtain ⟨hpos', hunit', hlarge', haligned', hend'⟩ := id habs.held
  simp only at hpos' hunit' hlarge' haligned' hend'
  have hdvd : ∀ k, k ≤ 20 → 2 ^ k ≤ n' - 0 → 2 ^ k ∣ p' := by
    intro k _ hk
    exact (two_pow_dvd_iff hpos').mpr (by omega)
  have hroom : Room R F₁ p' (p' + (n' - 0)) := by
    constructor
    · intro c hc
      have := habs.apart c hc
      unfold Block.Apart at this
      simpa using this
    · intro x hx
      exact habs.inside hR x (by simpa [Block.covers] using hx)
  obtain ⟨h₂, P, heq₂, htile, hdist, hev₂⟩ := freeLoop_tiles hev₁.rep
    (show n' - 0 < loopBound by unfold loopBound; omega) (by omega) hpos' (by omega)
    (by simpa using hunit') (by omega) hdvd hroom
  refine ⟨h₂, F₁ ∪ P, ?_, (hset.trans hev₁).trans hev₂, ?_, ?_⟩
  · have hcond : p ≠ 0 ∧ n ≠ 0 := by omega
    simp only [kernFree, hcond, ne_eq, not_false_eq_true, and_self, if_true, mergeBlock, heq₁,
      Option.bind_eq_bind, Option.bind_some, hsize₁, heq₂]
  · intro x
    rw [covers_union, htile.covers x, ← habs.covers x]
    simp [Block.covers]
  · intro hn
    have hn₁ : NoBuddies largestBlock F₁ := fun b hb c hc =>
      hn b (habs.subset hb) c (habs.subset hc)
    exact hmerged.noBuddies hev₁.rep.toFreeSet hn₁ habs.held habs.apart
      (by simpa using htile) hdist

structure Allocates (F : Finset Block) (b : Block) (F' : Finset Block) : Prop where
  held : Held b
  bounded : b.size ≤ largestBlock
  apart : ∀ c ∈ F', b.Apart c
  covers : ∀ x, Covers F x ↔ Covers F' x ∨ b.covers x
  noBuddies : NoBuddies largestBlock F → NoBuddies largestBlock F'

theorem HeapRep.list_block {h : Heap} {F : Finset Block} (hr : HeapRep h F) {k : ℕ} (hk : k ≤ 16)
    (hne : h.blockLists k ≠ 0) :
    ∃ a, nodeLast.get h.mem (h.blockLists k) = a ∧ ⟨a, 2 ^ (k + 4)⟩ ∈ F := by
  obtain ⟨l, hring, hhead, hmem⟩ := hr.rings k hk
  cases l with
  | nil => exact absurd hhead hne
  | cons x xs =>
    obtain ⟨ys, z, hyz⟩ : ∃ ys z, x :: xs = ys ++ [z] :=
      ⟨_, _, (List.dropLast_append_getLast (List.cons_ne_nil x xs)).symm⟩
    have hlast : nodeLast.get h.mem x = z := by
      have := (hyz ▸ hring : NodeRing nodeNext nodeLast Node h.mem (ys ++ [z])).last_head.1
      simpa [← hyz] using this
    refine ⟨z, ?_, (hmem z).mp (by simp [hyz])⟩
    rw [hhead, List.head?_cons, Option.getD_some, hlast]

theorem acquireLoop_spec {h : Heap} {F : Finset Block} (hr : HeapRep h F) {fuel : ℕ} :
    ∀ {list : ℕ}, 17 - list < fuel →
    acquireLoop fuel h list = some (h, 0) ∨
    ∃ b h', acquireLoop fuel h list = some (h', b.addr) ∧ b ∈ F ∧ 2 ^ (list + 4) ≤ b.size ∧
      Evolves (Covers F) h F h' (F.erase b) ∧ h'.size b.addr = b.size := by
  induction fuel with
  | zero => intro list hf; omega
  | succ fuel ih =>
    intro list hfuel
    by_cases hle : list ≤ h.highList
    · have h16 := hr.high
      by_cases hne : h.blockLists list ≠ 0
      · obtain ⟨a, hout, hmem⟩ := hr.list_block (by omega) hne
        obtain ⟨h', _, hdel, hev, hsize⟩ := Evolves.deleteAddr (R := Covers F) hr hmem
          (fun x hx => hx)
        refine Or.inr ⟨⟨a, 2 ^ (list + 4)⟩, h', ?_, hmem, le_refl _, hev, hsize⟩
        simp only [acquireLoop, hle, if_true, hne, ne_eq, not_false_eq_true, hout, hdel,
          Option.bind_eq_bind, Option.bind_some]
      · have hw : wadd list 1 = list + 1 := wadd_eq (by omega)
        have hstep : acquireLoop (fuel + 1) h list = acquireLoop fuel h (list + 1) := by
          rw [acquireLoop, if_pos hle, if_neg hne, hw]
        rw [hstep]
        rcases ih (show 17 - (list + 1) < fuel by omega) with hnone | ⟨b, h', heq, hb, hsz, hrest⟩
        · exact Or.inl hnone
        · refine Or.inr ⟨b, h', heq, hb, le_trans ?_ hsz, hrest⟩
          exact Nat.pow_le_pow_right (by norm_num) (by omega)
    · exact Or.inl (by rw [acquireLoop, if_neg hle])

/-- A block of a list at least as large as a power of two, or NULL. -/
theorem acquireBlock_spec {h : Heap} {F : Finset Block} (hr : HeapRep h F) {k : ℕ} (hk : k < 32) :
    acquireBlock h (2 ^ k) = some (h, 0) ∨
    ∃ b h', acquireBlock h (2 ^ k) = some (h', b.addr) ∧ b ∈ F ∧ 2 ^ k ≤ b.size ∧
      Evolves (Covers F) h F h' (F.erase b) ∧ h'.size b.addr = b.size := by
  have hlt : 2 ^ k < 4294967296 := by
    calc 2 ^ k < 2 ^ 32 := Nat.pow_lt_pow_right (by norm_num) hk
      _ = 4294967296 := by norm_num
  have hilog : ilog (2 ^ k) = some k := by
    rw [ilog, addrPower_eq (Nat.two_pow_pos k) hlt, Nat.log_pow (by norm_num)]
  obtain ⟨list, hacq, hlist⟩ : ∃ list, acquireBlock h (2 ^ k) = acquireLoop loopBound h list ∧
      k ≤ list + 4 := by
    refine ⟨wsub k listOffset, ?_, ?_⟩
    · rw [acquireBlock, hilog, Option.bind_eq_bind, Option.bind_some]
    · unfold wsub listOffset
      omega
  have hfuel : 17 - list < loopBound := by unfold loopBound; omega
  rw [hacq]
  rcases acquireLoop_spec hr hfuel with hnone | ⟨b, h', heq, hb, hsz, hev, hsize⟩
  · exact Or.inl hnone
  · refine Or.inr ⟨b, h', heq, hb, le_trans ?_ hsz, hev, hsize⟩
    exact Nat.pow_le_pow_right (by norm_num) hlist

/-- Setting up an acquired block keeps its front and returns the end to the lists. -/
theorem setupBlock_spec {h₀ h : Heap} {F : Finset Block} (hF : FreeSet F) {b : Block} {size : ℕ}
    (hev : Evolves (Covers F) h₀ F h (F.erase b)) (hb : b ∈ F) (hsize : h.size b.addr = b.size)
    (hmin : 2 ≤ size) (hle : size ≤ b.size) :
    ∃ h' F', setupBlock h b.addr size = some (h', b.addr, (size + 15) / 16 * 16) ∧
      Evolves (Covers F) h₀ F h' F' ∧ Allocates F ⟨b.addr, (size + 15) / 16 * 16⟩ F' := by
  have hfree := hF.block b hb
  obtain ⟨h16, htop, hunit, _, hpos, hend⟩ := hfree.bounds
  obtain ⟨k, _, _, hbs, hba, _⟩ := hfree
  have hlarge : largestBlock = 1048576 := by norm_num [largestBlock]
  have hdvd : ∀ j, 2 ^ j ≤ b.size - size → 2 ^ j ∣ b.addr + b.size := by
    intro j hj
    have hjb : 2 ^ j ∣ b.size := by rw [hbs]; exact two_pow_dvd_of_le (by omega)
    exact Dvd.dvd.add (hjb.trans (hbs ▸ hba)) hjb
  have hroom : Room (Covers F) (F.erase b) (b.addr + b.size - (b.size - size))
      (b.addr + b.size) := by
    constructor
    · intro c hc
      obtain ⟨hne, hc⟩ := Finset.mem_erase.mp hc
      have := hF.apart b hb c hc (Ne.symm hne)
      unfold Block.Apart at this
      omega
    · intro x hx
      rcases hx with hx | hx
      · exact ((covers_erase hF.apart hb).mp hx).1
      · exact ⟨b, hb, by unfold Block.covers; omega⟩
  obtain ⟨h', P, heq, htile, hdist, hev'⟩ := splitLoop_tiles hev.rep
    (show b.size - size < loopBound by unfold loopBound; omega) hend (by omega) (by omega) hdvd
    hroom
  have hkept : size + (b.size - size) % 16 = (size + 15) / 16 * 16 := by omega
  have hlo : b.addr + b.size - (b.size - size - (b.size - size) % 16) =
      b.addr + (size + 15) / 16 * 16 := by omega
  rw [hlo] at htile
  refine ⟨h', F.erase b ∪ P, ?_, hev.trans hev', ?_, by simp only; omega, ?_, ?_, ?_⟩
  · have hw : wadd b.addr b.size = b.addr + b.size := wadd_eq (by omega)
    have hw' : wsub b.size size = b.size - size := wsub_eq (by omega) hle
    have hw'' : wadd size ((b.size - size) % 16) = (size + 15) / 16 * 16 := by
      rw [wadd_eq (by omega), hkept]
    simp only [setupBlock, splitBlock, hsize, hw, hw', heq, hw'', Option.bind_eq_bind,
      Option.bind_some]
  · have halign : b.size ≤ lowBit b.addr := by
      rw [hbs]
      exact (two_pow_dvd_iff hpos).mp hba
    constructor <;> simp only <;> omega
  · intro c hc
    rcases Finset.mem_union.mp hc with hc | hc
    · obtain ⟨hne, hc⟩ := Finset.mem_erase.mp hc
      have := hF.apart b hb c hc (Ne.symm hne)
      unfold Block.Apart at *
      simp only
      omega
    · exact Or.inl (htile.within hc).1
  · intro x
    have hin : b.covers x → Covers F x := fun hx => ⟨b, hb, hx⟩
    rw [covers_union, covers_erase hF.apart hb, htile.covers x]
    unfold Block.covers at *
    simp only
    by_cases hx : b.addr ≤ x ∧ x < b.addr + b.size
    · simp only [hin hx, true_and, true_iff]
      omega
    · simp only [hx, not_false_eq_true, and_true]
      constructor
      · exact fun h => Or.inl (Or.inl h)
      · rintro ((h | h) | h)
        · exact h
        · omega
        · omega
  · intro hn
    exact split_noBuddies hF hn hb (by omega) htile hdist

/-- `kern_malloc` leaves the heap alone and returns NULL, or takes a block with the request
rounded up to a multiple of 16 out of the free set. -/
theorem kernMalloc_spec {h : Heap} {F : Finset Block} (hr : HeapRep h F) {size : ℕ}
    (hmin : 2 ≤ size) (hmax : size ≤ 2147483648) (priority : ℕ) :
    kernMalloc h size priority = some (h, 0, size) ∨
    ∃ h' out F', kernMalloc h size priority = some (h', out, (size + 15) / 16 * 16) ∧
      Evolves (Covers F) h F h' F' ∧ Allocates F ⟨out, (size + 15) / 16 * 16⟩ F' := by
  obtain ⟨k, hround, hk, hle, _⟩ := roundUp_eq hmin hmax
  rcases acquireBlock_spec hr hk with hnone | ⟨b, h₁, heq, hb, hsz, hev, hsize⟩
  · left
    simp only [kernMalloc, hround, Option.bind_eq_bind, Option.bind_some, emptyCaches, hnone,
      ne_eq, not_true_eq_false, if_false, ite_self]
  · obtain ⟨h', F', hset, hev', hal⟩ := setupBlock_spec hr.toFreeSet hev hb hsize hmin (by omega)
    have hne : b.addr ≠ 0 := by have := hal.held.pos; simp only at this; omega
    simp only [kernMalloc, hround, Option.bind_eq_bind, Option.bind_some, emptyCaches, heq, ne_eq,
      hne, not_false_eq_true, if_true, hset]
    by_cases hreserve : 2 ^ k ≤ wsub h.heapFree emergencyStore
    · rw [if_pos (Or.inl hreserve)]
      exact Or.inr ⟨h', b.addr, F', rfl, hev', hal⟩
    · by_cases hprio : priority = 0
      · left
        rw [if_neg (by simp [hreserve, hprio]), if_neg hreserve]
      · rw [if_pos (Or.inr hprio)]
        exact Or.inr ⟨h', b.addr, F', rfl, hev', hal⟩

end KernelHeap
