import Metakernel.KernelHeapRuns

/-!
# Growing and shrinking a live block

`kern_realloc` trims, grows in place or moves. Every route but the move ends in
`cut_block_end`, which always gives one unit more than the request rounded down; when the
block is exactly as long as the request the end lies before the start of the cut.
-/
namespace KernelHeap

open ByteMemory DyadicBlocks

theorem cutLoop_step {fuel align piece : ℕ} {h : Heap} {curr size : ℕ} (hsize : size ≠ 0)
    (halign : addrSize curr = some align)
    (hpiece : (if size > align then some align else roundDown size) = some piece) :
    cutLoop (fuel + 1) h curr size = (insertAddr (h.setSize curr piece) curr).bind fun h =>
      cutLoop fuel h (wadd curr piece) (wsub size piece) := by
  by_cases hgt : size > align
  · rw [if_pos hgt, Option.some.injEq] at hpiece
    subst hpiece
    simp only [cutLoop, hsize, ne_eq, not_false_eq_true, if_true, halign, Option.bind_eq_bind,
      Option.bind_some, hgt]
  · rw [if_neg hgt] at hpiece
    simp only [cutLoop, hsize, ne_eq, not_false_eq_true, if_true, halign, Option.bind_eq_bind,
      Option.bind_some, hgt, if_false, hpiece]

def Cuttable (curr size : ℕ) : Prop :=
  ∀ m, curr ≤ 2097152 * m → curr + size < 2097152 * (m + 1)

theorem Cuttable.of_le {curr size : ℕ} (h : size ≤ largestBlock) : Cuttable curr size := by
  intro m hm
  have hlarge : largestBlock = 1048576 := by norm_num [largestBlock]
  omega

theorem Cuttable.rest {curr size piece : ℕ} (h : Cuttable curr size) (hle : piece ≤ size) :
    Cuttable (curr + piece) (size - piece) := by
  intro m hm
  have := h m (by omega)
  omega

theorem Cuttable.piece_le {curr size k : ℕ} (h : Cuttable curr size)
    (hfit : 2 ^ k ≤ size) (hdvd : 2 ^ k ∣ curr) : k ≤ 20 := by
  by_contra hk
  obtain ⟨m, hm⟩ : 2 ^ 21 ∣ curr := (pow_dvd_pow 2 (by omega)).trans hdvd
  have hbig : 2 ^ 21 ≤ 2 ^ k := Nat.pow_le_pow_right (by norm_num) (by omega)
  have := h m (by omega)
  omega

theorem cutLoop_tiles {R : ℕ → Prop} {fuel : ℕ} : ∀ {h : Heap} {F : Finset Block}
    {curr size : ℕ}, HeapRep h F → size < fuel → 0 < curr → curr + size ≤ 2147483648 →
    16 ∣ curr → 16 ∣ size → Cuttable curr size → Room R F curr (curr + size) →
    ∃ h' P, cutLoop fuel h curr size = some h' ∧ Tiles P curr (curr + size) ∧
      Evolves R h F h' (F ∪ P) := by
  induction fuel with
  | zero => intro h F curr size _ hf; omega
  | succ fuel ih =>
    intro h F curr size hr hfuel hpos hend hcurr hunit hcut hroom
    by_cases hdone : size = 0
    · subst hdone
      refine ⟨h, ∅, ?_, Tiles.empty curr, ?_⟩
      · rw [cutLoop, if_neg (by simp)]
      · rw [Finset.union_empty]
        exact Evolves.refl hr
    · have h16 : 16 ≤ size := Nat.le_of_dvd (by omega) hunit
      have hle := highBit_le (n := size) (by omega)
      have halign : 16 ≤ lowBit curr := by
        have hd : 2 ^ 4 ∣ curr := by simpa using hcurr
        simpa using (two_pow_dvd_iff hpos).mp hd
      -- the piece is a power of two that fits and that the address is aligned on
      obtain ⟨k, hk4, hpiece, hkle, hkd⟩ : ∃ k, 4 ≤ k ∧
          (if size > lowBit curr then some (lowBit curr) else roundDown size) = some (2 ^ k) ∧
          2 ^ k ≤ size ∧ 2 ^ k ∣ curr := by
        by_cases hgt : size > lowBit curr
        · refine ⟨padicValNat 2 curr, ?_, by rw [if_pos hgt]; rfl, ?_, lowBit_dvd curr⟩
          · apply (Nat.pow_le_pow_iff_right (a := 2) (by norm_num)).mp
            rw [← lowBit]
            simpa using halign
          · rw [← lowBit]
            omega
        · have h4 : 4 ≤ Nat.log 2 size := Nat.le_log_of_pow_le (by norm_num) (by simpa using h16)
          refine ⟨Nat.log 2 size, h4, ?_, hle, ?_⟩
          · rw [if_neg hgt, roundDown_eq (by omega) (by omega)]
            rfl
          · apply (two_pow_dvd_iff hpos).mpr
            rw [← highBit]
            omega
      have hk20 : k ≤ 20 := hcut.piece_le hkle hkd
      obtain ⟨hk16, _, hkunit⟩ := two_pow_range hk4 hk20
      have hq : FreeBlock ⟨curr, 2 ^ k⟩ := ⟨k, hk4, hk20, rfl, hkd, hpos, by simp only; omega⟩
      obtain ⟨h₁, heq₁, hev₁⟩ := hroom.insertSized hr hq (le_refl _) (by omega)
      have hroom' : Room R (insert ⟨curr, 2 ^ k⟩ F) (curr + 2 ^ k)
          (curr + 2 ^ k + (size - 2 ^ k)) :=
        hroom.insert (le_refl _) (by simp only; omega) (by omega) (by omega) (Or.inr (le_refl _))
      obtain ⟨h₂, P, heq₂, htile, hev₂⟩ := ih hev₁.rep (show size - 2 ^ k < fuel by omega)
        (by omega) (by omega) (Dvd.dvd.add hcurr hkunit) (Nat.dvd_sub hunit hkunit)
        (hcut.rest hkle) hroom'
      have hhi : curr + 2 ^ k + (size - 2 ^ k) = curr + size := by omega
      rw [hhi] at htile
      refine ⟨h₂, insert ⟨curr, 2 ^ k⟩ P, ?_, htile.insert_front hq rfl (by omega), ?_⟩
      · have hw : wadd curr (2 ^ k) = curr + 2 ^ k := wadd_eq (by omega)
        have hw' : wsub size (2 ^ k) = size - 2 ^ k := wsub_eq (by omega) hkle
        rw [cutLoop_step hdone (addrSize_eq hpos (by omega)) hpiece, heq₁, Option.bind_some, hw,
          hw', heq₂]
      · rw [← insert_union_tiles]
        exact hev₁.trans hev₂

def cutStart (min : ℕ) : ℕ := min / 16 * 16 + 16

theorem lt_cutStart (min : ℕ) : min < cutStart min := by
  unfold cutStart
  omega

theorem cutBlockEnd_tiles {R : ℕ → Prop} {h : Heap} {F : Finset Block} {p n min : ℕ}
    (hr : HeapRep h F) (hb : Held ⟨p, n⟩) (htail : Cuttable (p + cutStart min) (n - cutStart min))
    (hmin : cutStart min ≤ n) (hroom : Room R F (p + cutStart min) (p + n)) :
    ∃ h' P, cutBlockEnd h p min n = some (h', cutStart min) ∧
      Tiles P (p + cutStart min) (p + n) ∧ Evolves R h F h' (F ∪ P) := by
  have h16 := hb.sixteen_dvd
  obtain ⟨hpos, hunit, hlarge, _, hend⟩ := hb
  simp only at hpos hunit hlarge hend h16
  have hstart : 16 ∣ cutStart min := by
    unfold cutStart
    omega
  have hlen : p + cutStart min + (n - cutStart min) = p + n := by omega
  obtain ⟨h', P, heq, htile, hev⟩ := cutLoop_tiles hr
    (show n - cutStart min < loopBound by unfold loopBound; omega) (by omega)
    (show p + cutStart min + (n - cutStart min) ≤ 2147483648 by omega)
    (Dvd.dvd.add h16 hstart) (Nat.dvd_sub hunit hstart) htail (by rw [hlen]; exact hroom)
  rw [hlen] at htile
  have hw : wadd (min - min % 16) smallestBlock = cutStart min := by
    unfold cutStart at *
    rw [wadd_eq (by unfold smallestBlock; omega)]
    unfold smallestBlock
    omega
  have hw' : wadd p (cutStart min) = p + cutStart min := wadd_eq (by omega)
  have hw'' : wsub n (cutStart min) = n - cutStart min := wsub_eq (by omega) hmin
  refine ⟨h', P, ?_, htile, hev⟩
  rw [cutBlockEnd, hw, hw', hw'', heq, Option.bind_eq_bind, Option.bind_some]

theorem setSize_get (h : Heap) (p : ℕ) {n : ℕ} (hn : n < 4294967296) :
    (h.setSize p n).size p = n := load32_store32 h.mem (p + 12) hn

theorem insertAddr_large {h : Heap} (hhigh : h.highList = 16) {p k : ℕ} (hk : 20 < k)
    (hk32 : k < 32) : insertAddr (h.setSize p (2 ^ k)) p = none := by
  have hlt : 2 ^ k < 4294967296 := by
    calc 2 ^ k < 2 ^ 32 := Nat.pow_lt_pow_right (by norm_num) hk32
      _ = 4294967296 := by norm_num
  have hpow : addrPower ((h.setSize p (2 ^ k)).size p) = some k := by
    rw [setSize_get h p hlt, addrPower_eq (Nat.two_pow_pos k) hlt, Nat.log_pow (by norm_num)]
  have hlist : ¬ wsub k listOffset ≤ (h.setSize p (2 ^ k)).highList := by
    have hhigh' : (h.setSize p (2 ^ k)).highList = 16 := hhigh
    rw [hhigh', wsub_eq (by omega) (by unfold listOffset; omega)]
    unfold listOffset
    omega
  rw [insertAddr, hpow, Option.bind_eq_bind, Option.bind_some, if_neg hlist]

theorem insertAddr_highList {h h' : Heap} {p : ℕ} (heq : insertAddr h p = some h') :
    h'.highList = h.highList := by
  unfold insertAddr at heq
  simp only [Option.bind_eq_bind, Option.bind_eq_some_iff] at heq
  obtain ⟨power, _, heq⟩ := heq
  split at heq
  · obtain ⟨_, _, heq⟩ := Option.bind_eq_some_iff.mp heq
    rw [← Option.some.inj heq]
  · exact absurd heq (by simp)

/-- With more than the address space left to cut the walk goes on to a multiple of 2^21, where
no list is large enough. -/
theorem cutLoop_wild {fuel : ℕ} : ∀ {h : Heap} {curr size n m : ℕ}, h.highList = 16 → 0 < curr →
    curr + n = 2097152 * m → 2097152 * m < 4294967296 → size < 4294967296 →
    2097152 + n ≤ size → cutLoop fuel h curr size = none := by
  induction fuel with
  | zero =>
    intro h curr size n m _ _ _ _ _ _
    rfl
  | succ fuel ih =>
    intro h curr size n m hhigh hpos hnext hm hword hsize
    have halign := addrSize_eq hpos (show curr < 4294967296 by omega)
    have hval := padicValNat_lt_word hpos (show curr < 4294967296 by omega)
    by_cases hlow : lowBit curr ≤ 1048576
    · have hgt : size > lowBit curr := by omega
      rw [cutLoop_step (by omega) halign (if_pos hgt)]
      -- the distance to the next multiple of 2^21 is a positive multiple of the alignment
      have hdvd : lowBit curr ∣ n := by
        have hbig : lowBit curr ∣ 2097152 * m := by
          have : lowBit curr ∣ 2 ^ 20 := by
            rw [lowBit] at hlow ⊢
            exact two_pow_dvd_of_le (by simpa using hlow)
          exact (this.trans (by norm_num)).trans (Dvd.intro m rfl)
        rw [← hnext] at hbig
        exact (Nat.dvd_add_right (lowBit_dvd curr)).mp hbig
      have hn : 0 < n := by
        by_contra h0
        have hd : 2 ^ 21 ∣ curr := ⟨m, by omega⟩
        have := (two_pow_dvd_iff hpos).mp hd
        omega
      have hle := Nat.le_of_dvd hn hdvd
      cases hins : insertAddr (h.setSize curr (lowBit curr)) curr with
      | none => rfl
      | some h' =>
        have hhigh' : h'.highList = 16 := (insertAddr_highList hins).trans hhigh
        rw [Option.bind_some, wadd_eq (by omega), wsub_eq hword (by omega)]
        exact ih (n := n - lowBit curr) (m := m) hhigh' (by omega) (by omega) hm (by omega)
          (by omega)
    · obtain ⟨k, hpiece, hk, hk32⟩ : ∃ k, (if size > lowBit curr then some (lowBit curr)
          else roundDown size) = some (2 ^ k) ∧ 20 < k ∧ k < 32 := by
        by_cases hgt : size > lowBit curr
        · refine ⟨padicValNat 2 curr, if_pos hgt, ?_, hval⟩
          apply (Nat.pow_lt_pow_iff_right (a := 2) (by norm_num)).mp
          rw [← lowBit]
          omega
        · refine ⟨Nat.log 2 size, ?_, ?_, ?_⟩
          · rw [if_neg hgt, roundDown_eq (by omega) hword]
            rfl
          · exact Nat.le_log_of_pow_le (by norm_num) (by norm_num; omega)
          · exact Nat.log_lt_of_lt_pow (by omega) (by norm_num; omega)
      rw [cutLoop_step (by omega) halign hpiece, insertAddr_large hhigh hk hk32]
      rfl

/-- A cut of a block that is exactly as long as the request leaves the heap. -/
theorem cutBlockEnd_exact {h : Heap} (hhigh : h.highList = 16) {p n : ℕ} (hb : Held ⟨p, n⟩) :
    cutBlockEnd h p n n = none := by
  obtain ⟨hpos, ⟨u, hu⟩, hlarge, _, hend⟩ := hb
  simp only at hpos hu hlarge hend
  have hw : wadd (n - n % 16) smallestBlock = n + 16 := by
    unfold smallestBlock
    rw [wadd_eq (by omega)]
    omega
  have hw' : wadd p (n + 16) = p + n + 16 := by
    rw [wadd_eq (by omega)]
    omega
  have hw'' : wsub n (n + 16) = 4294967280 := by
    unfold wsub
    omega
  obtain ⟨m, d, hm, hlt⟩ : ∃ m d, p + n + 16 + d = 2097152 * m ∧ d < 2097152 :=
    ⟨(p + n + 16 + 2097151) / 2097152, _, Nat.add_sub_of_le (by omega), by omega⟩
  rw [cutBlockEnd, hw, hw', hw'', cutLoop_wild hhigh (by omega) hm (by omega) (by omega) (by omega)]
  rfl

theorem Absorb.size_lt {F : Finset Block} (hF : FreeSet F) {b c : Block} (h : Absorb F b c) :
    b.size < c.size := by
  cases h with
  | forward _ hs =>
    have := (hF.block _ hs).bounds.1
    simp only at *
    omega
  | backward _ hs =>
    have := (hF.block _ hs).bounds.1
    simp only at *
    omega

theorem Absorb.unique {F : Finset Block} (hF : FreeSet F) {b c d : Block} (hc : Absorb F b c)
    (hd : Absorb F b d) : c = d := by
  cases hc with
  | forward hlt hs =>
    cases hd with
    | forward _ ht =>
      have := hF.start_unique hs ht rfl
      simp only [Block.mk.injEq, true_and] at this
      rw [this]
    | backward heq _ => omega
  | backward heq hs =>
    cases hd with
    | forward hlt _ => omega
    | backward _ _ => rfl

theorem Absorb.size_le {F : Finset Block} (hF : FreeSet F) {b c : Block} (h : Absorb F b c) :
    c.size ≤ b.size + largestBlock := by
  cases h with
  | forward _ hs =>
    have := (hF.block _ hs).bounds.2.1
    simp only at *
    omega
  | backward _ hs =>
    have := (hF.block _ hs).bounds.2.1
    simp only at *
    omega

theorem Growth.size_lt {F : Finset Block} (hF : FreeSet F) {limit : ℕ} {b c : Block}
    (h : Growth (fun size => decide (size < limit)) F b c) (hlt : b.size < limit) :
    c.size < limit + largestBlock := by
  induction h with
  | refl => omega
  | tail _ hs _ =>
    have hless := of_decide_eq_true hs.1
    have hle := hs.2.size_le hF
    omega

/-- A free block that the grown block does not cover is still free. -/
theorem Absorbs.mem {F F' : Finset Block} (hF : FreeSet F) {b b' c : Block}
    (h : Absorbs b F b' F') (hc : c ∈ F) (hout : ¬ b'.covers c.addr) : c ∈ F' := by
  have hself : c.covers c.addr := by
    have := (hF.block c hc).bounds.1
    unfold Block.covers
    omega
  rcases (h.covers c.addr).mpr (Or.inl ⟨c, hc, hself⟩) with ⟨d, hd, hdx⟩ | hb
  · by_cases heq : d = c
    · exact heq ▸ hd
    · exact absurd hself ((hF.apart d (h.subset hd) c hc heq).not_covers hdx)
  · exact absurd hb hout

theorem Absorbs.absorb {F F' : Finset Block} (hF : FreeSet F) {b b' c : Block}
    (h : Absorbs b F b' F') (hc : Absorb F b' c) : Absorb F' b' c := by
  have hpos := h.held.pos
  have hlarge := h.held.large
  cases hc with
  | forward hlt hs =>
    refine .forward hlt (h.mem hF hs ?_)
    unfold Block.covers
    simp only
    omega
  | backward heq hs =>
    have hle := lowBit_le hpos
    refine .backward heq (h.mem hF hs ?_)
    unfold Block.covers
    simp only at *
    omega

/-- `grow_block` merges until the request is met or no neighbour is left. -/
theorem growLoop_grows {R : ℕ → Prop} (limit : ℕ) {fuel : ℕ} : ∀ {h : Heap} {F : Finset Block}
    {p n : ℕ}, HeapRep h F → F.card < fuel → Held ⟨p, n⟩ → (∀ c ∈ F, Block.Apart ⟨p, n⟩ c) →
    (∀ x, Covers F x → R x) →
    ∃ h' p' n' F', growLoop fuel h p n limit = some (h', p', n') ∧ Evolves R h F h' F' ∧
      Absorbs ⟨p, n⟩ F ⟨p', n'⟩ F' ∧
      Growth (fun size => decide (size < limit)) F ⟨p, n⟩ ⟨p', n'⟩ ∧
      (limit ≤ n' ∨ ∀ c, ¬ Absorb F' ⟨p', n'⟩ c) := by
  induction fuel with
  | zero => intro h F p n _ hf; omega
  | succ fuel ih =>
    intro h F p n hr hfuel hb hap hR
    by_cases hlt : n < limit
    · obtain ⟨h₁, m, F₁, heq₁, hev₁, habs₁, hgrow₁, hstop₁⟩ := forwardLoop_absorbs
        (fun size => decide (size < limit)) hr hr.card_lt hb hap hR
      have halign : addrSize p = some (lowBit p) := hb.addrSize
      have hR₁ : ∀ x, Covers F₁ x → R x := fun x hx => hR x (covers_mono habs₁.subset hx)
      have hstep : growLoop (fuel + 1) h p n limit = if m = lowBit p ∧ m < limit then (do
          let found ← lookupAddr h₁ (wsub p m)
          if found ≠ 0 ∧ h₁.size (wsub p m) = m then
            let h ← deleteAddr h₁ (wsub p m)
            let h := h.setSize (wsub p m) (h.size (wsub p m) * 2)
            growLoop fuel h (wsub p m) (h.size (wsub p m)) limit
          else some (h₁, p, m)) else some (h₁, p, m) := by
        simp only [growLoop, hlt, if_true, liveMergeForward, heq₁, Option.bind_eq_bind,
          Option.bind_some, halign]
      rw [hstep]
      by_cases hfull : m = lowBit p ∧ m < limit
      · have hle : m ≤ p := hfull.1 ▸ lowBit_le hb.pos
        have hw : wsub p m = p - m := wsub_eq hb.node.lt_word hle
        have hin := hb.node.2.2
        simp only at hin
        rw [if_pos hfull, hw]
        by_cases hback : ⟨p - m, m⟩ ∈ F₁
        · obtain ⟨h₂, hdel, _, hev₂, hsz⟩ := Evolves.deleteAddr hev₁.rep hback hR₁
          have habs₂ := Absorbs.backward hev₁.rep.toFreeSet habs₁.held habs₁.apart hfull.1 hback
          have hend := habs₂.held.inside
          have hlarge := habs₁.held.large
          simp only at hend hlarge
          -- the header of the lower half is inside the block that was just taken out
          have hev₃ : Evolves R h₂ (F₁.erase ⟨p - m, m⟩) (h₂.setSize (p - m) (m * 2))
              (F₁.erase ⟨p - m, m⟩) := by
            refine Evolves.setSize hev₂.rep _ fun x hx₁ hx₂ => ?_
            have hx : Block.covers ⟨p - m, m⟩ x := ⟨hx₁, by simp only; omega⟩
            refine ⟨?_, hR₁ x ⟨_, hback, hx⟩⟩
            intro hcov
            exact ((covers_erase hev₁.rep.apart hback).mp hcov).2 hx
          have hsz' : (h₂.setSize (p - m) (m * 2)).size (p - m) = 2 * m := by
            rw [setSize_size habs₂.held.node (by omega)]
            omega
          have hcard : (F₁.erase ⟨p - m, m⟩).card < fuel := by
            have h1 := Finset.card_erase_lt_of_mem hback
            have h2 := Finset.card_le_card habs₁.subset
            omega
          obtain ⟨h₃, p', n', F', heq, hev, habs, hgrow, hend'⟩ := ih hev₃.rep hcard habs₂.held
            habs₂.apart (fun x hx => hR₁ x (covers_mono habs₂.subset hx))
          have hgrow' : Growth (fun size => decide (size < limit)) F₁ ⟨p, m⟩ ⟨p', n'⟩ :=
            (hgrow.mono habs₂.subset).head ⟨decide_eq_true hfull.2, .backward hfull.1 hback⟩
          refine ⟨h₃, p', n', F', ?_, ((hev₁.trans hev₂).trans hev₃).trans hev,
            (habs₁.trans habs₂).trans habs, hgrow₁.trans (hgrow'.mono habs₁.subset), hend'⟩
          have hlook := hev₁.rep.lookupAddr_mem ⟨m, hback⟩
          have hne : p - m ≠ 0 := by have := habs₂.held.pos; simp only at this; omega
          have hread : h₁.size (p - m) = m := hev₁.rep.sizes _ hback
          simp only [hlook, Option.bind_eq_bind, Option.bind_some, ne_eq, hne, not_false_eq_true,
            hread, and_self, if_true, hdel, hsz, hsz', heq]
        · refine ⟨h₁, p, m, F₁, ?_, hev₁, habs₁, hgrow₁, Or.inr ?_⟩
          · by_cases hst : Starts F₁ (p - m)
            · obtain ⟨s, hs⟩ := hst
              have hread : h₁.size (p - m) = s := hev₁.rep.sizes _ hs
              have hcond : ¬ (p - m ≠ 0 ∧ s = m) := by
                rintro ⟨_, rfl⟩
                exact hback hs
              simp only [hev₁.rep.lookupAddr_mem ⟨s, hs⟩, Option.bind_eq_bind, Option.bind_some,
                hread, if_neg hcond]
            · simp only [hev₁.rep.lookupAddr_not_mem (by omega) hst, Option.bind_eq_bind,
                Option.bind_some, ne_eq, not_true_eq_false, false_and, if_false]
          · intro c hc
            cases hc with
            | forward h _ => omega
            | backward _ hs => exact hback hs
      · refine ⟨h₁, p, m, F₁, if_neg hfull, hev₁, habs₁, hgrow₁, ?_⟩
        by_cases hreach : limit ≤ m
        · exact Or.inl hreach
        · right
          intro c hc
          cases hc with
          | forward hsmall hs =>
            rcases hstop₁ with h | h | h
            · omega
            · simp only [decide_eq_false_iff_not] at h
              omega
            · exact h ⟨_, hs⟩
          | backward heq hs => exact hfull ⟨heq, by omega⟩
    · refine ⟨h, p, n, F, ?_, Evolves.refl hr, Absorbs.refl hb hap, .refl, Or.inl (by omega)⟩
      rw [growLoop, if_neg hlt]

def GrowsTo (F : Finset Block) (b : Block) (n : ℕ) : Prop :=
  ∃ p, Relation.ReflTransGen (Absorb F) b ⟨p, n⟩

theorem Growth.reaches {F : Finset Block} {wanted : ℕ → Bool} {b c : Block}
    (h : Growth wanted F b c) : Relation.ReflTransGen (Absorb F) b c := by
  induction h with
  | refl => exact .refl
  | tail _ hs ih => exact ih.tail hs.2

theorem reaches_size_le {F : Finset Block} (hF : FreeSet F) {b c : Block}
    (h : Relation.ReflTransGen (Absorb F) b c) : b.size ≤ c.size := by
  induction h with
  | refl => exact le_refl _
  | tail _ hs ih => exact le_trans ih (le_of_lt (hs.size_lt hF))

/-- Merging is deterministic, so the grown block lies on every run of merges that has not
passed the limit. -/
theorem Growth.on_path {F : Finset Block} (hF : FreeSet F) {limit : ℕ} {b c d : Block}
    (h : Growth (fun size => decide (size < limit)) F b c)
    (hd : Relation.ReflTransGen (Absorb F) b d) (hsize : limit ≤ d.size) :
    Relation.ReflTransGen (Absorb F) c d := by
  induction h with
  | refl => exact hd
  | tail _ hs ih =>
    have hlt := of_decide_eq_true hs.1
    rcases ih.cases_head with heq | ⟨e, he, hrest⟩
    · rw [heq] at hlt
      omega
    · rwa [hs.2.unique hF he]

structure GrowthEnd (F : Finset Block) (b : Block) (limit : ℕ) (c : Block) : Prop where
  growth : Growth (fun size => decide (size < limit)) F b c
  stop : limit ≤ c.size ∨ ∀ d, ¬ Absorb F c d

theorem GrowthEnd.last {F : Finset Block} {limit : ℕ} {b c d : Block} (h : GrowthEnd F b limit c)
    (hd : Growth (fun size => decide (size < limit)) F c d) : d = c := by
  rcases hd.cases_head with heq | ⟨e, he, _⟩
  · exact heq.symm
  · have hlt := of_decide_eq_true he.1
    rcases h.stop with hle | hnone
    · omega
    · exact absurd he.2 (hnone e)

theorem GrowthEnd.unique {F : Finset Block} (hF : FreeSet F) {limit : ℕ} {b c d : Block}
    (hc : GrowthEnd F b limit c) (hd : GrowthEnd F b limit d) : c = d := by
  have hright : Relator.RightUnique fun b c : Block =>
      decide (b.size < limit) = true ∧ Absorb F b c := fun _ _ _ h h' => h.2.unique hF h'.2
  rcases Relation.ReflTransGen.total_of_right_unique hright hc.growth hd.growth with h | h
  · exact (hc.last h).symm
  · exact hd.last h

/-- The grown block meets the limit exactly when the merges pass through it. -/
theorem grown_exact_iff {F : Finset Block} (hF : FreeSet F) {limit : ℕ} {b c : Block}
    (hend : GrowthEnd F b limit c) : c.size = limit ↔ GrowsTo F b limit := by
  constructor
  · intro heq
    refine ⟨c.addr, ?_⟩
    rw [← heq]
    exact hend.growth.reaches
  · rintro ⟨p, hp⟩
    have hpath := hend.growth.on_path hF hp (le_refl limit)
    rcases hpath.cases_head with heq | ⟨e, he, hrest⟩
    · rw [heq]
    · have hlt := he.size_lt hF
      have hle := reaches_size_le hF hrest
      simp only at hle
      rcases hend.stop with h | h
      · omega
      · exact absurd he (h e)

/-- What became of block `b`: it is now `c`, the free and the own bytes are the same together,
and the first `keep` bytes moved along. -/
structure Resized (h : Heap) (F : Finset Block) (b : Block) (h' : Heap) (F' : Finset Block)
    (c : Block) (keep : ℕ) : Prop where
  rep : HeapRep h' F'
  apart : ∀ d ∈ F', c.Apart d
  covers : ∀ x, Covers F' x ∨ c.covers x ↔ Covers F x ∨ b.covers x
  count : wadd h'.heapFree (bytes F) = wadd h.heapFree (bytes F')
  contents : ∀ i, i < keep → h'.mem (c.addr + i) = h.mem (b.addr + i)

theorem cutBlockEnd_resizes {h : Heap} {F : Finset Block} {p n min : ℕ} (hr : HeapRep h F)
    (hb : Held ⟨p, n⟩) (htail : Cuttable (p + cutStart min) (n - cutStart min))
    (hap : ∀ c ∈ F, Block.Apart ⟨p, n⟩ c) (hmin : cutStart min ≤ n) :
    ∃ h' F', cutBlockEnd h p min n = some (h', cutStart min) ∧
      Resized h F ⟨p, n⟩ h' F' ⟨p, cutStart min⟩ (cutStart min) := by
  have hroom : Room (fun x => Covers F x ∨ p + cutStart min ≤ x ∧ x < p + n) F
      (p + cutStart min) (p + n) := by
    refine ⟨?_, fun x hx => hx⟩
    intro c hc
    have := hap c hc
    unfold Block.Apart at this
    simp only at this
    omega
  obtain ⟨h', P, heq, htile, hev⟩ := cutBlockEnd_tiles hr hb htail hmin hroom
  refine ⟨h', F ∪ P, heq, hev.rep, ?_, ?_, hev.count, ?_⟩
  · intro c hc
    rcases Finset.mem_union.mp hc with hc | hc
    · have := hap c hc
      unfold Block.Apart at *
      simp only at *
      omega
    · exact Or.inl (htile.within hc).1
  · intro x
    rw [covers_union, htile.covers x, or_assoc]
    apply or_congr_right
    unfold Block.covers
    simp only
    omega
  · intro i hi
    apply hev.frame
    rintro (⟨c, hc, hcx⟩ | hx)
    · refine (hap c hc).not_covers ?_ hcx
      unfold Block.covers
      simp only
      omega
    · simp only at hx
      omega

/-- Copying the old contents to the front of a larger block that is out of the free set. -/
theorem HeapRep.copy {h : Heap} {F : Finset Block} (hr : HeapRep h F) {b : Block} {m : Memory}
    (hap : ∀ c ∈ F, b.Apart c) (hm : ∀ x, ¬ b.covers x → m x = h.mem x) :
    HeapRep { h with mem := m } F := by
  refine hr.congr_mem fun x hx => hm x ?_
  intro hbx
  obtain ⟨c, hc, hcx⟩ := hx
  exact (hap c hc).not_covers hbx hcx

/-- What `grow_block` leaves for the rest of `kern_realloc`. -/
structure Grown (h : Heap) (F : Finset Block) (b : Block) (limit : ℕ) (h' : Heap)
    (F' : Finset Block) (c : Block) : Prop where
  rep : HeapRep h' F'
  absorbs : Absorbs b F c F'
  ends : GrowthEnd F b limit c
  bounded : c.size < limit + largestBlock
  count : wadd h'.heapFree (bytes F) = wadd h.heapFree (bytes F')
  contents : ∀ x, b.covers x → h'.mem x = h.mem x
  front : c.addr ≤ b.addr

theorem growBlock_grown {h : Heap} {F : Finset Block} {p n limit : ℕ} (hr : HeapRep h F)
    (hb : Held ⟨p, n⟩) (hlt : n < limit) (hap : ∀ c ∈ F, Block.Apart ⟨p, n⟩ c) :
    ∃ h' p' n' F', growBlock h p n limit = some (h', p', n') ∧
      Grown h F ⟨p, n⟩ limit h' F' ⟨p', n'⟩ := by
  obtain ⟨h', p', n', F', heq, hev, habs, hgrow, hstop⟩ := growLoop_grows (R := Covers F)
    limit hr hr.card_lt hb hap (fun _ hx => hx)
  have hlarge := hb.large
  have hends : GrowthEnd F ⟨p, n⟩ limit ⟨p', n'⟩ :=
    ⟨hgrow, hstop.imp_right fun hnone d hd => hnone d (habs.absorb hr.toFreeSet hd)⟩
  refine ⟨h', p', n', F', heq, hev.rep, habs, hends, hgrow.size_lt hr.toFreeSet hlt, hev.count,
    ?_, ?_⟩
  · intro x hx
    apply hev.frame
    rintro ⟨c, hc, hcx⟩
    exact (hap c hc).not_covers hx hcx
  · have := habs.inner p ⟨le_refl p, by simp only at *; omega⟩
    exact this.1

/-- The grown block is long enough: move the data to its front and cut the rest off. -/
theorem Grown.cut_resizes {h h₁ : Heap} {F F₁ : Finset Block} {b : Block} {p n limit : ℕ}
    (hg : Grown h F b limit h₁ F₁ ⟨p, n⟩) (hlt : b.size < limit) (hfit : limit < n) :
    ∃ h' F', cutBlockEnd (if p ≠ b.addr then
        { h₁ with mem := Util.memmove h₁.mem p b.addr b.size } else h₁) p limit n =
        some (h', cutStart limit) ∧
      Resized h F b h' F' ⟨p, cutStart limit⟩ b.size := by
  have hheld := hg.absorbs.held
  have hunit := hheld.unit
  have hstart : cutStart limit ≤ n := by
    unfold cutStart
    simp only at hunit
    omega
  -- the data is in place in front of the grown block
  obtain ⟨h₂, hh₂, hrep₂, hfree, hdata⟩ : ∃ h₂, (if p ≠ b.addr then
        { h₁ with mem := Util.memmove h₁.mem p b.addr b.size } else h₁) = h₂ ∧
      HeapRep h₂ F₁ ∧ h₂.heapFree = h₁.heapFree ∧
      ∀ i, i < b.size → h₂.mem (p + i) = h.mem (b.addr + i) := by
    by_cases hmove : p = b.addr
    · refine ⟨h₁, if_neg (by simpa using hmove), hg.rep, rfl, ?_⟩
      intro i hi
      rw [hmove]
      exact hg.contents _ ⟨by omega, by omega⟩
    · refine ⟨_, if_pos hmove, ?_, rfl, ?_⟩
      · refine hg.rep.copy hg.absorbs.apart fun x hx => ?_
        rw [Util.memmove_spec, if_neg]
        unfold Block.covers at hx
        simp only at hx
        omega
      · intro i hi
        have hin : p ≤ p + i ∧ p + i < p + b.size := by omega
        simp only
        rw [Util.memmove_spec, if_pos hin, Nat.add_sub_cancel_left]
        exact hg.contents _ ⟨by omega, by omega⟩
  rw [hh₂]
  have hbound := hg.bounded
  have hstart' := lt_cutStart limit
  obtain ⟨h', F', heq, hres⟩ := cutBlockEnd_resizes hrep₂ hheld
    (Cuttable.of_le (by simp only at hbound; omega)) hg.absorbs.apart hstart
  refine ⟨h', F', heq, hres.rep, hres.apart, ?_, wadd_trans hg.count (hfree ▸ hres.count), ?_⟩
  · intro x
    rw [hres.covers x, hg.absorbs.covers x]
  · intro i hi
    rw [hres.contents i (by omega)]
    exact hdata i hi

theorem moveBlock_null {h : Heap} {ptr size keep grown old : ℕ} {n : ℕ}
    (hnull : kernMalloc h size 1 = some (h, 0, n)) :
    moveBlock h ptr size keep grown old = some (h, 0, old) := by
  have hzero : ¬ (0 : ℕ) ≠ 0 := by simp
  rw [moveBlock, hnull, Option.bind_eq_bind, Option.bind_some]
  dsimp only [emptyCaches]
  rw [if_neg hzero, hnull, Option.bind_some]
  dsimp only
  rw [if_neg hzero]

theorem moveBlock_moved {h h₁ h₂ : Heap} {ptr size keep grown old out n : ℕ}
    (hm : kernMalloc h size 1 = some (h₁, out, n)) (hne : out ≠ 0)
    (hf : kernFree { h₁ with mem := Util.memcpyLoHi h₁.mem out ptr keep } grown old = some h₂) :
    moveBlock h ptr size keep grown old = some (h₂, out, n) := by
  rw [moveBlock, hm, Option.bind_eq_bind, Option.bind_some]
  dsimp only
  rw [if_pos hne, hf, Option.bind_eq_bind, Option.bind_some]

/-- The grown block is too short: allocate, copy the data out and free what was grown. -/
theorem Grown.move_resizes {h h₁ h₂ : Heap} {F F₁ F₂ : Finset Block} {b : Block}
    {p n limit out s : ℕ} (hg : Grown h F b limit h₁ F₁ ⟨p, n⟩) (hb : Held b)
    (htop : n ≤ largestBlock) (hold : b.size ≤ s) (heq₂ : kernMalloc h₁ limit 1 = some (h₂, out, s))
    (hev₂ : Evolves (Covers F₁) h₁ F₁ h₂ F₂) (hal : Allocates F₁ ⟨out, s⟩ F₂) :
    ∃ h' F', moveBlock h₁ b.addr limit b.size p n = some (h', out, s) ∧
      Resized h F b h' F' ⟨out, s⟩ b.size := by
  have hlarge := hb.large
  have hne : out ≠ 0 := Nat.pos_iff_ne_zero.mp hal.held.pos
  have hcpos := hal.held.large
  have hgpos := hg.absorbs.held.large
  -- the new block was free, so it is apart from the grown one
  have hnew : Block.Apart ⟨p, n⟩ ⟨out, s⟩ := by
    apply Block.apart_of_not_covers (by omega) (by omega)
    intro x hx hcx
    obtain ⟨d, hd, hdx⟩ := (hal.covers x).mpr (Or.inr hcx)
    exact (hg.absorbs.apart d hd).not_covers hx hdx
  have hsrc : out ≤ b.addr ∨ b.addr + b.size ≤ out := by
    have h1 := hg.absorbs.inner b.addr ⟨le_refl _, by omega⟩
    have h2 := hg.absorbs.inner (b.addr + b.size - 1) ⟨by omega, by omega⟩
    unfold Block.Apart at hnew
    unfold Block.covers at h1 h2
    simp only at h1 h2 hnew
    omega
  have hcopy := Util.memcpyLoHi_spec (m := h₂.mem) hsrc
  have hrep₃ : HeapRep { h₂ with mem := Util.memcpyLoHi h₂.mem out b.addr b.size } F₂ := by
    refine hev₂.rep.copy hal.apart fun x hx => ?_
    rw [hcopy, if_neg]
    unfold Block.covers at hx
    simp only at hx
    omega
  have hap₂ : ∀ c ∈ F₂, Block.Apart ⟨p, n⟩ c := fun c hc =>
    apart_of_covers hev₂.rep.toFreeSet (by simp only at *; omega) hg.absorbs.apart
      (fun x hx => (hal.covers x).mpr (Or.inl hx)) hc
  obtain ⟨h₄, F₄, heq₄, hev₄, hcov₄, _⟩ := kernFree_spec
    (R := fun x => Covers F₂ x ∨ Block.covers ⟨p, n⟩ x) hrep₃ hg.absorbs.held htop hap₂
    (fun _ hx => hx)
  refine ⟨h₄, F₄, moveBlock_moved heq₂ hne heq₄, hev₄.rep, ?_, ?_,
    wadd_trans (wadd_trans hg.count hev₂.count) hev₄.count, ?_⟩
  · intro d hd
    have hdpos := (hev₄.rep.block d hd).bounds.1
    apply Block.apart_of_not_covers (by omega) (by omega)
    intro x hx hdx
    rcases (hcov₄ x).mp ⟨d, hd, hdx⟩ with ⟨e, he, hex⟩ | hpx
    · exact (hal.apart e he).not_covers hx hex
    · exact hnew.not_covers hpx hx
  · intro x
    rw [← hg.absorbs.covers x, hcov₄ x, hal.covers x]
    tauto
  · intro i hi
    have hx : Block.covers ⟨out, s⟩ (out + i) := ⟨by simp only; omega, by simp only; omega⟩
    have hout : ¬ (Covers F₂ (out + i) ∨ Block.covers ⟨p, n⟩ (out + i)) := by
      rintro (⟨d, hd, hdx⟩ | hpx)
      · exact (hal.apart d hd).not_covers hx hdx
      · exact hnew.not_covers hpx hx
    have hin : out ≤ out + i ∧ out + i < out + b.size := by omega
    have hbx : b.covers (b.addr + i) := ⟨by omega, by omega⟩
    rw [hev₄.frame _ hout]
    simp only
    rw [hcopy, if_pos hin, Nat.add_sub_cancel_left, hev₂.frame, hg.contents _ hbx]
    rintro ⟨d, hd, hdx⟩
    exact (hg.absorbs.apart d hd).not_covers (hg.absorbs.inner _ hbx) hdx

def Admitted (h : Heap) (size oldSize priority : ℕ) : Prop :=
  wsub size oldSize ≤ wsub h.heapFree emergencyStore ∨ priority ≠ 0

instance (h : Heap) (size oldSize priority : ℕ) : Decidable (Admitted h size oldSize priority) :=
  inferInstanceAs (Decidable (_ ∨ _))

/-- The call returns, and a block that it returns is as long as requested, partitions the heap
together with the other live blocks and the free ones, and starts with the old contents. -/
def ReallocKeeps (s : Session) (F : Finset Block) (b : Block) (size priority : ℕ) : Prop :=
  ∃ h' p n, kernRealloc s.heap b.addr size b.size priority = some (h', p, n) ∧
    (p ≠ 0 → size ≤ n ∧ ∃ F', HeapRep h' F' ∧ (∀ c ∈ F', Block.Apart ⟨p, n⟩ c) ∧
      (∀ d ∈ s.live.erase b, Block.Apart ⟨p, n⟩ d) ∧
      (∀ x, Covers F' x → Covers F x ∨ b.covers x) ∧
      (∀ x, Covers F' x ∨ Block.covers ⟨p, n⟩ x ∨ (∃ d ∈ s.live.erase b, d.covers x) ↔
        Covers F x ∨ ∃ d ∈ s.live, d.covers x) ∧
      ∀ i, i < min b.size size → h'.mem (p + i) = s.heap.mem (b.addr + i))

theorem Resized.keeps {s : Session} {F F' : Finset Block} {b : Block} {h' : Heap} {p n keep : ℕ}
    {size priority : ℕ} (hs : Owned s F) (hb : b ∈ s.live)
    (hres : Resized s.heap F b h' F' ⟨p, n⟩ keep) (hkeep : min b.size size ≤ keep)
    (hsize : size ≤ n) (hpos : 0 < n)
    (heq : kernRealloc s.heap b.addr size b.size priority = some (h', p, n)) :
    ReallocKeeps s F b size priority := by
  have hperm := List.perm_cons_erase hb
  have hpair : (b :: s.live.erase b).Pairwise Block.Apart :=
    hperm.pairwise_iff (fun h => h.symm) |>.mp hs.disjoint
  obtain ⟨hbap, _⟩ := List.pairwise_cons.mp hpair
  refine ⟨h', p, n, heq, fun _ => ⟨hsize, F', hres.rep, hres.apart, ?_, ?_, ?_, ?_⟩⟩
  · intro d hd
    have hdl := List.mem_of_mem_erase hd
    have hdpos := (hs.held d hdl).1.large
    apply Block.apart_of_not_covers hpos (by omega)
    intro x hx hdx
    rcases (hres.covers x).mp (Or.inr hx) with ⟨c, hc, hcx⟩ | hbx
    · exact (hs.apart d hdl c hc).not_covers hdx hcx
    · exact (hbap d hd).not_covers hbx hdx
  · exact fun x hx => (hres.covers x).mp (Or.inl hx)
  · intro x
    have hmem : (∃ d ∈ s.live, d.covers x) ↔ b.covers x ∨ ∃ d ∈ s.live.erase b, d.covers x := by
      simp only [hperm.mem_iff, List.mem_cons, exists_eq_or_imp]
    rw [hmem, ← or_assoc, ← or_assoc, hres.covers x]
  · exact fun i hi => hres.contents i (by omega)

theorem liveMergeForward_stop {h : Heap} {p n limit : ℕ} (hb : Held ⟨p, n⟩) (hle : limit ≤ n) :
    liveMergeForward h p n limit = some (h, n) := by
  have halign : addrSize p = some (lowBit p) := hb.addrSize
  have hstop : ¬ (n < lowBit p ∧ decide (n < limit) = true) := by
    rintro ⟨_, h⟩
    have := of_decide_eq_true h
    omega
  rw [liveMergeForward, show loopBound = 4294967295 + 1 from rfl, forwardLoop, halign,
    Option.bind_eq_bind, Option.bind_some, if_neg hstop]

theorem trimBlock_eq {h : Heap} {p n limit : ℕ} (hb : Held ⟨p, n⟩) (hle : limit ≤ n) :
    trimBlock h p limit n = (cutBlockEnd h p limit n).map fun r => (r.1, p, r.2) := by
  rw [trimBlock, liveMergeForward_stop hb hle, Option.bind_eq_bind, Option.bind_some]
  dsimp only
  cases cutBlockEnd h p limit n <;> rfl

theorem growOrMove_eq {h h₁ : Heap} {p n limit p₁ n₁ : ℕ}
    (hgrow : growBlock h p n limit = some (h₁, p₁, n₁)) :
    growOrMove h p limit n = if n₁ ≥ limit then
      (cutBlockEnd (if p₁ ≠ p then { h₁ with mem := Util.memmove h₁.mem p₁ p n } else h₁)
        p₁ limit n₁).map fun r => (r.1, p₁, r.2)
      else moveBlock h₁ p limit n p₁ n₁ := by
  rw [growOrMove]
  dsimp only
  rw [hgrow, Option.bind_eq_bind, Option.bind_some]
  dsimp only
  split
  · cases cutBlockEnd _ p₁ limit n₁ <;> rfl
  · rfl

theorem kernRealloc_shrink {h : Heap} {p n size priority : ℕ} (hle : size ≤ n) :
    kernRealloc h p size n priority = trimBlock h p size n := by
  rw [kernRealloc, if_pos hle]

theorem kernRealloc_admitted {h : Heap} {p n size priority : ℕ} (hlt : n < size)
    (hadm : Admitted h size n priority) :
    kernRealloc h p size n priority = growOrMove h p size n := by
  unfold Admitted at hadm
  rw [kernRealloc, if_neg (by omega), if_pos hadm]

theorem kernRealloc_refused {h : Heap} {p n size priority : ℕ} (hlt : n < size)
    (hadm : ¬ Admitted h size n priority) :
    kernRealloc h p size n priority = some (h, 0, n) := by
  unfold Admitted at hadm
  rw [kernRealloc, if_neg (by omega), if_neg hadm]
  dsimp only [emptyCaches]
  rw [if_neg hadm]

def ExactFit (h : Heap) (F : Finset Block) (b : Block) (size priority : ℕ) : Prop :=
  size = b.size ∨ b.size < size ∧ Admitted h size b.size priority ∧ GrowsTo F b size

theorem realloc_exact_fit {h : Heap} {F : Finset Block} {b : Block} {size priority : ℕ}
    (hr : HeapRep h F) (hb : Held b) (hap : ∀ c ∈ F, b.Apart c)
    (hexact : ExactFit h F b size priority) :
    kernRealloc h b.addr size b.size priority = none := by
  rcases hexact with rfl | ⟨hlt, hadm, hgrows⟩
  · rw [kernRealloc_shrink (le_refl _), trimBlock_eq hb (le_refl _),
      cutBlockEnd_exact hr.high hb]
    rfl
  · obtain ⟨h₁, p₁, n₁, F₁, heq, hg⟩ := growBlock_grown hr hb hlt hap
    have hn : n₁ = size := (grown_exact_iff hr.toFreeSet hg.ends).mpr hgrows
    subst hn
    rw [kernRealloc_admitted hlt hadm, growOrMove_eq heq, if_pos (le_refl _)]
    have hhigh := hg.rep.high
    rw [cutBlockEnd_exact (by split <;> exact hhigh) hg.absorbs.held]
    rfl

theorem realloc_keeps {s : Session} {F : Finset Block} {b : Block} {size priority : ℕ}
    (hs : Owned s F) (hb : b ∈ s.live) (hmax : size ≤ largestBlock)
    (hexact : ¬ ExactFit s.heap F b size priority) : ReallocKeeps s F b size priority := by
  obtain ⟨hheld, htop⟩ := hs.held b hb
  have hstart := lt_cutStart size
  by_cases hle : size ≤ b.size
  · have hne : size ≠ b.size := fun h => hexact (Or.inl h)
    have hunit := hheld.unit
    obtain ⟨h', F', heq, hres⟩ := cutBlockEnd_resizes hs.rep hheld
      (Cuttable.of_le (le_trans (Nat.sub_le _ _) htop)) (hs.apart b hb)
      (show cutStart size ≤ b.size by unfold cutStart; omega)
    refine hres.keeps hs hb (by omega) (by omega) (by omega) ?_
    rw [kernRealloc_shrink hle, trimBlock_eq hheld hle, heq]
    rfl
  · have hlt : b.size < size := by omega
    by_cases hadm : Admitted s.heap size b.size priority
    · obtain ⟨h₁, p₁, n₁, F₁, heq, hg⟩ := growBlock_grown hs.rep hheld hlt (hs.apart b hb)
      have hn : n₁ ≠ size := fun h =>
        hexact (Or.inr ⟨hlt, hadm, (grown_exact_iff hs.rep.toFreeSet hg.ends).mp h⟩)
      by_cases hbig : n₁ ≥ size
      · obtain ⟨h', F', hcut, hres⟩ := hg.cut_resizes hlt (by omega)
        refine hres.keeps hs hb (min_le_left _ _) (by omega) (by omega) ?_
        rw [kernRealloc_admitted hlt hadm, growOrMove_eq heq, if_pos hbig]
        dsimp only at hcut
        rw [hcut]
        rfl
      · have hrun : kernRealloc s.heap b.addr size b.size priority =
            moveBlock h₁ b.addr size b.size p₁ n₁ := by
          rw [kernRealloc_admitted hlt hadm, growOrMove_eq heq, if_neg hbig]
        have hlarge := hheld.large
        have hword : largestBlock ≤ 2147483648 := by norm_num [largestBlock]
        rcases kernMalloc_spec hg.rep (show 2 ≤ size by omega) (by omega) 1 with
          hnull | ⟨h₂, out, F₂, heq₂, hev₂, hal⟩
        · exact ⟨h₁, 0, n₁, hrun.trans (moveBlock_null hnull), fun h => absurd rfl h⟩
        · obtain ⟨h', F', hmove, hres⟩ := hg.move_resizes hheld (show n₁ ≤ largestBlock by omega)
            (show b.size ≤ (size + 15) / 16 * 16 by omega) heq₂ hev₂ hal
          exact hres.keeps hs hb (min_le_left _ _) (by omega) (by omega) (hrun.trans hmove)
    · exact ⟨_, 0, b.size, kernRealloc_refused hlt hadm, fun h => absurd rfl h⟩

/-- A request is served correctly exactly when it does not fit exactly. -/
theorem realloc_keeps_iff {s : Session} {F : Finset Block} {b : Block} {size : ℕ}
    (hs : Owned s F) (hb : b ∈ s.live) (hmax : size ≤ largestBlock) (priority : ℕ) :
    ReallocKeeps s F b size priority ↔ ¬ ExactFit s.heap F b size priority := by
  constructor
  · rintro ⟨h', p, n, hrun, _⟩ hexact
    rw [realloc_exact_fit hs.rep (hs.held b hb).1 (hs.apart b hb) hexact] at hrun
    exact absurd hrun (by simp)
  · exact realloc_keeps hs hb hmax

/-- Two small live blocks behind the free one, with a gap of one unit between them. -/
def twoLive : Session := ⟨oneBlockHeap, [⟨0x200000, 16⟩, ⟨0x200020, 16⟩]⟩

theorem lowBit_ge {p : ℕ} (k : ℕ) (hp : 0 < p) (h : 2 ^ k ∣ p) : 2 ^ k ≤ lowBit p :=
  (two_pow_dvd_iff hp).mp h

theorem twoLive_owned : Owned twoLive {oneBlock} := by
  refine ⟨oneBlockHeap_rep, ?_, ?_, ?_⟩
  · intro b hb
    simp only [twoLive, List.mem_cons, List.not_mem_nil, or_false] at hb
    rcases hb with rfl | rfl
    · refine ⟨⟨by norm_num, by norm_num, by norm_num, ?_, by norm_num⟩, by norm_num [largestBlock]⟩
      exact lowBit_ge 4 (by norm_num) (by norm_num)
    · refine ⟨⟨by norm_num, by norm_num, by norm_num, ?_, by norm_num⟩, by norm_num [largestBlock]⟩
      exact lowBit_ge 4 (by norm_num) (by norm_num)
  · decide
  · intro b hb c hc
    rw [Finset.mem_singleton.mp hc]
    simp only [twoLive, List.mem_cons, List.not_mem_nil, or_false] at hb
    rcases hb with rfl | rfl <;> decide

theorem realloc_keeps_smaller : ReallocKeeps twoLive {oneBlock} ⟨0x200000, 16⟩ 8 0 := by
  apply (realloc_keeps_iff twoLive_owned (by decide) (by norm_num [largestBlock]) 0).mpr
  rintro (h | ⟨h, _⟩)
  · exact absurd h (by norm_num)
  · exact absurd h (by norm_num)

/-- Asking for the 16 bytes that the first block has: the cut starts at the second live block
and puts it on a free list. -/
theorem realloc_same_size_fails : ¬ ReallocKeeps twoLive {oneBlock} ⟨0x200000, 16⟩ 16 0 ∧
    0x200000 + cutStart 16 = 0x200020 ∧
    ∃ h, insertAddr (oneBlockHeap.setSize 0x200020 32) 0x200020 = some h ∧
      HeapRep h (insert ⟨0x200020, 32⟩ {oneBlock}) := by
  refine ⟨?_, rfl, ?_⟩
  · rintro ⟨h', p, n, hrun, _⟩
    have hb : (⟨0x200000, 16⟩ : Block) ∈ twoLive.live := by decide
    rw [realloc_exact_fit twoLive_owned.rep (twoLive_owned.held _ hb).1 (twoLive_owned.apart _ hb)
      (Or.inl rfl)] at hrun
    exact absurd hrun (by simp)
  · have hfree : FreeBlock ⟨0x200020, 32⟩ :=
      ⟨5, by norm_num, by norm_num, rfl, by norm_num, by norm_num, by norm_num⟩
    have hap : ∀ c ∈ ({oneBlock} : Finset Block), Block.Apart ⟨0x200020, 32⟩ c := by
      intro c hc
      rw [Finset.mem_singleton.mp hc]
      decide
    obtain ⟨h, heq, hev⟩ := Evolves.insertSized (R := fun _ => True) oneBlockHeap_rep hfree hap
      (fun _ _ => trivial)
    exact ⟨h, heq, hev.rep⟩

end KernelHeap
