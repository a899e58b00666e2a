import Mathlib.Data.Finset.Card
import Mathlib.Data.Finset.Max
import Mathlib.NumberTheory.Padics.PadicVal.Basic
import Mathlib.Tactic.Ring

/-!
# Blocks of addresses aligned on a power of two

A block is an address interval. Dyadic blocks have a power-of-two size and are aligned
on it, so two of them are nested or apart. A set of dyadic blocks without free buddies
is determined by the addresses it covers; this is what makes coalescing canonical.
-/
namespace DyadicBlocks

structure Block where
  addr : ℕ
  size : ℕ
  deriving DecidableEq, Repr

def Block.covers (b : Block) (x : ℕ) : Prop := b.addr ≤ x ∧ x < b.addr + b.size

instance (b : Block) (x : ℕ) : Decidable (b.covers x) :=
  inferInstanceAs (Decidable (_ ∧ _))

/-- The two intervals do not meet. An empty block is apart from a block around it only
at the ends, which is enough here: every block in use has a positive size. -/
def Block.Apart (b c : Block) : Prop := b.addr + b.size ≤ c.addr ∨ c.addr + c.size ≤ b.addr

instance (b c : Block) : Decidable (b.Apart c) := inferInstanceAs (Decidable (_ ∨ _))

theorem Block.Apart.symm {b c : Block} (h : b.Apart c) : c.Apart b := Or.symm h

theorem Block.Apart.not_covers {b c : Block} (h : b.Apart c) {x : ℕ} (hb : b.covers x) :
    ¬ c.covers x := by
  unfold Block.Apart Block.covers at *
  omega

theorem Block.apart_of_not_covers {b c : Block} (hb : 0 < b.size) (hc : 0 < c.size)
    (h : ∀ x, b.covers x → ¬ c.covers x) : b.Apart c := by
  by_contra hn
  have hx := h (max b.addr c.addr)
  unfold Block.Apart Block.covers at *
  omega

def Covers (F : Finset Block) (x : ℕ) : Prop := ∃ b ∈ F, b.covers x

def PairwiseApart (F : Finset Block) : Prop := ∀ b ∈ F, ∀ c ∈ F, b ≠ c → b.Apart c

def bytes (F : Finset Block) : ℕ := ∑ b ∈ F, b.size

@[simp] theorem covers_empty (x : ℕ) : ¬ Covers ∅ x := by simp [Covers]

@[simp] theorem covers_insert {b : Block} {F : Finset Block} {x : ℕ} :
    Covers (insert b F) x ↔ b.covers x ∨ Covers F x := by
  simp [Covers]

theorem covers_union {F G : Finset Block} {x : ℕ} :
    Covers (F ∪ G) x ↔ Covers F x ∨ Covers G x := by
  simp only [Covers, Finset.mem_union]
  constructor
  · rintro ⟨b, hb | hb, hx⟩
    · exact Or.inl ⟨b, hb, hx⟩
    · exact Or.inr ⟨b, hb, hx⟩
  · rintro (⟨b, hb, hx⟩ | ⟨b, hb, hx⟩)
    · exact ⟨b, Or.inl hb, hx⟩
    · exact ⟨b, Or.inr hb, hx⟩

theorem covers_mono {F G : Finset Block} (h : F ⊆ G) {x : ℕ} (hx : Covers F x) : Covers G x := by
  obtain ⟨b, hb, hbx⟩ := hx
  exact ⟨b, h hb, hbx⟩

theorem covers_erase {F : Finset Block} (hF : PairwiseApart F) {b : Block} (hb : b ∈ F) {x : ℕ} :
    Covers (F.erase b) x ↔ Covers F x ∧ ¬ b.covers x := by
  constructor
  · rintro ⟨c, hc, hx⟩
    obtain ⟨hne, hc⟩ := Finset.mem_erase.mp hc
    exact ⟨⟨c, hc, hx⟩, (hF c hc b hb hne).not_covers hx⟩
  · rintro ⟨⟨c, hc, hx⟩, hn⟩
    refine ⟨c, Finset.mem_erase.mpr ⟨?_, hc⟩, hx⟩
    rintro rfl
    exact hn hx

theorem PairwiseApart.subset {F G : Finset Block} (hF : PairwiseApart F) (h : G ⊆ F) :
    PairwiseApart G := fun b hb c hc => hF b (h hb) c (h hc)

theorem PairwiseApart.insert {F : Finset Block} {b : Block} (hF : PairwiseApart F)
    (hb : ∀ c ∈ F, b.Apart c) : PairwiseApart (insert b F) := by
  intro c hc d hd hne
  rw [Finset.mem_insert] at hc hd
  rcases hc with rfl | hc
  · rcases hd with rfl | hd
    · exact absurd rfl hne
    · exact hb d hd
  · rcases hd with rfl | hd
    · exact (hb c hc).symm
    · exact hF c hc d hd hne

theorem bytes_insert {F : Finset Block} {b : Block} (hb : b ∉ F) :
    bytes (insert b F) = b.size + bytes F := Finset.sum_insert hb

theorem bytes_erase {F : Finset Block} {b : Block} (hb : b ∈ F) :
    b.size + bytes (F.erase b) = bytes F := Finset.add_sum_erase F Block.size hb

theorem PairwiseApart.bytes_eq_card {F : Finset Block} (hF : PairwiseApart F) :
    bytes F = (F.biUnion fun b => Finset.Ico b.addr (b.addr + b.size)).card := by
  rw [Finset.card_biUnion]
  · simp [bytes]
  · intro b hb c hc hne
    refine Finset.disjoint_left.mpr fun x hx hx' => ?_
    exact (hF b hb c hc hne).not_covers (Finset.mem_Ico.mp hx) (Finset.mem_Ico.mp hx')

theorem bytes_congr {F G : Finset Block} (hF : PairwiseApart F) (hG : PairwiseApart G)
    (h : ∀ x, Covers F x ↔ Covers G x) : bytes F = bytes G := by
  rw [hF.bytes_eq_card, hG.bytes_eq_card]
  congr 1
  ext x
  simp only [Finset.mem_biUnion, Finset.mem_Ico]
  exact h x

/-- A block of positive size that is apart from every member is not itself a member. -/
theorem not_mem_of_apart {F : Finset Block} {b : Block} (hs : 0 < b.size)
    (h : ∀ c ∈ F, b.Apart c) : b ∉ F := by
  intro hb
  have := h b hb
  unfold Block.Apart at this
  omega

/-- Bytes move between a set and a block outside it, and none is lost. -/
theorem bytes_add_congr {F G : Finset Block} {b c : Block} (hF : PairwiseApart F)
    (hG : PairwiseApart G) (hb : ∀ d ∈ F, b.Apart d) (hc : ∀ d ∈ G, c.Apart d)
    (hbs : 0 < b.size) (hcs : 0 < c.size)
    (h : ∀ x, Covers F x ∨ b.covers x ↔ Covers G x ∨ c.covers x) :
    bytes F + b.size = bytes G + c.size := by
  have heq := bytes_congr (hF.insert hb) (hG.insert hc) fun x => by
    rw [covers_insert, covers_insert, or_comm, h x, or_comm]
  rw [bytes_insert (not_mem_of_apart hbs hb), bytes_insert (not_mem_of_apart hcs hc)] at heq
  omega

theorem two_pow_dvd_of_le {k l : ℕ} (h : 2 ^ k ≤ 2 ^ l) : 2 ^ k ∣ 2 ^ l :=
  pow_dvd_pow 2 ((Nat.pow_le_pow_iff_right (by norm_num)).mp h)

/-- Two multiples of `d` closer than `d` are equal. -/
theorem eq_of_dvd_of_close {d a b : ℕ} (ha : d ∣ a) (hb : d ∣ b) (h₁ : a < b + d)
    (h₂ : b < a + d) : a = b := by
  obtain ⟨i, rfl⟩ := ha
  obtain ⟨j, rfl⟩ := hb
  rcases Nat.lt_trichotomy i j with h | h | h
  · have : d * (i + 1) ≤ d * j := Nat.mul_le_mul_left d h
    rw [Nat.mul_add, Nat.mul_one] at this
    omega
  · rw [h]
  · have : d * (j + 1) ≤ d * i := Nat.mul_le_mul_left d h
    rw [Nat.mul_add, Nat.mul_one] at this
    omega

/-- A multiple of `d` strictly below another one is at least `d` below it. -/
theorem add_le_of_dvd_of_lt {d a b : ℕ} (ha : d ∣ a) (hb : d ∣ b) (h : a < b) : a + d ≤ b := by
  by_contra hn
  exact absurd (eq_of_dvd_of_close ha hb (by omega) (by omega)) (by omega)

def lowBit (p : ℕ) : ℕ := 2 ^ padicValNat 2 p

def highBit (n : ℕ) : ℕ := 2 ^ Nat.log 2 n

theorem lowBit_pos (p : ℕ) : 0 < lowBit p := Nat.two_pow_pos _

theorem lowBit_dvd (p : ℕ) : lowBit p ∣ p := pow_padicValNat_dvd

theorem lowBit_le {p : ℕ} (hp : 0 < p) : lowBit p ≤ p := Nat.le_of_dvd hp (lowBit_dvd p)

theorem two_pow_dvd_iff {p k : ℕ} (hp : 0 < p) : 2 ^ k ∣ p ↔ 2 ^ k ≤ lowBit p := by
  have : Fact (Nat.Prime 2) := ⟨Nat.prime_two⟩
  rw [padicValNat_dvd_iff_le (by omega), lowBit, Nat.pow_le_pow_iff_right (by norm_num)]

theorem highBit_le {n : ℕ} (hn : 0 < n) : highBit n ≤ n := Nat.pow_log_le_self 2 (by omega)

theorem lt_two_mul_highBit (n : ℕ) : n < 2 * highBit n := by
  have := Nat.lt_pow_succ_log_self (b := 2) (by norm_num) n
  unfold highBit
  omega

/-- An address just past a block that is smaller than its alignment is the start only of
blocks that divide the block and fit below the alignment. -/
theorem dvd_size_of_forward {p n k : ℕ} (hp : 0 < p) (hn : 0 < n) (hlt : n < lowBit p)
    (hk : 2 ^ k ∣ p + n) : 2 ^ k ∣ n ∧ n + 2 ^ k ≤ lowBit p := by
  have hsmall : 2 ^ k < lowBit p := by
    by_contra hge
    have hdvd : lowBit p ∣ 2 ^ k := by
      unfold lowBit at *
      exact two_pow_dvd_of_le (by omega)
    have hn' : lowBit p ∣ n := (Nat.dvd_add_right (lowBit_dvd p)).mp (hdvd.trans hk)
    exact absurd (Nat.le_of_dvd hn hn') (by omega)
  have hkp : 2 ^ k ∣ p := (two_pow_dvd_iff hp).mpr (by omega)
  have hkn : 2 ^ k ∣ n := (Nat.dvd_add_right hkp).mp hk
  have hkl : 2 ^ k ∣ lowBit p := by
    unfold lowBit at *
    exact two_pow_dvd_of_le (by omega)
  exact ⟨hkn, add_le_of_dvd_of_lt hkn hkl hlt⟩

def IsDyadic (b : Block) : Prop := ∃ k, b.size = 2 ^ k ∧ 2 ^ k ∣ b.addr

theorem IsDyadic.size_pos {b : Block} (h : IsDyadic b) : 0 < b.size := by
  obtain ⟨k, hk, _⟩ := h
  rw [hk]
  exact Nat.two_pow_pos k

/-- Dyadic blocks that share an address are nested, the smaller inside the larger. -/
theorem IsDyadic.nested {b c : Block} (hb : IsDyadic b) (hc : IsDyadic c) (hle : b.size ≤ c.size)
    {x : ℕ} (hxb : b.covers x) (hxc : c.covers x) :
    c.addr ≤ b.addr ∧ b.addr + b.size ≤ c.addr + c.size := by
  obtain ⟨i, hbs, hba⟩ := hb
  obtain ⟨j, hcs, hca⟩ := hc
  rw [hbs, hcs] at hle
  have hij : 2 ^ i ∣ 2 ^ j := two_pow_dvd_of_le hle
  have hic : 2 ^ i ∣ c.addr := hij.trans hca
  have hie : 2 ^ i ∣ c.addr + c.size := by
    rw [hcs]
    exact Dvd.dvd.add hic hij
  unfold Block.covers at hxb hxc
  rw [hbs] at hxb ⊢
  constructor
  · by_contra hlt
    have := add_le_of_dvd_of_lt hba hic (by omega)
    omega
  · exact add_le_of_dvd_of_lt hba hie (by omega)

def Buddies (b c : Block) : Prop :=
  b.size = c.size ∧ c.addr = b.addr + b.size ∧ 2 * b.size ∣ b.addr

theorem Buddies.not_dvd {b c : Block} (h : Buddies b c) (hpos : 0 < b.size) :
    ¬ 2 * b.size ∣ c.addr := by
  obtain ⟨_, hadj, hd⟩ := h
  intro hc
  rw [hadj, Nat.dvd_add_right hd] at hc
  exact absurd (Nat.le_of_dvd hpos hc) (by omega)

def NoBuddies (top : ℕ) (F : Finset Block) : Prop :=
  ∀ b ∈ F, ∀ c ∈ F, b.size < top → ¬ Buddies b c

def Block.parent (b : Block) : Block :=
  if 2 * b.size ∣ b.addr then ⟨b.addr, 2 * b.size⟩ else ⟨b.addr - b.size, 2 * b.size⟩

def Block.buddy (b : Block) : Block :=
  if 2 * b.size ∣ b.addr then ⟨b.addr + b.size, b.size⟩ else ⟨b.addr - b.size, b.size⟩

theorem sub_dvd_of_odd_multiple {d a : ℕ} (ha : d ∣ a) (hn : ¬ 2 * d ∣ a) :
    d ≤ a ∧ 2 * d ∣ a - d := by
  obtain ⟨i, rfl⟩ := ha
  have hodd : ¬ 2 ∣ i := by
    rintro ⟨j, rfl⟩
    exact hn ⟨j, by ring⟩
  obtain ⟨j, rfl⟩ : ∃ j, i = 2 * j + 1 := ⟨i / 2, by omega⟩
  refine ⟨Nat.le_mul_of_pos_right d (by omega), ⟨j, ?_⟩⟩
  have : d * (2 * j + 1) = 2 * d * j + d := by ring
  omega

theorem not_two_mul_lowBit_dvd {p : ℕ} (hp : 0 < p) : ¬ 2 * lowBit p ∣ p := by
  have h2 : 2 * lowBit p = 2 ^ (padicValNat 2 p + 1) := by rw [lowBit]; ring
  intro hd
  have hle := (two_pow_dvd_iff hp).mp (h2 ▸ hd)
  have hpos := lowBit_pos p
  omega

theorem two_mul_lowBit_dvd_sub {p : ℕ} (hp : 0 < p) : 2 * lowBit p ∣ p - lowBit p :=
  (sub_dvd_of_odd_multiple (lowBit_dvd p) (not_two_mul_lowBit_dvd hp)).2

theorem two_mul_lowBit_dvd_add {p : ℕ} (hp : 0 < p) : 2 * lowBit p ∣ p + lowBit p := by
  have hle := lowBit_le hp
  have hd := Dvd.dvd.add (two_mul_lowBit_dvd_sub hp) (dvd_refl (2 * lowBit p))
  have heq : p - lowBit p + 2 * lowBit p = p + lowBit p := by omega
  rwa [heq] at hd

theorem IsDyadic.parent {b : Block} (hb : IsDyadic b) : IsDyadic b.parent := by
  have hpos := hb.size_pos
  obtain ⟨k, hs, ha⟩ := hb
  have h2 : 2 * b.size = 2 ^ (k + 1) := by rw [hs]; ring
  unfold Block.parent
  split
  · next h => exact ⟨k + 1, h2, h2 ▸ h⟩
  · next h => exact ⟨k + 1, h2, h2 ▸ (sub_dvd_of_odd_multiple (hs ▸ ha) h).2⟩

theorem IsDyadic.buddy {b : Block} (hb : IsDyadic b) : IsDyadic b.buddy := by
  have hpos := hb.size_pos
  obtain ⟨k, hs, ha⟩ := hb
  unfold Block.buddy
  split
  · exact ⟨k, hs, Dvd.dvd.add ha (by rw [hs])⟩
  · exact ⟨k, hs, Nat.dvd_sub ha (by rw [hs])⟩

theorem IsDyadic.parent_covers {b : Block} (hb : IsDyadic b) {x : ℕ} :
    b.parent.covers x ↔ b.covers x ∨ b.buddy.covers x := by
  have hpos := hb.size_pos
  obtain ⟨k, hs, ha⟩ := hb
  unfold Block.parent Block.buddy
  split
  · simp only [Block.covers]; omega
  · next h =>
    have := (sub_dvd_of_odd_multiple (hs ▸ ha) h).1
    simp only [Block.covers]; omega

theorem IsDyadic.buddies_buddy {b : Block} (hb : IsDyadic b) :
    Buddies b b.buddy ∨ Buddies b.buddy b := by
  have hpos := hb.size_pos
  obtain ⟨k, hs, ha⟩ := hb
  unfold Block.buddy
  split
  · next h => exact Or.inl ⟨rfl, rfl, h⟩
  · next h =>
    obtain ⟨hle, hd⟩ := sub_dvd_of_odd_multiple (hs ▸ ha) h
    refine Or.inr ⟨rfl, ?_, hd⟩
    simp only
    omega

@[simp] theorem Block.parent_size (b : Block) : b.parent.size = 2 * b.size := by
  unfold Block.parent; split <;> rfl

@[simp] theorem Block.buddy_size (b : Block) : b.buddy.size = b.size := by
  unfold Block.buddy; split <;> rfl

theorem IsDyadic.two_mul_le {b c : Block} (hb : IsDyadic b) (hc : IsDyadic c) (h : b.size < c.size) :
    2 * b.size ≤ c.size := by
  obtain ⟨i, hi, _⟩ := hb
  obtain ⟨j, hj, _⟩ := hc
  rw [hi, hj] at h
  rw [hi, hj]
  have hij : i + 1 ≤ j := (Nat.pow_lt_pow_iff_right (by norm_num)).mp h
  calc 2 * 2 ^ i = 2 ^ (i + 1) := by ring
    _ ≤ 2 ^ j := Nat.pow_le_pow_right (by norm_num) hij

/-- A dyadic block whose addresses are all covered by a buddy-free set of dyadic blocks lies
inside any member that it meets. The smallest member inside it would otherwise have its
buddy beside it. -/
theorem NoBuddies.absorbs {top : ℕ} {G : Finset Block} (hd : ∀ c ∈ G, IsDyadic c)
    (ha : PairwiseApart G) (hn : NoBuddies top G) {b : Block} (hb : IsDyadic b)
    (htop : b.size ≤ top) (hcov : ∀ x, b.covers x → Covers G x) {g : Block} (hg : g ∈ G)
    {x : ℕ} (hxb : b.covers x) (hxg : g.covers x) : b.size ≤ g.size := by
  by_contra hlt
  classical
  let S := G.filter (fun c => c.size < b.size ∧ b.covers c.addr)
  have hgS : g ∈ S := by
    have hin := (hd g hg).nested hb (by omega) hxg hxb
    have := (hd g hg).size_pos
    refine Finset.mem_filter.mpr ⟨hg, by omega, ?_⟩
    unfold Block.covers
    omega
  obtain ⟨c, hcS, hmin⟩ := Finset.exists_min_image S Block.size ⟨g, hgS⟩
  obtain ⟨hcG, hcb, hcin⟩ := Finset.mem_filter.mp hcS
  have hcd := hd c hcG
  have hcpos := hcd.size_pos
  have hself : c.covers c.addr := by unfold Block.covers; omega
  -- the parent of the smallest member is still inside `b`, so its buddy is covered too
  have hpar := hcd.parent.nested hb (by
    rw [Block.parent_size]
    exact hcd.two_mul_le hb hcb) (hcd.parent_covers.mpr (Or.inl hself)) hcin
  have hbud : c.buddy.covers c.buddy.addr := by
    have := c.buddy_size
    unfold Block.covers
    omega
  have hbudb : b.covers c.buddy.addr := by
    have := hcd.parent_covers.mpr (Or.inr hbud)
    unfold Block.covers at this ⊢
    omega
  obtain ⟨d, hdG, hdx⟩ := hcov _ hbudb
  have hne : c ≠ d := by
    rintro rfl
    rcases hcd.buddies_buddy with h | h <;>
      · have h2 := h.2.1
        have h3 := c.buddy_size
        unfold Block.covers at hdx
        omega
  have hdc : d.size ≤ c.size := by
    by_contra hgt
    have hsz : c.parent.size ≤ d.size := by
      rw [Block.parent_size]
      exact hcd.two_mul_le (hd d hdG) (by omega)
    have hin := hcd.parent.nested (hd d hdG) hsz (hcd.parent_covers.mpr (Or.inr hbud)) hdx
    have hcp := hcd.parent_covers.mpr (Or.inl hself)
    refine (ha c hcG d hdG hne).not_covers hself ?_
    unfold Block.covers at hcp ⊢
    omega
  have hdb := (hd d hdG).nested hcd.buddy (by rw [Block.buddy_size]; exact hdc) hdx hbud
  have hdS : d ∈ S := by
    refine Finset.mem_filter.mpr ⟨hdG, by omega, ?_⟩
    have hsz := c.buddy_size
    have hdpos := (hd d hdG).size_pos
    have hin : c.parent.covers d.addr :=
      hcd.parent_covers.mpr (Or.inr (by unfold Block.covers; omega))
    unfold Block.covers at hin ⊢
    omega
  have heq : d.size = c.size := le_antisymm hdc (hmin d hdS)
  have hdbud : d = c.buddy := by
    have hsz := c.buddy_size
    cases hx : d with
    | mk a n =>
      cases hy : c.buddy with
      | mk a' n' =>
        simp only [hx, hy] at hdb hsz heq
        simp only [Block.mk.injEq]
        omega
  rcases hcd.buddies_buddy with h | h
  · exact hn c hcG d hdG (by omega) (hdbud ▸ h)
  · exact hn d hdG c hcG (by omega) (hdbud ▸ h)

/-- A buddy-free set of apart dyadic blocks is determined by the addresses it covers. -/
theorem canonical_unique {top : ℕ} {F G : Finset Block}
    (hF : ∀ b ∈ F, IsDyadic b ∧ b.size ≤ top) (hG : ∀ b ∈ G, IsDyadic b ∧ b.size ≤ top)
    (haF : PairwiseApart F) (haG : PairwiseApart G) (hnF : NoBuddies top F)
    (hnG : NoBuddies top G) (hcov : ∀ x, Covers F x ↔ Covers G x) : F = G := by
  have sub : ∀ {F G : Finset Block}, (∀ b ∈ F, IsDyadic b ∧ b.size ≤ top) →
      (∀ b ∈ G, IsDyadic b ∧ b.size ≤ top) → PairwiseApart F → PairwiseApart G →
      NoBuddies top F → NoBuddies top G → (∀ x, Covers F x ↔ Covers G x) → F ⊆ G := by
    intro F G hF hG haF haG hnF hnG hcov b hb
    obtain ⟨hbd, hbt⟩ := hF b hb
    have hpos := hbd.size_pos
    have hself : b.covers b.addr := by unfold Block.covers; omega
    obtain ⟨g, hg, hgx⟩ := (hcov _).mp ⟨b, hb, hself⟩
    have hle := hnG.absorbs (fun c hc => (hG c hc).1) haG hbd hbt
      (fun x hx => (hcov x).mp ⟨b, hb, hx⟩) hg hself hgx
    have hge := hnF.absorbs (fun c hc => (hF c hc).1) haF (hG g hg).1 (hG g hg).2
      (fun x hx => (hcov x).mpr ⟨g, hg, hx⟩) hb hgx hself
    have hin := hbd.nested (hG g hg).1 hle hself hgx
    have hout := (hG g hg).1.nested hbd hge hgx hself
    have : b = g := by
      cases b; cases g
      simp only [Block.mk.injEq] at *
      omega
    exact this ▸ hg
  exact Finset.Subset.antisymm (sub hF hG haF haG hnF hnG hcov)
    (sub hG hF haG haF hnG hnF (fun x => (hcov x).symm))

end DyadicBlocks
