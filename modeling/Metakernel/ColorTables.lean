import Metakernel.IndexedHeaps
import Metakernel.PageAllocator

/-!
# The color table of page_alloc.c

The ordered list is a heap with the least used color at its head, and each color knows its place.
Places of the list count from 0 and indices of the heap from 1.
-/
namespace PhysicalPages

open IndexedHeaps

/-- The ordered list is a permutation of the colors, the index table is its inverse, and no color is
used less than the one above it in the heap. -/
structure TableInOrder (colors : ℕ) (tab : ColorTable) : Prop where
  permuted : Permuted colors tab
  inverse : ∀ j < colors, (tab.index (tab.ordered j).toNat).toNat = j
  ordered : ∀ j, 1 ≤ j → j < colors →
    tab.count (tab.ordered ((j - 1) / 2)).toNat ≤ tab.count (tab.ordered j).toNat

namespace ColorTable

def layout (tab : ColorTable) : Layout ℕ where
  slot j := if j = 0 then 0 else (tab.ordered (j - 1)).toNat
  pos c := (tab.index c).toNat + 1

def rank (tab : ColorTable) (c : ℕ) : ℤ := -((tab.count c).toNat : ℤ)

variable {tab : ColorTable} {colors color i n c : ℕ} {count num : BitVec 32} {S : Set ℕ}

theorem layout_slot (tab : ColorTable) (hi : 1 ≤ i) : tab.layout.slot i = (tab.ordered (i - 1)).toNat :=
  if_neg (by omega)

theorem layout_place (tab : ColorTable) (color : BitVec 32) (hi : 1 ≤ i) (hlt : i < 2 ^ 32) :
    (tab.place (i - 1) color).layout = tab.layout.place i color.toNat := by
  have hslot : (tab.place (i - 1) color).layout.slot = (tab.layout.place i color.toNat).slot := by
    funext j
    by_cases hj : j = 0
    · simp [layout, Layout.place, hj, show 0 ≠ i by omega]
    · by_cases hji : j = i
      · simp [layout, Layout.place, ColorTable.place, hji, show i ≠ 0 by omega]
      · simp [layout, Layout.place, ColorTable.place, hj, hji, show j - 1 ≠ i - 1 by omega]
  have hpos : (tab.place (i - 1) color).layout.pos = (tab.layout.place i color.toNat).pos := by
    funext c
    by_cases hc : c = color.toNat
    · simp only [layout, Layout.place, ColorTable.place, hc, Function.update_self, BitVec.toNat_ofNat]
      omega
    · simp [layout, Layout.place, ColorTable.place, hc]
  exact congrArg₂ Layout.mk hslot hpos

theorem indexed_of_inOrder (h : TableInOrder colors tab) :
    Indexed tab.layout colors {c | c < colors} := by
  constructor
  · intro j hj hjn
    rw [layout_slot tab hj]
    show (tab.index (tab.ordered (j - 1)).toNat).toNat + 1 = j
    rw [h.inverse (j - 1) (by omega)]
    omega
  · intro c
    rw [Set.mem_ofPred_eq, ← h.permuted.mem_iff]
    constructor
    · rintro ⟨j, hj, rfl⟩
      exact ⟨j + 1, by omega, by omega, layout_slot tab (by omega)⟩
    · rintro ⟨j, hj, hjn, rfl⟩
      exact ⟨j - 1, by omega, (layout_slot tab hj).symm⟩

theorem ordered_of_inOrder (h : TableInOrder colors tab) : Ordered tab.rank tab.layout colors := by
  intro j hj hjn
  have hle := h.ordered (j - 1) (by omega) (by omega)
  rw [BitVec.le_def] at hle
  rw [layout_slot tab (by omega), layout_slot tab (by omega), rank, rank,
    show j / 2 - 1 = (j - 1 - 1) / 2 by omega]
  omega

theorem inOrder_of_layout (hind : Indexed tab.layout colors {c | c < colors})
    (hord : Ordered tab.rank tab.layout colors) : TableInOrder colors tab := by
  have hslot : ∀ j < colors, tab.layout.slot (j + 1) = (tab.ordered j).toNat :=
    fun j _ => layout_slot tab (by omega)
  have hpos : ∀ j < colors, (tab.index (tab.ordered j).toNat).toNat = j := by
    intro j hj
    have hp := hind.pos (j + 1) (by omega) (by omega)
    rw [hslot j hj] at hp
    exact Nat.succ.inj hp
  refine ⟨?_, hpos, ?_⟩
  · have hinj : ((List.range colors).map fun i => (tab.ordered i).toNat).Nodup := by
      refine List.Nodup.map_on ?_ List.nodup_range
      intro i hi j hj heq
      rw [← hpos i (List.mem_range.mp hi), heq, hpos j (List.mem_range.mp hj)]
    refine (List.perm_ext_iff_of_nodup hinj List.nodup_range).mpr fun c => ?_
    rw [List.mem_map, List.mem_range]
    have hmem := hind.mem c
    rw [Set.mem_ofPred_eq] at hmem
    rw [hmem]
    constructor
    · rintro ⟨j, hj, rfl⟩
      exact ⟨j + 1, by omega, by rw [List.mem_range] at hj; omega, hslot j (List.mem_range.mp hj)⟩
    · rintro ⟨j, hj, hjn, rfl⟩
      exact ⟨j - 1, List.mem_range.mpr (by omega), (layout_slot tab hj).symm⟩
  · intro j hj hjn
    have hle := hord (j + 1) (by omega) (by omega)
    rw [layout_slot tab (by omega), layout_slot tab (by omega), rank, rank,
      show (j + 1) / 2 - 1 = (j - 1) / 2 by omega] at hle
    rw [BitVec.le_def]
    simp only [Nat.add_sub_cancel] at hle
    omega

structure Open (colors : ℕ) (tab : ColorTable) (i : ℕ) (S : Set ℕ) : Prop where
  holed : Holed tab.layout colors i S
  around : OrderedAround tab.rank tab.layout colors i

theorem Open.move_up (h : Open colors tab i S) (hlt : colors < 2 ^ 32) (hi : 2 ≤ i) :
    Open colors (tab.place (i - 1) (tab.ordered (i / 2 - 1))) (i / 2) S := by
  have hle := h.holed.le
  have hlay := layout_place tab (tab.ordered (i / 2 - 1)) h.holed.one_le (by omega)
  rw [← layout_slot tab (show 1 ≤ i / 2 by omega)] at hlay
  constructor
  · rw [hlay]
    exact h.holed.move (by omega) (by omega) (by omega)
  · rw [hlay]
    exact h.around.up hi hle

theorem Open.move_down (h : Open colors tab i S) (hlt : colors < 2 ^ 32) {j : ℕ} (hj : j / 2 = i)
    (hjn : j ≤ colors)
    (hbest : ∀ k, k ≤ colors → k / 2 = i →
      tab.count (tab.ordered (j - 1)).toNat ≤ tab.count (tab.ordered (k - 1)).toNat) :
    Open colors (tab.place (i - 1) (tab.ordered (j - 1))) j S := by
  have hone := h.holed.one_le
  have hle := h.holed.le
  have hlay := layout_place tab (tab.ordered (j - 1)) hone (by omega)
  rw [← layout_slot tab (show 1 ≤ j by omega)] at hlay
  constructor
  · rw [hlay]
    exact h.holed.move (by omega) hjn (by omega)
  · rw [hlay]
    refine h.around.down hj hjn fun k hkn hk => ?_
    have hcount := hbest k hkn hk
    rw [BitVec.le_def] at hcount
    rw [layout_slot tab (by omega), layout_slot tab (by omega), rank, rank]
    omega

/-- The count `count` may stand below the parent of the place. -/
def Fits (tab : ColorTable) (i : ℕ) (count : BitVec 32) : Prop :=
  2 ≤ i → tab.count (tab.ordered (i / 2 - 1)).toNat ≤ count

theorem siftUp_open (hlt : colors < 2 ^ 32) : ∀ {fuel i : ℕ} {tab : ColorTable}, i < 2 ^ (fuel + 1) →
    Open colors tab i S →
    Open colors (siftUp count fuel tab i).1 (siftUp count fuel tab i).2 S ∧
      (siftUp count fuel tab i).1.Fits (siftUp count fuel tab i).2 count ∧
      (siftUp count fuel tab i).1.count = tab.count := by
  intro fuel
  induction fuel with
  | zero =>
    intro i tab hi h
    refine ⟨h, fun h2 => ?_, rfl⟩
    have hi2 : 2 ≤ i := h2
    omega
  | succ fuel ih =>
    intro i tab hi h
    have hone := h.holed.one_le
    rw [siftUp]
    split
    · rename_i hup
      have hhalf : i / 2 < 2 ^ (fuel + 1) := by
        rw [pow_succ] at hi
        omega
      exact ih hhalf (h.move_up hlt (by omega))
    · rename_i hstop
      refine ⟨h, fun h2 => ?_, rfl⟩
      exact BitVec.not_lt.mp fun hcount => hstop ⟨by omega, hcount⟩

def Covers (colors : ℕ) (tab : ColorTable) (i : ℕ) (count : BitVec 32) : Prop :=
  ∀ k, k ≤ colors → k / 2 = i → count ≤ tab.count (tab.ordered (k - 1)).toNat

theorem siftDown_open (hlt : colors < 2 ^ 32) : ∀ {fuel i : ℕ} {tab : ColorTable},
    colors < 2 ^ (fuel + 1) * i → Open colors tab i S → tab.Fits i count →
    Open colors (siftDown colors count fuel tab i).1 (siftDown colors count fuel tab i).2 S ∧
      (siftDown colors count fuel tab i).1.Fits (siftDown colors count fuel tab i).2 count ∧
      (siftDown colors count fuel tab i).1.Covers colors (siftDown colors count fuel tab i).2 count ∧
      (siftDown colors count fuel tab i).1.count = tab.count := by
  intro fuel
  induction fuel with
  | zero =>
    intro i tab hi h hfits
    refine ⟨h, hfits, fun k hkn hk => ?_, rfl⟩
    have hk' : k / 2 = i := hk
    omega
  | succ fuel ih =>
    intro i tab hi h hfits
    -- the less used child moves up when it is used less than `count`
    have child : ∀ j, (j = 2 * i ∨ j = 2 * i + 1) → j ≤ colors →
        tab.count (tab.ordered (j - 1)).toNat < count →
        (∀ k, k ≤ colors → k / 2 = i →
          tab.count (tab.ordered (j - 1)).toNat ≤ tab.count (tab.ordered (k - 1)).toNat) →
        Open colors (siftDown colors count fuel (tab.place (i - 1) (tab.ordered (j - 1))) j).1
          (siftDown colors count fuel (tab.place (i - 1) (tab.ordered (j - 1))) j).2 S ∧
        (siftDown colors count fuel (tab.place (i - 1) (tab.ordered (j - 1))) j).1.Fits
          (siftDown colors count fuel (tab.place (i - 1) (tab.ordered (j - 1))) j).2 count ∧
        (siftDown colors count fuel (tab.place (i - 1) (tab.ordered (j - 1))) j).1.Covers colors
          (siftDown colors count fuel (tab.place (i - 1) (tab.ordered (j - 1))) j).2 count ∧
        (siftDown colors count fuel (tab.place (i - 1) (tab.ordered (j - 1))) j).1.count = tab.count := by
      intro j hj hjn hless hbest
      have hhalf : j / 2 = i := by omega
      refine ih ?_ (h.move_down hlt hhalf hjn hbest) fun _ => ?_
      · have hpow : 2 ^ (fuel + 1 + 1) * i = 2 ^ (fuel + 1) * (2 * i) := by
          rw [pow_succ, Nat.mul_assoc]
        rw [hpow] at hi
        exact hi.trans_le (Nat.mul_le_mul_left _ (by omega))
      · rw [hhalf]
        simp only [ColorTable.place, Function.update_self]
        exact BitVec.le_of_lt hless
    have children : ∀ k, k / 2 = i → k = 2 * i ∨ k = 2 * i + 1 := by
      intro k hk
      omega
    have hright : 2 * i + 1 - 1 = 2 * i := rfl
    have hr := child (2 * i + 1) (Or.inr rfl)
    have hl := child (2 * i) (Or.inl rfl)
    rw [hright] at hr
    rw [siftDown]
    split
    · rename_i hless
      split
      · rename_i hlr
        refine hr hless.1 hless.2 fun k hkn hk => ?_
        rcases children k hk with rfl | rfl
        · exact BitVec.le_of_lt hlr
        · exact BitVec.le_refl _
      · rename_i hlr
        have hle : tab.count (tab.ordered (2 * i - 1)).toNat ≤ tab.count (tab.ordered (2 * i)).toNat :=
          BitVec.not_lt.mp hlr
        have hlt' : tab.count (tab.ordered (2 * i - 1)).toNat < count := by
          have hright' := hless.2
          rw [BitVec.lt_def] at hright' ⊢
          rw [BitVec.le_def] at hle
          omega
        refine hl (by omega) hlt' fun k hkn hk => ?_
        rcases children k hk with rfl | rfl
        · exact BitVec.le_refl _
        · exact hle
    · rename_i hnot
      split
      · rename_i hless
        split
        · rename_i hlr
          exact absurd ⟨hlr.1, BitVec.lt_trans hlr.2 hless.2⟩ hnot
        · rename_i hlr
          refine hl hless.1 hless.2 fun k hkn hk => ?_
          rcases children k hk with rfl | rfl
          · exact BitVec.le_refl _
          · exact BitVec.not_lt.mp fun hlt' => hlr ⟨hkn, hlt'⟩
      · rename_i hnot'
        refine ⟨h, hfits, fun k hkn hk => ?_, rfl⟩
        rcases children k hk with rfl | rfl
        · exact BitVec.not_lt.mp fun hlt' => hnot' ⟨hkn, hlt'⟩
        · exact BitVec.not_lt.mp fun hlt' => hnot ⟨hkn, hlt'⟩

theorem siftUp_extra (count : BitVec 32) (extra : ℕ) : ∀ {fuel i : ℕ} {tab : ColorTable}, 1 ≤ i →
    i < 2 ^ (fuel + 1) → siftUp count (fuel + extra) tab i = siftUp count fuel tab i := by
  intro fuel
  induction fuel with
  | zero =>
    intro i tab h1 hi
    cases extra with
    | zero => rfl
    | succ extra => rw [Nat.zero_add, siftUp, siftUp, if_neg (by omega)]
  | succ fuel ih =>
    intro i tab h1 hi
    rw [Nat.add_right_comm, siftUp, siftUp]
    split
    · refine ih (by omega) ?_
      rw [pow_succ] at hi
      omega
    · rfl

theorem siftDown_extra (colors : ℕ) (count : BitVec 32) (extra : ℕ) :
    ∀ {fuel i : ℕ} {tab : ColorTable}, colors < 2 ^ (fuel + 1) * i →
      siftDown colors count (fuel + extra) tab i = siftDown colors count fuel tab i := by
  intro fuel
  induction fuel with
  | zero =>
    intro i tab hi
    cases extra with
    | zero => rfl
    | succ extra =>
      rw [Nat.zero_add, siftDown, siftDown, if_neg (by omega), if_neg (by omega)]
  | succ fuel ih =>
    intro i tab hi
    have hpow : 2 ^ (fuel + 1 + 1) * i = 2 ^ (fuel + 1) * (2 * i) := by
      rw [pow_succ, Nat.mul_assoc]
    have hleft : colors < 2 ^ (fuel + 1) * (2 * i) := hpow ▸ hi
    have hright : colors < 2 ^ (fuel + 1) * (2 * i + 1) :=
      hleft.trans_le (Nat.mul_le_mul_left _ (by omega))
    rw [Nat.add_right_comm, siftDown, siftDown]
    simp only [ih hleft, ih hright]

def counted (tab : ColorTable) (color : ℕ) (count : BitVec 32) : ColorTable :=
  { tab with count := Function.update tab.count color count }

theorem counted_rank (tab : ColorTable) (count : BitVec 32) (hc : c ≠ color) :
    (tab.counted color count).rank c = tab.rank c := by
  simp [rank, counted, hc]

theorem slot_index (h : TableInOrder colors tab) (hc : color < colors) :
    (tab.index color).toNat < colors ∧ tab.layout.slot ((tab.index color).toNat + 1) = color := by
  obtain ⟨-, hle, hslot⟩ := (indexed_of_inOrder h).slot_pos (show color ∈ {c | c < colors} from hc)
  exact ⟨hle, hslot⟩

theorem open_counted (h : TableInOrder colors tab) (hc : color < colors) (count : BitVec 32) :
    Open colors (tab.counted color count) ((tab.index color).toNat + 1) ({c | c < colors} \ {color}) := by
  obtain ⟨hlt, hslot⟩ := slot_index h hc
  have hind := indexed_of_inOrder h
  constructor
  · have hholed := hind.holed (show 1 ≤ (tab.index color).toNat + 1 by omega) hlt
    rw [hslot] at hholed
    exact hholed
  · have hord : Ordered tab.rank (tab.counted color count).layout colors := ordered_of_inOrder h
    refine hord.around hlt fun j hj hjn hne => ?_
    refine counted_rank tab count fun heq => hne ?_
    have hpos : tab.layout.pos (tab.layout.slot j) = j := hind.pos j hj hjn
    rw [show tab.layout.slot j = color from heq] at hpos
    exact hpos.symm

theorem inOrder_of_open {r : ColorTable} (hlt : colors < 2 ^ 32) (hc : color < colors)
    (h : Open colors r i ({c | c < colors} \ {color})) (hfits : r.Fits i (r.count color))
    (hcovers : r.Covers colors i (r.count color)) :
    TableInOrder colors (r.place (i - 1) (BitVec.ofNat 32 color)) := by
  have hcolor : (BitVec.ofNat 32 color).toNat = color := by
    rw [BitVec.toNat_ofNat]
    omega
  have hle := h.holed.le
  have hlay := layout_place r (BitVec.ofNat 32 color) h.holed.one_le (by omega)
  rw [hcolor] at hlay
  apply inOrder_of_layout
  · rw [hlay]
    have hset : insert color ({c | c < colors} \ {color}) = {c | c < colors} := by
      rw [Set.insert_sdiff_singleton]
      exact Set.insert_eq_of_mem hc
    have hplaced := (h.holed.place (show color ∉ {c | c < colors} \ {color} from fun hm => hm.2 rfl)).1
    rw [hset] at hplaced
    exact hplaced
  · rw [hlay]
    refine h.around.place ?_ ?_
    · intro h2
      have hparent := hfits h2
      rw [BitVec.le_def] at hparent
      rw [layout_slot r (by omega), rank, rank]
      omega
    · intro k hkn hk
      have hone := h.holed.one_le
      have hchild := hcovers k hkn hk
      rw [BitVec.le_def] at hchild
      rw [layout_slot r (by omega), rank, rank]
      omega

theorem first_least (h : TableInOrder colors tab) (hc : c < colors) :
    tab.count (tab.ordered 0).toNat ≤ tab.count c := by
  obtain ⟨j, hj, hjn, rfl⟩ := ((indexed_of_inOrder h).mem c).mp hc
  have hle := Ordered.le_first (ordered_of_inOrder h) hj hjn
  rw [layout_slot tab le_rfl, rank, rank] at hle
  rw [BitVec.le_def]
  simp only [Nat.sub_self] at hle
  omega

end ColorTable

open ColorTable

variable {tab : ColorTable} {colors color : ℕ} {num : BitVec 32}

theorem toNat_add_of_range (a : BitVec 32) (hlow : 0 ≤ (a.toNat : ℤ) + num.toInt)
    (hhigh : (a.toNat : ℤ) + num.toInt < 2 ^ 32) : ((a + num).toNat : ℤ) = a.toNat + num.toInt := by
  rw [BitVec.toNat_add]
  rw [BitVec.toInt_eq_toNat_cond] at hlow hhigh ⊢
  have ha := a.isLt
  have hn := num.isLt
  split at hlow <;> split <;> omega

/-- A count that grows fits below the parent where the color stands. -/
theorem fits_of_grown (h : TableInOrder colors tab) (hc : color < colors) {count : BitVec 32}
    (hle : tab.count color ≤ count) :
    (tab.counted color count).Fits ((tab.index color).toNat + 1) count := by
  intro h2
  obtain ⟨hplace, hslot⟩ := slot_index h hc
  rw [layout_slot tab (by omega), Nat.add_sub_cancel] at hslot
  have hparent := h.ordered (tab.index color).toNat (by omega) hplace
  rw [hslot] at hparent
  have hhalf : ((tab.index color).toNat + 1) / 2 - 1 = ((tab.index color).toNat - 1) / 2 := by omega
  have hne : (tab.ordered (((tab.index color).toNat - 1) / 2)).toNat ≠ color := by
    intro heq
    have hinv := h.inverse (((tab.index color).toNat - 1) / 2) (by omega)
    rw [heq] at hinv
    omega
  rw [hhalf]
  simp only [counted, Function.update_of_ne hne]
  exact BitVec.le_trans hparent hle

/-- The table and the place after the way up, which a growing count does not need. -/
def risen (tab : ColorTable) (color : ℕ) (num : BitVec 32) : ColorTable × ℕ :=
  let tab' := tab.counted color (tab.count color + num)
  let i := (tab.index color).toNat + 1
  if num.slt 0 then siftUp (tab.count color + num) 32 tab' i else (tab', i)

theorem changeColorCount_eq (colors color : ℕ) (tab : ColorTable) (hzero : num ≠ 0) :
    changeColorCount colors tab color num =
      let r := siftDown colors (tab.count color + num) 32 (risen tab color num).1 (risen tab color num).2
      r.1.place (r.2 - 1) (BitVec.ofNat 32 color) := by
  rw [changeColorCount, if_pos hzero]
  rfl

theorem risen_open (hlt : colors < 2 ^ 32) (h : TableInOrder colors tab) (hc : color < colors)
    (hgrow : num.slt 0 = false → tab.count color ≤ tab.count color + num) :
    Open colors (risen tab color num).1 (risen tab color num).2 ({c | c < colors} \ {color}) ∧
      (risen tab color num).1.Fits (risen tab color num).2 (tab.count color + num) ∧
      (risen tab color num).1.count = Function.update tab.count color (tab.count color + num) := by
  have hopen := open_counted h hc (tab.count color + num)
  unfold risen
  cases hup : num.slt 0 with
  | true =>
    obtain ⟨hplace, -⟩ := slot_index h hc
    exact siftUp_open hlt (show (tab.index color).toNat + 1 < 2 ^ (32 + 1) by omega) hopen
  | false => exact ⟨hopen, fits_of_grown h hc (hgrow hup), rfl⟩

theorem changeColorCount_inOrder (hlt : colors < 2 ^ 32) (h : TableInOrder colors tab)
    (hc : color < colors) (hlow : 0 ≤ ((tab.count color).toNat : ℤ) + num.toInt)
    (hhigh : ((tab.count color).toNat : ℤ) + num.toInt < 2 ^ 32) :
    TableInOrder colors (changeColorCount colors tab color num) ∧
      (changeColorCount colors tab color num).count =
        Function.update tab.count color (tab.count color + num) := by
  by_cases hzero : num = 0
  · have hsame : tab.count color + num = tab.count color := by simp [hzero]
    rw [changeColorCount, if_neg (not_not.mpr hzero), hsame, Function.update_eq_self]
    exact ⟨h, rfl⟩
  · have hadd := toNat_add_of_range (tab.count color) hlow hhigh
    have hgrow : num.slt 0 = false → tab.count color ≤ tab.count color + num := by
      intro hpos
      have hnonneg : ¬ num.toInt < 0 := by simpa [BitVec.slt] using hpos
      rw [BitVec.le_def]
      omega
    obtain ⟨hu, hfits, hcount⟩ := risen_open hlt h hc hgrow
    have hfuel : colors < 2 ^ (32 + 1) * (risen tab color num).2 := by
      have hone := hu.holed.one_le
      omega
    obtain ⟨hd, hdfits, hdcovers, hdcount⟩ := siftDown_open hlt hfuel hu hfits
    rw [hcount] at hdcount
    rw [changeColorCount_eq colors color tab hzero]
    set r := siftDown colors (tab.count color + num) 32 (risen tab color num).1 (risen tab color num).2
    have hcolor : r.1.count color = tab.count color + num := by
      rw [hdcount, Function.update_self]
    rw [← hcolor] at hdfits hdcovers
    exact ⟨inOrder_of_open hlt hc hd hdfits hdcovers, hdcount⟩

/-- A change of a count that stays in its range ends with a table in order: only this count has
changed, and the first color of the list is a least used one. The loops of the call are over after
32 rounds. -/
theorem color_table_update (hlt : colors < 2 ^ 32) (h : TableInOrder colors tab)
    (hc : color < colors) (hlow : 0 ≤ ((tab.count color).toNat : ℤ) + num.toInt)
    (hhigh : ((tab.count color).toNat : ℤ) + num.toInt < 2 ^ 32) :
    TableInOrder colors (changeColorCount colors tab color num) ∧
      (((changeColorCount colors tab color num).count color).toNat : ℤ) =
        (tab.count color).toNat + num.toInt ∧
      (∀ c, c ≠ color → (changeColorCount colors tab color num).count c = tab.count c) ∧
      (∀ c < colors, (changeColorCount colors tab color num).count
          ((changeColorCount colors tab color num).ordered 0).toNat ≤
        (changeColorCount colors tab color num).count c) ∧
      ∀ (t : ColorTable) (count : BitVec 32) (i extra : ℕ), 1 ≤ i → i ≤ colors →
        siftUp count (32 + extra) t i = siftUp count 32 t i ∧
          siftDown colors count (32 + extra) t i = siftDown colors count 32 t i := by
  obtain ⟨horder, hcount⟩ := changeColorCount_inOrder hlt h hc hlow hhigh
  refine ⟨horder, ?_, ?_, fun c hcc => first_least horder hcc, ?_⟩
  · rw [hcount, Function.update_self]
    exact toNat_add_of_range _ hlow hhigh
  · intro c hne
    rw [hcount, Function.update_of_ne hne]
  · intro t count i extra h1 hi
    exact ⟨siftUp_extra count extra h1 (by omega), siftDown_extra colors count extra (by omega)⟩

/-- Three colors in order of use; the least used one takes two pages and sinks. -/
theorem color_table_update_three : ∃ tab : ColorTable, TableInOrder 3 tab ∧
    (tab.ordered 0).toNat = 0 ∧ TableInOrder 3 (changeColorCount 3 tab 0 2) ∧
    ((changeColorCount 3 tab 0 2).ordered 0).toNat = 1 := by
  have h : TableInOrder 3 ⟨BitVec.ofNat 32, BitVec.ofNat 32, BitVec.ofNat 32⟩ := by
    refine ⟨?_, ?_, ?_⟩
    · exact List.Perm.of_eq (by decide)
    · decide
    · decide
  exact ⟨_, h, rfl, (color_table_update (by decide) h (by decide) (by decide) (by decide)).1, by decide⟩

section Walk

variable {pages j k : ℕ} {a : Allocator} {ring : ℕ → List ℕ}

inductive Under (j : ℕ) : ℕ → Prop where
  | here : Under j j
  | child {k : ℕ} : 1 ≤ k → Under j ((k - 1) / 2) → Under j k

theorem Under.count_le (h : TableInOrder colors tab) (hu : Under j k) (hk : k < colors) :
    tab.count (tab.ordered j).toNat ≤ tab.count (tab.ordered k).toNat := by
  induction hu with
  | here => exact BitVec.le_refl _
  | child hpos _ ih => exact BitVec.le_trans (ih (by omega)) (h.ordered _ hpos hk)

structure FirstPlace (colors : ℕ) (tab : ColorTable) (ring : ℕ → List ℕ) (j : ℕ) : Prop where
  lt : j < colors
  page : ring (tab.ordered j).toNat ≠ []
  before : ∀ k < j, ring (tab.ordered k).toNat = []

theorem FirstPlace.unique (hj : FirstPlace colors tab ring j) (hk : FirstPlace colors tab ring k) :
    j = k := by
  rcases lt_trichotomy j k with hlt | heq | hlt
  · exact absurd (hk.before j hlt) hj.page
  · exact heq
  · exact absurd (hj.before k hlt) hk.page

theorem alloc_first_place (h : Permuted colors tab) (hl : FreeLists pages colors a ring)
    (hfree : ∃ c, ring c ≠ []) :
    ∃ j p l a', FirstPlace colors tab ring j ∧ ring (tab.ordered j).toNat = p :: l ∧
      physPageAlloc colors tab a = some (a', invPageAddr p) := by
  rw [physPageAlloc]
  rcases physPageAllocFrom_cases tab a colors 0 with ⟨hzero, -⟩ | ⟨j, -, hj, hne, hbefore, heq⟩
  · obtain ⟨c, hc⟩ := hfree
    obtain ⟨i, hi, rfl⟩ := h.mem_iff.mpr (hl.color_lt hc)
    exact absurd ((hl.empty_iff _).mp (hzero i (Nat.zero_le i) (by omega))) hc
  · have hpage : ring (tab.ordered j).toNat ≠ [] := mt (hl.empty_iff _).mpr hne
    obtain ⟨p, l, a', hring, htake, -⟩ := hl.alloc_take hpage
    exact ⟨j, p, l, a', ⟨by omega, hpage,
      fun k hk => (hl.empty_iff _).mp (hbefore k (Nat.zero_le k) hk)⟩, hring, heq.trans htake⟩

def TakesLeastUsed (colors : ℕ) (tab : ColorTable) (a : Allocator) (ring : ℕ → List ℕ) : Prop :=
  ∃ c p l a', ring c = p :: l ∧ physPageAlloc colors tab a = some (a', invPageAddr p) ∧
    ∀ d, ring d ≠ [] → tab.count c ≤ tab.count d

/-- The heap orders the colors under the place where the walk stops. A less used color can only
be elsewhere in the list. -/
theorem takes_least_used_iff (h : TableInOrder colors tab) (hl : FreeLists pages colors a ring)
    (hfree : ∃ c, ring c ≠ []) : TakesLeastUsed colors tab a ring ↔
      ∀ j, FirstPlace colors tab ring j → ∀ k < colors, ring (tab.ordered k).toNat ≠ [] →
        ¬ Under j k → tab.count (tab.ordered j).toNat ≤ tab.count (tab.ordered k).toNat := by
  obtain ⟨j, p, l, a', hfirst, hring, halloc⟩ := alloc_first_place h.permuted hl hfree
  constructor
  · rintro ⟨c, q, m, a'', hc, halloc', hleast⟩ i hi k _ hpage _
    -- the address that is returned tells the color
    rw [halloc', Option.some.injEq, Prod.mk.injEq] at halloc
    have hqc : q ∈ ring c := hc ▸ List.mem_cons_self
    have hpj : p ∈ ring (tab.ordered j).toNat := hring ▸ List.mem_cons_self
    have hq := hl.color c q hqc
    have hp := hl.color _ p hpj
    rw [← halloc.2] at hp
    rw [hi.unique hfirst, ← hp.2, hq.2]
    exact hleast _ hpage
  · intro helse
    refine ⟨_, p, l, a', hring, halloc, fun d hd => ?_⟩
    obtain ⟨k, hk, rfl⟩ := h.permuted.mem_iff.mpr (hl.color_lt hd)
    by_cases hu : Under j k
    · exact hu.count_le h hk
    · exact helse j hfirst k hk hd hu

end Walk

def threeColors (x y : BitVec 32) : ColorTable :=
  ⟨BitVec.ofNat 32, fun c => if c = 1 then x else if c = 2 then y else 0, BitVec.ofNat 32⟩

theorem threeColors_inOrder (x y : BitVec 32) : TableInOrder 3 (threeColors x y) := by
  have hplain : Permuted 3 (threeColors 0 0) := by decide
  have hinverse : ∀ j < 3, ((threeColors 0 0).index ((threeColors 0 0).ordered j).toNat).toNat = j := by
    decide
  refine ⟨hplain, hinverse, ?_⟩
  intro j h1 h3
  have hhead : (j - 1) / 2 = 0 := by omega
  rw [hhead]
  exact Nat.zero_le _

def twoPages : ℕ → List ℕ := Function.update (Function.update (fun _ => []) 1 [1]) 2 [2]

theorem twoPages_lists : ∃ a, FreeLists 4 3 a twoPages ∧
    ∀ x y, (physPageAlloc 3 (threeColors x y) a).map Prod.snd = some 0x1000 := by
  obtain ⟨a₁, h₁⟩ : ∃ a, putPage 3 (noPages fun _ => blankPage) 0x1000 = some a := ⟨_, rfl⟩
  obtain ⟨a₂, h₂⟩ : ∃ a, putPage 3 a₁ 0x2000 = some a := ⟨_, rfl⟩
  have hnone : FreeLists 4 3 (noPages fun _ => blankPage) fun _ => [] := freeLists_noPages _
  have hl₁ := hnone.put (by decide) (by simp) h₁
  have hfree : ∀ c, invPageLookup 0x2000 ∉ Function.update (fun _ => []) (pageColor 3 0x1000)
      [invPageLookup 0x1000] c := by
    intro c hmem
    obtain ⟨heq, -⟩ | hnil := NodeTables.mem_update_cons.mp hmem
    · exact absurd heq (by decide)
    · cases hnil
  have hl₂ := hl₁.put (by decide) hfree h₂
  refine ⟨a₂, hl₂, fun x y => ?_⟩
  cases h₁
  cases h₂
  rfl

/-- The first color has no page, and the next place of the heap has the more used color. -/
theorem less_used_passed_over : ∃ (tab : ColorTable) (a : Allocator) (ring : ℕ → List ℕ),
    TableInOrder 3 tab ∧ FreeLists 4 3 a ring ∧ (∃ c, ring c ≠ []) ∧
      ¬ TakesLeastUsed 3 tab a ring := by
  obtain ⟨a, hl, halloc⟩ := twoPages_lists
  refine ⟨threeColors 5 1, a, twoPages, threeColors_inOrder 5 1, hl, ⟨1, by decide⟩, ?_⟩
  rintro ⟨c, p, l, a', hc, hrun, hleast⟩
  have haddr := halloc 5 1
  rw [hrun, Option.map_some, Option.some.injEq] at haddr
  have hmem : p ∈ twoPages c := hc ▸ List.mem_cons_self
  have hcolor := (hl.color c p hmem).2
  simp only at haddr
  rw [haddr] at hcolor
  have hle := hleast 2 (by decide)
  rw [← hcolor] at hle
  exact absurd hle (by decide)

theorem takes_least_used_three : ∃ a, TakesLeastUsed 3 (threeColors 1 5) a twoPages := by
  obtain ⟨a, hl, _⟩ := twoPages_lists
  refine ⟨a, (takes_least_used_iff (threeColors_inOrder 1 5) hl ⟨1, by decide⟩).mpr ?_⟩
  intro j hj k hk hpage _
  have hfirst : FirstPlace 3 (threeColors 1 5) twoPages 1 := ⟨by decide, by decide, by decide⟩
  rw [hj.unique hfirst]
  have hplace : k = 0 ∨ k = 1 ∨ k = 2 := by omega
  rcases hplace with rfl | rfl | rfl
  · exact absurd rfl hpage
  · decide
  · decide

end PhysicalPages
