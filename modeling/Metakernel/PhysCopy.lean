import Metakernel.Util

/-!
# Copies of physical memory in ia_32_util.c

Physical memory is written through pages of the kernel that are mapped to it, `phys_memcpy_pages`.
`kern_page_map` has no body yet and `memset` stands for one that works: both are parameters here.
The loop index is a byte count where it is compared with the size, and a page number where the
address is computed.
-/
namespace PhysCopy

open ByteMemory Util

/-- The number of iterations after which a loop over 32-bit state counts as endless. -/
def loopBound : ℕ := 4294967296

def pageSize : ℕ := 4096

structure Machine where
  phys : Memory
  table : ℕ → ℕ

def Machine.translate (s : Machine) (v : ℕ) : ℕ := s.table (v / pageSize) * pageSize + v % pageSize

def Machine.store (s : Machine) (v : ℕ) (b : UInt8) : Machine :=
  { s with phys := Function.update s.phys (s.translate v) b }

/-- `count` iterations of the loop of `memcpy`, starting at index `i`. -/
def memcpyFrom (s : Machine) (dst src : ℕ) : ℕ → ℕ → Machine
  | 0, _ => s
  | count + 1, i =>
    memcpyFrom (s.store (wadd dst i) (s.phys (s.translate (wadd src i)))) dst src count (i + 1)

def memcpy (s : Machine) (dst src size : ℕ) : Machine := memcpyFrom s dst src size 0

def forPages (body : ℕ → Machine → Machine) (size : ℕ) : ℕ → ℕ → Machine → Option Machine
  | 0, _, _ => none
  | fuel + 1, i, s =>
    if i < size then forPages body size fuel (wadd i pageSize) (body i s) else some s

section Functions

variable (kernPageMap : Machine → ℕ → ℕ → ℕ → Machine) (memset : Machine → ℕ → UInt8 → ℕ → Machine)
  (pages : ℕ)

def copyPage (dst src size i : ℕ) (s : Machine) : Machine :=
  let srcPage := pages
  let dstPage := wadd srcPage pageSize
  let s := kernPageMap s srcPage 0x7 (wadd src (i * pageSize))
  let s := kernPageMap s dstPage 0x7 (wadd dst (i * pageSize))
  memcpy s dstPage srcPage (if pageSize > size then size else pageSize)

def physMemcpy (s : Machine) (dst src size : ℕ) : Option Machine :=
  forPages (copyPage kernPageMap pages dst src size) size loopBound 0 s

def setPage (dst : ℕ) (val : UInt8) (size i : ℕ) (s : Machine) : Machine :=
  let dstPage := pages
  let s := kernPageMap s dstPage 0x7 (wadd dst (i * pageSize))
  memset s dstPage val (if pageSize > size then size else pageSize)

def physMemset (s : Machine) (dst : ℕ) (val : UInt8) (size : ℕ) : Option Machine :=
  forPages (setPage kernPageMap memset pages dst val size) size loopBound 0 s

/-- The page at `v` refers to the physical page that contains `p`. -/
structure MapsPage : Prop where
  table : ∀ s v perm p, (kernPageMap s v perm p).table =
    Function.update s.table (v / pageSize) (p / pageSize)
  phys : ∀ s v perm p, (kernPageMap s v perm p).phys = s.phys

structure SetsBytes : Prop where
  table : ∀ s v val n, (memset s v val n).table = s.table
  inside : ∀ s v val n, ∀ k < n, (memset s v val n).phys (s.translate (wadd v k)) = val
  outside : ∀ s v val n b, (∀ k < n, b ≠ s.translate (wadd v k)) → (memset s v val n).phys b = s.phys b

end Functions

section Pages

variable {s s' : Machine} {p q : ℕ}

/-- Inside one page the addresses are translated one after the other. -/
theorem translate_window {v k : ℕ} (hv : pageSize ∣ v) (hlt : v < 4294967296) (hk : k < pageSize) :
    s.translate (wadd v k) = s.table (v / pageSize) * pageSize + k := by
  obtain ⟨n, rfl⟩ := hv
  rw [pageSize] at *
  have hsum : wadd (4096 * n) k = 4096 * n + k := wadd_eq (by omega)
  rw [Machine.translate, hsum, pageSize]
  have hdiv : (4096 * n + k) / 4096 = n := by omega
  have hdiv' : 4096 * n / 4096 = n := by omega
  have hmod : (4096 * n + k) % 4096 = k := by omega
  rw [hdiv, hdiv', hmod]

/-- A copy between two windows is a copy between the physical pages behind them. -/
theorem memcpyFrom_window {dst src : ℕ} (hdst : pageSize ∣ dst) (hdlt : dst < 4294967296)
    (hsrc : pageSize ∣ src) (hslt : src < 4294967296) :
    ∀ {count i : ℕ} (s : Machine), i + count ≤ pageSize →
    (memcpyFrom s dst src count i).table = s.table ∧
    (memcpyFrom s dst src count i).phys = copyUp s.phys (s.table (dst / pageSize) * pageSize)
      (s.table (src / pageSize) * pageSize) count i
  | 0, _, _, _ => ⟨rfl, rfl⟩
  | count + 1, i, s, h => by
    have hrest : i + 1 + count ≤ pageSize := by omega
    obtain ⟨htable, hphys⟩ := memcpyFrom_window hdst hdlt hsrc hslt
      (s.store (wadd dst i) (s.phys (s.translate (wadd src i)))) hrest
    rw [memcpyFrom, copyUp]
    refine ⟨htable, ?_⟩
    rw [hphys, Machine.store, translate_window hdst hdlt (by omega),
      translate_window hsrc hslt (by omega)]

theorem forPages_keeps {body : ℕ → Machine → Machine} {size b : ℕ}
    (hbody : ∀ i s, pageSize ∣ i → (body i s).phys b = s.phys b) : ∀ {fuel i : ℕ} {s s' : Machine},
    pageSize ∣ i → forPages body size fuel i s = some s' → s'.phys b = s.phys b
  | fuel + 1, i, s, s', hi, h => by
    rw [forPages] at h
    split at h
    · have hnext : pageSize ∣ wadd i pageSize := by
        rw [pageSize] at *
        unfold wadd
        omega
      exact (forPages_keeps hbody hnext h).trans (hbody i s hi)
    · cases h
      rfl

theorem forPages_one {body : ℕ → Machine → Machine} {size : ℕ} (hpos : 0 < size)
    (hsize : size ≤ pageSize) : forPages body size loopBound 0 s = some (body 0 s) := by
  have hsecond : wadd 0 pageSize = pageSize := rfl
  rw [show loopBound = 4294967294 + 1 + 1 from rfl, forPages, if_pos hpos, hsecond, forPages,
    if_neg (not_lt.mpr hsize)]

theorem forPages_nothing {body : ℕ → Machine → Machine} :
    forPages body 0 loopBound 0 s = some s := by
  rw [show loopBound = 4294967295 + 1 from rfl, forPages, if_neg (Nat.lt_irrefl 0)]

/-- The second page is not on the way of the loop, which skips 4095 pages at each round. -/
theorem second_page_skipped {dst i : ℕ} (hdst : pageSize ∣ dst) (hi : pageSize ∣ i) :
    wadd dst pageSize / pageSize ≠ wadd dst (i * pageSize) / pageSize := by
  rw [pageSize] at *
  unfold wadd
  omega

end Pages

/-- `size` bytes from `dst` on are the old ones from `src` on, and no other byte has changed. -/
structure Copied (s s' : Machine) (dst src size : ℕ) : Prop where
  inside : ∀ k < size, s'.phys (wadd dst k) = s.phys (wadd src k)
  outside : ∀ b, (∀ k < size, b ≠ wadd dst k) → s'.phys b = s.phys b

structure Filled (s s' : Machine) (dst : ℕ) (val : UInt8) (size : ℕ) : Prop where
  inside : ∀ k < size, s'.phys (wadd dst k) = val
  outside : ∀ b, (∀ k < size, b ≠ wadd dst k) → s'.phys b = s.phys b

section Functions

variable {kernPageMap : Machine → ℕ → ℕ → ℕ → Machine} {memset : Machine → ℕ → UInt8 → ℕ → Machine}
  {pages : ℕ} {s s' : Machine} {dst src size : ℕ} {val : UInt8}

theorem wadd_page {p k : ℕ} (hp : pageSize ∣ p) (hlt : p < 4294967296) (hk : k < pageSize) :
    wadd p k = p + k := by
  rw [pageSize] at *
  exact wadd_eq (by omega)

theorem chunk_le (size : ℕ) : (if pageSize > size then size else pageSize) ≤ pageSize := by
  split <;> omega

theorem chunk_eq (hsize : size ≤ pageSize) :
    (if pageSize > size then size else pageSize) = size := by
  split <;> omega

section Copy

variable (hmap : MapsPage kernPageMap) (hpages : pageSize ∣ pages)
  (hlast : pages + 2 * pageSize ≤ 4294967296)

include hmap hpages hlast

theorem copyPage_phys (dst src size i : ℕ) (s : Machine) :
    (copyPage kernPageMap pages dst src size i s).phys =
      copyUp s.phys (wadd dst (i * pageSize) / pageSize * pageSize)
        (wadd src (i * pageSize) / pageSize * pageSize)
        (if pageSize > size then size else pageSize) 0 := by
  have hpos : 0 < pageSize := by decide
  have hdst : wadd pages pageSize = pages + pageSize := wadd_eq (by omega)
  have hdvd : pageSize ∣ pages + pageSize := Nat.dvd_add_self_right.mpr hpages
  have hne : pages / pageSize ≠ (pages + pageSize) / pageSize := by
    rw [Nat.add_div_right _ hpos]
    exact (Nat.succ_ne_self _).symm
  have hchunk : 0 + (if pageSize > size then size else pageSize) ≤ pageSize := by
    rw [Nat.zero_add]
    exact chunk_le size
  rw [copyPage, hdst]
  obtain ⟨-, hphys⟩ := memcpyFrom_window hdvd (by omega) hpages (by omega)
    (kernPageMap (kernPageMap s pages 0x7 (wadd src (i * pageSize))) (pages + pageSize) 0x7
      (wadd dst (i * pageSize))) hchunk
  rw [memcpy, hphys, hmap.phys, hmap.phys, hmap.table, hmap.table, Function.update_self,
    Function.update_of_ne hne, Function.update_self]

theorem physMemcpy_page (hdst : pageSize ∣ dst) (hdlt : dst < 4294967296) (hsrc : pageSize ∣ src)
    (hslt : src < 4294967296) (hapart : ∀ k < size, ∀ j < size, wadd dst k ≠ wadd src j)
    (hsize : size ≤ pageSize) (s : Machine) :
    ∃ s', physMemcpy kernPageMap pages s dst src size = some s' ∧ Copied s s' dst src size := by
  rcases Nat.eq_zero_or_pos size with rfl | hpos
  · exact ⟨s, forPages_nothing, fun k hk => absurd hk (Nat.not_lt_zero k), fun _ _ => rfl⟩
  · have hround := copyPage_phys hmap hpages hlast dst src size 0 s
    have hends : dst ≤ src ∨ src + size ≤ dst := by
      have hfirst := hapart 0 hpos
      rw [wadd_page hdst hdlt (by decide)] at hfirst
      by_contra hnot
      push Not at hnot
      refine hfirst (dst - src) (by omega) ?_
      rw [wadd_page hsrc hslt (by omega)]
      omega
    have hwhole : ∀ p, pageSize ∣ p → p < 4294967296 →
        wadd p (0 * pageSize) / pageSize * pageSize = p := by
      intro p hp hlt
      rw [Nat.zero_mul, wadd_page hp hlt (by decide), Nat.add_zero, Nat.div_mul_cancel hp]
    rw [chunk_eq hsize, hwhole dst hdst hdlt, hwhole src hsrc hslt] at hround
    have hbytes : ∀ b, (copyPage kernPageMap pages dst src size 0 s).phys b =
        if dst ≤ b ∧ b < dst + size then s.phys (src + (b - dst)) else s.phys b := by
      intro b
      rw [hround]
      exact memcpyLoHi_spec hends b
    refine ⟨_, forPages_one hpos hsize, fun k hk => ?_, fun b hb => ?_⟩
    · rw [wadd_page hdst hdlt (by omega), wadd_page hsrc hslt (by omega), hbytes, if_pos (by omega)]
      congr 1
      omega
    · rw [hbytes, if_neg]
      rintro ⟨hle, hlt⟩
      refine hb (b - dst) (by omega) ?_
      rw [wadd_page hdst hdlt (by omega)]
      omega

theorem copyPage_elsewhere {i b : ℕ} (hb : b / pageSize ≠ wadd dst (i * pageSize) / pageSize)
    (s : Machine) : (copyPage kernPageMap pages dst src size i s).phys b = s.phys b := by
  have hchunk := chunk_le size
  rw [copyPage_phys hmap hpages hlast]
  refine copyUp_elsewhere _ _ _ _ _ _ fun k hk heq => hb ?_
  rw [heq, Nat.zero_add, Nat.add_comm, Nat.add_mul_div_right _ _ (by decide : 0 < pageSize),
    Nat.div_eq_of_lt (by omega), Nat.zero_add]

theorem physMemcpy_second (hdst : pageSize ∣ dst) {s s' : Machine}
    (hrun : physMemcpy kernPageMap pages s dst src size = some s') :
    s'.phys (wadd dst pageSize) = s.phys (wadd dst pageSize) :=
  forPages_keeps (fun _ s hi => copyPage_elsewhere hmap hpages hlast
    (second_page_skipped hdst hi) s) (dvd_zero _) hrun

end Copy

section Fill

variable (hmap : MapsPage kernPageMap) (hset : SetsBytes memset) (hpages : pageSize ∣ pages)
  (hlast : pages < 4294967296)

include hmap hset hpages hlast

theorem setPage_phys (dst : ℕ) (val : UInt8) (size i : ℕ) (s : Machine) :
    (∀ k < (if pageSize > size then size else pageSize),
      (setPage kernPageMap memset pages dst val size i s).phys
        (wadd dst (i * pageSize) / pageSize * pageSize + k) = val) ∧
    ∀ b, (∀ k < (if pageSize > size then size else pageSize),
      b ≠ wadd dst (i * pageSize) / pageSize * pageSize + k) →
      (setPage kernPageMap memset pages dst val size i s).phys b = s.phys b := by
  have hchunk := chunk_le size
  have htranslate : ∀ k < pageSize,
      (kernPageMap s pages 0x7 (wadd dst (i * pageSize))).translate (wadd pages k) =
        wadd dst (i * pageSize) / pageSize * pageSize + k := by
    intro k hk
    rw [translate_window hpages hlast hk, hmap.table, Function.update_self]
  refine ⟨fun k hk => ?_, fun b hb => ?_⟩
  · rw [← htranslate k (by omega)]
    exact hset.inside _ _ _ _ k hk
  · rw [setPage, hset.outside, hmap.phys]
    intro k hk
    rw [htranslate k (by omega)]
    exact hb k hk

theorem physMemset_page (hdst : pageSize ∣ dst) (hdlt : dst < 4294967296) (hsize : size ≤ pageSize)
    (s : Machine) : ∃ s', physMemset kernPageMap memset pages s dst val size = some s' ∧
      Filled s s' dst val size := by
  rcases Nat.eq_zero_or_pos size with rfl | hpos
  · exact ⟨s, forPages_nothing, fun k hk => absurd hk (Nat.not_lt_zero k), fun _ _ => rfl⟩
  · obtain ⟨hin, hout⟩ := setPage_phys hmap hset hpages hlast dst val size 0 s
    have hwhole : wadd dst (0 * pageSize) / pageSize * pageSize = dst := by
      rw [Nat.zero_mul, wadd_page hdst hdlt (by decide), Nat.add_zero, Nat.div_mul_cancel hdst]
    rw [chunk_eq hsize, hwhole] at hin hout
    refine ⟨_, forPages_one hpos hsize, fun k hk => ?_, fun b hb => hout b fun k hk => ?_⟩
    · rw [wadd_page hdst hdlt (by omega)]
      exact hin k hk
    · have hne := hb k hk
      rwa [wadd_page hdst hdlt (by omega)] at hne

theorem physMemset_second (hdst : pageSize ∣ dst) {s s' : Machine}
    (hrun : physMemset kernPageMap memset pages s dst val size = some s') :
    s'.phys (wadd dst pageSize) = s.phys (wadd dst pageSize) := by
  refine forPages_keeps (fun i s hi => ?_) (dvd_zero _) hrun
  have hchunk := chunk_le size
  refine (setPage_phys hmap hset hpages hlast dst val size i s).2 _ fun k hk heq => ?_
  refine second_page_skipped hdst hi ?_
  rw [heq, Nat.add_comm, Nat.add_mul_div_right _ _ (by decide : 0 < pageSize),
    Nat.div_eq_of_lt (by omega), Nat.zero_add]

end Fill

/-- Both functions are right for every memory exactly when the size is at most a page. -/
theorem phys_copy_and_fill_iff (hmap : MapsPage kernPageMap) (hset : SetsBytes memset)
    (hpages : pageSize ∣ pages) (hlast : pages + 2 * pageSize ≤ 4294967296)
    (hdst : pageSize ∣ dst) (hdlt : dst < 4294967296) (hsrc : pageSize ∣ src)
    (hslt : src < 4294967296) (hapart : ∀ k < size, ∀ j < size, wadd dst k ≠ wadd src j) :
    ((∀ s, ∃ s', physMemcpy kernPageMap pages s dst src size = some s' ∧
      Copied s s' dst src size) ↔ size ≤ pageSize) ∧
    ((∀ s, ∃ s', physMemset kernPageMap memset pages s dst val size = some s' ∧
      Filled s s' dst val size) ↔ size ≤ pageSize) := by
  have hpos : 0 < pageSize := by decide
  refine ⟨⟨fun hall => ?_, fun hsize =>
    physMemcpy_page hmap hpages hlast hdst hdlt hsrc hslt hapart hsize⟩, ⟨fun hall => ?_, fun hsize =>
    physMemset_page hmap hset hpages (by omega) hdst hdlt hsize⟩⟩
  · by_contra hlarge
    push Not at hlarge
    -- the first byte of the second page differs from the one it is to become
    obtain ⟨s', hrun, hcopied⟩ := hall ⟨fun b => if b = wadd dst pageSize then 1 else 0, fun _ => 0⟩
    have hkept := physMemcpy_second hmap hpages hlast hdst hrun
    rw [hcopied.inside pageSize hlarge] at hkept
    simp only [if_neg (hapart pageSize hlarge pageSize hlarge).symm, if_true] at hkept
    exact absurd hkept (by decide)
  · by_contra hlarge
    push Not at hlarge
    obtain ⟨s', hrun, hfilled⟩ := hall ⟨fun _ => val + 1, fun _ => 0⟩
    have hkept := physMemset_second hmap hset hpages (by omega) hdst hrun
    rw [hfilled.inside pageSize hlarge] at hkept
    have hne : val ≠ val + 1 := by
      intro heq
      have := congrArg UInt8.toNat heq
      rw [UInt8.toNat_add] at this
      have := val.toNat_lt
      simp only [UInt8.toNat_ofNat] at *
      omega
    exact hne hkept

end Functions

/-- A `kern_page_map` and a `memset` that work. -/
def mapPage (s : Machine) (v _perm p : ℕ) : Machine :=
  { s with table := Function.update s.table (v / pageSize) (p / pageSize) }

def fill (s : Machine) (v : ℕ) (val : UInt8) : ℕ → Machine
  | 0 => s
  | n + 1 => (fill s v val n).store (wadd v n) val

theorem mapPage_maps : MapsPage mapPage := ⟨fun _ _ _ _ => rfl, fun _ _ _ _ => rfl⟩

theorem fill_table (s : Machine) (v : ℕ) (val : UInt8) (n : ℕ) : (fill s v val n).table = s.table := by
  induction n with
  | zero => rfl
  | succ n ih => exact ih

theorem fill_sets : SetsBytes fill := by
  have hstore : ∀ s v val n, (fill s v val (n + 1)).phys =
      Function.update (fill s v val n).phys (s.translate (wadd v n)) val := by
    intro s v val n
    rw [fill, Machine.store, Machine.translate, fill_table, ← Machine.translate]
  refine ⟨fill_table, fun s v val n => ?_, fun s v val n b => ?_⟩
  · induction n with
    | zero => exact fun k hk => absurd hk (Nat.not_lt_zero k)
    | succ n ih =>
      intro k hk
      rw [hstore]
      by_cases heq : s.translate (wadd v k) = s.translate (wadd v n)
      · rw [heq, Function.update_self]
      · rw [Function.update_of_ne heq]
        refine ih k (Nat.lt_of_le_of_ne (Nat.le_of_lt_succ hk) ?_)
        rintro rfl
        exact heq rfl
  · induction n with
    | zero => exact fun _ => rfl
    | succ n ih =>
      intro hb
      rw [hstore, Function.update_of_ne (hb n (Nat.lt_succ_self n))]
      exact ih fun k hk => hb k (Nat.lt_succ_of_lt hk)

theorem phys_copy_and_fill_iff_hundred :
    (∀ s, ∃ s', physMemcpy mapPage 0xc0000000 s 0x10000 0x20000 100 = some s' ∧
      Copied s s' 0x10000 0x20000 100) ∧
    ∀ s, ∃ s', physMemset mapPage fill 0xc0000000 s 0x10000 7 100 = some s' ∧
      Filled s s' 0x10000 7 100 := by
  have happart : ∀ k < 100, ∀ j < 100, wadd 0x10000 k ≠ wadd 0x20000 j := by
    intro k hk j hj
    rw [wadd_eq (by omega), wadd_eq (by omega)]
    omega
  have hpages : pageSize ∣ 0xc0000000 := by decide
  obtain ⟨hcopy, hfill⟩ := phys_copy_and_fill_iff mapPage_maps fill_sets hpages (by decide)
    (by decide) (by decide) (by decide) (by decide) happart
  exact ⟨hcopy.mpr (by decide), hfill.mpr (by decide)⟩

theorem forPages_two (body : ℕ → Machine → Machine) (s : Machine) :
    forPages body 8192 loopBound 0 s = some (body 4096 (body 0 s)) := by
  rw [show loopBound = 4294967293 + 1 + 1 + 1 from rfl, forPages, if_pos (by decide), forPages,
    if_pos (by decide), forPages, if_neg (by decide)]
  rfl

theorem second_page_missed :
    (∃ s s', physMemcpy mapPage 0xc0000000 s 0x10000 0x20000 8192 = some s' ∧
      s.phys 0x21000 = 1 ∧ s'.phys 0x11000 = 0 ∧ ¬ Copied s s' 0x10000 0x20000 8192) ∧
    ∃ s s', physMemset mapPage fill 0xc0000000 s 0x10000 1 8192 = some s' ∧
      s'.phys 0x11000 = 0 ∧ ¬ Filled s s' 0x10000 1 8192 := by
  have hdst : wadd 0x10000 pageSize = 0x11000 := by decide
  have hsrc : wadd 0x20000 pageSize = 0x21000 := by decide
  constructor
  · have hrun := forPages_two (copyPage mapPage 0xc0000000 0x10000 0x20000 8192)
      ⟨fun b => if b = 0x21000 then 1 else 0, fun _ => 0⟩
    have hkept := physMemcpy_second mapPage_maps (by decide) (by decide) (by decide) hrun
    rw [hdst] at hkept
    simp only [show ¬ (0x11000 : ℕ) = 0x21000 by decide, if_false] at hkept
    refine ⟨_, _, hrun, by simp, hkept, fun h => ?_⟩
    have hbyte := h.inside pageSize (by decide)
    rw [hdst, hsrc, hkept] at hbyte
    simp at hbyte
  · have hrun := forPages_two (setPage mapPage fill 0xc0000000 0x10000 1 8192)
      ⟨fun _ => 0, fun _ => 0⟩
    have hkept := physMemset_second mapPage_maps fill_sets (by decide) (by decide) (by decide) hrun
    rw [hdst] at hkept
    refine ⟨_, _, hrun, hkept, fun h => ?_⟩
    have hbyte := h.inside pageSize (by decide)
    rw [hdst, hkept] at hbyte
    exact absurd hbyte (by decide)

end PhysCopy
