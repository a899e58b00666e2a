import Metakernel.PageAllocator
import Mathlib.Tactic.IntervalCases

/-!
# What the processor says of its caches

`cpuid_parse` of ia_32_cputabs.c reads the cache descriptors that the processor gives for leaf 2, and
`mem_static_init` takes the number of page colors from them.
-/
namespace CpuCaches

open PhysicalPages

/-- `cache_tlb_t`. -/
structure CacheTlb where
  flags : BitVec 32
  traceCache : ℕ
  l1Icache : ℕ
  l1Dcache : ℕ
  l2Icache : ℕ
  l2Dcache : ℕ
  l3Icache : ℕ
  l3Dcache : ℕ
  l1IcacheAssoc : ℕ
  l1DcacheAssoc : ℕ
  l2IcacheAssoc : ℕ
  l2DcacheAssoc : ℕ
  l3IcacheAssoc : ℕ
  l3DcacheAssoc : ℕ
  l1IcacheLine : ℕ
  l1DcacheLine : ℕ
  l2IcacheLine : ℕ
  l2DcacheLine : ℕ
  l3IcacheLine : ℕ
  l3DcacheLine : ℕ
  itlbNorm : ℕ
  itlbSuper : ℕ
  dtlbNorm : ℕ
  dtlbSuper : ℕ
  itlbNormAssoc : ℕ
  itlbSuperAssoc : ℕ
  dtlbNormAssoc : ℕ
  dtlbSuperAssoc : ℕ
  deriving DecidableEq, Repr

def CACHE_L1 : BitVec 32 := 0x1
def CACHE_L1_SPLIT : BitVec 32 := 0x2
def CACHE_L2 : BitVec 32 := 0x4
def CACHE_L2_SPLIT : BitVec 32 := 0x8
def CACHE_L3 : BitVec 32 := 0x10
def TLB_INSTR : BitVec 32 := 0x100
def TLB_INSTR_SPLIT : BitVec 32 := 0x200
def TLB_DATA : BitVec 32 := 0x400
def TLB_DATA_SPLIT : BitVec 32 := 0x800

def CacheTlb.l1i (c : CacheTlb) (size assoc line : ℕ) : CacheTlb :=
  { c with
    flags := c.flags ||| CACHE_L1 ||| CACHE_L1_SPLIT
    l1Icache := size
    l1IcacheAssoc := assoc
    l1IcacheLine := line }

def CacheTlb.l1d (c : CacheTlb) (size assoc line : ℕ) : CacheTlb :=
  { c with
    flags := c.flags ||| CACHE_L1 ||| CACHE_L1_SPLIT
    l1Dcache := size
    l1DcacheAssoc := assoc
    l1DcacheLine := line }

/-- The cases of the second level, which write the fields of the first one. -/
def CacheTlb.l2 (c : CacheTlb) (size assoc line : ℕ) : CacheTlb :=
  { c with
    flags := c.flags ||| CACHE_L2
    l1Dcache := size
    l1DcacheAssoc := assoc
    l1DcacheLine := line
    l1Icache := size
    l1IcacheAssoc := assoc
    l1IcacheLine := line }

def CacheTlb.l3 (c : CacheTlb) (size assoc line : ℕ) : CacheTlb :=
  { c with
    flags := c.flags ||| CACHE_L3
    l3Dcache := size
    l3DcacheAssoc := assoc
    l3DcacheLine := line
    l3Icache := size
    l3IcacheAssoc := assoc
    l3IcacheLine := line }

def CacheTlb.itlb (c : CacheTlb) (entries : ℕ) : CacheTlb :=
  { c with
    flags := c.flags ||| TLB_INSTR
    itlbNorm := entries
    itlbNormAssoc := entries
    itlbSuper := entries
    itlbSuperAssoc := entries }

def CacheTlb.dtlb (c : CacheTlb) (entries : ℕ) : CacheTlb :=
  { c with
    flags := c.flags ||| TLB_DATA
    dtlbNorm := entries
    dtlbNormAssoc := entries
    dtlbSuper := entries
    dtlbSuperAssoc := entries }

def cacheDescParse (c : CacheTlb) (desc : BitVec 8) : CacheTlb :=
  match desc.toNat with
  | 0x01 => { c with
      flags := c.flags ||| TLB_INSTR_SPLIT ||| TLB_INSTR
      itlbNorm := 32
      itlbNormAssoc := 4 }
  | 0x02 => { c with
      flags := c.flags ||| TLB_INSTR_SPLIT ||| TLB_INSTR
      itlbSuper := 2
      itlbSuperAssoc := 4 }
  | 0x03 => { c with
      flags := c.flags ||| TLB_DATA_SPLIT ||| TLB_DATA
      dtlbNorm := 64
      dtlbNormAssoc := 4 }
  | 0x04 => { c with
      flags := c.flags ||| TLB_DATA_SPLIT ||| TLB_DATA
      dtlbSuper := 8
      dtlbSuperAssoc := 4 }
  | 0x06 => c.l1i 8192 4 32
  | 0x08 => c.l1i 16384 4 32
  | 0x0a => c.l1d 8192 2 32
  | 0x0c => c.l1d 16384 4 32
  | 0x22 => c.l3 524288 4 128
  | 0x23 => c.l3 1048576 8 128
  | 0x25 => c.l3 2097152 8 128
  | 0x2c => c.l1i 32768 8 64
  | 0x30 => c.l1d 32768 8 64
  | 0x41 => c.l2 131072 4 32
  | 0x42 => c.l2 262144 4 32
  | 0x43 => c.l2 524288 4 32
  | 0x44 => c.l2 1048576 4 32
  | 0x45 => c.l2 2097152 4 32
  | 0x50 => c.itlb 64
  | 0x51 => c.itlb 128
  | 0x52 => c.itlb 256
  | 0x5b => c.dtlb 64
  | 0x5c => c.dtlb 128
  | 0x5d => c.dtlb 256
  | 0x66 => c.l1d 8192 4 64
  | 0x67 => c.l1d 16384 4 64
  | 0x68 => c.l1d 32768 4 64
  | 0x70 => { c with traceCache := 12288 }
  | 0x71 => { c with traceCache := 16384 }
  | 0x72 => { c with traceCache := 32768 }
  | 0x78 => c.l2 1048576 8 64
  | 0x79 => c.l2 131072 8 128
  | 0x7a => c.l2 262144 8 128
  | 0x7b => c.l2 524288 8 128
  | 0x7c => c.l2 1048576 8 128
  | 0x7d => c.l2 2097152 8 64
  | 0x82 => c.l2 262144 8 32
  | 0x83 => c.l2 524288 8 32
  | 0x84 => c.l2 1048576 8 32
  | 0x85 => c.l2 2097152 8 32
  | 0x86 => c.l2 524288 8 64
  | 0x87 => c.l2 1048576 8 64
  | 0xb0 => { c with
      flags := c.flags ||| TLB_INSTR_SPLIT
      itlbSuper := 128
      itlbSuperAssoc := 4 }
  | 0xb3 => { c with
      flags := c.flags ||| TLB_DATA_SPLIT
      dtlbSuper := 128
      dtlbSuperAssoc := 4 }
  | _ => c

/-- What `cpuid_store` leaves in the buffer. -/
structure Buf where
  eax : BitVec 32
  ebx : BitVec 32
  ecx : BitVec 32
  edx : BitVec 32
  deriving DecidableEq, Repr

def Buf.word (b : Buf) : ℕ → BitVec 32
  | 0 => b.eax
  | 1 => b.ebx
  | 2 => b.ecx
  | _ => b.edx

def Buf.byte (b : Buf) (j : ℕ) : BitVec 8 := (b.word (j / 4) >>> (8 * (j % 4))).setWidth 8

def parseBytes (b : Buf) : ℕ → ℕ → CacheTlb → CacheTlb
  | 0, _, c => c
  | fuel + 1, j, c =>
    if j < 16 then
      if BitVec.ofNat 32 j &&& 0xfffffffc ≠ 0 then
        parseBytes b fuel (j + 1) (cacheDescParse c (b.byte j))
      else parseBytes b fuel (j + 4) c
    else c

def parseRounds (cpuid : ℕ → BitVec 32 → Buf) : ℕ → ℕ → Buf → CacheTlb → CacheTlb
  | 0, _, _, c => c
  | left + 1, k, buf, c => parseRounds cpuid left (k + 1) (cpuid k 2) (parseBytes buf 16 1 c)

def IA_32_X87 : BitVec 32 := 0x1
def IA_32_PSE : BitVec 32 := 0x8
def IA_32_APIC : BitVec 32 := 0x200
def CPU_REQUIRED : BitVec 32 := IA_32_X87 ||| IA_32_PSE ||| IA_32_APIC

def defaultCaches : CacheTlb where
  flags := CACHE_L1 ||| CACHE_L1_SPLIT ||| CACHE_L2 ||| TLB_INSTR ||| TLB_DATA
  traceCache := 0
  l1Dcache := 16384
  l1Icache := 16384
  l2Dcache := 262144
  l2Icache := 262144
  l3Dcache := 0
  l3Icache := 0
  l1DcacheAssoc := 4
  l1IcacheAssoc := 4
  l2DcacheAssoc := 4
  l2IcacheAssoc := 4
  l3DcacheAssoc := 0
  l3IcacheAssoc := 0
  l1DcacheLine := 4
  l1IcacheLine := 4
  l2DcacheLine := 4
  l2IcacheLine := 4
  l3DcacheLine := 0
  l3IcacheLine := 0
  itlbNorm := 128
  itlbSuper := 128
  dtlbNorm := 128
  dtlbSuper := 128
  itlbNormAssoc := 4
  itlbSuperAssoc := 4
  dtlbNormAssoc := 4
  dtlbSuperAssoc := 4

/-- The variables that `cpuid_parse` sets. -/
structure CpuData where
  vendorStr : List (BitVec 16)
  brand : BitVec 32
  logical : BitVec 32
  stepping : BitVec 32
  model : BitVec 32
  family : BitVec 32
  features : BitVec 32
  cacheTlbData : CacheTlb
  deriving DecidableEq, Repr

def bytesOf (w : BitVec 32) : List (BitVec 16) :=
  [w, w >>> 8, w >>> 16, w >>> 24].map fun v => (v &&& 0xff).setWidth 16

/-- `cpuid k leaf` is the answer to the `k`th `cpuid`. There is no result after `kernel_panic`. -/
def cpuidParse (cpuid : ℕ → BitVec 32 → Buf) : Option CpuData :=
  let buf := cpuid 0 0
  if buf.eax < 1 then none
  else
    let buf1 := cpuid 1 1
    let features := buf1.edx
    if features &&& CPU_REQUIRED ≠ CPU_REQUIRED then none
    else some {
      vendorStr := bytesOf buf.ebx ++ bytesOf buf.edx ++ bytesOf buf.ecx ++ [0]
      features := features
      brand := buf1.ebx &&& 0x000000ff
      logical := buf1.ebx >>> 16 &&& 0x000000ff
      stepping := buf1.eax &&& 0x000000f
      model := buf1.eax >>> 4 &&& (0x0000000f : BitVec 32) ||| buf1.eax >>> 12 &&& 0x000000f0
      family := buf1.eax >>> 8 &&& (0x0000000f : BitVec 32) ||| buf1.eax >>> 16 &&& 0x00000ff0
      cacheTlbData :=
        if 2 < buf.eax then
          let buf2 := cpuid 2 2
          parseRounds cpuid (buf2.eax &&& 0x000000ff).toNat 3 buf2 defaultCaches
        else defaultCaches }

def cacheSize (c : CacheTlb) : ℕ :=
  if c.flags &&& CACHE_L2_SPLIT = 0 then c.l2Dcache
  else if c.l2Dcache < c.l2Icache then c.l2Dcache else c.l2Icache

def pageAllocStaticInit (cacheSize : ℕ) : ℕ := cacheSize / 4096

/-- `num_page_colors` after `mem_static_init`, which finds it as 0. -/
def memStaticInit (c : CacheTlb) : ℕ :=
  if c.flags &&& CACHE_L3 = 0 then pageAllocStaticInit (cacheSize c) else 0

section Descriptors

variable {cpuid : ℕ → BitVec 32 → Buf} {c : CacheTlb} {desc : BitVec 8}

/-- The first register and the first byte of the second one are passed over. -/
def Buf.descriptors (b : Buf) : List (BitVec 8) := (List.range' 5 11).map b.byte

theorem parseBytes_from (b : Buf) {fuel j : ℕ} (hj : 4 ≤ j) (hfuel : 16 - j < fuel) (c : CacheTlb) :
    parseBytes b fuel j c = ((List.range' j (16 - j)).map b.byte).foldl cacheDescParse c := by
  induction fuel generalizing j c with
  | zero => omega
  | succ fuel ih =>
    rw [parseBytes]
    by_cases hlast : j < 16
    · have hmask : BitVec.ofNat 32 j &&& 0xfffffffc ≠ 0 := by
        interval_cases j <;> decide
      have hlen : 16 - j = (16 - (j + 1)) + 1 := by omega
      rw [if_pos hlast, if_pos hmask, ih (by omega) (by omega), hlen, List.range'_succ, List.map_cons,
        List.foldl_cons]
    · rw [if_neg hlast, Nat.sub_eq_zero_of_le (by omega)]
      rfl

theorem parseBytes_eq (b : Buf) (c : CacheTlb) :
    parseBytes b 16 1 c = b.descriptors.foldl cacheDescParse c := by
  rw [parseBytes, if_pos (by decide), if_neg (by decide), parseBytes_from b (by decide) (by decide)]
  rfl

theorem parseRounds_eq (left k : ℕ) (c : CacheTlb) :
    parseRounds cpuid left (k + 1) (cpuid k 2) c =
      ((List.range' k left).flatMap fun i => (cpuid i 2).descriptors).foldl cacheDescParse c := by
  induction left generalizing k c with
  | zero => rfl
  | succ left ih =>
    rw [parseRounds, ih, parseBytes_eq, List.range'_succ, List.flatMap_cons, List.foldl_append]

/-- All that is read, in order. The answer to the last `cpuid` is not. -/
def descriptors (cpuid : ℕ → BitVec 32 → Buf) : List (BitVec 8) :=
  if 2 < (cpuid 0 0).eax then
    (List.range' 2 ((cpuid 2 2).eax &&& 0x000000ff).toNat).flatMap fun i => (cpuid i 2).descriptors
  else []

theorem cpuidParse_caches {d : CpuData} (h : cpuidParse cpuid = some d) :
    d.cacheTlbData = (descriptors cpuid).foldl cacheDescParse defaultCaches := by
  simp only [cpuidParse] at h
  split at h
  · cases h
  · split at h
    · cases h
    · cases h
      simp only [descriptors]
      split
      · exact parseRounds_eq _ 2 defaultCaches
      · rfl

def isL3 (desc : BitVec 8) : Bool := [0x22, 0x23, 0x25].contains desc.toNat

/-- What `mem_static_init` reads: the size of the second level, and whether it is split and there is a
third one. -/
def CacheTlb.levels (c : CacheTlb) : ℕ × Bool × Bool :=
  (c.l2Dcache, c.flags.getLsbD 3, c.flags.getLsbD 4)

theorem l1i_levels (size assoc line : ℕ) : (c.l1i size assoc line).levels = c.levels := by
  simp [CacheTlb.l1i, CacheTlb.levels, CACHE_L1, CACHE_L1_SPLIT]

theorem l1d_levels (size assoc line : ℕ) : (c.l1d size assoc line).levels = c.levels := by
  simp [CacheTlb.l1d, CacheTlb.levels, CACHE_L1, CACHE_L1_SPLIT]

theorem l2_levels (size assoc line : ℕ) : (c.l2 size assoc line).levels = c.levels := by
  simp [CacheTlb.l2, CacheTlb.levels, CACHE_L2]

theorem l3_levels (size assoc line : ℕ) :
    (c.l3 size assoc line).levels = (c.l2Dcache, c.flags.getLsbD 3, true) := by
  simp [CacheTlb.l3, CacheTlb.levels, CACHE_L3]

theorem itlb_levels (entries : ℕ) : (c.itlb entries).levels = c.levels := by
  simp [CacheTlb.itlb, CacheTlb.levels, TLB_INSTR]

theorem dtlb_levels (entries : ℕ) : (c.dtlb entries).levels = c.levels := by
  simp [CacheTlb.dtlb, CacheTlb.levels, TLB_DATA]

theorem cacheDescParse_levels (c : CacheTlb) (desc : BitVec 8) :
    (cacheDescParse c desc).levels =
      (c.l2Dcache, c.flags.getLsbD 3, c.flags.getLsbD 4 || isL3 desc) := by
  by_cases hthird : isL3 desc = true
  · have hcases : desc.toNat = 0x22 ∨ desc.toNat = 0x23 ∨ desc.toNat = 0x25 := by
      simpa [isL3] using hthird
    rw [hthird, Bool.or_true, cacheDescParse]
    rcases hcases with hdesc | hdesc | hdesc <;> rw [hdesc] <;> exact l3_levels _ _ _
  · rw [Bool.eq_false_of_not_eq_true hthird, Bool.or_false]
    change (cacheDescParse c desc).levels = c.levels
    unfold cacheDescParse
    split
    all_goals try simp only [l1i_levels, l1d_levels, l2_levels, itlb_levels, dtlb_levels]
    case h_9 | h_10 | h_11 => simp_all [isL3]
    case h_1 | h_2 | h_3 | h_4 | h_43 | h_44 =>
      simp [CacheTlb.levels, TLB_INSTR, TLB_INSTR_SPLIT, TLB_DATA, TLB_DATA_SPLIT]
    all_goals rfl

theorem descriptors_levels (l : List (BitVec 8)) (c : CacheTlb) :
    (l.foldl cacheDescParse c).levels =
      (c.l2Dcache, c.flags.getLsbD 3, c.flags.getLsbD 4 || l.any isL3) := by
  induction l generalizing c with
  | nil =>
    rw [List.any_nil, Bool.or_false]
    rfl
  | cons desc l ih =>
    have hfirst := cacheDescParse_levels c desc
    simp only [CacheTlb.levels, Prod.mk.injEq] at hfirst
    rw [List.foldl_cons, ih, hfirst.1, hfirst.2.1, hfirst.2.2, List.any_cons, Bool.or_assoc]

theorem flag_iff (flags : BitVec 32) {k : ℕ} (hk : k < 32) :
    flags &&& BitVec.twoPow 32 k = 0 ↔ flags.getLsbD k = false := by
  have hne : BitVec.twoPow 32 k ≠ 0 := by
    intro hzero
    have hbit := congrArg (fun v => v.getLsbD k) hzero
    simp [hk] at hbit
  rw [BitVec.and_twoPow]
  cases flags.getLsbD k with
  | false => simp
  | true => simpa using hne

/-- Whatever the processor answers, there are 64 page colors, unless a descriptor that is read is one
of a third level cache. Then there are none, and the allocator cannot take the first page. -/
theorem page_colors_of_cpuid {d : CpuData} (h : cpuidParse cpuid = some d) :
    memStaticInit d.cacheTlbData = (if (descriptors cpuid).any isL3 then 0 else 64) ∧
      ∀ a addr, putPage (memStaticInit d.cacheTlbData) a addr = none ↔
        ∃ desc ∈ descriptors cpuid, isL3 desc = true := by
  have hlevels := descriptors_levels (descriptors cpuid) defaultCaches
  rw [← cpuidParse_caches h, CacheTlb.levels, Prod.mk.injEq, Prod.mk.injEq] at hlevels
  obtain ⟨hsize, hsplit, hthird⟩ := hlevels
  have hcolors : memStaticInit d.cacheTlbData = if (descriptors cpuid).any isL3 then 0 else 64 := by
    rw [memStaticInit, cacheSize, show CACHE_L3 = BitVec.twoPow 32 4 from rfl,
      show CACHE_L2_SPLIT = BitVec.twoPow 32 3 from rfl]
    have hnotSplit : defaultCaches.flags.getLsbD 3 = false := by decide
    have hnotThird : defaultCaches.flags.getLsbD 4 = false := by decide
    simp only [flag_iff _ (by decide : 3 < 32), flag_iff _ (by decide : 4 < 32), hthird, hsplit, hsize,
      hnotSplit, hnotThird, Bool.false_or, if_true]
    cases (descriptors cpuid).any isL3 <;> rfl
  refine ⟨hcolors, fun a addr => ?_⟩
  rw [← List.any_eq_true, putPage, hcolors]
  cases (descriptors cpuid).any isL3 <;> simp

end Descriptors

/-- A second level of half a megabyte is reported in `cl`. -/
def halfMegabyte (_ : ℕ) (leaf : BitVec 32) : Buf :=
  if leaf = 0 then ⟨3, 0x756e6547, 0x6c65746e, 0x49656e69⟩
  else if leaf = 1 then ⟨0x672, 0, 0, 0x209⟩
  else ⟨1, 0, 0x43, 0⟩

theorem page_colors_of_cpuid_half : ∃ d, cpuidParse halfMegabyte = some d ∧
    d.cacheTlbData.l1Dcache = 524288 ∧ memStaticInit d.cacheTlbData = 64 := by
  obtain ⟨d, hd⟩ : ∃ d, cpuidParse halfMegabyte = some d :=
    Option.isSome_iff_exists.mp (by decide +kernel)
  refine ⟨d, hd, ?_, ?_⟩
  · rw [cpuidParse_caches hd]
    decide +kernel
  · rw [(page_colors_of_cpuid hd).1]
    decide +kernel

end CpuCaches
