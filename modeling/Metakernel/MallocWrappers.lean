import Metakernel.KernelHeapReserve

/-!
# Blocks with their length in front

`malloc` and `realloc` ask for four bytes more than their caller and keep the length of the block
in its first word, where `free` finds it. The four bytes are added in 32 bits.
-/
namespace KernelHeap

open ByteMemory DyadicBlocks

/-- The length goes into the first word, and the caller gets what follows. -/
def withHeader (run : Option (Heap × ℕ × ℕ)) : Option (Heap × ℕ) := do
  let (h, out, size) ← run
  if out ≠ 0 then some ({ h with mem := store32 h.mem out size }, wadd out 4)
  else some (h, out)

def malloc (h : Heap) (size : ℕ) : Option (Heap × ℕ) :=
  withHeader (kernMalloc h (wadd size 4) 0)

def realloc (h : Heap) (ptr size : ℕ) : Option (Heap × ℕ) :=
  withHeader (kernRealloc h (wsub ptr 4) (wadd size 4) (load32 h.mem (wsub ptr 4)) 0)

def free (h : Heap) (ptr : ℕ) : Option Heap :=
  kernFree h (wsub ptr 4) (load32 h.mem (wsub ptr 4))

/-- The length `n` of the block at `out` stands before `q`, is enough for the request, and as long
as it stands there `free` gives that block back. -/
structure HandedOver (h : Heap) (q size out n : ℕ) : Prop where
  recorded : load32 h.mem (wsub q 4) = n
  enough : size + 4 ≤ n
  returned : ∀ h', load32 h'.mem (wsub q 4) = n → free h' q = kernFree h' out n

def MallocHandsOver (h : Heap) (size : ℕ) : Prop :=
  ∀ h' q, malloc h size = some (h', q) → q ≠ 0 →
    ∃ h₁ out n, kernMalloc h (wadd size 4) 0 = some (h₁, out, n) ∧ HandedOver h' q size out n

/-- The same of `realloc` for the pointer behind the header of `b`. -/
def ReallocHandsOver (h : Heap) (b : Block) (size : ℕ) : Prop :=
  ∀ h' q, realloc h (wadd b.addr 4) size = some (h', q) → q ≠ 0 →
    ∃ h₁ out n, kernRealloc h b.addr (wadd size 4) b.size 0 = some (h₁, out, n) ∧
      HandedOver h' q size out n

section Wrappers

variable {h h' h₁ : Heap} {F F₁ : Finset Block} {b : Block} {p q n out min size priority : ℕ}

theorem wsub_wadd {a c : ℕ} (ha : a < 4294967296) : wsub (wadd a c) c = a := by
  unfold wsub wadd
  omega

theorem withHeader_eq_some (hrun : withHeader (some (h₁, out, n)) = some (h', q)) (hq : q ≠ 0) :
    out ≠ 0 ∧ h' = { h₁ with mem := store32 h₁.mem out n } ∧ q = wadd out 4 := by
  rw [withHeader, Option.bind_eq_bind, Option.bind_some] at hrun
  dsimp only at hrun
  split at hrun
  · cases hrun
    exact ⟨‹_›, rfl, rfl⟩
  · rename_i hzero
    cases hrun
    exact absurd hq hzero

theorem withHeader_handedOver (hrun : withHeader (some (h₁, out, n)) = some (h', q)) (hq : q ≠ 0)
    (hout : out < 4294967296) (hn : n < 4294967296) (henough : size + 4 ≤ n) :
    HandedOver h' q size out n := by
  obtain ⟨-, rfl, rfl⟩ := withHeader_eq_some hrun hq
  have hback : wsub (wadd out 4) 4 = out := wsub_wadd hout
  refine ⟨?_, henough, ?_⟩
  · rw [hback]
    exact load32_store32 _ _ hn
  · intro h'' hword
    rw [free, hword, hback]

theorem kernMalloc_result (hr : HeapRep h F) (priority : ℕ) (hword : size < 4294967296) :
    kernMalloc h size priority = none ∨ kernMalloc h size priority = some (h, 0, size) ∨
      ∃ h' out n, kernMalloc h size priority = some (h', out, n) ∧ out ≠ 0 ∧ 9 ≤ size ∧
        size ≤ n ∧ Held ⟨out, n⟩ := by
  by_cases hround : 2 ≤ size ∧ size ≤ 2147483648
  · refine Or.inr ?_
    by_cases hadm : MallocAdmitted h size priority
    · by_cases hs : Served F size
      · obtain ⟨h', out, F', heq, -, hal⟩ := kernMalloc_served hr hs hadm
        have hpos := hal.held.pos
        exact Or.inr ⟨h', out, _, heq, by simp only at hpos; omega, hs.1, by omega, hal.held⟩
      · exact Or.inl (kernMalloc_starved hr hround.1 hround.2 hs)
    · exact Or.inl (kernMalloc_refused hround.1 hround.2 hadm)
  · exact Or.inl (kernMalloc_none hword hround)

theorem malloc_small_null (hr : HeapRep h F) (hsize : size ≤ 4) (hrun : malloc h size = some (h', q)) :
    q = 0 := by
  have hadd : wadd size 4 = size + 4 := by
    unfold wadd
    omega
  rw [malloc, hadd] at hrun
  have hword : size + 4 < 4294967296 := by omega
  rcases kernMalloc_result hr 0 hword with hnone | hnull | ⟨h₁, out, n, -, -, hle, -⟩
  · rw [hnone] at hrun
    cases hrun
  · rw [hnull] at hrun
    cases hrun
    rfl
  · omega

theorem cutBlockEnd_kept (hrun : cutBlockEnd h p min n = some (h', size))
    (hmin : min < 2147483648) : size = cutStart min := by
  rw [cutBlockEnd, Option.bind_eq_bind, Option.bind_eq_some_iff] at hrun
  obtain ⟨h₂, -, heq⟩ := hrun
  cases heq
  rw [wadd_eq (by unfold smallestBlock; omega)]
  unfold smallestBlock cutStart
  omega

theorem moveBlock_enough {keep grown old : ℕ} (hr : HeapRep h F) (hword : size < 4294967296)
    (hrun : moveBlock h p size keep grown old = some (h', out, n)) (hout : out ≠ 0) :
    size ≤ n ∧ Held ⟨out, n⟩ := by
  rcases kernMalloc_result hr 1 hword with
    hnone | hnull | ⟨h₂, out₂, n₂, heq, hout₂, -, hle, hheld⟩
  · rw [moveBlock, hnone] at hrun
    cases hrun
  · rw [moveBlock_null hnull] at hrun
    cases hrun
    exact absurd rfl hout
  · rw [moveBlock, heq, Option.bind_eq_bind, Option.bind_some] at hrun
    dsimp only at hrun
    rw [if_pos hout₂] at hrun
    obtain ⟨h₃, -, hsome⟩ := Option.bind_eq_some_iff.mp hrun
    cases hsome
    exact ⟨hle, hheld⟩

/-- Whatever way `kern_realloc` goes, the block is as long as it was asked to be. -/
theorem kernRealloc_enough (hr : HeapRep h F) (hb : Held b) (hap : ∀ c ∈ F, b.Apart c)
    (hword : size < 4294967296)
    (hrun : kernRealloc h b.addr size b.size priority = some (h', out, n)) (hout : out ≠ 0) :
    size ≤ n ∧ out < 4294967296 ∧ n < 4294967296 := by
  have hinside := hb.inside
  have hstart := lt_cutStart size
  by_cases hle : size ≤ b.size
  · rw [kernRealloc_shrink hle, trimBlock_eq hb hle, Option.map_eq_some_iff] at hrun
    obtain ⟨⟨h₂, n₂⟩, hcut, heq⟩ := hrun
    have hsmall : size < 2147483648 := by
      have := hb.pos
      omega
    have hkept := cutBlockEnd_kept hcut hsmall
    cases heq
    unfold cutStart at *
    omega
  · have hlt : b.size < size := by omega
    by_cases hadm : Admitted h size b.size priority
    · obtain ⟨h₁, p, g, F₁, hgrow, hg⟩ := growBlock_grown hr hb hlt hap
      have hheld := hg.absorbs.held
      have hend := hheld.inside
      have hpos := hheld.pos
      rw [kernRealloc_admitted hlt hadm, growOrMove_eq hgrow] at hrun
      split at hrun
      · obtain ⟨⟨h₂, n₂⟩, hcut, heq⟩ := Option.map_eq_some_iff.mp hrun
        simp only at hend hpos
        have hkept := cutBlockEnd_kept hcut (by omega)
        cases heq
        unfold cutStart at *
        omega
      · obtain ⟨henough, hnew⟩ := moveBlock_enough hg.rep hword hrun hout
        have hnewEnd := hnew.inside
        simp only at hnewEnd
        omega
    · rw [kernRealloc_refused hlt hadm] at hrun
      cases hrun
      exact absurd rfl hout

theorem wadd_four_wraps (hwrap : ¬ size + 4 < 4294967296) (hword : size < 4294967296) :
    wadd size 4 < 4 := by
  unfold wadd
  omega

theorem kernRealloc_unit (hr : HeapRep h F) (hb : Held b) (hap : ∀ c ∈ F, b.Apart c)
    (priority : ℕ) (hsize : size < 16) (hsmall : b.size < 4194304) :
    ∃ h', kernRealloc h b.addr size b.size priority = some (h', b.addr, 16) := by
  have hlarge := hb.large
  have halign := hb.aligned
  have hstart : cutStart size = 16 := by
    unfold cutStart
    omega
  have hcut : Cuttable (b.addr + cutStart size) (b.size - cutStart size) := by
    rw [hstart]
    intro m hm
    by_cases hshort : b.size ≤ 2097152
    · omega
    · obtain ⟨q, hq⟩ : 2 ^ 21 ∣ b.addr := (two_pow_dvd_iff hb.pos).mpr (by omega)
      omega
  obtain ⟨h', F', heq, -⟩ := cutBlockEnd_resizes hr hb hcut hap (by omega)
  refine ⟨h', ?_⟩
  rw [kernRealloc_shrink (by omega), trimBlock_eq hb (by omega), heq, hstart]
  rfl

/-- From a longer block the cut would take pieces that no list is for. -/
theorem kernRealloc_unit_large (hr : HeapRep h F) (hb : Held b) (hsize : size < 16)
    (hbig : 4194304 ≤ b.size) : kernRealloc h b.addr size b.size priority = none := by
  have hend := hb.inside
  have hpos := hb.pos
  have halign := hb.aligned
  obtain ⟨m, hm⟩ : 2 ^ 21 ∣ b.addr := (two_pow_dvd_iff hpos).mpr (by omega)
  have hw : wadd (size - size % 16) smallestBlock = 16 := by
    unfold smallestBlock
    rw [wadd_eq (by omega)]
    omega
  rw [kernRealloc_shrink (by omega), trimBlock_eq hb (by omega), cutBlockEnd, hw,
    wadd_eq (by omega), wsub_eq (by omega) (by omega),
    cutLoop_wild (n := 2097152 - 16) (m := m + 1) hr.high (by omega) (by omega) (by omega)
      (by omega) (by omega)]
  rfl

/-- A wrapped request to `kern_malloc` has no block to give. -/
theorem malloc_handsOver (hr : HeapRep h F) (hword : size < 4294967296) :
    MallocHandsOver h size := by
  intro h' q hrun hq
  have hsum := wadd_lt size 4
  rcases kernMalloc_result hr 0 hsum with
    hnone | hnull | ⟨h₁, out, n, heq, -, hlarge, hle, hheld⟩
  · rw [malloc, hnone] at hrun
    cases hrun
  · rw [malloc, hnull] at hrun
    exact absurd rfl (withHeader_eq_some hrun hq).1
  · have hexact : wadd size 4 = size + 4 := by
      by_contra hne
      have := wadd_four_wraps (fun h => hne (wadd_eq h)) hword
      omega
    have hend := hheld.inside
    simp only at hend
    rw [malloc, heq] at hrun
    exact ⟨h₁, out, n, heq, withHeader_handedOver hrun hq (by omega) (by omega) (by omega)⟩

theorem realloc_eq (hb : Held b) (hhead : load32 h.mem b.addr = b.size) (size : ℕ) :
    realloc h (wadd b.addr 4) size =
      withHeader (kernRealloc h b.addr (wadd size 4) b.size 0) := by
  have hend := hb.inside
  rw [realloc, wsub_wadd (by omega), hhead]

theorem realloc_handsOver_iff (hr : HeapRep h F) (hb : Held b) (hap : ∀ c ∈ F, b.Apart c)
    (hhead : load32 h.mem b.addr = b.size) (hword : size < 4294967296) :
    ReallocHandsOver h b size ↔ size + 4 < 4294967296 ∨ 4194304 ≤ b.size := by
  have hrealloc := realloc_eq hb hhead size
  constructor
  · intro hover
    by_contra hnot
    push Not at hnot
    obtain ⟨hwrap, hsmall⟩ := hnot
    have hrest := wadd_four_wraps (by omega) hword
    obtain ⟨h₁, heq⟩ := kernRealloc_unit hr hb hap 0 (show wadd size 4 < 16 by omega) hsmall
    have hend := hb.inside
    have hpos := hb.pos
    have hlarge := hb.large
    rw [heq, withHeader, Option.bind_eq_bind, Option.bind_some] at hrealloc
    dsimp only at hrealloc
    rw [if_pos (by omega)] at hrealloc
    obtain ⟨h₂, out, n, hsame, hhanded⟩ := hover _ _ hrealloc (by rw [wadd_eq (by omega)]; omega)
    rw [heq] at hsame
    cases hsame
    have henough := hhanded.enough
    omega
  · intro hcond h' q hrun hq
    rw [hrealloc] at hrun
    by_cases hfits : size + 4 < 4294967296
    · cases heq : kernRealloc h b.addr (wadd size 4) b.size 0 with
      | none =>
        rw [heq] at hrun
        cases hrun
      | some r =>
        obtain ⟨h₁, out, n⟩ := r
        rw [heq] at hrun
        obtain ⟨henough, hout, hn⟩ := kernRealloc_enough hr hb hap (wadd_lt size 4) heq
          (withHeader_eq_some hrun hq).1
        rw [wadd_eq hfits] at henough
        exact ⟨h₁, out, n, rfl, withHeader_handedOver hrun hq hout hn henough⟩
    · have hrest := wadd_four_wraps hfits hword
      rw [kernRealloc_unit_large hr hb (by omega) (hcond.resolve_left hfits)] at hrun
      cases hrun

end Wrappers

def recordedBlock : Block := ⟨0x200000, 64⟩

def recordedHeap : Heap :=
  { oneBlockHeap with mem := store32 oneBlockHeap.mem recordedBlock.addr recordedBlock.size }

theorem recordedBlock_held : Held recordedBlock := by
  refine ⟨by norm_num [recordedBlock], by norm_num [recordedBlock], by norm_num [recordedBlock],
    ?_, by norm_num [recordedBlock]⟩
  exact lowBit_ge 6 (by norm_num [recordedBlock]) (by norm_num [recordedBlock])

theorem recordedBlock_apart : ∀ c ∈ ({oneBlock} : Finset Block), recordedBlock.Apart c := by
  intro c hc
  rw [Finset.mem_singleton.mp hc]
  decide

theorem recordedHeap_rep : HeapRep recordedHeap {oneBlock} := by
  apply oneBlockHeap_rep.copy recordedBlock_apart
  intro x hx
  apply store32_frame
  simp only [Block.covers, recordedBlock] at hx ⊢
  omega

theorem recordedHeap_header : load32 recordedHeap.mem recordedBlock.addr = recordedBlock.size :=
  load32_store32 _ _ (by norm_num [recordedBlock])

end KernelHeap
