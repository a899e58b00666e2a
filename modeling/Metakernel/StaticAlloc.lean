import Metakernel.ByteLoops

/-!
# Objects and blocks that memset clears

`mutex_init` and `cond_init` of sync.h, and `static_alloc` with the `static_alloc_expand` of
ia_32_static_alloc.s. The stack is not part of the memory.
-/
namespace StaticAlloc

open ByteMemory ByteLoops IntLoops

def CACHE_LINE_SIZE : ℕ := 16

def sizeofMutex : ℕ := 3 * CACHE_LINE_SIZE + 4 * 4

def sizeofCond : ℕ := 4 * CACHE_LINE_SIZE + 3 * 4

def mutexInit (m : Memory) (x : ℕ) : Option Memory := memset m x 0 (BitVec.ofNat 32 sizeofMutex)

def condInit (m : Memory) (x : ℕ) : Option Memory := memset m x 0 (BitVec.ofNat 32 sizeofCond)

/-- The statics of static_alloc.c and the memory. -/
structure State where
  limit : BitVec 32
  addr : BitVec 32
  memory : Memory

/-- What a call of `static_alloc_expand` finds beside its argument. The compiler decides what `eax`
holds in each round. -/
structure ExpandCall where
  returnAddress : BitVec 32
  eax : ℕ → BitVec 32

/-- The word that `static_alloc_expand` puts into the page directory. -/
def setEntry (page : BitVec 32) (m : Memory) : Memory :=
  store32 m (0x100000 + (page >>> 20)).toNat (page ||| 0x83).toNat

/-- With `esp` lowered by 8, the word at `[esp+8]` is the return address and not the argument. At
the end `eax` is as it was. -/
def staticAllocExpand (returnAddress eax _last : BitVec 32) (m : Memory) : BitVec 32 × Memory :=
  (eax, setEntry returnAddress m)

structure Expansion where
  rounds : ℕ
  limit : BitVec 32
  memory : Memory

def expandRound (call : ExpandCall) (e : Expansion) : Expansion :=
  let (limit, memory) :=
    staticAllocExpand call.returnAddress (call.eax e.rounds) e.limit e.memory
  ⟨e.rounds + 1, limit, memory⟩

def expandLoop (call : ExpandCall) (fuel : ℕ) (s : State) (addr : BitVec 32) : Option Expansion :=
  whileLoop (fun e => decide (e.limit < addr)) (expandRound call) fuel ⟨0, s.limit, s.memory⟩

def alignUp (addr align : BitVec 32) : BitVec 32 := ((addr - 1) / align + 1) * align

def staticAlloc (call : ExpandCall) (fuel : ℕ) (s : State) (size align : BitVec 32) :
    Option (BitVec 32 × State) := do
  -- the division traps
  if align = 0 then none
  let out := alignUp s.addr align
  let addr := out + size
  let e ← expandLoop call fuel s addr
  let memory ← memset e.memory out.toNat 0 size
  some (out, ⟨e.limit, addr, memory⟩)

def Zeroed (m : Memory) (p n : ℕ) : Prop := ∀ i < n, m (p + i) = 0

theorem memset_zero (m : Memory) (ptr : ℕ) (size : BitVec 32) : memset m ptr 0 size = some m := by
  rw [memset_eq, filled_zero]

theorem memset_zeroed_iff (m : Memory) (x n : ℕ) (size : BitVec 32) :
    (∃ m', memset m x 0 size = some m' ∧ Zeroed m' x n) ↔ Zeroed m x n := by
  rw [memset_zero]
  constructor
  · rintro ⟨m', heq, hzero⟩
    rwa [Option.some.inj heq]
  · intro hzero
    exact ⟨m, rfl, hzero⟩

variable {call : ExpandCall} {s : State} {addr : BitVec 32}

theorem setEntry_twice (page : BitVec 32) (m : Memory) :
    setEntry page (setEntry page m) = setEntry page m := by
  funext b
  unfold setEntry store32
  split_ifs <;> rfl

theorem expandRound_iterate (limit : BitVec 32) (m : Memory) : ∀ n : ℕ,
    (expandRound call)^[n + 1] ⟨0, limit, m⟩ =
      ⟨n + 1, call.eax n, setEntry call.returnAddress m⟩
  | 0 => rfl
  | n + 1 => by
    rw [Function.iterate_succ_apply', expandRound_iterate limit m n]
    exact congrArg (Expansion.mk (n + 2) (call.eax (n + 1))) (setEntry_twice _ m)

/-- The memory after the expansion up to `addr`. -/
def expanded (call : ExpandCall) (s : State) (addr : BitVec 32) : Memory :=
  if s.limit < addr then setEntry call.returnAddress s.memory else s.memory

def Expands (call : ExpandCall) (s : State) (addr : BitVec 32) : Prop :=
  s.limit < addr → ∃ n, addr ≤ call.eax n

theorem expandLoop_memory {fuel : ℕ} {e : Expansion} (h : expandLoop call fuel s addr = some e) :
    e.memory = expanded call s addr := by
  obtain ⟨n, -, hstop, rfl⟩ := (whileLoop_eq_some_iff fuel _).mp h
  cases n with
  | zero =>
    have hge : ¬ s.limit < addr := of_decide_eq_false hstop.2
    exact (if_neg hge).symm
  | succ n =>
    have hlt : s.limit < addr := of_decide_eq_true (hstop.1 0 (by omega))
    rw [expandRound_iterate, expanded, if_pos hlt]

theorem expandLoop_ends_iff :
    (∃ fuel e, expandLoop call fuel s addr = some e) ↔ Expands call s addr := by
  constructor
  · rintro ⟨fuel, e, h⟩ hlt
    obtain ⟨n, -, hstop, -⟩ := (whileLoop_eq_some_iff fuel _).mp h
    cases n with
    | zero => exact absurd hlt (of_decide_eq_false hstop.2)
    | succ n =>
      have hge := of_decide_eq_false hstop.2
      rw [expandRound_iterate] at hge
      exact ⟨n, BitVec.not_lt.mp hge⟩
  · intro h
    have hstops : ∃ n, decide (((expandRound call)^[n] ⟨0, s.limit, s.memory⟩).limit < addr) =
        false := by
      by_cases hlt : s.limit < addr
      · obtain ⟨n, hn⟩ := h hlt
        refine ⟨n + 1, decide_eq_false ?_⟩
        rw [expandRound_iterate]
        exact BitVec.not_lt.mpr hn
      · exact ⟨0, decide_eq_false hlt⟩
    obtain ⟨n, hn⟩ := exists_stopsAfter (fun e : Expansion => decide (e.limit < addr))
      (expandRound call) _ hstops
    exact ⟨n + 1, _, (whileLoop_eq_some_iff (n + 1) _).mpr ⟨n, by omega, hn, rfl⟩⟩

/-- A block is zero when it was so before and the expansion, if there is one, ends and does not
write its word into it. -/
theorem staticAlloc_zeroed_iff (call : ExpandCall) (s : State) (size align : BitVec 32) :
    (∃ fuel out s', staticAlloc call fuel s size align = some (out, s') ∧
      Zeroed s'.memory out.toNat size.toNat) ↔
      align ≠ 0 ∧ Expands call s (alignUp s.addr align + size) ∧
        Zeroed (expanded call s (alignUp s.addr align + size)) (alignUp s.addr align).toNat
          size.toNat := by
  by_cases halign : align = 0
  · simp [staticAlloc, halign]
  rw [← expandLoop_ends_iff]
  simp only [staticAlloc, halign, if_false, memset_zero, Option.bind_eq_bind]
  constructor
  · rintro ⟨fuel, out, s', h, hzero⟩
    obtain ⟨e, he, h⟩ := Option.bind_eq_some_iff.mp h
    cases h
    refine ⟨halign, ⟨fuel, e, he⟩, ?_⟩
    rwa [← expandLoop_memory he]
  · rintro ⟨-, ⟨fuel, e, he⟩, hzero⟩
    refine ⟨fuel, _, _, Option.bind_eq_some_iff.mpr ⟨e, he, rfl⟩, ?_⟩
    simp only
    rwa [expandLoop_memory he]

/-- When `memset` fills its range, and when what is initialised through it is all zero. -/
theorem memory_fill_iff (m : Memory) :
    (∀ (ptr : ℕ) (val : UInt8) (size : BitVec 32), ptr + size.toNat ≤ 4294967296 →
      ((∃ m', memset m ptr val size = some m' ∧ Filled m m' ptr val size.toNat) ↔
        Held m ptr val size.toNat)) ∧
    (∀ x : ℕ, (∃ m', mutexInit m x = some m' ∧ Zeroed m' x sizeofMutex) ↔
      Zeroed m x sizeofMutex) ∧
    (∀ x : ℕ, (∃ m', condInit m x = some m' ∧ Zeroed m' x sizeofCond) ↔
      Zeroed m x sizeofCond) ∧
    ∀ (call : ExpandCall) (s : State) (size align : BitVec 32), s.memory = m →
      ((∃ fuel out s', staticAlloc call fuel s size align = some (out, s') ∧
        Zeroed s'.memory out.toNat size.toNat) ↔
        align ≠ 0 ∧ Expands call s (alignUp s.addr align + size) ∧
          Zeroed (expanded call s (alignUp s.addr align + size)) (alignUp s.addr align).toNat
            size.toNat) :=
  ⟨fun ptr val _ hptr => memset_fills_iff m ptr val hptr,
    fun x => memset_zeroed_iff m x sizeofMutex _, fun x => memset_zeroed_iff m x sizeofCond _,
    fun call s size align _ => staticAlloc_zeroed_iff call s size align⟩

theorem memory_fill_iff_five :
    (∃ m', memset (fun _ => 0) 4096 5 5 = some m' ∧ Filled (fun _ => 0) m' 4096 5 5) ∧
    ∃ fuel out s', staticAlloc ⟨0x101000, fun _ => 0⟩ fuel ⟨0x400000, 0x200001, fun _ => 0⟩ 24 16 =
      some (out, s') ∧ Zeroed s'.memory out.toNat 24 := by
  refine ⟨((memory_fill_iff _).1 4096 5 5 (by decide)).mpr ⟨?_, ?_⟩,
    ((memory_fill_iff _).2.2.2 _ _ 24 16 rfl).mpr ⟨by decide, fun h => absurd h (by decide), ?_⟩⟩
  · intro i hi hle
    exact absurd hi (Nat.not_lt.mpr hle)
  · intro i hi hle
    exact absurd hi (Nat.not_lt.mpr hle)
  · intro i _
    rw [expanded, if_neg (by decide)]

def ones : Memory := fun _ => 1

/-- Nothing is cleared, and a value above the size is written past the end. -/
theorem memory_not_filled :
    (¬ ∃ m', memset ones 4096 0 4 = some m' ∧ Filled ones m' 4096 0 4) ∧
    (¬ ∃ m', memset ones 4096 5 2 = some m' ∧ Filled ones m' 4096 5 2) ∧
    (¬ ∃ m', mutexInit ones 4096 = some m' ∧ Zeroed m' 4096 sizeofMutex) ∧
    (¬ ∃ m', condInit ones 4096 = some m' ∧ Zeroed m' 4096 sizeofCond) ∧
    ¬ ∃ fuel out s', staticAlloc ⟨0x101000, fun _ => 0⟩ fuel ⟨0x400000, 0x200001, ones⟩ 24 16 =
      some (out, s') ∧ Zeroed s'.memory out.toNat 24 := by
  refine ⟨?_, ?_, ?_, ?_, ?_⟩
  · intro h
    have hheld := (memset_fills_iff ones 4096 0 (by decide)).mp h
    exact absurd (hheld.1 0 (by decide) (by decide)) (by decide)
  · intro h
    have hheld := (memset_fills_iff ones 4096 5 (by decide)).mp h
    exact absurd (hheld.2 2 (by decide) (by decide)) (by decide)
  · intro h
    exact absurd ((memset_zeroed_iff ones 4096 sizeofMutex _).mp h 0 (by decide)) (by decide)
  · intro h
    exact absurd ((memset_zeroed_iff ones 4096 sizeofCond _).mp h 0 (by decide)) (by decide)
  · intro h
    have hzero := ((staticAlloc_zeroed_iff _ _ 24 16).mp h).2.2 0 (by decide)
    rw [expanded, if_neg (by decide)] at hzero
    exact absurd hzero (by decide)

end StaticAlloc
