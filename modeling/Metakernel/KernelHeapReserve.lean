import Mathlib.Data.Nat.Log
import Metakernel.KernelHeapRealloc

/-!
# When the kernel heap refuses

`kern_malloc` looks for a free block from the list of the rounded request upwards, and both
`kern_malloc` and `kern_realloc` compare the request with what `heap_free` has above the
emergency store. This file says exactly when the two give a block.
-/
namespace KernelHeap

open ByteMemory DyadicBlocks

def blockSize (size : ℕ) : ℕ := 2 ^ Nat.clog 2 size

theorem le_blockSize (size : ℕ) : size ≤ blockSize size := Nat.le_pow_clog (by norm_num) size

theorem blockSize_le_iff {size k : ℕ} : blockSize size ≤ 2 ^ k ↔ size ≤ 2 ^ k := by
  rw [blockSize, Nat.pow_le_pow_iff_right (by norm_num), Nat.clog_le_iff_le_pow (by norm_num)]

theorem clog_lt_word {size : ℕ} (hmax : size ≤ 2147483648) : Nat.clog 2 size < 32 := by
  have hle : Nat.clog 2 size ≤ 31 :=
    (Nat.clog_le_iff_le_pow (by norm_num)).mpr (by simpa using hmax)
  omega

theorem roundUp_blockSize {size : ℕ} (hmin : 2 ≤ size) (hmax : size ≤ 2147483648) :
    roundUp size = some (blockSize size) := by
  obtain ⟨k, hround, _, hle, hlt⟩ := roundUp_eq hmin hmax
  have hup : Nat.clog 2 size ≤ k := (Nat.clog_le_iff_le_pow (by norm_num)).mpr hle
  have hdown : k ≤ Nat.clog 2 size := by
    by_contra hless
    have hpow : 2 ^ (Nat.clog 2 size + 1) ≤ 2 ^ k :=
      Nat.pow_le_pow_right (by norm_num) (by omega)
    have hself := Nat.le_pow_clog (b := 2) (by norm_num) size
    rw [pow_succ] at hpow
    omega
  rw [hround, blockSize, le_antisymm hup hdown]

/-- Outside of 2 .. 2^31 the scan has no bit to find or the table has no entry. -/
theorem roundUp_none {size : ℕ} (hword : size < 4294967296)
    (hout : ¬ (2 ≤ size ∧ size ≤ 2147483648)) : roundUp size = none := by
  by_cases hone : size = 1
  · subst hone
    rfl
  · have hbig : 2147483648 ≤ wsub size 1 := by
      unfold wsub
      omega
    have hlt := wsub_lt size 1
    have hup : Nat.log 2 (wsub size 1) < 32 :=
      Nat.log_lt_of_lt_pow (by omega) (by simpa using hlt)
    have hdown : 31 ≤ Nat.log 2 (wsub size 1) :=
      Nat.le_log_of_pow_le (by norm_num) (by simpa using hbig)
    have hlog : Nat.log 2 (wsub size 1) = 31 := by omega
    rw [roundUp, bsr_eq (by omega) hlt, hlog]
    rfl

theorem FreeBlock.blockSize_le {b : Block} (hb : FreeBlock b) {size : ℕ} :
    blockSize size ≤ b.size ↔ size ≤ b.size := by
  obtain ⟨k, _, _, hs, _⟩ := hb
  rw [hs]
  exact blockSize_le_iff

theorem HeapRep.list_empty {h : Heap} {F : Finset Block} (hr : HeapRep h F) {k : ℕ} (hk : k ≤ 16)
    (hnone : h.blockLists k = 0) {b : Block} (hb : b ∈ F) : b.size ≠ 2 ^ (k + 4) := by
  intro hsize
  obtain ⟨l, _, hhead, hmem⟩ := hr.rings k hk
  have hin : b.addr ∈ l := by
    rw [hmem, ← hsize]
    exact hb
  cases l with
  | nil => exact absurd hin List.not_mem_nil
  | cons x xs =>
    rw [hnone, List.head?_cons, Option.getD_some] at hhead
    have hfirst : (⟨x, 2 ^ (k + 4)⟩ : Block) ∈ F := (hmem x).mp List.mem_cons_self
    have hpos := (hr.block _ hfirst).bounds.2.2.2.2.1
    simp only at hpos
    omega

/-- The search returns NULL only if no list from its start on has a block. -/
theorem acquireLoop_complete {h : Heap} {F : Finset Block} (hr : HeapRep h F) {fuel : ℕ} :
    ∀ {list : ℕ}, 17 - list < fuel → acquireLoop fuel h list = some (h, 0) →
      ∀ b ∈ F, b.size < 2 ^ (list + 4) := by
  induction fuel with
  | zero => intro list hfuel; omega
  | succ fuel ih =>
    intro list hfuel hnull b hb
    have h16 := hr.high
    obtain ⟨j, h4, h20, hsize, _⟩ := hr.block b hb
    by_cases hle : list ≤ h.highList
    · by_cases hne : h.blockLists list ≠ 0
      · obtain ⟨a, hout, hmem⟩ := hr.list_block (by omega) hne
        obtain ⟨h', _, hdel, _, _⟩ := Evolves.deleteAddr (R := Covers F) hr hmem (fun x hx => hx)
        have hpos := (hr.block _ hmem).bounds.2.2.2.2.1
        simp only at hpos
        simp only [acquireLoop, hle, if_true, hne, ne_eq, not_false_eq_true, hout, hdel,
          Option.bind_eq_bind, Option.bind_some, Option.some.injEq, Prod.mk.injEq] at hnull
        omega
      · have hempty : h.blockLists list = 0 := by simpa using hne
        have hw : wadd list 1 = list + 1 := wadd_eq (by omega)
        rw [acquireLoop, if_pos hle, if_neg hne, hw] at hnull
        have hnext := ih (show 17 - (list + 1) < fuel by omega) hnull b hb
        have hlist := hr.list_empty (by omega) hempty hb
        rw [hsize] at hnext hlist ⊢
        rw [Nat.pow_lt_pow_iff_right (by norm_num)] at hnext ⊢
        have : j ≠ list + 4 := fun heq => hlist (by rw [heq])
        omega
    · rw [hsize]
      exact Nat.pow_lt_pow_right (by norm_num) (by omega)

/-- Below the smallest block the list index wraps around, and no list is searched. -/
theorem acquireBlock_small {h : Heap} {F : Finset Block} (hr : HeapRep h F) {k : ℕ} (hk : k < 4) :
    acquireBlock h (2 ^ k) = some (h, 0) := by
  have hlt : 2 ^ k < 2 ^ 4 := Nat.pow_lt_pow_right (by norm_num) hk
  have hilog : ilog (2 ^ k) = some k := by
    rw [ilog, addrPower_eq (Nat.two_pow_pos k) (by omega), Nat.log_pow (by norm_num)]
  have hhigh := hr.high
  have hwrap : ¬ wsub k listOffset ≤ h.highList := by
    unfold wsub listOffset
    omega
  rw [acquireBlock, hilog, Option.bind_eq_bind, Option.bind_some,
    show loopBound = 4294967295 + 1 from rfl, acquireLoop, if_neg hwrap]

/-- From the smallest block on, NULL means that no free block is long enough. -/
theorem acquireBlock_complete {h : Heap} {F : Finset Block} (hr : HeapRep h F) {k : ℕ}
    (h4 : 4 ≤ k) (hk : k < 32) (hnull : acquireBlock h (2 ^ k) = some (h, 0)) :
    ∀ b ∈ F, b.size < 2 ^ k := by
  have hlt : 2 ^ k < 4294967296 := by
    calc 2 ^ k < 2 ^ 32 := Nat.pow_lt_pow_right (by norm_num) hk
      _ = 4294967296 := by norm_num
  have hilog : ilog (2 ^ k) = some k := by
    rw [ilog, addrPower_eq (Nat.two_pow_pos k) hlt, Nat.log_pow (by norm_num)]
  have hw : wsub k listOffset = k - 4 := wsub_eq (by omega) h4
  rw [acquireBlock, hilog, Option.bind_eq_bind, Option.bind_some, hw] at hnull
  have hall := acquireLoop_complete hr (show 17 - (k - 4) < loopBound by unfold loopBound; omega)
    hnull
  rwa [Nat.sub_add_cancel h4] at hall

def Served (F : Finset Block) (size : ℕ) : Prop :=
  9 ≤ size ∧ ∃ b ∈ F, blockSize size ≤ b.size

theorem Served.le_largest {F : Finset Block} (hF : FreeSet F) {size : ℕ} (hs : Served F size) :
    blockSize size ≤ largestBlock := by
  obtain ⟨_, b, hb, hle⟩ := hs
  exact le_trans hle (hF.block b hb).bounds.2.1

theorem four_le_clog {size : ℕ} : 4 ≤ Nat.clog 2 size ↔ 9 ≤ size := by
  have := Nat.lt_clog_iff_pow_lt (b := 2) (by norm_num) (x := size) (y := 3)
  omega

theorem acquireBlock_starved {h : Heap} {F : Finset Block} (hr : HeapRep h F) {size : ℕ}
    (hmax : size ≤ 2147483648) (hs : ¬ Served F size) :
    acquireBlock h (blockSize size) = some (h, 0) := by
  by_cases hsmall : size < 9
  · have hclog : ¬ 4 ≤ Nat.clog 2 size := fun h => absurd (four_le_clog.mp h) (by omega)
    exact acquireBlock_small hr (by omega)
  · rcases acquireBlock_spec hr (clog_lt_word hmax) with hnull | ⟨b, _, _, hb, hle, _⟩
    · exact hnull
    · exact absurd ⟨by omega, b, hb, hle⟩ hs

theorem kernMalloc_null {h : Heap} {size priority m : ℕ} (hround : roundUp size = some m)
    (hacq : acquireBlock h m = some (h, 0)) : kernMalloc h size priority = some (h, 0, size) := by
  simp only [kernMalloc, hround, Option.bind_eq_bind, Option.bind_some, emptyCaches, hacq,
    ne_eq, not_true_eq_false, if_false, ite_self]

theorem kernMalloc_starved {h : Heap} {F : Finset Block} (hr : HeapRep h F) {size priority : ℕ}
    (hmin : 2 ≤ size) (hmax : size ≤ 2147483648) (hs : ¬ Served F size) :
    kernMalloc h size priority = some (h, 0, size) :=
  kernMalloc_null (roundUp_blockSize hmin hmax) (acquireBlock_starved hr hmax hs)

theorem kernMalloc_none {h : Heap} {size priority : ℕ} (hword : size < 4294967296)
    (hout : ¬ (2 ≤ size ∧ size ≤ 2147483648)) : kernMalloc h size priority = none := by
  rw [kernMalloc, roundUp_none hword hout]
  rfl

def MallocAdmitted (h : Heap) (size priority : ℕ) : Prop :=
  blockSize size ≤ wsub h.heapFree emergencyStore ∨ priority ≠ 0

theorem kernMalloc_refused {h : Heap} {size priority : ℕ} (hmin : 2 ≤ size)
    (hmax : size ≤ 2147483648) (hadm : ¬ MallocAdmitted h size priority) :
    kernMalloc h size priority = some (h, 0, size) := by
  have hlow : ¬ blockSize size ≤ wsub h.heapFree emergencyStore := fun hle => hadm (Or.inl hle)
  unfold MallocAdmitted at hadm
  simp only [kernMalloc, roundUp_blockSize hmin hmax, Option.bind_eq_bind, Option.bind_some,
    emptyCaches, if_neg hadm]
  exact if_neg hlow

/-- An admitted request that some free block can serve gets a block. -/
theorem kernMalloc_served {h : Heap} {F : Finset Block} (hr : HeapRep h F) {size priority : ℕ}
    (hs : Served F size) (hadm : MallocAdmitted h size priority) :
    ∃ h' out F', kernMalloc h size priority = some (h', out, (size + 15) / 16 * 16) ∧
      Evolves (Covers F) h F h' F' ∧ Allocates F ⟨out, (size + 15) / 16 * 16⟩ F' := by
  have hlarge := hs.le_largest hr.toFreeSet
  have hself := le_blockSize size
  have hmax : size ≤ 2147483648 := by
    have : largestBlock = 1048576 := by norm_num [largestBlock]
    omega
  obtain ⟨h9, c, hc, hcle⟩ := hs
  rcases acquireBlock_spec hr (clog_lt_word hmax) with hnull | ⟨b, h₁, heq, hb, hsz, hev, hsize⟩
  · have := acquireBlock_complete hr (four_le_clog.mpr h9) (clog_lt_word hmax) hnull c hc
    unfold blockSize at hcle
    omega
  · obtain ⟨h', F', hset, hev', hal⟩ := setupBlock_spec hr.toFreeSet hev hb hsize (by omega)
      (le_trans hself hsz)
    have hne : b.addr ≠ 0 := by
      have := (hr.block b hb).bounds.2.2.2.2.1
      omega
    refine ⟨h', b.addr, F', ?_, hev', hal⟩
    unfold MallocAdmitted at hadm
    rw [← blockSize] at heq
    simp only [kernMalloc, roundUp_blockSize (show 2 ≤ size by omega) hmax, Option.bind_eq_bind,
      Option.bind_some, if_pos hadm, heq, ne_eq, hne, not_false_eq_true, if_true, hset]

def MallocServes (h : Heap) (F : Finset Block) (size priority : ℕ) : Prop :=
  (∃ b ∈ F, blockSize size ≤ b.size) →
    ∃ h' out n, kernMalloc h size priority = some (h', out, n) ∧ out ≠ 0

/-- Requests of at most half the smallest block are never served; all others whenever a free
block is long enough. -/
theorem malloc_serves_iff {h : Heap} {F : Finset Block} (hr : HeapRep h F) {size priority : ℕ}
    (hmin : 1 ≤ size) (hprio : priority ≠ 0) :
    MallocServes h F size priority ↔ 9 ≤ size ∨ F = ∅ := by
  constructor
  · intro hserves
    by_contra hnot
    push Not at hnot
    obtain ⟨hsmall, b, hb⟩ := hnot
    have hfits : blockSize size ≤ b.size := by
      rw [(hr.block b hb).blockSize_le]
      have := (hr.block b hb).bounds.1
      omega
    obtain ⟨h', out, n, hrun, hout⟩ := hserves ⟨b, hb, hfits⟩
    by_cases hone : size = 1
    · rw [kernMalloc_none (by omega) (by omega)] at hrun
      exact absurd hrun (by simp)
    · rw [kernMalloc_starved hr (by omega) (by omega) (fun hs => by have := hs.1; omega),
        Option.some.injEq, Prod.mk.injEq, Prod.mk.injEq] at hrun
      exact hout hrun.2.1.symm
  · rintro (h9 | rfl) ⟨b, hb, hle⟩
    · obtain ⟨h', out, _, hrun, _, hal⟩ := kernMalloc_served hr ⟨h9, b, hb, hle⟩ (Or.inr hprio)
      have hpos := hal.held.pos
      exact ⟨h', out, _, hrun, by simp only at hpos; omega⟩
    · exact absurd hb (Finset.notMem_empty b)

theorem malloc_serves_hundred : MallocServes oneBlockHeap {oneBlock} 100 1 :=
  (malloc_serves_iff oneBlockHeap_rep (by norm_num) (by norm_num)).mpr (Or.inl (by norm_num))

theorem malloc_eight_fails : HeapRep oneBlockHeap {oneBlock} ∧
    ¬ MallocServes oneBlockHeap {oneBlock} 8 1 := by
  refine ⟨oneBlockHeap_rep, ?_⟩
  intro hserves
  have hfits : blockSize 8 ≤ oneBlock.size := by
    rw [oneBlock_free.blockSize_le]
    norm_num [oneBlock]
  obtain ⟨h', out, n, hrun, hout⟩ := hserves ⟨oneBlock, Finset.mem_singleton_self _, hfits⟩
  rw [kernMalloc_starved oneBlockHeap_rep (by norm_num) (by norm_num)
    (fun hs => absurd hs.1 (by norm_num)), Option.some.injEq, Prod.mk.injEq,
    Prod.mk.injEq] at hrun
  exact hout hrun.2.1.symm

/-- A run that gives memory leaves the emergency store, and one for `takes` bytes that are not
there above the store gives none. -/
structure KeepsReserve (h : Heap) (takes : ℕ) (run : Option (Heap × ℕ × ℕ)) : Prop where
  kept : ∀ h' out n, run = some (h', out, n) → out ≠ 0 → emergencyStore ≤ h'.heapFree
  refused : h.heapFree < emergencyStore + takes → ∃ h' n, run = some (h', 0, n)

theorem KeepsReserve.null {h h' : Heap} {takes n : ℕ} {run : Option (Heap × ℕ × ℕ)}
    (hrun : run = some (h', 0, n)) : KeepsReserve h takes run := by
  refine ⟨?_, fun _ => ⟨h', n, hrun⟩⟩
  intro h'' out m heq hout
  rw [hrun, Option.some.injEq, Prod.mk.injEq, Prod.mk.injEq] at heq
  exact absurd heq.2.1.symm hout

theorem keepsReserve_none_iff {h : Heap} {takes : ℕ} {run : Option (Heap × ℕ × ℕ)}
    (hrun : run = none) : KeepsReserve h takes run ↔ emergencyStore + takes ≤ h.heapFree := by
  constructor
  · intro hkeeps
    by_contra hless
    obtain ⟨h', n, heq⟩ := hkeeps.refused (by omega)
    rw [hrun] at heq
    exact absurd heq (by simp)
  · intro hle
    refine ⟨?_, fun hless => by omega⟩
    intro h' out n heq
    rw [hrun] at heq
    exact absurd heq (by simp)

theorem keepsReserve_some_iff {h h' : Heap} {takes out n : ℕ} {run : Option (Heap × ℕ × ℕ)}
    (hrun : run = some (h', out, n)) (hout : out ≠ 0) : KeepsReserve h takes run ↔
      emergencyStore ≤ h'.heapFree ∧ emergencyStore + takes ≤ h.heapFree := by
  constructor
  · intro hkeeps
    refine ⟨hkeeps.kept h' out n hrun hout, ?_⟩
    by_contra hless
    obtain ⟨h'', m, heq⟩ := hkeeps.refused (by omega)
    rw [hrun, Option.some.injEq, Prod.mk.injEq, Prod.mk.injEq] at heq
    exact hout heq.2.1
  · rintro ⟨hleft, hle⟩
    refine ⟨?_, fun hless => by omega⟩
    intro h'' out' n' heq _
    rw [hrun, Option.some.injEq, Prod.mk.injEq] at heq
    rwa [← heq.1]

/-- The counter goes down by the bytes that have left the free set. -/
theorem counter_after {h h' : Heap} {F F' : Finset Block} (hr : HeapRep h F) (hr' : HeapRep h' F')
    (hcount : wadd h'.heapFree (bytes F) = wadd h.heapFree (bytes F')) {old new : ℕ}
    (hbytes : bytes F' + new = bytes F + old) (hle : old ≤ new) (hroom : new - old ≤ h.heapFree) :
    h'.heapFree + (new - old) = h.heapFree := by
  have hlt := hr.counter
  have hlt' := hr'.counter
  unfold wadd at hcount
  omega

theorem Allocates.bytes_eq {F F' : Finset Block} {b : Block} (hF : FreeSet F) (hF' : FreeSet F')
    (hal : Allocates F b F') : bytes F' + b.size = bytes F := by
  have hlarge := hal.held.large
  have hnot := not_mem_of_apart (by omega) hal.apart
  have heq := bytes_congr hF.apart (hF'.apart.insert hal.apart) fun x => by
    rw [covers_insert, hal.covers x, or_comm]
  rw [bytes_insert hnot] at heq
  omega

def MallocRespects (h : Heap) (size : ℕ) : Prop :=
  KeepsReserve h ((size + 15) / 16 * 16) (kernMalloc h size 0)

def ReallocRespects (h : Heap) (b : Block) (size : ℕ) : Prop :=
  KeepsReserve h (size - b.size) (kernRealloc h b.addr size b.size 0)

/-- The store is intact, or no block can be found. Sizes that cannot be rounded up have no
result, which is right only for a request that would fit. -/
def MallocWithin (h : Heap) (F : Finset Block) (size : ℕ) : Prop :=
  if 2 ≤ size ∧ size ≤ 2147483648 then emergencyStore ≤ h.heapFree ∨ ¬ Served F size
  else emergencyStore + (size + 15) / 16 * 16 ≤ h.heapFree

theorem Served.units_le {F : Finset Block} {size : ℕ} (hs : Served F size) :
    (size + 15) / 16 * 16 ≤ blockSize size := by
  obtain ⟨k, hk⟩ : 2 ^ 4 ∣ blockSize size := pow_dvd_pow 2 (four_le_clog.mpr hs.1)
  have hself := le_blockSize size
  omega

theorem malloc_respects_iff {h : Heap} {F : Finset Block} (hr : HeapRep h F) {size : ℕ}
    (hword : size < 4294967296) : MallocRespects h size ↔ MallocWithin h F size := by
  have hcounter := hr.counter
  have hstore : emergencyStore = 1048576 := rfl
  by_cases hsize : 2 ≤ size ∧ size ≤ 2147483648
  · rw [MallocWithin, if_pos hsize]
    by_cases hs : Served F size
    · have hlarge := hs.le_largest hr.toFreeSet
      have hunits := hs.units_le
      have htop : largestBlock = 1048576 := by norm_num [largestBlock]
      by_cases hadm : MallocAdmitted h size 0
      · obtain ⟨h', out, F', hrun, hev, hal⟩ := kernMalloc_served hr hs hadm
        have hout : out ≠ 0 := Nat.pos_iff_ne_zero.mp hal.held.pos
        have hfits : blockSize size ≤ wsub h.heapFree emergencyStore :=
          hadm.resolve_right (by simp)
        rw [MallocRespects, keepsReserve_some_iff hrun hout]
        constructor
        · rintro ⟨_, hle⟩
          exact Or.inl (by omega)
        · intro hwithin
          have hintact : emergencyStore ≤ h.heapFree :=
            hwithin.resolve_right fun hn => hn hs
          rw [wsub_eq hcounter hintact] at hfits
          have hafter := counter_after hr hev.rep hev.count
            ((hal.bytes_eq hr.toFreeSet hev.rep.toFreeSet).trans (Nat.add_zero _).symm)
            (Nat.zero_le _) (by simp only; omega)
          simp only at hafter
          omega
      · -- the difference does not wrap around when the test refuses
        have hintact : emergencyStore ≤ h.heapFree := by
          by_contra hless
          refine hadm (Or.inl ?_)
          unfold wsub
          omega
        exact ⟨fun _ => Or.inl hintact,
          fun _ => KeepsReserve.null (kernMalloc_refused hsize.1 hsize.2 hadm)⟩
    · exact ⟨fun _ => Or.inr hs,
        fun _ => KeepsReserve.null (kernMalloc_starved hr hsize.1 hsize.2 hs)⟩
  · rw [MallocWithin, if_neg hsize, MallocRespects,
      keepsReserve_none_iff (kernMalloc_none hword hsize)]

theorem Admitted.room {h : Heap} (hcounter : h.heapFree < 4294967296) {size old : ℕ}
    (hadm : Admitted h size old 0) (hlt : old < size) (hword : size < 4294967296)
    (hintact : emergencyStore ≤ h.heapFree) : emergencyStore + (size - old) ≤ h.heapFree := by
  have hfits : wsub size old ≤ wsub h.heapFree emergencyStore := hadm.resolve_right (by simp)
  rw [wsub_eq hword (by omega), wsub_eq hcounter hintact] at hfits
  omega

theorem Resized.bytes_eq {h h' : Heap} {F F' : Finset Block} {b c : Block} {keep : ℕ}
    (hF : FreeSet F) (hap : ∀ d ∈ F, b.Apart d) (hb : 0 < b.size) (hc : 0 < c.size)
    (hres : Resized h F b h' F' c keep) : bytes F' + c.size = bytes F + b.size :=
  bytes_add_congr hres.rep.apart hF.apart hres.apart hap hc hb hres.covers

/-- An admitted request that got the block `c` keeps to the reserve exactly when the store is
not needed for what `c` has more than the old block. -/
theorem Resized.keeps_iff {h h' : Heap} {F F' : Finset Block} {b c : Block} {size keep : ℕ}
    (hr : HeapRep h F) (hap : ∀ d ∈ F, b.Apart d) (hb : 0 < b.size) (hlt : b.size < size)
    (hres : Resized h F b h' F' c keep) (hsize : size ≤ c.size) (hunits : c.size ≤ size + 16)
    (hword : size < 4294967296) (hadm : Admitted h size b.size 0) (hpos : c.addr ≠ 0)
    (hrun : kernRealloc h b.addr size b.size 0 = some (h', c.addr, c.size)) :
    ReallocRespects h b size ↔ emergencyStore + (c.size - b.size) ≤ h.heapFree := by
  have hstore : emergencyStore = 1048576 := rfl
  have hbytes := hres.bytes_eq hr.toFreeSet hap hb (by omega)
  rw [ReallocRespects, keepsReserve_some_iff hrun hpos]
  constructor
  · rintro ⟨hleft, hle⟩
    have hafter := counter_after hr hres.rep hres.count hbytes (by omega) (by omega)
    omega
  · intro hle
    have hafter := counter_after hr hres.rep hres.count hbytes (by omega) (by omega)
    exact ⟨by omega, hadm.room hr.counter hlt hword (by omega)⟩

/-- When a growing request keeps to the reserve. Only an admitted one can fail: the block that
it ends with may be longer than what the test has compared, and below the store the test
admits everything. -/
def ReallocWithin (h : Heap) (F : Finset Block) (b : Block) (size : ℕ) : Prop :=
  Admitted h size b.size 0 →
    (emergencyStore ≤ h.heapFree ∨ size ≤ 2147483648 ∧ ¬ GrowsTo F b size) ∧
    ∀ g, GrowthEnd F b size g →
      (size < g.size → emergencyStore + (cutStart size - b.size) ≤ h.heapFree) ∧
      (g.size < size → Served (F.filter g.Apart) size →
        emergencyStore + ((size + 15) / 16 * 16 - b.size) ≤ h.heapFree)

theorem Absorbs.rest_eq {F F' : Finset Block} {b c : Block} (hF : FreeSet F)
    (h : Absorbs b F c F') : F' = F.filter c.Apart := by
  have hlarge := h.held.large
  ext d
  rw [Finset.mem_filter]
  constructor
  · intro hd
    exact ⟨h.subset hd, h.apart d hd⟩
  · rintro ⟨hd, hap⟩
    refine h.mem hF hd fun hcov => hap.not_covers hcov ?_
    have := (hF.block d hd).bounds.1
    unfold Block.covers
    omega

section Growing

variable {h h₁ : Heap} {F F₁ : Finset Block} {b : Block} {p n size : ℕ}

/-- A run without a result is right when there was nothing to refuse. -/
theorem realloc_lost_iff (hr : HeapRep h F) (hlt : b.size < size) (hword : size < 4294967296)
    (hadm : Admitted h size b.size 0) (hrun : kernRealloc h b.addr size b.size 0 = none) :
    ReallocRespects h b size ↔ emergencyStore ≤ h.heapFree := by
  rw [ReallocRespects, keepsReserve_none_iff hrun]
  exact ⟨fun hle => by omega, hadm.room hr.counter hlt hword⟩

theorem Grown.cut_respects_iff (hr : HeapRep h F) (hb : Held b) (hap : ∀ c ∈ F, b.Apart c)
    (hlt : b.size < size) (hword : size < 4294967296) (hadm : Admitted h size b.size 0)
    (hgrow : growBlock h b.addr b.size size = some (h₁, p, n))
    (hg : Grown h F b size h₁ F₁ ⟨p, n⟩) (hlong : size < n) :
    ReallocRespects h b size ↔ emergencyStore + (cutStart size - b.size) ≤ h.heapFree := by
  have hlarge := hb.large
  have hstart := lt_cutStart size
  have hpos : p ≠ 0 := Nat.pos_iff_ne_zero.mp hg.absorbs.held.pos
  obtain ⟨h', F', hcut, hres⟩ := hg.cut_resizes hlt hlong
  refine hres.keeps_iff hr hap (by omega) hlt (by simp only; omega)
    (by simp only [cutStart]; omega) hword hadm hpos ?_
  rw [kernRealloc_admitted hlt hadm, growOrMove_eq hgrow, if_pos (le_of_lt hlong), hcut]
  rfl

/-- A block that was grown too little moves to a free block that is long enough. -/
theorem Grown.move_served (hb : Held b) (hlt : b.size < size)
    (hg : Grown h F b size h₁ F₁ ⟨p, n⟩) (hshort : n < size) (hs : Served F₁ size) :
    ∃ h' F' out, out ≠ 0 ∧
      moveBlock h₁ b.addr size b.size p n = some (h', out, (size + 15) / 16 * 16) ∧
      Resized h F b h' F' ⟨out, (size + 15) / 16 * 16⟩ b.size := by
  have hbound := hs.le_largest hg.rep.toFreeSet
  have hself := le_blockSize size
  obtain ⟨h₂, out, F₂, heq₂, hev₂, hal⟩ := kernMalloc_served hg.rep hs (Or.inr one_ne_zero)
  obtain ⟨h', F', hmove, hres⟩ := hg.move_resizes hb (by omega)
    (show b.size ≤ (size + 15) / 16 * 16 by omega) heq₂ hev₂ hal
  exact ⟨h', F', out, Nat.pos_iff_ne_zero.mp hal.held.pos, hmove, hres⟩

/-- Without one the move fails, and the request is lost when its length cannot be rounded up. -/
theorem Grown.move_starved (hb : Held b) (hlt : b.size < size) (hword : size < 4294967296)
    (hg : Grown h F b size h₁ F₁ ⟨p, n⟩) (hs : ¬ Served F₁ size) :
    moveBlock h₁ b.addr size b.size p n = if size ≤ 2147483648 then some (h₁, 0, n) else none := by
  have hlarge := hb.large
  split
  · rename_i hround
    exact moveBlock_null (kernMalloc_starved hg.rep (by omega) hround hs)
  · rename_i hround
    rw [moveBlock, kernMalloc_none hword (by omega)]
    rfl

theorem Grown.move_respects_iff (hr : HeapRep h F) (hb : Held b) (hap : ∀ c ∈ F, b.Apart c)
    (hlt : b.size < size) (hword : size < 4294967296) (hadm : Admitted h size b.size 0)
    (hgrow : growBlock h b.addr b.size size = some (h₁, p, n))
    (hg : Grown h F b size h₁ F₁ ⟨p, n⟩) (hshort : n < size) :
    ReallocRespects h b size ↔ (emergencyStore ≤ h.heapFree ∨ size ≤ 2147483648) ∧
      (Served F₁ size → emergencyStore + ((size + 15) / 16 * 16 - b.size) ≤ h.heapFree) := by
  have hlarge := hb.large
  have htop : largestBlock = 1048576 := by norm_num [largestBlock]
  have hrun : kernRealloc h b.addr size b.size 0 = moveBlock h₁ b.addr size b.size p n := by
    rw [kernRealloc_admitted hlt hadm, growOrMove_eq hgrow, if_neg (by omega)]
  by_cases hs : Served F₁ size
  · have hbound := hs.le_largest hg.rep.toFreeSet
    have hself := le_blockSize size
    obtain ⟨h', F', out, hout, hmove, hres⟩ := hg.move_served hb hlt hshort hs
    rw [hres.keeps_iff hr hap (by omega) hlt (by simp only; omega) (by simp only; omega) hword
      hadm hout (hrun.trans hmove)]
    exact ⟨fun hle => ⟨Or.inr (by omega), fun _ => hle⟩, fun hle => hle.2 hs⟩
  · rw [hg.move_starved hb hlt hword hs] at hrun
    by_cases hround : size ≤ 2147483648
    · rw [if_pos hround] at hrun
      exact ⟨fun _ => ⟨Or.inr hround, fun h => absurd h hs⟩, fun _ => KeepsReserve.null hrun⟩
    · rw [if_neg hround] at hrun
      rw [realloc_lost_iff hr hlt hword hadm hrun]
      exact ⟨fun hle => ⟨Or.inl hle, fun h => absurd h hs⟩,
        fun hle => hle.1.resolve_right hround⟩

end Growing

theorem realloc_respects_iff {h : Heap} {F : Finset Block} (hr : HeapRep h F) {b : Block}
    (hb : Held b) (hap : ∀ c ∈ F, b.Apart c) {size : ℕ} (hlt : b.size < size)
    (hword : size < 4294967296) : ReallocRespects h b size ↔ ReallocWithin h F b size := by
  have hlarge := hb.large
  have htop : largestBlock = 1048576 := by norm_num [largestBlock]
  by_cases hadm : Admitted h size b.size 0
  · obtain ⟨h₁, p, n, F₁, heq, hg⟩ := growBlock_grown hr hb hlt hap
    have hrest : F₁ = F.filter (Block.Apart ⟨p, n⟩) := hg.absorbs.rest_eq hr.toFreeSet
    have hexact := grown_exact_iff hr.toFreeSet hg.ends
    have hrun := kernRealloc_admitted (p := b.addr) hlt hadm
    have hwithin : ReallocWithin h F b size ↔
        (emergencyStore ≤ h.heapFree ∨ size ≤ 2147483648 ∧ n ≠ size) ∧
        (size < n → emergencyStore + (cutStart size - b.size) ≤ h.heapFree) ∧
        (n < size → Served F₁ size →
          emergencyStore + ((size + 15) / 16 * 16 - b.size) ≤ h.heapFree) := by
      rw [hrest, ne_eq, hexact]
      constructor
      · intro hw
        exact ⟨(hw hadm).1, (hw hadm).2 _ hg.ends⟩
      · rintro ⟨hfirst, hsecond⟩ _
        refine ⟨hfirst, fun g hend => ?_⟩
        rw [hend.unique hr.toFreeSet hg.ends]
        exact hsecond
    rw [hwithin]
    rcases lt_trichotomy n size with hshort | hfit | hlong
    · rw [hg.move_respects_iff hr hb hap hlt hword hadm heq hshort]
      have hne : n ≠ size := by omega
      simp only [hne, ne_eq, not_false_eq_true, and_true, hshort, true_imp_iff,
        show ¬ size < n by omega, false_imp_iff, true_and]
    · have hlost : kernRealloc h b.addr size b.size 0 = none :=
        realloc_exact_fit hr hb hap (Or.inr ⟨hlt, hadm, hexact.mp hfit⟩)
      rw [realloc_lost_iff hr hlt hword hadm hlost]
      simp only [hfit, ne_eq, not_true_eq_false, and_false, or_false, lt_irrefl, false_imp_iff,
        and_true]
    · rw [hg.cut_respects_iff hr hb hap hlt hword hadm heq hlong]
      constructor
      · intro hle
        exact ⟨Or.inl (by omega), fun _ => hle, fun h => absurd h (by omega)⟩
      · exact fun hle => hle.2.1 hlong
  · refine ⟨fun _ h => absurd h hadm, fun _ => KeepsReserve.null (kernRealloc_refused hlt hadm)⟩

/-- `kern_malloc` keeps to the reserve exactly while the store is intact or nothing can be
found; `kern_realloc` also has to end with a block for which there is room above the store. -/
theorem reserve_respected_iff {h : Heap} {F : Finset Block} (hr : HeapRep h F) :
    (∀ size, size < 4294967296 → (MallocRespects h size ↔ MallocWithin h F size)) ∧
    ∀ b size, Held b → (∀ c ∈ F, b.Apart c) → b.size < size → size < 4294967296 →
      (ReallocRespects h b size ↔ ReallocWithin h F b size) :=
  ⟨fun _ hword => malloc_respects_iff hr hword,
    fun _ _ hb hap hlt hword => realloc_respects_iff hr hb hap hlt hword⟩

theorem reserve_respected_oneBlock : MallocRespects oneBlockHeap 100 ∧
    ReallocRespects oneBlockHeap ⟨0x200000, 16⟩ 100 := by
  obtain ⟨hmalloc, hrealloc⟩ := reserve_respected_iff oneBlockHeap_rep
  have hb : (⟨0x200000, 16⟩ : Block) ∈ twoLive.live := by decide
  constructor
  · rw [hmalloc 100 (by norm_num), MallocWithin, if_pos (by norm_num)]
    exact Or.inl (le_refl _)
  · rw [hrealloc _ 100 (twoLive_owned.held _ hb).1 (twoLive_owned.apart _ hb) (by norm_num)
      (by norm_num)]
    exact fun hadm => absurd hadm (by decide)

/-- The first allocation may cut into the store, the later calls must not: the difference
that they compare with has wrapped around. -/
theorem reserve_wraps : ∃ h F, kernMalloc oneBlockHeap 100 1 = some (h, 0x100000, 112) ∧
    HeapRep h F ∧ ¬ MallocRespects h 100 ∧ ¬ ReallocRespects h ⟨0x100000, 112⟩ 200 := by
  have hs : Served {oneBlock} 100 :=
    ⟨by norm_num, oneBlock, Finset.mem_singleton_self _, by
      rw [oneBlock_free.blockSize_le]
      norm_num [oneBlock]⟩
  obtain ⟨h, out, F, hrun, hev, _⟩ := kernMalloc_served oneBlockHeap_rep hs (Or.inr one_ne_zero)
  have hfront : (kernMalloc oneBlockHeap 100 1).map (fun r => r.2.1) = some 0x100000 := by
    decide +kernel
  have hmalloc : (kernMalloc oneBlockHeap 100 1).bind (fun r => (kernMalloc r.1 100 0).map
      fun q => (q.1.heapFree, q.2.1)) = some (1048352, 0x100080) := by decide +kernel
  have hrealloc : (kernMalloc oneBlockHeap 100 1).bind (fun r =>
      (kernRealloc r.1 0x100000 200 112 0).map fun q => (q.1.heapFree, q.2.1)) =
      some (1048368, 0x100000) := by decide +kernel
  rw [hrun, Option.bind_some, Option.map_eq_some_iff] at hmalloc hrealloc
  rw [hrun, Option.map_some, Option.some.injEq] at hfront
  have hstore : emergencyStore = 1048576 := rfl
  refine ⟨h, F, hfront ▸ hrun, hev.rep, ?_, ?_⟩
  · intro hkeeps
    obtain ⟨⟨h', out', n⟩, heq, hval⟩ := hmalloc
    simp only [Prod.mk.injEq] at hval
    have hleft := hkeeps.kept h' out' n heq (by omega)
    omega
  · intro hkeeps
    obtain ⟨⟨h', out', n⟩, heq, hval⟩ := hrealloc
    simp only [Prod.mk.injEq] at hval
    have hleft := hkeeps.kept h' out' n heq (by omega)
    omega

end KernelHeap
