import Metakernel.MallocWrappers
import Metakernel.HeapStore

/-!
# The store behind malloc and free

The callers of the wrappers know where their bytes start and how many they asked for; `realloc` and
`free` find the length of the block in front of them. Nothing that the callers write gets there, and
so the wrappers refine the same store as the heap.
-/
namespace RequestStore

open ByteMemory DyadicBlocks GuardedRuns KernelHeap
open HeapStore (Store Holds)

inductive Request where
  | malloc (size : ℕ)
  | free (r : Block)
  | realloc (r : Block) (size : ℕ)
  | store (a : ℕ) (v : UInt8)

def Request.call : Request → HeapStore.Call
  | .malloc size => .malloc size 0
  | .free r => .free r
  | .realloc r size => .realloc r size 0
  | .store a v => .store a v

/-- The blocks of the session are the bytes that the callers asked for. -/
def Enabled (s : Session) : Request → Prop
  | .malloc size => size < 4294967296
  | .free r => r ∈ s.live
  | .realloc r size => r ∈ s.live ∧ size + 4 < largestBlock
  | .store a _ => ∃ r ∈ s.live, r.covers a

def next (s : Session) : Request → Option Session
  | .malloc size => do
    let (heap, out) ← malloc s.heap size
    some { heap := heap, live := if out = 0 then s.live else ⟨out, size⟩ :: s.live }
  | .free r => do
    let heap ← free s.heap r.addr
    some { heap := heap, live := s.live.erase r }
  | .realloc r size => do
    let (heap, out) ← realloc s.heap r.addr size
    some { heap := heap, live := if out = 0 then s.live else ⟨out, size⟩ :: s.live.erase r }
  | .store a v => some { s with heap := { s.heap with mem := Function.update s.heap.mem a v } }

instance (s : Session) (q : Request) : Decidable (Enabled s q) :=
  match q with
  | .malloc _ => inferInstanceAs (Decidable (_ < _))
  | .free r => inferInstanceAs (Decidable (r ∈ s.live))
  | .realloc r _ => inferInstanceAs (Decidable (r ∈ s.live ∧ _))
  | .store a _ => inferInstanceAs (Decidable (∃ r ∈ s.live, r.covers a))

def Step (s : Session) (q : Request) (t : Session) : Prop := Enabled s q ∧ next s q = some t

section Lengths

variable {s : Session} {u : Store} {F : Finset Block} {b : Block} {m : Memory} {a n : ℕ}

def lengthByte (n i : ℕ) : UInt8 := UInt8.ofNat (n / 256 ^ i)

theorem store32_byte (m : Memory) (a n : ℕ) {i : ℕ} (hi : i < 4) :
    store32 m a n (a + i) = lengthByte n i := by
  obtain rfl | rfl | rfl | rfl : i = 0 ∨ i = 1 ∨ i = 2 ∨ i = 3 := by omega
  all_goals simp [store32, lengthByte]

theorem load32_of_bytes (hn : n < 4294967296) (h : ∀ i < 4, m (a + i) = lengthByte n i) :
    load32 m a = n := by
  have hsame : load32 m a = load32 (store32 m a n) a := by
    refine load32_congr fun x hax hxa => ?_
    obtain ⟨i, rfl⟩ := Nat.exists_eq_add_of_le hax
    rw [store32_byte m a n (by omega), h i (by omega)]
  rw [hsame, load32_store32 m a hn]

def recorded (u : Store) (b : Block) : Store where
  live := u.live
  written a :=
    if b.addr ≤ a ∧ a < b.addr + 4 then some (lengthByte b.size (a - b.addr)) else u.written a

theorem recorded_header (u : Store) (b : Block) {i : ℕ} (hi : i < 4) :
    (recorded u b).written (b.addr + i) = some (lengthByte b.size i) := by
  simp only [recorded]
  rw [if_pos ⟨Nat.le_add_right _ _, by omega⟩, Nat.add_sub_cancel_left]

theorem recorded_frame (u : Store) (b : Block) (ha : a < b.addr ∨ b.addr + 4 ≤ a) :
    (recorded u b).written a = u.written a :=
  if_neg (by omega)

theorem Holds.recorded (h : Holds s u F) (hb : b ∈ s.live) :
    Holds ⟨{ s.heap with mem := store32 s.heap.mem b.addr b.size }, s.live⟩ (recorded u b) F := by
  have hlarge := (h.owned.held b hb).1.large
  refine ⟨⟨?_, h.owned.held, h.owned.disjoint, h.owned.apart⟩, h.live, ?_⟩
  · refine h.owned.rep.congr_mem fun x hx => store32_frame _ _ _ ?_
    by_contra hin
    have hcov : b.covers x := ⟨by omega, by omega⟩
    exact HeapStore.Owned.not_free h.owned ⟨b, hb, hcov⟩ hx
  · intro a v ha
    by_cases hin : b.addr ≤ a ∧ a < b.addr + 4
    · obtain ⟨i, rfl⟩ := Nat.exists_eq_add_of_le hin.1
      rw [recorded_header u b (by omega), Option.some.injEq] at ha
      exact ⟨(store32_byte _ _ _ (by omega)).trans ha, b, hb, by omega, by omega⟩
    · rw [recorded_frame u b (by omega)] at ha
      obtain ⟨hv, hcov⟩ := h.written a v ha
      exact ⟨(store32_frame _ _ _ (by omega)).trans hv, hcov⟩

end Lengths

structure Fronted (u : Store) (r b : Block) : Prop where
  addr : r.addr = b.addr + 4
  fits : r.size + 4 ≤ b.size
  header : ∀ i < 4, u.written (b.addr + i) = some (lengthByte b.size i)

/-- What the callers know, `t`, against what the heap knows, `u`. -/
structure Behind (t u : Store) : Prop where
  blocks : ∀ r ∈ t.live, ∃ b ∈ u.live, Fronted u r b
  starts : t.live.Pairwise fun r r' => r.addr ≠ r'.addr
  written : ∀ a v, t.written a = some v → u.written a = some v ∧ ∃ r ∈ t.live, r.covers a

section Stores

variable {t u : Store} {r b c d : Block} {size a : ℕ} {v : UInt8}

theorem Fronted.covers (h : Fronted u r b) (hr : r.covers a) : b.covers a := by
  have haddr := h.addr
  have hfits := h.fits
  unfold Block.covers at *
  omega

theorem Fronted.header_covers (h : Fronted u r b) {i : ℕ} (hi : i < 4) : b.covers (b.addr + i) := by
  have hfits := h.fits
  unfold Block.covers
  omega

theorem Fronted.congr {u' : Store} (h : Fronted u r b)
    (hsame : ∀ i < 4, u'.written (b.addr + i) = u.written (b.addr + i)) : Fronted u' r b :=
  ⟨h.addr, h.fits, fun i hi => (hsame i hi).trans (h.header i hi)⟩

/-- The bytes that a caller gets in the block `c`. -/
theorem Behind.entered {w w' : ℕ → Option UInt8} (h : Behind t u) (hfits : size + 4 ≤ c.size)
    (hapart : ∀ d ∈ u.live, c.Apart d) (hsame : ∀ a, ¬ c.covers a → w a = u.written a)
    (hnew : ∀ a v, w' a = some v →
      Block.covers ⟨c.addr + 4, size⟩ a ∧ w a = some v ∨ t.written a = some v) :
    Behind ⟨⟨c.addr + 4, size⟩ :: t.live, w'⟩ (recorded ⟨c :: u.live, w⟩ c) := by
  have hout : ∀ a, ¬ c.covers a → (recorded ⟨c :: u.live, w⟩ c).written a = u.written a := by
    intro a ha
    rw [recorded_frame _ _ (by unfold Block.covers at ha; omega), ← hsame a ha]
  refine ⟨?_, ?_, ?_⟩
  · intro r hr
    rcases List.mem_cons.mp hr with rfl | hr
    · exact ⟨c, List.mem_cons_self, rfl, hfits, fun i hi => recorded_header _ c hi⟩
    · obtain ⟨d, hd, hf⟩ := h.blocks r hr
      refine ⟨d, List.mem_cons_of_mem _ hd, hf.congr fun i hi => hout _ ?_⟩
      exact (hapart d hd).symm.not_covers (hf.header_covers hi)
  · refine List.pairwise_cons.mpr ⟨fun r hr => ?_, h.starts⟩
    obtain ⟨d, hd, hf⟩ := h.blocks r hr
    have haddr := hf.addr
    have hdfits := hf.fits
    have hap := hapart d hd
    unfold Block.Apart at hap
    simp only
    omega
  · intro a v ha
    rcases hnew a v ha with ⟨hin, hw⟩ | ht
    · have hbehind := hin.1
      rw [recorded_frame _ _ (Or.inr hbehind)]
      exact ⟨hw, _, List.mem_cons_self, hin⟩
    · obtain ⟨hu, r, hr, hra⟩ := h.written a v ht
      obtain ⟨d, hd, hf⟩ := h.blocks r hr
      rw [hout a ((hapart d hd).symm.not_covers (hf.covers hra))]
      exact ⟨hu, r, List.mem_cons_of_mem _ hr, hra⟩

/-- What is left of the blocks when the bytes of `r` are given back. -/
theorem Behind.rest (h : Behind t u) (hr : r ∈ t.live) (hb : b ∈ u.live) (hf : Fronted u r b) :
    ∀ r' ∈ t.live.erase r, ∃ d ∈ u.live.erase b, Fronted u r' d := by
  intro r' hr'
  have hperm := List.perm_cons_erase hr
  have hstarts : (r :: t.live.erase r).Pairwise fun r r' => r.addr ≠ r'.addr :=
    (hperm.pairwise_iff fun h => h.symm).mp h.starts
  have hne := (List.pairwise_cons.mp hstarts).1 r' hr'
  obtain ⟨d, hd, hf'⟩ := h.blocks r' (List.mem_of_mem_erase hr')
  have hdb : d ≠ b := by
    rintro rfl
    exact hne (hf.addr.trans hf'.addr.symm)
  exact ⟨d, (List.mem_erase_of_ne hdb).mpr hd, hf'⟩

theorem Behind.freed (h : Behind t u) (hr : r ∈ t.live) (hb : b ∈ u.live) (hf : Fronted u r b)
    (hapart : ∀ d ∈ u.live.erase b, b.Apart d) :
    Behind ⟨t.live.erase r, t.forget r⟩ ⟨u.live.erase b, u.forget b⟩ := by
  have hout : ∀ d ∈ u.live.erase b, ∀ a, d.covers a → u.forget b a = u.written a :=
    fun d hd a ha => if_neg ((hapart d hd).symm.not_covers ha)
  refine ⟨?_, h.starts.sublist List.erase_sublist, ?_⟩
  · intro r' hr'
    obtain ⟨d, hd, hf'⟩ := h.rest hr hb hf r' hr'
    exact ⟨d, hd, hf'.congr fun i hi => hout d hd _ (hf'.header_covers hi)⟩
  · intro a v ha
    simp only [Store.forget] at ha ⊢
    split at ha
    · cases ha
    · rename_i hra
      obtain ⟨hu, r', hr', hra'⟩ := h.written a v ha
      have hne : r' ≠ r := fun heq => hra (heq ▸ hra')
      have hmem := (List.mem_erase_of_ne hne).mpr hr'
      obtain ⟨d, hd, hf'⟩ := h.rest hr hb hf r' hmem
      exact ⟨(hout d hd a (hf'.covers hra')).trans hu, r', hmem, hra'⟩

theorem Behind.stored (h : Behind t u) (hapart : ∀ b ∈ u.live, ∀ d ∈ u.live.erase b, b.Apart d)
    (hr : r ∈ t.live) (hra : r.covers a) (v : UInt8) :
    Behind ⟨t.live, Function.update t.written a (some v)⟩
      ⟨u.live, Function.update u.written a (some v)⟩ := by
  obtain ⟨b, hb, hf⟩ := h.blocks r hr
  refine ⟨fun r' hr' => ?_, h.starts, fun x w hx => ?_⟩
  · obtain ⟨d, hd, hf'⟩ := h.blocks r' hr'
    refine ⟨d, hd, hf'.congr fun i hi => Function.update_of_ne ?_ _ _⟩
    rintro rfl
    by_cases hdb : d = b
    · subst hdb
      have haddr := hf.addr
      have hbehind := hra.1
      omega
    · have hap := hapart b hb d ((List.mem_erase_of_ne hdb).mpr hd)
      exact hap.not_covers (hf.covers hra) (hf'.header_covers hi)
  · by_cases hxa : x = a
    · subst hxa
      simp only [Function.update_self] at hx ⊢
      exact ⟨hx, r, hr, hra⟩
    · simp only [Function.update_of_ne hxa] at hx ⊢
      exact h.written x w hx

theorem Fronted.apart (h : Fronted u r d) (hap : c.Apart d) (hfits : size + 4 ≤ c.size) :
    Block.Apart ⟨c.addr + 4, size⟩ r := by
  have haddr := h.addr
  have hdfits := h.fits
  unfold Block.Apart at *
  simp only
  omega

end Stores

structure Backed (s : Session) (t u : Store) (bs : List Block) (F : Finset Block) : Prop where
  heap : Holds ⟨s.heap, bs⟩ u F
  live : t.live = s.live
  behind : Behind t u

section Calls

variable {s s' : Session} {t u : Store} {bs : List Block} {F : Finset Block} {r b : Block}
  {size a : ℕ} {v : UInt8} {q : Request}

theorem Backed.apart (h : Backed s t u bs F) : ∀ b ∈ u.live, ∀ d ∈ u.live.erase b, b.Apart d := by
  intro b hb
  rw [h.heap.live] at hb ⊢
  exact HeapStore.Owned.erased_apart h.heap.owned hb

theorem Backed.found (h : Backed s t u bs F) (hr : r ∈ s.live) :
    ∃ b ∈ bs, Fronted u r b ∧ wsub r.addr 4 = b.addr ∧ load32 s.heap.mem b.addr = b.size := by
  rw [← h.live] at hr
  obtain ⟨b, hb, hf⟩ := h.behind.blocks r hr
  rw [h.heap.live] at hb
  have hheld := (h.heap.owned.held b hb).1
  have hinside := hheld.inside
  have hpos := hheld.pos
  refine ⟨b, hb, hf, ?_, load32_of_bytes (by omega) fun i hi => ?_⟩
  · rw [hf.addr, wsub_eq (by omega) (by omega), Nat.add_sub_cancel]
  · exact (h.heap.written _ _ (hf.header i hi)).1

theorem withHeader_block {h : Heap} {out n : ℕ} (hout : out ≠ 0) :
    withHeader (some (h, out, n)) = some ({ h with mem := store32 h.mem out n }, wadd out 4) :=
  if_pos hout

theorem malloc_matched (h : Backed s t u bs F) (hs : Step s (.malloc size) s') :
    ∃ t', t.Step (.malloc size 0) t' ∧ ∃ u bs F, Backed s' t' u bs F := by
  obtain ⟨hword, hnext⟩ := hs
  have hlive := h.live
  have hrep : HeapRep s.heap F := h.heap.owned.rep
  rcases kernMalloc_result hrep 0 (wadd_lt size 4) with
    hnone | hnull | ⟨h₁, out, n, heq, hout, hmin, hle, hheld⟩
  · simp [next, malloc, hnone, withHeader] at hnext
  · simp only [next, malloc, hnull, withHeader, Option.bind_eq_bind, Option.bind_some, ne_eq,
      not_true_eq_false, if_false, if_true, Option.some.injEq] at hnext
    subst hnext
    exact ⟨t, .refused, u, bs, F, h⟩
  · have hinside := hheld.inside
    have hpos := hheld.pos
    simp only at hinside hpos
    have hexact : wadd size 4 = size + 4 := by
      by_contra hne
      have := wadd_four_wraps (fun h => hne (wadd_eq h)) hword
      omega
    rw [hexact] at heq hmin hle
    have hback : wadd out 4 = out + 4 := wadd_eq (by omega)
    obtain ⟨-, hapart, F', hholds⟩ := h.heap.served (by omega) (by omega) heq hout
    simp only [next, malloc, hexact, heq, withHeader_block hout, hback, Option.bind_eq_bind,
      Option.bind_some, Nat.add_eq_zero_iff, hout, false_and, if_false, Option.some.injEq] at hnext
    subst hnext
    have hnew := Holds.recorded hholds List.mem_cons_self
    rw [← h.heap.live] at hapart
    refine ⟨⟨⟨out + 4, size⟩ :: t.live, t.written⟩, .served (fun d hd => ?_) (le_refl _),
      _, _, F', hnew, ?_, h.behind.entered hle hapart (fun _ _ => rfl) fun _ _ ha => Or.inr ha⟩
    · obtain ⟨c, hc, hf⟩ := h.behind.blocks d hd
      exact hf.apart (hapart c hc) hle
    · simp only [hlive]

theorem free_matched (h : Backed s t u bs F) (hs : Step s (.free r) s') :
    ∃ t', t.Step (.free r) t' ∧ ∃ u bs F, Backed s' t' u bs F := by
  obtain ⟨hr, hnext⟩ := hs
  obtain ⟨b, hb, hf, hfront, hsize⟩ := h.found hr
  simp only [next, free, hfront, hsize, Option.bind_eq_bind, Option.bind_eq_some_iff,
    Option.some.injEq] at hnext
  obtain ⟨h', heq, rfl⟩ := hnext
  obtain ⟨F', hholds⟩ := h.heap.freed hb heq
  have hlive := h.heap.live
  have hrt : r ∈ t.live := by
    rw [h.live]
    exact hr
  have hbu : b ∈ u.live := by rwa [hlive]
  refine ⟨_, .freed hrt, _, _, F', hholds, ?_, h.behind.freed hrt hbu hf (h.apart b hbu)⟩
  simp only [h.live]

theorem realloc_matched (h : Backed s t u bs F) (hs : Step s (.realloc r size) s') :
    ∃ t', t.Step (.realloc r size 0) t' ∧ ∃ u bs F, Backed s' t' u bs F := by
  obtain ⟨⟨hr, hmax⟩, hnext⟩ := hs
  obtain ⟨b, hb, hf, hfront, hsize⟩ := h.found hr
  have hword : wadd size 4 = size + 4 := wadd_eq (by unfold largestBlock at hmax; omega)
  have hlive := h.heap.live
  rw [← h.live] at hr
  have hbu : b ∈ u.live := by rwa [hlive]
  simp only [next, realloc, hfront, hsize, hword] at hnext
  cases heq : kernRealloc s.heap b.addr (size + 4) b.size 0 with
  | none =>
    rw [heq] at hnext
    cases hnext
  | some res =>
    obtain ⟨h', out, n⟩ := res
    rw [heq] at hnext
    by_cases hout : out = 0
    · subst hout
      simp only [withHeader, Option.bind_eq_bind, Option.bind_some, ne_eq, not_true_eq_false,
        if_false, if_true, Option.some.injEq] at hnext
      subst hnext
      obtain ⟨F', hkept⟩ := h.heap.kept hb hmax heq
      exact ⟨t, .kept hr, u, bs, F', hkept, h.live, h.behind⟩
    · obtain ⟨hle, hapart, F', hholds⟩ := h.heap.resized hb hmax heq hout
      have hnew := Holds.recorded hholds List.mem_cons_self
      have hinside := (hholds.owned.held _ List.mem_cons_self).1.inside
      simp only at hinside
      have hback : wadd out 4 = out + 4 := wadd_eq (by omega)
      simp only [withHeader_block hout, hback, Option.bind_eq_bind, Option.bind_some,
        Nat.add_eq_zero_iff, hout, false_and, if_false, Option.some.injEq] at hnext
      subst hnext
      have hrest := h.behind.freed hr hbu hf (h.apart b hbu)
      rw [← hlive] at hapart
      refine ⟨⟨⟨out + 4, size⟩ :: t.live.erase r, t.moved r ⟨out + 4, size⟩ (min r.size size)⟩,
        .resized hr (fun d hd => ?_) (le_refl _), _, _, F', hnew, ?_,
        hrest.entered hle hapart (fun x hx => if_neg hx) fun x w hx => ?_⟩
      · obtain ⟨c, hc, hf'⟩ := hrest.blocks d hd
        exact hf'.apart (hapart c hc) hle
      · simp only [h.live]
      · simp only [Store.moved] at hx ⊢
        have haddr := hf.addr
        have hfits := hf.fits
        split at hx
        · rename_i hin
          split at hx
          · rename_i hkeep
            have hbytes := (h.behind.written _ _ hx).1
            unfold Block.covers at hin
            simp only at hin
            have hcov : Block.covers ⟨out, n⟩ x := by
              unfold Block.covers
              simp only
              omega
            have hplace : b.addr + (x - out) = r.addr + (x - (out + 4)) := by omega
            refine Or.inl ⟨hin, ?_⟩
            rw [if_pos hcov, if_pos (by omega), hplace, hbytes]
          · cases hx
        · exact Or.inr hx

theorem store_matched (h : Backed s t u bs F) (hs : Step s (.store a v) s') :
    ∃ t', t.Step (.store a v) t' ∧ ∃ u bs F, Backed s' t' u bs F := by
  obtain ⟨⟨r, hr, hra⟩, hnext⟩ := hs
  simp only [next, Option.some.injEq] at hnext
  subst hnext
  obtain ⟨b, hb, hf, -⟩ := h.found hr
  rw [← h.live] at hr
  have hlower : HeapStore.Step ⟨s.heap, bs⟩ (.store a v)
      ⟨{ s.heap with mem := Function.update s.heap.mem a v }, bs⟩ :=
    ⟨⟨b, hb, hf.covers hra⟩, rfl⟩
  obtain ⟨u', hu, F', hholds⟩ := HeapStore.store_matched h.heap hlower
  cases hu
  exact ⟨_, .stored ⟨r, hr, hra⟩, _, bs, F', hholds, h.live, h.behind.stored h.apart hr hra v⟩

theorem request_matched (h : ∃ u bs F, Backed s t u bs F) (hs : Step s q s') :
    ∃ t', t.Step q.call t' ∧ ∃ u bs F, Backed s' t' u bs F := by
  obtain ⟨u, bs, F, h⟩ := h
  cases q with
  | malloc size => exact malloc_matched h hs
  | free r => exact free_matched h hs
  | realloc r size => exact realloc_matched h hs
  | store a v => exact store_matched h hs

theorem Backed.disjoint (h : Backed s t u bs F) : s.live.Pairwise Block.Apart := by
  rw [← h.live]
  refine h.behind.starts.imp_of_mem fun {r r'} hr hr' hne => ?_
  obtain ⟨b, hb, hf⟩ := h.behind.blocks r hr
  obtain ⟨d, hd, hf'⟩ := h.behind.blocks r' hr'
  have hdb : d ≠ b := by
    rintro rfl
    exact hne (hf.addr.trans hf'.addr.symm)
  have hap := hf'.apart (h.apart b hb d ((List.mem_erase_of_ne hdb).mpr hd)) hf.fits
  rwa [← hf.addr] at hap

/-- Every run of the wrappers that returns, from any heap that indexes its free blocks, is a run of
the store, in which `free` and `realloc` get the bytes that were asked for. -/
theorem requests_refine_store {h₀ : Heap} {F₀ : Finset Block} (hr : HeapRep h₀ F₀)
    {requests : List Request} (h : Trace Step ⟨h₀, []⟩ requests s) :
    ∃ t, Trace (fun t q t' => Store.Step t q.call t') ⟨[], fun _ => none⟩ requests t ∧
      t.live = s.live ∧ s.live.Pairwise Block.Apart ∧
      ∀ a v, t.written a = some v → s.heap.mem a = v := by
  have hstart : ∃ u bs F, Backed ⟨h₀, []⟩ ⟨[], fun _ => none⟩ u bs F := by
    refine ⟨⟨[], fun _ => none⟩, [], F₀, ⟨⟨hr, ?_, List.Pairwise.nil, ?_⟩, rfl, ?_⟩, rfl,
      ?_, List.Pairwise.nil, ?_⟩
    · intro b hb
      cases hb
    · intro b hb
      cases hb
    · intro a v ha
      cases ha
    · intro r hr
      cases hr
    · intro a v ha
      cases ha
  have hmatch : ∀ s t q s', (∃ u bs F, Backed s t u bs F) → Step s q s' →
      ∃ t', Store.Step t q.call t' ∧ ∃ u bs F, Backed s' t' u bs F :=
    fun _ _ _ _ hbacked hstep => request_matched hbacked hstep
  obtain ⟨t, ht, u, bs, F, hb⟩ := h.simulates hmatch hstart
  refine ⟨t, ht, hb.live, hb.disjoint, fun a v ha => ?_⟩
  exact (hb.heap.written a v (hb.behind.written a v ha).1).1

end Calls

def fullerHeap : Heap := { oneBlockHeap with heapFree := 0x200000 }

theorem fullerHeap_rep : HeapRep fullerHeap {oneBlock} :=
  have h := oneBlockHeap_rep
  ⟨h.toFreeSet, h.high, by norm_num [fullerHeap], h.sizes, h.rings, h.chains⟩

theorem requests_refine_store_written : ∃ s t,
    Trace Step ⟨fullerHeap, []⟩
      [.malloc 100, .store 0x100004 7, .realloc ⟨0x100004, 100⟩ 40] s ∧
    s.heap.mem 0x100004 = 7 ∧ Step s (.free ⟨0x100004, 40⟩) t ∧ t.live = [] := by
  let cut := follow next Enabled ⟨fullerHeap, []⟩
    [.malloc 100, .store 0x100004 7, .realloc ⟨0x100004, 100⟩ 40]
  have hfreed : (cut.bind fun s => (next s (.free ⟨0x100004, 40⟩)).map fun t => (s.live, t.live)) =
      some ([⟨0x100004, 40⟩], []) := by decide +kernel
  obtain ⟨s, hcut, hnext⟩ := Option.bind_eq_some_iff.mp hfreed
  obtain ⟨t, hfree, hlive⟩ := Option.map_eq_some_iff.mp hnext
  obtain ⟨hheld, hback⟩ := Prod.mk.inj hlive
  have hrun := trace_of_follow hcut
  obtain ⟨u, hu, hsame, -, hmem⟩ := requests_refine_store fullerHeap_rep hrun
  refine ⟨s, t, hrun, hmem 0x100004 7 ?_, ⟨?_, hfree⟩, hback⟩
  · -- The store has moved the byte to the front of the bytes that are left.
    rw [hheld] at hsame
    cases hu with
    | cons _ hlast =>
      cases hlast with
      | cons hstored hend =>
        cases hstored
        cases hend with
        | cons hcut hnil =>
          cases hnil
          cases hcut with
          | resized =>
            obtain rfl := List.head_eq_of_cons_eq hsame
            rfl
          | kept hold =>
            rw [hsame] at hold
            exact absurd hold (by decide)
  · show (⟨0x100004, 40⟩ : Block) ∈ s.live
    rw [hheld]
    exact List.mem_singleton_self _

end RequestStore
