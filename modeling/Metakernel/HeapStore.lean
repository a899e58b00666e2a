import Metakernel.KernelHeapReserve
import Metakernel.GuardedRuns

/-!
# The heap as a store

What the callers of the heap rely on: a block that they hold is theirs alone, and what they have
written into it stays, also when `kern_realloc` moves it. The model of malloc.c refines a store that
has only the blocks and the bytes that were written.
-/
namespace HeapStore

open KernelHeap DyadicBlocks GuardedRuns

inductive Call where
  | malloc (size priority : ℕ)
  | free (b : Block)
  | realloc (b : Block) (size priority : ℕ)
  | store (a : ℕ) (v : UInt8)

structure Store where
  live : List Block
  written : ℕ → Option UInt8

def Store.forget (s : Store) (b : Block) : ℕ → Option UInt8 := fun a =>
  if b.covers a then none else s.written a

/-- The first `keep` bytes of `b` are now those of `c`. -/
def Store.moved (s : Store) (b c : Block) (keep : ℕ) : ℕ → Option UInt8 := fun a =>
  if c.covers a then
    if a - c.addr < keep then s.written (b.addr + (a - c.addr)) else none
  else s.forget b a

/-- A request for memory may be refused, and then nothing changes. -/
inductive Store.Step (s : Store) : Call → Store → Prop where
  | served {size priority : ℕ} {b : Block} : (∀ d ∈ s.live, b.Apart d) → size ≤ b.size →
      Step s (.malloc size priority) ⟨b :: s.live, s.written⟩
  | refused {size priority : ℕ} : Step s (.malloc size priority) s
  | freed {b : Block} : b ∈ s.live → Step s (.free b) ⟨s.live.erase b, s.forget b⟩
  | resized {size priority : ℕ} {b c : Block} : b ∈ s.live →
      (∀ d ∈ s.live.erase b, c.Apart d) → size ≤ c.size →
      Step s (.realloc b size priority) ⟨c :: s.live.erase b, s.moved b c (min b.size size)⟩
  | kept {size priority : ℕ} {b : Block} : b ∈ s.live → Step s (.realloc b size priority) s
  | stored {a : ℕ} {v : UInt8} : (∃ b ∈ s.live, b.covers a) →
      Step s (.store a v) ⟨s.live, Function.update s.written a (some v)⟩

/-- A block may be asked to grow up to the largest one less a unit. -/
def Enabled (s : Session) : Call → Prop
  | .malloc size _ => 2 ≤ size ∧ size ≤ 2147483648
  | .free b => b ∈ s.live
  | .realloc b size _ => b ∈ s.live ∧ size < largestBlock
  | .store a _ => ∃ b ∈ s.live, b.covers a

def next (s : Session) : Call → Option Session
  | .malloc size priority => do
    let (heap, out, size) ← kernMalloc s.heap size priority
    some { heap := heap, live := if out = 0 then s.live else ⟨out, size⟩ :: s.live }
  | .free b => do
    let heap ← kernFree s.heap b.addr b.size
    some { heap := heap, live := s.live.erase b }
  | .realloc b size priority => do
    let (heap, out, size) ← kernRealloc s.heap b.addr size b.size priority
    some { heap := heap, live := if out = 0 then s.live else ⟨out, size⟩ :: s.live.erase b }
  | .store a v => some { s with heap := { s.heap with mem := Function.update s.heap.mem a v } }

instance (s : Session) (call : Call) : Decidable (Enabled s call) :=
  match call with
  | .malloc _ _ => inferInstanceAs (Decidable (_ ∧ _))
  | .free b => inferInstanceAs (Decidable (b ∈ s.live))
  | .realloc b _ _ => inferInstanceAs (Decidable (b ∈ s.live ∧ _))
  | .store a _ => inferInstanceAs (Decidable (∃ b ∈ s.live, b.covers a))

/-- A call that is admitted and that returns. -/
def Step (s : Session) (call : Call) (t : Session) : Prop := Enabled s call ∧ next s call = some t

/-- The block `b` has become `c`, which can be given back; nothing but the free bytes and those of
`b` is written. -/
structure Renewed (h : Heap) (F : Finset Block) (b : Block) (h' : Heap) (F' : Finset Block)
    (c : Block) (keep : ℕ) : Prop extends Resized h F b h' F' c keep where
  held : Held c
  bounded : c.size ≤ largestBlock
  frame : ∀ x, ¬ Covers F x → ¬ b.covers x → h'.mem x = h.mem x

section Realloc

variable {h h₁ h₂ h' : Heap} {F F₁ F₂ F' : Finset Block} {b : Block} {p n size limit m : ℕ}

theorem held_cut (hb : Held ⟨p, n⟩) (hle : cutStart m ≤ n) : Held ⟨p, cutStart m⟩ := by
  obtain ⟨hpos, hunit, hlarge, haligned, hinside⟩ := hb
  simp only at hpos haligned hinside
  have hdvd : 16 ∣ cutStart m := by
    unfold cutStart
    omega
  have hunits : 16 ≤ cutStart m := by
    unfold cutStart
    omega
  refine ⟨hpos, hdvd, hunits, hle.trans haligned, ?_⟩
  simp only
  omega

theorem cutBlockEnd_frame (hr : HeapRep h F) (hb : Held ⟨p, n⟩)
    (htail : Cuttable (p + cutStart m) (n - cutStart m)) (hap : ∀ c ∈ F, Block.Apart ⟨p, n⟩ c)
    (hmin : cutStart m ≤ n) (heq : cutBlockEnd h p m n = some (h', size)) {x : ℕ}
    (hx : ¬ Covers F x) (hpx : ¬ Block.covers ⟨p, n⟩ x) : h'.mem x = h.mem x := by
  have hroom : Room (fun x => Covers F x ∨ Block.covers ⟨p, n⟩ x) F (p + cutStart m) (p + n) := by
    refine ⟨fun c hc => ?_, fun x hx => ?_⟩
    · have := hap c hc
      unfold Block.Apart at this
      simp only at this
      omega
    · refine hx.imp_right fun hin => ⟨?_, hin.2⟩
      simp only
      omega
  obtain ⟨h'', P, heq', -, hev⟩ := cutBlockEnd_tiles hr hb htail hmin hroom
  rw [heq', Option.some.injEq, Prod.mk.injEq] at heq
  rw [← heq.1]
  exact hev.frame x fun hin => hin.elim hx hpx

theorem growBlock_frame (hr : HeapRep h F) (hb : Held ⟨p, n⟩) (hap : ∀ c ∈ F, Block.Apart ⟨p, n⟩ c)
    {p' n' : ℕ} (heq : growBlock h p n limit = some (h', p', n')) {x : ℕ} (hx : ¬ Covers F x) :
    h'.mem x = h.mem x := by
  obtain ⟨h'', p'', n'', F'', heq', hev, -⟩ := growLoop_grows (R := Covers F) limit hr hr.card_lt hb
    hap fun _ hx => hx
  rw [growBlock, heq', Option.some.injEq, Prod.mk.injEq] at heq
  rw [← heq.1]
  exact hev.frame x hx

theorem Grown.covers_old (hg : Grown h F b limit h₁ F₁ ⟨p, n⟩) {x : ℕ}
    (hx : Block.covers ⟨p, n⟩ x) : Covers F x ∨ b.covers x :=
  (hg.absorbs.covers x).mp (Or.inr hx)

theorem Grown.free_old (hg : Grown h F b limit h₁ F₁ ⟨p, n⟩) {x : ℕ} (hx : Covers F₁ x) :
    Covers F x := by
  obtain ⟨c, hc, hcx⟩ := hx
  exact ⟨c, hg.absorbs.subset hc, hcx⟩

theorem Grown.cut_renewed (hg : Grown h F b limit h₁ F₁ ⟨p, n⟩)
    (hgrow : ∀ x, ¬ Covers F x → h₁.mem x = h.mem x) (hlt : b.size < limit) (hfit : limit < n)
    (hmax : limit < largestBlock) :
    ∃ h' F', cutBlockEnd (if p ≠ b.addr then
        { h₁ with mem := Util.memmove h₁.mem p b.addr b.size } else h₁) p limit n =
        some (h', cutStart limit) ∧
      Renewed h F b h' F' ⟨p, cutStart limit⟩ b.size := by
  obtain ⟨h', F', heq, hres⟩ := hg.cut_resizes hlt hfit
  have hheld := hg.absorbs.held
  have hunit := hheld.unit
  simp only at hunit
  have hmin : cutStart limit ≤ n := by
    unfold cutStart
    omega
  have htop : cutStart limit ≤ largestBlock := by
    unfold cutStart
    unfold largestBlock at *
    omega
  have hbound := hg.bounded
  simp only at hbound
  have hstart := lt_cutStart limit
  refine ⟨h', F', heq, hres, held_cut hheld hmin, htop, fun x hx hbx => ?_⟩
  generalize hh₂ : (if p ≠ b.addr then
    { h₁ with mem := Util.memmove h₁.mem p b.addr b.size } else h₁) = h₂ at heq
  have hmoved : ∀ x, ¬ Block.covers ⟨p, n⟩ x → h₂.mem x = h₁.mem x := by
    intro x hx
    rw [← hh₂]
    split
    · simp only
      rw [Util.memmove_spec, if_neg]
      unfold Block.covers at hx
      simp only at hx
      omega
    · rfl
  have hrep₂ : HeapRep h₂ F₁ := by
    by_cases hmove : p ≠ b.addr
    · rw [if_pos hmove] at hh₂
      subst hh₂
      exact hg.rep.copy hg.absorbs.apart hmoved
    · rw [if_neg hmove] at hh₂
      subst hh₂
      exact hg.rep
  have hpx : ¬ Block.covers ⟨p, n⟩ x := fun hin => (Grown.covers_old hg hin).elim hx hbx
  have hfx : ¬ Covers F₁ x := fun hin => hx (Grown.free_old hg hin)
  have hcut := cutBlockEnd_frame hrep₂ hheld (Cuttable.of_le (by omega)) hg.absorbs.apart hmin heq
    hfx hpx
  exact hcut.trans ((hmoved x hpx).trans (hgrow x hx))

/-- Copied to a new block, the old contents leave the rest of memory alone. -/
theorem Grown.move_renewed {out s : ℕ} (hg : Grown h F b limit h₁ F₁ ⟨p, n⟩)
    (hgrow : ∀ x, ¬ Covers F x → h₁.mem x = h.mem x) (hb : Held b) (htop : n ≤ largestBlock)
    (hold : b.size ≤ s) (heq₂ : kernMalloc h₁ limit 1 = some (h₂, out, s))
    (hev₂ : Evolves (Covers F₁) h₁ F₁ h₂ F₂) (hal : Allocates F₁ ⟨out, s⟩ F₂) :
    ∃ h' F', moveBlock h₁ b.addr limit b.size p n = some (h', out, s) ∧
      Renewed h F b h' F' ⟨out, s⟩ b.size := by
  obtain ⟨h', F', heq, hres⟩ := hg.move_resizes hb htop hold heq₂ hev₂ hal
  refine ⟨h', F', heq, hres, hal.held, hal.bounded, fun x hx hbx => ?_⟩
  have hpx : ¬ Block.covers ⟨p, n⟩ x := fun hin => (Grown.covers_old hg hin).elim hx hbx
  have hfx : ¬ Covers F₁ x := fun hin => hx (Grown.free_old hg hin)
  have hout : ¬ Block.covers ⟨out, s⟩ x := fun hin => hfx ((hal.covers x).mpr (Or.inr hin))
  have hlarge := hb.large
  have hgpos := hg.absorbs.held.large
  have hsource : out ≤ b.addr ∨ b.addr + b.size ≤ out := by
    by_contra hover
    have hinner := hg.absorbs.inner (max out b.addr) ⟨by omega, by omega⟩
    obtain ⟨c, hc, hcx⟩ := (hal.covers (max out b.addr)).mpr (Or.inr ⟨by simp only; omega,
      by simp only; omega⟩)
    exact (hg.absorbs.apart c hc).not_covers hinner hcx
  have hcopied : ∀ x, ¬ Block.covers ⟨out, s⟩ x →
      Util.memcpyLoHi h₂.mem out b.addr b.size x = h₂.mem x := by
    intro x hx
    rw [Util.memcpyLoHi_spec hsource, if_neg]
    unfold Block.covers at hx
    simp only at hx
    omega
  have hapart : ∀ c ∈ F₂, Block.Apart ⟨p, n⟩ c := fun c hc =>
    apart_of_covers hev₂.rep.toFreeSet (by simp only at hgpos ⊢; omega) hg.absorbs.apart
      (fun x hx => (hal.covers x).mpr (Or.inl hx)) hc
  obtain ⟨h₄, F₄, heq₄, hev₄, -⟩ := kernFree_spec
    (R := fun x => Covers F₂ x ∨ Block.covers ⟨p, n⟩ x) (hev₂.rep.copy hal.apart hcopied)
    hg.absorbs.held htop hapart (fun _ hx => hx)
  rw [moveBlock_moved heq₂ (Nat.pos_iff_ne_zero.mp hal.held.pos) heq₄, Option.some.injEq,
    Prod.mk.injEq] at heq
  have hfree : ¬ (Covers F₂ x ∨ Block.covers ⟨p, n⟩ x) := by
    intro hin
    exact hin.elim (fun hin => hfx ((hal.covers x).mpr (Or.inl hin))) hpx
  rw [← heq.1, hev₄.frame x hfree]
  exact (hcopied x hout).trans ((hev₂.frame x hfx).trans (hgrow x hx))

structure Refused (h : Heap) (F : Finset Block) (h' : Heap) (F' : Finset Block) : Prop where
  rep : HeapRep h' F'
  subset : F' ⊆ F
  frame : ∀ x, ¬ Covers F x → h'.mem x = h.mem x

/-- Every call of `kern_realloc` that returns. -/
theorem kernRealloc_spec {priority : ℕ} (hr : HeapRep h F) (hb : Held b) (htop : b.size ≤ largestBlock)
    (hap : ∀ c ∈ F, b.Apart c) (hmax : size < largestBlock)
    (heq : kernRealloc h b.addr size b.size priority = some (h', p, n)) :
    (p = 0 ∧ ∃ F', Refused h F h' F') ∨
      (p ≠ 0 ∧ size ≤ n ∧ ∃ keep F', min b.size size ≤ keep ∧ Renewed h F b h' F' ⟨p, n⟩ keep) := by
  have hexact : ¬ ExactFit h F b size priority := by
    intro hexact
    rw [realloc_exact_fit hr hb hap hexact] at heq
    cases heq
  have hpos := hb.pos
  have hstart := lt_cutStart size
  by_cases hle : size ≤ b.size
  · have hne : size ≠ b.size := fun h => hexact (Or.inl h)
    have hunit := hb.unit
    have hmin : cutStart size ≤ b.size := by
      unfold cutStart
      omega
    have htail : Cuttable (b.addr + cutStart size) (b.size - cutStart size) :=
      Cuttable.of_le (le_trans (Nat.sub_le _ _) htop)
    obtain ⟨h'', F', hcut, hres⟩ := cutBlockEnd_resizes hr hb htail hap hmin
    rw [kernRealloc_shrink hle, trimBlock_eq hb hle, hcut, Option.map_some, Option.some.injEq,
      Prod.mk.injEq, Prod.mk.injEq] at heq
    obtain ⟨rfl, rfl, rfl⟩ := heq
    refine Or.inr ⟨by omega, hstart.le, _, F', by omega, hres, held_cut hb hmin, ?_, ?_⟩
    · exact hmin.trans htop
    · exact fun x hx hbx => cutBlockEnd_frame hr hb htail hap hmin hcut hx hbx
  · have hlt : b.size < size := by omega
    by_cases hadm : Admitted h size b.size priority
    · obtain ⟨h₁, p₁, n₁, F₁, hgrown, hg⟩ := growBlock_grown hr hb hlt hap
      have hgrow : ∀ x, ¬ Covers F x → h₁.mem x = h.mem x := fun x hx =>
        growBlock_frame hr hb hap hgrown hx
      have hn : n₁ ≠ size := fun h =>
        hexact (Or.inr ⟨hlt, hadm, (grown_exact_iff hr.toFreeSet hg.ends).mp h⟩)
      rw [kernRealloc_admitted hlt hadm, growOrMove_eq hgrown] at heq
      by_cases hbig : n₁ ≥ size
      · obtain ⟨h'', F', hcut, hnew⟩ := Grown.cut_renewed hg hgrow hlt (by omega) hmax
        rw [if_pos hbig, hcut, Option.map_some, Option.some.injEq, Prod.mk.injEq,
          Prod.mk.injEq] at heq
        obtain ⟨rfl, rfl, rfl⟩ := heq
        have hfront := hg.absorbs.held.pos
        exact Or.inr ⟨by simp only at hfront; omega, hstart.le, _, F', min_le_left _ _, hnew⟩
      · rw [if_neg hbig] at heq
        have hlarge := hb.large
        have hword : largestBlock ≤ 2147483648 := by norm_num [largestBlock]
        rcases kernMalloc_spec hg.rep (show 2 ≤ size by omega) (by omega) 1 with
          hnull | ⟨h₂, out, F₂, heq₂, hev₂, hal⟩
        · rw [moveBlock_null hnull, Option.some.injEq, Prod.mk.injEq, Prod.mk.injEq] at heq
          obtain ⟨rfl, rfl, rfl⟩ := heq
          exact Or.inl ⟨rfl, F₁, hg.rep, hg.absorbs.subset, hgrow⟩
        · obtain ⟨h'', F', hmove, hnew⟩ := Grown.move_renewed hg hgrow hb (by omega)
            (show b.size ≤ (size + 15) / 16 * 16 by omega) heq₂ hev₂ hal
          rw [hmove, Option.some.injEq, Prod.mk.injEq, Prod.mk.injEq] at heq
          obtain ⟨rfl, rfl, rfl⟩ := heq
          exact Or.inr ⟨Nat.pos_iff_ne_zero.mp hal.held.pos, by omega, _, F', min_le_left _ _, hnew⟩
    · rw [kernRealloc_refused hlt hadm, Option.some.injEq, Prod.mk.injEq, Prod.mk.injEq] at heq
      obtain ⟨rfl, rfl, rfl⟩ := heq
      exact Or.inl ⟨rfl, F, hr, Finset.Subset.refl F, fun _ _ => rfl⟩

end Realloc

section Owned

variable {s : Session} {h' : Heap} {F F' : Finset Block} {b c : Block}

theorem Owned.erased_apart (hs : Owned s F) (hb : b ∈ s.live) : ∀ d ∈ s.live.erase b, b.Apart d := by
  have hperm := List.perm_cons_erase hb
  have hpair : (b :: s.live.erase b).Pairwise Block.Apart :=
    hperm.pairwise_iff (fun h => h.symm) |>.mp hs.disjoint
  exact (List.pairwise_cons.mp hpair).1

theorem Owned.shrink (hs : Owned s F) (hrep : HeapRep h' F')
    (hcov : ∀ x, Covers F' x → Covers F x) : Owned ⟨h', s.live⟩ F' := by
  refine ⟨hrep, hs.held, hs.disjoint, fun d hd e he => ?_⟩
  have hlarge := (hs.held d hd).1.large
  exact apart_of_covers hrep.toFreeSet (by omega) (hs.apart d hd) hcov he

theorem Owned.release (hs : Owned s F) (hb : b ∈ s.live) (hrep : HeapRep h' F')
    (hcov : ∀ x, Covers F' x → Covers F x ∨ b.covers x) : Owned ⟨h', s.live.erase b⟩ F' := by
  refine ⟨hrep, fun d hd => hs.held d (List.mem_of_mem_erase hd),
    hs.disjoint.sublist List.erase_sublist, fun d hd e he => ?_⟩
  have hdl := List.mem_of_mem_erase hd
  have hlarge := (hs.held d hdl).1.large
  have hsize := (hrep.block e he).bounds.1
  apply Block.apart_of_not_covers (by omega) (by omega)
  intro x hx hex
  rcases hcov x ⟨e, he, hex⟩ with ⟨f, hf, hfx⟩ | hbx
  · exact (hs.apart d hdl f hf).not_covers hx hfx
  · exact (Owned.erased_apart hs hb d hd).not_covers hbx hx

theorem Owned.add (hs : Owned s F) (hc : Held c) (hbound : c.size ≤ largestBlock)
    (hfree : ∀ d ∈ F, c.Apart d) (hlive : ∀ d ∈ s.live, c.Apart d) :
    Owned ⟨s.heap, c :: s.live⟩ F := by
  refine ⟨hs.rep, fun d hd => ?_, List.pairwise_cons.mpr ⟨hlive, hs.disjoint⟩, fun d hd => ?_⟩
  · rcases List.mem_cons.mp hd with rfl | hd
    · exact ⟨hc, hbound⟩
    · exact hs.held d hd
  · rcases List.mem_cons.mp hd with rfl | hd
    · exact hfree
    · exact hs.apart d hd

/-- A block made of free bytes and those of `b` is apart from the other ones. -/
theorem Owned.made_apart (hs : Owned s F) (hb : b ∈ s.live) (hc : 0 < c.size)
    (hcov : ∀ x, c.covers x → Covers F x ∨ b.covers x) : ∀ d ∈ s.live.erase b, c.Apart d := by
  intro d hd
  have hdl := List.mem_of_mem_erase hd
  have hlarge := (hs.held d hdl).1.large
  apply Block.apart_of_not_covers hc (by omega)
  intro x hx hdx
  rcases hcov x hx with ⟨f, hf, hfx⟩ | hbx
  · exact (hs.apart d hdl f hf).not_covers hdx hfx
  · exact (Owned.erased_apart hs hb d hd).not_covers hbx hdx

theorem Owned.not_free (hs : Owned s F) {a : ℕ} (ha : ∃ d ∈ s.live, d.covers a) : ¬ Covers F a := by
  obtain ⟨d, hd, hda⟩ := ha
  rintro ⟨e, he, hea⟩
  exact (hs.apart d hd e he).not_covers hda hea

end Owned

structure Holds (s : Session) (t : Store) (F : Finset Block) : Prop where
  owned : Owned s F
  live : t.live = s.live
  written : ∀ a v, t.written a = some v → s.heap.mem a = v ∧ ∃ b ∈ s.live, b.covers a

section Calls

variable {s s' : Session} {t : Store} {F : Finset Block} {call : Call}

theorem Holds.served {h' : Heap} {size priority out n : ℕ} (h : Holds s t F) (hmin : 2 ≤ size)
    (hmax : size ≤ 2147483648) (hrun : kernMalloc s.heap size priority = some (h', out, n))
    (hout : out ≠ 0) : size ≤ n ∧ (∀ d ∈ s.live, Block.Apart ⟨out, n⟩ d) ∧
      ∃ F', Holds ⟨h', ⟨out, n⟩ :: s.live⟩ ⟨⟨out, n⟩ :: t.live, t.written⟩ F' := by
  rcases kernMalloc_spec h.owned.rep hmin hmax priority with hnull | ⟨h₁, p, F', heq, hev, hal⟩
  · rw [hnull] at hrun
    cases hrun
    exact absurd rfl hout
  · rw [heq] at hrun
    cases hrun
    have hlarge := hal.held.large
    have hapart : ∀ d ∈ s.live, Block.Apart ⟨out, (size + 15) / 16 * 16⟩ d := by
      intro d hd
      have hdlarge := (h.owned.held d hd).1.large
      apply Block.apart_of_not_covers (by omega) (by omega)
      intro x hx hdx
      exact Owned.not_free h.owned ⟨d, hd, hdx⟩ ((hal.covers x).mpr (Or.inr hx))
    have hshrunk := Owned.shrink h.owned hev.rep fun x hx => (hal.covers x).mpr (Or.inl hx)
    refine ⟨by omega, hapart, F', Owned.add hshrunk hal.held hal.bounded hal.apart hapart, ?_, ?_⟩
    · simp only [h.live]
    · intro a v ha
      obtain ⟨hv, hin⟩ := h.written a v ha
      obtain ⟨d, hd, hda⟩ := id hin
      refine ⟨(hev.frame a (Owned.not_free h.owned hin)).trans hv, d, ?_, hda⟩
      exact List.mem_cons_of_mem _ hd

theorem malloc_matched {size priority : ℕ} (h : Holds s t F)
    (hs : Step s (.malloc size priority) s') :
    ∃ t', t.Step (.malloc size priority) t' ∧ ∃ F', Holds s' t' F' := by
  obtain ⟨⟨hmin, hmax⟩, hnext⟩ := hs
  have hlive := h.live
  simp only [next, Option.bind_eq_bind, Option.bind_eq_some_iff, Option.some.injEq] at hnext
  obtain ⟨⟨h', out, n⟩, heq, rfl⟩ := hnext
  by_cases hout : out = 0
  · have hsame : h' = s.heap := by
      rcases kernMalloc_spec h.owned.rep hmin hmax priority with
        hnull | ⟨h₁, p, F', hfound, -, hal⟩
      · rw [hnull] at heq
        cases heq
        rfl
      · have hpos := hal.held.pos
        rw [hfound] at heq
        cases heq
        simp only at hpos
        omega
    refine ⟨t, .refused, F, ?_⟩
    simpa only [if_pos hout, hsame] using h
  · obtain ⟨hsize, hapart, F', hholds⟩ := h.served hmin hmax heq hout
    refine ⟨_, .served (by rwa [hlive]) hsize, F', ?_⟩
    simpa only [if_neg hout] using hholds

theorem forget_written {b : Block} (h : Holds s t F) {a : ℕ} {v : UInt8}
    (ha : t.forget b a = some v) :
    s.heap.mem a = v ∧ ¬ Covers F a ∧ ¬ b.covers a ∧ ∃ d ∈ s.live.erase b, d.covers a := by
  rw [Store.forget] at ha
  split at ha
  · cases ha
  · rename_i hba
    obtain ⟨hv, hin⟩ := h.written a v ha
    refine ⟨hv, Owned.not_free h.owned hin, hba, ?_⟩
    obtain ⟨d, hd, hda⟩ := hin
    have hne : d ≠ b := fun heq => hba (heq ▸ hda)
    exact ⟨d, (List.mem_erase_of_ne hne).mpr hd, hda⟩

theorem Holds.freed {h' : Heap} {b : Block} (h : Holds s t F) (hb : b ∈ s.live)
    (hrun : kernFree s.heap b.addr b.size = some h') :
    ∃ F', Holds ⟨h', s.live.erase b⟩ ⟨t.live.erase b, t.forget b⟩ F' := by
  obtain ⟨hheld, htop⟩ := h.owned.held b hb
  obtain ⟨h₁, F', heq, hev, hcov, -⟩ := kernFree_spec
    (R := fun x => Covers F x ∨ b.covers x) h.owned.rep hheld htop (h.owned.apart b hb)
    (fun _ hx => hx)
  rw [heq] at hrun
  cases hrun
  refine ⟨F', Owned.release h.owned hb hev.rep fun x hx => (hcov x).mp hx, by simp only [h.live], ?_⟩
  intro a v ha
  obtain ⟨hv, hfree, hba, hin⟩ := forget_written h ha
  exact ⟨(hev.frame a fun hx => hx.elim hfree hba).trans hv, hin⟩

theorem free_matched {b : Block} (h : Holds s t F) (hs : Step s (.free b) s') :
    ∃ t', t.Step (.free b) t' ∧ ∃ F', Holds s' t' F' := by
  obtain ⟨hb, hnext⟩ := hs
  have hlive := h.live
  simp only [next, Option.bind_eq_bind, Option.bind_eq_some_iff, Option.some.injEq] at hnext
  obtain ⟨h', heq, rfl⟩ := hnext
  exact ⟨_, .freed (by rwa [hlive]), h.freed hb heq⟩

theorem Holds.kept {h' : Heap} {b : Block} {size priority n : ℕ} (h : Holds s t F)
    (hb : b ∈ s.live) (hmax : size < largestBlock)
    (hrun : kernRealloc s.heap b.addr size b.size priority = some (h', 0, n)) :
    ∃ F', Holds ⟨h', s.live⟩ t F' := by
  obtain ⟨hheld, htop⟩ := h.owned.held b hb
  rcases kernRealloc_spec h.owned.rep hheld htop (h.owned.apart b hb) hmax hrun with
    ⟨-, F', href⟩ | ⟨hne, -⟩
  · refine ⟨F', ?_, h.live, ?_⟩
    · refine Owned.shrink h.owned href.rep fun x hx => ?_
      obtain ⟨c, hc, hcx⟩ := hx
      exact ⟨c, href.subset hc, hcx⟩
    · intro a v ha
      obtain ⟨hv, hin⟩ := h.written a v ha
      exact ⟨(href.frame a (Owned.not_free h.owned hin)).trans hv, hin⟩
  · exact absurd rfl hne

theorem Holds.resized {h' : Heap} {b : Block} {size priority out n : ℕ} (h : Holds s t F)
    (hb : b ∈ s.live) (hmax : size < largestBlock)
    (hrun : kernRealloc s.heap b.addr size b.size priority = some (h', out, n)) (hout : out ≠ 0) :
    size ≤ n ∧ (∀ d ∈ s.live.erase b, Block.Apart ⟨out, n⟩ d) ∧
      ∃ F', Holds ⟨h', ⟨out, n⟩ :: s.live.erase b⟩
        ⟨⟨out, n⟩ :: t.live.erase b, t.moved b ⟨out, n⟩ (min b.size size)⟩ F' := by
  obtain ⟨hheld, htop⟩ := h.owned.held b hb
  rcases kernRealloc_spec h.owned.rep hheld htop (h.owned.apart b hb) hmax hrun with
    ⟨rfl, -⟩ | ⟨-, hsize, keep, F', hkeep, hnew⟩
  · exact absurd rfl hout
  have hcov : ∀ x, Block.covers ⟨out, n⟩ x → Covers F x ∨ b.covers x :=
    fun x hx => (hnew.covers x).mp (Or.inr hx)
  have hlarge := hnew.held.large
  have hapart := Owned.made_apart h.owned hb (by omega) hcov
  have hrest := Owned.release h.owned hb hnew.rep fun x hx => (hnew.covers x).mp (Or.inl hx)
  refine ⟨hsize, hapart, F', Owned.add hrest hnew.held hnew.bounded hnew.apart hapart, ?_, ?_⟩
  · simp only [h.live]
  · intro a v ha
    simp only [List.mem_cons, exists_eq_or_imp]
    simp only [Store.moved] at ha
    split at ha
    · rename_i hca
      split at ha
      · rename_i hi
        obtain ⟨hv, -⟩ := h.written _ v ha
        have hsame := hnew.contents (a - out) (by omega)
        have hback : out + (a - out) = a := Nat.add_sub_cancel' hca.1
        simp only [hback] at hsame
        exact ⟨hsame.trans hv, Or.inl hca⟩
      · cases ha
    · obtain ⟨hv, hfree, hba, hin⟩ := forget_written h ha
      exact ⟨(hnew.frame a hfree hba).trans hv, Or.inr hin⟩

theorem realloc_matched {b : Block} {size priority : ℕ} (h : Holds s t F)
    (hs : Step s (.realloc b size priority) s') :
    ∃ t', t.Step (.realloc b size priority) t' ∧ ∃ F', Holds s' t' F' := by
  obtain ⟨⟨hb, hmax⟩, hnext⟩ := hs
  have hlive := h.live
  simp only [next, Option.bind_eq_bind, Option.bind_eq_some_iff, Option.some.injEq] at hnext
  obtain ⟨⟨h', out, n⟩, heq, rfl⟩ := hnext
  by_cases hout : out = 0
  · subst hout
    obtain ⟨F', hkept⟩ := h.kept hb hmax heq
    refine ⟨t, .kept (by rwa [hlive]), F', ?_⟩
    simpa only [if_true] using hkept
  · obtain ⟨hsize, hapart, F', hholds⟩ := h.resized hb hmax heq hout
    refine ⟨_, .resized (by rwa [hlive]) (by rwa [hlive]) hsize, F', ?_⟩
    simpa only [if_neg hout] using hholds

theorem store_matched {a : ℕ} {v : UInt8} (h : Holds s t F) (hs : Step s (.store a v) s') :
    ∃ t', t.Step (.store a v) t' ∧ ∃ F', Holds s' t' F' := by
  obtain ⟨hin, hnext⟩ := hs
  simp only [next, Option.some.injEq] at hnext
  subst hnext
  have hfree := Owned.not_free h.owned hin
  refine ⟨_, .stored (by rwa [h.live]), F, ⟨?_, h.owned.held, h.owned.disjoint, h.owned.apart⟩,
    h.live, ?_⟩
  · refine h.owned.rep.congr_mem fun x hx => ?_
    apply Function.update_of_ne
    rintro rfl
    exact hfree hx
  · intro b w hw
    by_cases hba : b = a
    · subst hba
      simp only [Function.update_self, Option.some.injEq] at hw ⊢
      exact ⟨hw, hin⟩
    · simp only [Function.update_of_ne hba] at hw ⊢
      exact h.written b w hw

theorem call_matched (h : ∃ F, Holds s t F) (hs : Step s call s') :
    ∃ t', t.Step call t' ∧ ∃ F', Holds s' t' F' := by
  obtain ⟨F, h⟩ := h
  cases call with
  | malloc size priority => exact malloc_matched h hs
  | free b => exact free_matched h hs
  | realloc b size priority => exact realloc_matched h hs
  | store a v => exact store_matched h hs

/-- The heap refines the store: every run of calls that return, from any heap that indexes its free
blocks, is a run of the store with the same blocks, and memory has every byte that the store knows
of. -/
theorem heap_refines_store {h₀ : Heap} {F₀ : Finset Block} (hr : HeapRep h₀ F₀) {calls : List Call}
    (h : Trace Step ⟨h₀, []⟩ calls s) :
    ∃ t, Trace Store.Step ⟨[], fun _ => none⟩ calls t ∧ t.live = s.live ∧
      s.live.Pairwise Block.Apart ∧ ∀ a v, t.written a = some v → s.heap.mem a = v := by
  have hstart : ∃ F, Holds ⟨h₀, []⟩ ⟨[], fun _ => none⟩ F := by
    refine ⟨F₀, ⟨hr, ?_, List.Pairwise.nil, ?_⟩, rfl, ?_⟩
    · intro b hb
      cases hb
    · intro b hb
      cases hb
    · intro a v ha
      cases ha
  have hmatch : ∀ s t call s', (∃ F, Holds s t F) → Step s call s' →
      ∃ t', Store.Step t call t' ∧ ∃ F', Holds s' t' F' :=
    fun _ _ _ _ hholds hstep => call_matched hholds hstep
  obtain ⟨t, ht, F, hh⟩ := h.simulates hmatch hstart
  exact ⟨t, ht, hh.live, hh.owned.disjoint, fun a v ha => (hh.written a v ha).1⟩

end Calls

theorem heap_refines_store_written : ∃ s t,
    Trace Step ⟨oneBlockHeap, []⟩
      [.malloc 100 1, .store 0x100000 7, .realloc ⟨0x100000, 112⟩ 40 1] s ∧
    s.heap.mem 0x100000 = 7 ∧ Step s (.free ⟨0x100000, 48⟩) t ∧ t.live = [] := by
  let cut := follow next Enabled ⟨oneBlockHeap, []⟩
    [.malloc 100 1, .store 0x100000 7, .realloc ⟨0x100000, 112⟩ 40 1]
  have hfreed : (cut.bind fun s => (next s (.free ⟨0x100000, 48⟩)).map fun t => (s.live, t.live)) =
      some ([⟨0x100000, 48⟩], []) := by decide +kernel
  obtain ⟨s, hcut, hnext⟩ := Option.bind_eq_some_iff.mp hfreed
  obtain ⟨t, hfree, hlive⟩ := Option.map_eq_some_iff.mp hnext
  obtain ⟨hheld, hback⟩ := Prod.mk.inj hlive
  have hrun := trace_of_follow hcut
  obtain ⟨u, hu, hsame, -, hmem⟩ := heap_refines_store oneBlockHeap_rep hrun
  refine ⟨s, t, hrun, hmem 0x100000 7 ?_, ⟨?_, hfree⟩, hback⟩
  · -- The store has moved the byte to the front of the block that is left.
    rw [hheld] at hsame
    cases hu with
    | cons _ hlast =>
      cases hlast with
      | cons hstored hend =>
        cases hstored
        cases hend with
        | cons hcut hnil =>
          cases hnil
          cases hcut with
          | resized =>
            obtain rfl := List.head_eq_of_cons_eq hsame
            rfl
          | kept hold =>
            rw [hsame] at hold
            exact absurd hold (by decide)
  · show (⟨0x100000, 48⟩ : Block) ∈ s.live
    rw [hheld]
    exact List.mem_singleton_self _

end HeapStore
