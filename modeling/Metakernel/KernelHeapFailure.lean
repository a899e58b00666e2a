import Metakernel.KernelHeapReserve

/-!
# When kern_realloc fails

A request that is to grow a block first absorbs the free blocks beside it. When they do not
suffice and no other block is found, `kern_realloc` returns NULL and keeps what it has absorbed.
-/
namespace KernelHeap

open ByteMemory DyadicBlocks

/-- A call that returns NULL leaves the free blocks, their count, the bytes of the block and its
size as they were. -/
def FailsCleanly (h : Heap) (F : Finset Block) (b : Block) (size priority : ℕ) : Prop :=
  ∀ h' n, kernRealloc h b.addr size b.size priority = some (h', 0, n) →
    HeapRep h' F ∧ h'.heapFree = h.heapFree ∧ (∀ x, b.covers x → h'.mem x = h.mem x) ∧ n = b.size

/-- An admitted request for a block with a free neighbour to absorb either gets enough in this way
or finds a block among those that are left. -/
def GrowthServes (h : Heap) (F : Finset Block) (b : Block) (size priority : ℕ) : Prop :=
  Admitted h size b.size priority → size ≤ 2147483648 → (∃ c, Absorb F b c) →
    ∀ g, GrowthEnd F b size g → g.size < size → Served (F.filter g.Apart) size

section Failure

variable {h h₁ h' : Heap} {F F₁ : Finset Block} {b g : Block} {p n out size priority : ℕ}

theorem FailsCleanly.of_some
    (hrun : kernRealloc h b.addr size b.size priority = some (h', out, n)) (hout : out ≠ 0) :
    FailsCleanly h F b size priority := by
  intro h'' m heq
  rw [hrun, Option.some.injEq, Prod.mk.injEq, Prod.mk.injEq] at heq
  exact absurd heq.2.1 hout

theorem FailsCleanly.of_none (hrun : kernRealloc h b.addr size b.size priority = none) :
    FailsCleanly h F b size priority := by
  intro h'' m heq
  rw [hrun] at heq
  cases heq

theorem GrowthEnd.larger (hF : FreeSet F) (hend : GrowthEnd F b size g) (hlt : b.size < size)
    (hnext : ∃ c, Absorb F b c) : b.size < g.size := by
  rcases hend.growth.cases_head with rfl | ⟨e, he, hrest⟩
  · obtain ⟨c, hc⟩ := hnext
    rcases hend.stop with hle | hnone
    · omega
    · exact absurd hc (hnone c)
  · have hfirst := he.2.size_lt hF
    have hpath : Growth (fun size' => decide (size' < size)) F e g := hrest
    have hlast := reaches_size_le hF hpath.reaches
    omega

theorem GrowthEnd.alone (hF : FreeSet F) (hend : GrowthEnd F b size g)
    (hnone : ¬ ∃ c, Absorb F b c) : g = b :=
  hend.unique hF ⟨.refl, Or.inr fun d hd => hnone ⟨d, hd⟩⟩

theorem Grown.unchanged (hr : HeapRep h F) (hap : ∀ c ∈ F, b.Apart c)
    (hg : Grown h F b size h₁ F₁ b) :
    HeapRep h₁ F ∧ h₁.heapFree = h.heapFree ∧ ∀ x, b.covers x → h₁.mem x = h.mem x := by
  have hrest : F₁ = F := by
    rw [hg.absorbs.rest_eq hr.toFreeSet]
    exact Finset.filter_true_of_mem hap
  have hrep := hg.rep
  have hcount := hg.count
  rw [hrest] at hrep hcount
  refine ⟨hrep, ?_, hg.contents⟩
  have hlt := hr.counter
  have hlt' := hrep.counter
  unfold wadd at hcount
  omega

theorem Grown.null_clean_iff (hr : HeapRep h F) (hap : ∀ c ∈ F, b.Apart c) (hlt : b.size < size)
    (hg : Grown h F b size h₁ F₁ ⟨p, n⟩)
    (hrun : kernRealloc h b.addr size b.size priority = some (h₁, 0, n)) :
    FailsCleanly h F b size priority ↔ ¬ ∃ c, Absorb F b c := by
  constructor
  · intro hclean hnext
    have hsame := (hclean h₁ n hrun).2.2.2
    have hlarger := hg.ends.larger hr.toFreeSet hlt hnext
    simp only at hlarger
    omega
  · intro hnone h' m heq
    rw [hrun, Option.some.injEq, Prod.mk.injEq, Prod.mk.injEq] at heq
    obtain ⟨rfl, -, rfl⟩ := heq
    have halone := hg.ends.alone hr.toFreeSet hnone
    rw [halone] at hg
    obtain ⟨hrep, hfree, hmem⟩ := hg.unchanged hr hap
    exact ⟨hrep, hfree, hmem, congrArg Block.size halone⟩

theorem Grown.clean_iff (hr : HeapRep h F) (hb : Held b) (hap : ∀ c ∈ F, b.Apart c)
    (hlt : b.size < size) (hword : size < 4294967296)
    (hadm : Admitted h size b.size priority)
    (hgrow : growBlock h b.addr b.size size = some (h₁, p, n))
    (hg : Grown h F b size h₁ F₁ ⟨p, n⟩) :
    FailsCleanly h F b size priority ↔
      (size ≤ 2147483648 → (∃ c, Absorb F b c) → n < size → Served F₁ size) := by
  have hlarge := hb.large
  have hrun := (kernRealloc_admitted (p := b.addr) hlt hadm).trans (growOrMove_eq hgrow)
  rcases lt_trichotomy n size with hshort | hfit | hlong
  · rw [if_neg (by omega)] at hrun
    by_cases hs : Served F₁ size
    · obtain ⟨h', F', out, hout, hmove, -⟩ := hg.move_served hb hlt hshort hs
      exact iff_of_true (FailsCleanly.of_some (hrun.trans hmove) hout) fun _ _ _ => hs
    · rw [hg.move_starved hb hlt hword hs] at hrun
      by_cases hround : size ≤ 2147483648
      · rw [if_pos hround] at hrun
        rw [hg.null_clean_iff hr hap hlt hrun]
        constructor
        · exact fun hnone _ hnext => absurd hnext hnone
        · exact fun hserves hnext => hs (hserves hround hnext hshort)
      · rw [if_neg hround] at hrun
        exact iff_of_true (FailsCleanly.of_none hrun) fun hle => absurd hle hround
  · have hlost : kernRealloc h b.addr size b.size priority = none :=
      realloc_exact_fit hr hb hap
        (Or.inr ⟨hlt, hadm, (grown_exact_iff hr.toFreeSet hg.ends).mp hfit⟩)
    refine iff_of_true (FailsCleanly.of_none hlost) fun _ _ hless => ?_
    omega
  · have hpos : p ≠ 0 := Nat.pos_iff_ne_zero.mp hg.absorbs.held.pos
    obtain ⟨h', F', hcut, -⟩ := hg.cut_resizes hlt hlong
    rw [if_pos (le_of_lt hlong), hcut] at hrun
    refine iff_of_true (FailsCleanly.of_some hrun hpos) fun _ _ hless => ?_
    omega

end Failure

end KernelHeap
