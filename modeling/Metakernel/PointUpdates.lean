import Mathlib.Algebra.BigOperators.Group.Finset.Basic
import Mathlib.Data.Fintype.Basic
import Mathlib.Tactic.Abel

/-!
# Finite sums when one summand changes
-/
namespace PointUpdates

variable {ι M : Type*} [DecidableEq ι] [AddCommMonoid M] {f g : ι → M} {i : ι}

theorem sum_mem_change {s : Finset ι} (hi : i ∈ s) (h : ∀ j, j ≠ i → g j = f j) :
    ∑ j ∈ s, g j + f i = ∑ j ∈ s, f j + g i := by
  have hrest : ∑ j ∈ s.erase i, g j = ∑ j ∈ s.erase i, f j := by
    apply Finset.sum_congr rfl
    intro j hj
    exact h j (Finset.ne_of_mem_erase hj)
  rw [← Finset.add_sum_erase s g hi, hrest, ← Finset.add_sum_erase s f hi]
  abel

theorem sum_change [Fintype ι] (h : ∀ j, j ≠ i → g j = f j) : ∑ j, g j + f i = ∑ j, f j + g i :=
  sum_mem_change (Finset.mem_univ i) h

theorem sum_map_change {κ N : Type*} [AddCommMonoid N] {f g : κ → N} {i : κ} {l : List κ}
    (hl : l.Nodup) (hi : i ∈ l) (h : ∀ j, j ≠ i → g j = f j) :
    (l.map g).sum + f i = (l.map f).sum + g i := by
  induction l with
  | nil => cases hi
  | cons x l ih =>
    obtain ⟨hx, hl⟩ := List.nodup_cons.mp hl
    simp only [List.map_cons, List.sum_cons]
    by_cases hxi : x = i
    · subst hxi
      have hrest : l.map g = l.map f := by
        apply List.map_congr_left
        intro j hj
        exact h j (fun hji => hx (hji ▸ hj))
      rw [hrest]
      abel
    · have hrest := ih hl ((List.mem_cons.mp hi).resolve_left (Ne.symm hxi))
      rw [h x hxi, add_assoc, hrest, add_assoc]

end PointUpdates
