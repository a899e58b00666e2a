import Mathlib.Data.Fintype.Card
import Mathlib.Order.WellFounded
import Mathlib.Data.Fintype.Order

/-!
# Paths of a partial function

From a point a partial function leads along one path, which ends where the function is undefined.
A path that ends has no repetitions.
-/
namespace PartialPaths

variable {α : Type*} {f : α → Option α}

inductive Path (f : α → Option α) : α → List α → Prop where
  | stop {x} : f x = none → Path f x [x]
  | step {x y l} : f x = some y → Path f y l → Path f x (x :: l)

theorem Path.unique {x : α} {l l' : List α} (h : Path f x l) (h' : Path f x l') : l = l' := by
  induction h generalizing l' with
  | stop hx =>
    cases h' with
    | stop => rfl
    | step hy => simp [hx] at hy
  | step hx _ ih =>
    cases h' with
    | stop hn => simp [hx] at hn
    | step hy hl =>
      obtain rfl := Option.some_inj.mp (hx.symm.trans hy)
      rw [ih hl]

theorem Path.mem {x : α} {l : List α} (h : Path f x l) : x ∈ l := by
  cases h <;> simp

/-- The rest of a path from one of its points is the path from there. -/
theorem Path.suffix {x u : α} {l : List α} (h : Path f x l) (hu : u ∈ l) :
    ∃ r, Path f u r ∧ r <:+ l := by
  induction h with
  | stop hx =>
    obtain rfl := List.mem_singleton.mp hu
    exact ⟨_, .stop hx, List.suffix_rfl⟩
  | @step x y l hx hl ih =>
    obtain rfl | hu := List.mem_cons.mp hu
    · exact ⟨_, .step hx hl, List.suffix_rfl⟩
    · obtain ⟨r, hr, hs⟩ := ih hu
      exact ⟨r, hr, hs.trans (List.suffix_cons x l)⟩

theorem Path.nodup {x : α} {l : List α} (h : Path f x l) : l.Nodup := by
  induction h with
  | stop => exact List.nodup_singleton _
  | @step x y l hx hl ih =>
    refine List.nodup_cons.mpr ⟨?_, ih⟩
    intro hmem
    obtain ⟨r, hr, hs⟩ := hl.suffix hmem
    have hlen := hs.length_le
    rw [hr.unique (.step hx hl), List.length_cons] at hlen
    omega

theorem Path.next_mem {x u v : α} {l : List α} (h : Path f x l) (hu : u ∈ l)
    (hv : f u = some v) : v ∈ l := by
  obtain ⟨r, hr, hs⟩ := h.suffix hu
  cases hr with
  | stop hn => simp [hn] at hv
  | step hy hl =>
    obtain rfl := Option.some_inj.mp (hy.symm.trans hv)
    exact hs.subset (List.mem_cons_of_mem _ hl.mem)

theorem Path.pred {x u : α} {l : List α} (h : Path f x l) (hu : u ∈ l) (hne : u ≠ x) :
    ∃ v ∈ l, f v = some u := by
  induction h with
  | stop => exact absurd (List.mem_singleton.mp hu) hne
  | @step x y l hx _ ih =>
    rcases List.mem_cons.mp hu with rfl | hu
    · exact absurd rfl hne
    · by_cases huy : u = y
      · subst huy
        exact ⟨x, List.mem_cons_self, hx⟩
      · obtain ⟨v, hv, hvu⟩ := ih hu huy
        exact ⟨v, List.mem_cons_of_mem _ hv, hvu⟩

theorem Path.not_back {x v : α} {l : List α} (h : Path f x l) (hv : v ∈ l) : f v ≠ some x := by
  intro hback
  obtain ⟨r, hr, hs⟩ := h.suffix hv
  have hlen := hs.length_le
  rw [hr.unique (.step hback h), List.length_cons] at hlen
  omega

theorem Path.not_fork {x v : α} {l : List α} (h : Path f x (x :: l)) (hv : v ∈ l) : f v ≠ f x := by
  intro hfork
  cases h with
  | stop => cases hv
  | step hx hl => exact hl.not_back hv (hfork.trans hx)

theorem Path.pred_unique {x u v w : α} {l : List α} (h : Path f x l) (hu : u ∈ l) (hv : v ∈ l)
    (huw : f u = some w) (hvw : f v = some w) : u = v := by
  induction h with
  | stop => rw [List.mem_singleton.mp hu, List.mem_singleton.mp hv]
  | @step x y l hx hl ih =>
    have hpath : Path f x (x :: l) := .step hx hl
    rcases List.mem_cons.mp hu with rfl | hul
    · rcases List.mem_cons.mp hv with rfl | hvl
      · rfl
      · exact absurd (hvw.trans huw.symm) (hpath.not_fork hvl)
    · rcases List.mem_cons.mp hv with rfl | hvl
      · exact absurd (huw.trans hvw.symm) (hpath.not_fork hul)
      · exact ih hul hvl

theorem Path.congr {g : α → Option α} {x : α} {l : List α} (h : Path f x l)
    (hg : ∀ v ∈ l, g v = f v) : Path g x l := by
  induction h with
  | stop hx => exact .stop ((hg _ (List.mem_singleton_self _)).trans hx)
  | step hx _ ih =>
    apply Path.step ((hg _ List.mem_cons_self).trans hx)
    exact ih fun v hv => hg v (List.mem_cons_of_mem _ hv)

/-- On a finite type every path ends when no point leads back to itself. -/
theorem exists_path [Finite α]
    (h : ∀ x, ¬ Relation.TransGen (fun y x => f x = some y) x x) (x : α) : ∃ l, Path f x l := by
  have hwf : WellFounded (Relation.TransGen fun y x => f x = some y) := by
    have : IsTrans α (Relation.TransGen fun y x => f x = some y) := ⟨fun _ _ _ => .trans⟩
    have : Std.Irrefl (Relation.TransGen fun y x => f x = some y) := ⟨h⟩
    exact Finite.wellFounded_of_trans_of_irrefl _
  induction x using hwf.induction with
  | _ x ih =>
    cases hx : f x with
    | none => exact ⟨[x], .stop hx⟩
    | some y =>
      obtain ⟨l, hl⟩ := ih y (.single hx)
      exact ⟨x :: l, .step hx hl⟩

end PartialPaths
