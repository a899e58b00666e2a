import Metakernel.BalancedTrees
import Metakernel.RedBlackTree

/-!
# Insertion into a red-black tree

The rotations and the recoloring are described as changes of the tree around the new node.
The loop moves up two levels at a time; a red node is never the root, so the grandparent that
it reads exists.
-/
namespace RedBlackTree

open LinkedTrees

variable {P : Type*} [DecidableEq P] {null : P} {comp : P → P → ℤ}

theorem testBit_cleared (c : ℕ) : (c &&& notColor).testBit 0 = false := by
  simp [notColor]

theorem testBit_copied (c d : ℕ) :
    ((c &&& notColor) ||| (d &&& COLOR)).testBit 0 = d.testBit 0 := by
  simp [notColor, COLOR]

theorem testBit_masked (d : ℕ) : (d &&& COLOR).testBit 0 = d.testBit 0 := by
  simp [COLOR]

theorem testBit_blackened (c : ℕ) : (c ||| BLACK).testBit 0 = true := by
  simp [BLACK]

theorem and_color_ne_zero (c : ℕ) : c &&& COLOR ≠ 0 ↔ c.testBit 0 = true := by
  rw [COLOR, Nat.and_one_is_mod, Nat.testBit_zero]
  simp

/-- The links after a rotation at `top` towards the side away from its child `child`. -/
structure Rotated (null : P) (side : Bool) (s s' : Links P) (top child : P) : Prop where
  up : ∀ x, s'.up x = if x = top then child else if x = child then s.up top
    else if x = s.child (!side) child ∧ x ≠ null then top else s.up x
  near : ∀ x, s'.child side x = if x = top then s.child (!side) child else s.child side x
  far : ∀ x, s'.child (!side) x = if x = child then top else s.child (!side) x
  color : ∀ x, (s'.color x).testBit 0 = if x = child then (s.color top).testBit 0
    else if x = top then (s.color child).testBit 0 else (s.color x).testBit 0

theorem sRightRotate_rotated {s : Links P} {top child : P} (hchild : s.left top = child)
    (h₁ : child ≠ top) (h₂ : s.right child ≠ top) (h₃ : s.right child ≠ child) :
    (sRightRotate null s top).2 = child ∧
      Rotated null true s (sRightRotate null s top).1 top child := by
  subst hchild
  have hcol : ∀ x, (sRightRotate null s top).1.color x =
      if x = s.left top then (s.color (s.left top) &&& notColor) ||| (s.color top &&& COLOR)
      else if x = top then (s.color top &&& notColor) ||| (s.color (s.left top) &&& COLOR)
      else s.color x := by
    intro x
    simp only [sRightRotate, setColor, setLeft, setUp, setRight, apply_ite Links.color, ite_self,
      Function.update_apply]
    grind
  refine ⟨rfl, ?_, ?_, ?_, ?_⟩
  · intro x
    simp only [sRightRotate, setColor, setLeft, setUp, setRight, apply_ite Links.up,
      apply_ite Links.right, ite_self, Function.update_apply, Links.child]
    grind
  · intro x
    simp only [sRightRotate, setColor, setLeft, setUp, setRight, apply_ite Links.left, ite_self,
      Function.update_apply, Links.child, if_true, Bool.not_true, Bool.false_eq_true, if_false]
  · intro x
    simp only [sRightRotate, setColor, setLeft, setUp, setRight, apply_ite Links.right, ite_self,
      Function.update_apply, Links.child, Bool.not_true, Bool.false_eq_true, if_false]
  · intro x
    rw [hcol]
    split
    · exact testBit_copied _ _
    · split
      · exact testBit_copied _ _
      · rfl

theorem sLeftRotate_rotated {s : Links P} {top child : P} (hchild : s.right top = child)
    (h₁ : child ≠ top) (h₂ : s.left child ≠ top) (h₃ : s.left child ≠ child) :
    (sLeftRotate null s top).2 = child ∧
      Rotated null false s (sLeftRotate null s top).1 top child := by
  subst hchild
  have hcol : ∀ x, (sLeftRotate null s top).1.color x =
      if x = s.right top then (s.color (s.right top) &&& notColor) ||| (s.color top &&& COLOR)
      else if x = top then s.color (s.right top) &&& COLOR
      else s.color x := by
    intro x
    simp only [sLeftRotate, setColor, setLeft, setUp, setRight, apply_ite Links.color, ite_self,
      Function.update_apply]
    grind
  refine ⟨rfl, ?_, ?_, ?_, ?_⟩
  · intro x
    simp only [sLeftRotate, setColor, setLeft, setUp, setRight, apply_ite Links.up,
      apply_ite Links.left, ite_self, Function.update_apply, Links.child]
    grind
  · intro x
    simp only [sLeftRotate, setColor, setLeft, setUp, setRight, apply_ite Links.right, ite_self,
      Function.update_apply, Links.child, if_true, Bool.not_false, Bool.false_eq_true, if_false]
  · intro x
    simp only [sLeftRotate, setColor, setLeft, setUp, setRight, apply_ite Links.left, ite_self,
      Function.update_apply, Links.child, Bool.not_false, if_true]
  · intro x
    rw [hcol]
    split
    · exact testBit_copied _ _
    · split
      · exact testBit_masked _
      · rfl

theorem Rotated.same {side : Bool} {s s' : Links P} {top child : P}
    (h : Rotated null side s s' top child) {x : P} (h₁ : x ≠ top) (h₂ : x ≠ child)
    (h₃ : x = s.child (!side) child → x = null) : SameAt s s' x := by
  have hq : ¬ (x = s.child (!side) child ∧ x ≠ null) := fun hx => hx.2 (h₃ hx.1)
  refine sameAt_of_child side ?_ ?_ ?_ ?_
  · rw [h.up, if_neg h₁, if_neg h₂, if_neg hq]
  · rw [h.near, if_neg h₁]
  · rw [h.far, if_neg h₂]
  · rw [h.color, if_neg h₂, if_neg h₁]

/-- A rotation as a tree: the child comes to the top and takes over its color. -/
theorem Rotated.rep {side gb pb : Bool} {s s' : Links P} {u g p : P} {a b c : NodeTree P}
    (hr : Rotated null side s s' g p)
    (h : TreeRep null s u (.join side gb (.join side pb a p b) g c) g)
    (hnd : (NodeTree.join side gb (.join side pb a p b) g c).toList.Nodup) :
    TreeRep null s' u (.join side gb a p (.join side pb b g c)) p := by
  obtain ⟨_, hg, hu, hgc, hin, hc⟩ := rep_join.mp h
  obtain ⟨hnear, hp, hpu, hpc, ha, hb⟩ := rep_join.mp hin
  obtain ⟨hndin, hndc, hgin, hgc', hdis⟩ := NodeTree.nodup_join.mp hnd
  obtain ⟨hnda, hndb, hpa, hpb, hab⟩ := NodeTree.nodup_join.mp hndin
  simp only [NodeTree.mem_join, not_or] at hgin hdis
  obtain ⟨hga, hgp, hgb⟩ := hgin
  have hqb : ∀ x, x = s.child (!side) p → x = null ∨ x ∈ b.toList := by
    intro x hx
    by_cases hn : x = null
    · exact Or.inl hn
    · exact Or.inr (hx ▸ hb.head_mem (hx ▸ hn))
  refine rep_join.mpr ⟨rfl, hp, ?_, ?_, ?_, rep_join.mpr ⟨?_, hg, ?_, ?_, ?_, ?_⟩⟩
  · rw [hr.up, if_neg (Ne.symm hgp), if_pos rfl, hu]
  · rw [hr.color, if_pos rfl, hgc]
  · rw [hr.near, if_neg (Ne.symm hgp)]
    refine ha.congr fun x hx => hr.same (fun hh => hga (hh ▸ hx)) (fun hh => hpa (hh ▸ hx)) ?_
    intro hq
    rcases hqb x hq with hn | hxb
    · exact hn
    · exact absurd hxb (hab x hx)
  · rw [hr.far, if_pos rfl]
  · rw [hr.up, if_pos rfl]
  · rw [hr.color, if_neg hgp, if_pos rfl, hpc]
  · rw [hr.near, if_pos rfl]
    refine hb.reparent ?_ ?_ hndb
    · intro hq
      have hqmem := hb.head_mem hq
      have hqg : s.child (!side) p ≠ g := fun hh => hgb (hh ▸ hqmem)
      have hqp : s.child (!side) p ≠ p := fun hh => hpb (hh ▸ hqmem)
      have hleft := hr.near (s.child (!side) p)
      have hright := hr.far (s.child (!side) p)
      have hcol := hr.color (s.child (!side) p)
      rw [if_neg hqg] at hleft
      rw [if_neg hqp] at hright
      rw [if_neg hqp, if_neg hqg] at hcol
      refine ⟨?_, ?_⟩
      · rw [hr.up, if_neg hqg, if_neg hqp, if_pos ⟨rfl, hq⟩]
      · cases side
        · exact ⟨hright, hleft, hcol⟩
        · exact ⟨hleft, hright, hcol⟩
    · intro x hx hxq
      exact hr.same (fun hh => hgb (hh ▸ hx)) (fun hh => hpb (hh ▸ hx)) fun hh => absurd hh hxq
  · rw [hr.far, if_neg hgp]
    refine hc.congr fun x hx => hr.same (fun hh => hgc' (hh ▸ hx)) ?_ ?_
    · rintro rfl
      exact hdis x (Or.inr (Or.inl rfl)) hx
    · intro hq
      rcases hqb x hq with hn | hxb
      · exact hn
      · exact absurd hx (hdis x (Or.inr (Or.inr hxb)))

theorem Rotated.same_outside {side gb pb : Bool} {s s' : Links P} {u g p : P} {a b c : NodeTree P}
    (hr : Rotated null side s s' g p)
    (h : TreeRep null s u (.join side gb (.join side pb a p b) g c) g) {x : P}
    (hx : x ∉ (NodeTree.join side gb (.join side pb a p b) g c).toList) : SameAt s s' x := by
  obtain ⟨_, _, _, _, hin, _⟩ := rep_join.mp h
  obtain ⟨_, _, _, _, _, hb⟩ := rep_join.mp hin
  simp only [NodeTree.mem_join, not_or] at hx
  refine hr.same hx.2.1 hx.1.2.1 fun hq => ?_
  by_contra hn
  exact hx.1.2.2 (hq ▸ hb.head_mem (hq ▸ hn))

omit [DecidableEq P] in
theorem child_ne {s : Links P} {u g x : P} {side gb xb : Bool} {t sib unc : NodeTree P}
    {d : Bool} (h : TreeRep null s u (.join side gb (.join d xb t x sib) g unc) g)
    (hnd : (NodeTree.join side gb (.join d xb t x sib) g unc).toList.Nodup) :
    s.child side g = x ∧ s.child (!side) g ≠ x := by
  obtain ⟨_, _, _, _, hin, hunc⟩ := rep_join.mp h
  obtain ⟨hx, hxn, _⟩ := rep_join.mp hin
  refine ⟨hx, fun heq => ?_⟩
  obtain ⟨_, _, _, _, hdis⟩ := NodeTree.nodup_join.mp hnd
  refine hdis x (NodeTree.mem_join.mpr (Or.inr (Or.inl rfl))) ?_
  rw [← heq]
  exact hunc.head_mem (by rw [heq]; exact hxn)

def sRotate (null : P) (side : Bool) (s : Links P) (tree : P) : Links P × P :=
  if side then sRightRotate null s tree else sLeftRotate null s tree

def setChild (side : Bool) (s : Links P) (x v : P) : Links P :=
  if side then setLeft s x v else setRight s x v

theorem setChild_same {side : Bool} {s : Links P} {x v y : P} (h : y ≠ x) :
    SameAt s (setChild side s x v) y := by
  cases side <;> constructor <;> simp [setChild, setLeft, setRight, h]

theorem setChild_child (side : Bool) (s : Links P) (x v : P) :
    (setChild side s x v).child side x = v := by
  cases side <;> simp [setChild, setLeft, setRight, Links.child]

theorem setChild_other (side : Bool) (s : Links P) (x v : P) :
    (setChild side s x v).child (!side) x = s.child (!side) x ∧
      (setChild side s x v).up x = s.up x ∧ (setChild side s x v).color x = s.color x := by
  cases side <;> simp [setChild, setLeft, setRight, Links.child]

theorem sRotate_rotated {side gb pb : Bool} {s : Links P} {u g p : P} {a b c : NodeTree P}
    (h : TreeRep null s u (.join side gb (.join side pb a p b) g c) g)
    (hnd : (NodeTree.join side gb (.join side pb a p b) g c).toList.Nodup) :
    (sRotate null side s g).2 = p ∧ Rotated null side s (sRotate null side s g).1 g p := by
  obtain ⟨_, hg, _, _, hin, _⟩ := rep_join.mp h
  obtain ⟨hp, hpn, _, _, _, hb⟩ := rep_join.mp hin
  obtain ⟨hndin, _, hgin, _, _⟩ := NodeTree.nodup_join.mp hnd
  obtain ⟨_, _, _, hpb, _⟩ := NodeTree.nodup_join.mp hndin
  simp only [NodeTree.mem_join, not_or] at hgin
  have hqg : s.child (!side) p ≠ g := by
    intro hq
    exact hgin.2.2 (hq ▸ hb.head_mem (hq ▸ hg))
  have hqp : s.child (!side) p ≠ p := by
    intro hq
    have hmem := hb.head_mem (hq.symm ▸ hpn)
    rw [hq] at hmem
    exact hpb hmem
  cases side with
  | true => exact sRightRotate_rotated hp (Ne.symm hgin.2.1) hqg hqp
  | false => exact sLeftRotate_rotated hp (Ne.symm hgin.2.1) hqg hqp

theorem sRotate_rep {side gb pb : Bool} {s : Links P} {u g p : P} {a b c : NodeTree P}
    (h : TreeRep null s u (.join side gb (.join side pb a p b) g c) g)
    (hnd : (NodeTree.join side gb (.join side pb a p b) g c).toList.Nodup) :
    (sRotate null side s g).2 = p ∧
      TreeRep null (sRotate null side s g).1 u (.join side gb a p (.join side pb b g c)) p ∧
      ∀ x ∉ (NodeTree.join side gb (.join side pb a p b) g c).toList,
        SameAt s (sRotate null side s g).1 x := by
  obtain ⟨hp, hr⟩ := sRotate_rotated h hnd
  exact ⟨hp, hr.rep h hnd, fun x hx => hr.same_outside h hx⟩

/-- The double rotation: first around the child, then around the top. -/
def dRotate (null : P) (side : Bool) (s : Links P) (tree : P) : Links P × P :=
  let r := sRotate null (!side) s (s.child side tree)
  sRotate null side (setChild side r.1 tree r.2) tree

theorem dRotate_true (s : Links P) (tree : P) :
    dRotate null true s tree = dRightRotate null s tree := rfl

theorem dRotate_false (s : Links P) (tree : P) :
    dRotate null false s tree = dLeftRotate null s tree := rfl

theorem dRotate_rep {side gb xb nb : Bool} {s : Links P} {u g x n : P} {a b sib unc : NodeTree P}
    (h : TreeRep null s u (.join side gb (.join (!side) xb (.join (!side) nb a n b) x sib) g unc) g)
    (hnd : (NodeTree.join side gb (.join (!side) xb (.join (!side) nb a n b) x sib) g unc).toList.Nodup) :
    (dRotate null side s g).2 = n ∧
      TreeRep null (dRotate null side s g).1 u
        (.join side gb (.join side nb sib x b) n (.join side xb a g unc)) n ∧
      ∀ y ∉ (NodeTree.join side gb (.join (!side) xb (.join (!side) nb a n b) x sib) g unc).toList,
        SameAt s (dRotate null side s g).1 y := by
  obtain ⟨_, hg, hu, hgc, hin, hunc⟩ := rep_join.mp h
  have hx : s.child side g = x := (rep_join.mp hin).1
  rw [hx] at hin
  obtain ⟨hndin, hndunc, hgin, hgunc, hdis⟩ := NodeTree.nodup_join.mp hnd
  obtain ⟨hn, hrep₁, hsame₁⟩ := sRotate_rep hin hndin
  set s₁ := (sRotate null (!side) s x).1 with hs₁
  have hlist : (NodeTree.join (!side) xb a n (.join (!side) nb b x sib)).toList =
      (NodeTree.join (!side) xb (.join (!side) nb a n b) x sib).toList :=
    NodeTree.toList_rotate _ _ _ _ _ _ _ _ _ _
  have hlist₂ : (NodeTree.join side xb (.join (!side) nb b x sib) n a).toList =
      (NodeTree.join (!side) xb (.join (!side) nb a n b) x sib).toList := by
    rw [← NodeTree.join_not]
    exact hlist
  -- the links after the first rotation, with the top linked to the new child
  have hsame₂ : ∀ y, y ≠ g → SameAt s₁ (setChild side s₁ g n) y := fun y hy => setChild_same hy
  have hgsame := hsame₁ g hgin
  obtain ⟨hfar, hup, hcol⟩ := setChild_other side s₁ g n
  have hrep₂ : TreeRep null (setChild side s₁ g n) u
      (.join side gb (.join side xb (.join (!side) nb b x sib) n a) g unc) g := by
    refine rep_join.mpr ⟨rfl, hg, ?_, ?_, ?_, ?_⟩
    · rw [hup, hgsame.up, hu]
    · rw [hcol, hgsame.color, hgc]
    · rw [setChild_child, ← NodeTree.join_not]
      refine hrep₁.congr fun y hy => hsame₂ y ?_
      rintro rfl
      exact hgin (hlist ▸ hy)
    · rw [hfar, hgsame.child]
      refine hunc.congr fun y hy => ?_
      have hyin : y ∉ (NodeTree.join (!side) xb (.join (!side) nb a n b) x sib).toList :=
        fun hh => hdis y hh hy
      have hyg : y ≠ g := fun hh => hgunc (hh ▸ hy)
      exact (hsame₁ y hyin).trans (hsame₂ y hyg)
  have hnd₂ : (NodeTree.join side gb (.join side xb (.join (!side) nb b x sib) n a) g
      unc).toList.Nodup := by
    rw [NodeTree.nodup_join, hlist₂]
    exact ⟨hndin, hndunc, hgin, hgunc, hdis⟩
  obtain ⟨hn₂, hrep₃, hsame₃⟩ := sRotate_rep hrep₂ hnd₂
  have hdef : dRotate null side s g = sRotate null side (setChild side s₁ g n) g := by
    rw [dRotate, hx]
    simp only [← hs₁, hn]
  rw [hdef]
  refine ⟨hn₂, ?_, ?_⟩
  · rw [NodeTree.join_not] at hrep₃
    exact hrep₃
  · intro y hy
    obtain ⟨hyin, hyg, hyunc⟩ : y ∉ (NodeTree.join (!side) xb (.join (!side) nb a n b) x sib).toList ∧
        y ≠ g ∧ y ∉ unc.toList := by
      simpa only [NodeTree.mem_join (t := NodeTree.join (!side) xb (.join (!side) nb a n b) x sib),
        not_or] using hy
    refine ((hsame₁ y hyin).trans (hsame₂ y hyg)).trans (hsame₃ y ?_)
    rw [NodeTree.mem_join, hlist₂]
    simp only [not_or]
    exact ⟨hyin, hyg, hyunc⟩

/-- The four rotation cases are the two single and the two double rotations. -/
theorem rotateCase_eq {side d gb xb nb : Bool} {s : Links P} {u g x n : P}
    {l r sib unc : NodeTree P}
    (h : TreeRep null s u (.join side gb (.join d xb (.node nb l n r) x sib) g unc) g)
    (hnd : (NodeTree.join side gb (.join d xb (.node nb l n r) x sib) g unc).toList.Nodup) :
    rotateCase null s n = if d = side then sRotate null side s g else dRotate null side s g := by
  obtain ⟨hxg, hxg'⟩ := child_ne h hnd
  obtain ⟨_, _, _, _, hin, _⟩ := rep_join.mp h
  rw [hxg] at hin
  obtain ⟨hndin, _⟩ := NodeTree.nodup_join.mp hnd
  obtain ⟨a, b, hab⟩ := NodeTree.exists_join true nb l r n
  rw [hab] at hin hndin
  obtain ⟨hnx, hnx'⟩ := child_ne hin hndin
  obtain ⟨_, _, hxu, _, hn, _⟩ := rep_join.mp hin
  obtain ⟨_, _, hnu, _⟩ := rep_join.mp hn
  cases side <;> cases d <;> simp only [Links.child, Bool.not_true, Bool.not_false, if_true,
    Bool.false_eq_true, if_false] at hxg hxg' hnx hnx' <;>
    simp [rotateCase, hnu, hxu, hxg, hnx, sRotate, dRotate_true, dRotate_false, Ne.symm hxg',
      Ne.symm hnx']

def Repaired (n : P) (l r sib unc t : NodeTree P) (h : ℕ) : Prop :=
  (NodeTree.node false l n r).RedBlack h → sib.RedBlack h → unc.RedBlack h → sib.black = true →
    unc.black = true → t.RedBlack (h + 1)

/-- A rotation case gives a tree with the same nodes in the same order and the color of the
old top. -/
theorem rotateCase_rep {side d gb xb nb : Bool} {s : Links P} {u g x n : P}
    {l r sib unc : NodeTree P}
    (h : TreeRep null s u (.join side gb (.join d xb (.node nb l n r) x sib) g unc) g)
    (hnd : (NodeTree.join side gb (.join d xb (.node nb l n r) x sib) g unc).toList.Nodup) :
    ∃ s' top t, rotateCase null s n = (s', top) ∧ TreeRep null s' u t top ∧ top ≠ null ∧
      t.toList = (NodeTree.join side gb (.join d xb (.node nb l n r) x sib) g unc).toList ∧
      t.black = gb ∧ (gb = true → xb = false → nb = false → ∀ h, Repaired n l r sib unc t h) ∧
      ∀ y ∉ (NodeTree.join side gb (.join d xb (.node nb l n r) x sib) g unc).toList,
        SameAt s s' y := by
  rw [rotateCase_eq h hnd]
  by_cases hd : d = side
  · subst hd
    obtain ⟨htop, hrep, hsame⟩ := sRotate_rep h hnd
    refine ⟨_, x, _, ?_, hrep, (rep_join.mp hrep).2.1, ?_, NodeTree.black_join _ _ _ _ _, ?_, hsame⟩
    · rw [if_pos rfl, ← htop]
    · exact NodeTree.toList_rotate _ _ _ _ _ _ _ _ _ _
    · rintro rfl rfl rfl h
      exact redBlack_single
  · obtain rfl : d = !side := by
      cases d <;> cases side <;> simp at hd ⊢
    obtain ⟨a, b, hab⟩ := NodeTree.exists_join (!side) nb l r n
    rw [hab] at h hnd ⊢
    obtain ⟨htop, hrep, hsame⟩ := dRotate_rep h hnd
    refine ⟨_, n, _, ?_, hrep, (rep_join.mp hrep).2.1, ?_, NodeTree.black_join _ _ _ _ _, ?_, hsame⟩
    · rw [if_neg hd, ← htop]
    · cases side <;> simp [NodeTree.join]
    · rintro rfl rfl rfl h hn
      rw [hab] at hn
      exact redBlack_double hn

theorem rotateUp_rep {pp : HolePath P} {side d gb xb nb : Bool} {s : Links P} {g x n : P}
    {l r sib unc : NodeTree P}
    (h : TreeRep null s (pp.parent null) (.join side gb (.join d xb (.node nb l n r) x sib) g unc) g)
    (hpp : PathRep null s pp g)
    (hnd : (pp.plug (.join side gb (.join d xb (.node nb l n r) x sib) g unc)).toList.Nodup) :
    ∃ s' top t, rotateUp null s n = (s', top) ∧ TreeRep null s' (pp.parent null) t top ∧
      PathRep null s' pp top ∧ top ≠ null ∧
      t.toList = (NodeTree.join side gb (.join d xb (.node nb l n r) x sib) g unc).toList ∧
      t.black = gb ∧ (gb = true → xb = false → nb = false → ∀ h, Repaired n l r sib unc t h) ∧
      ∀ y ∉ (pp.plug (.join side gb (.join d xb (.node nb l n r) x sib) g unc)).toList,
        SameAt s s' y := by
  obtain ⟨hndt, hndp, hdis⟩ := HolePath.nodup_plug.mp hnd
  obtain ⟨s₁, top, t, hcase, hrep, htop, hlist, hblack, hrepair, hsame⟩ := rotateCase_rep h hndt
  obtain ⟨_, hg, hup, _, hin, _⟩ := rep_join.mp h
  obtain ⟨_, _, hxu, _, hn, _⟩ := rep_join.mp hin
  obtain ⟨_, _, hnu, _⟩ := hn
  have hgp : s.up (s.up n) = g := by rw [hnu, hxu]
  have htopup : s₁.up top = pp.parent null := by
    cases t with
    | nil => exact absurd hrep htop
    | node b l x r =>
      obtain ⟨rfl, _, hu, _⟩ := hrep
      exact hu
  have hgmem : g ∈ (NodeTree.join side gb (.join d xb (.node nb l n r) x sib) g unc).toList :=
    NodeTree.mem_join.mpr (Or.inr (Or.inl rfl))
  have hpath : ∀ y ∈ pp.nodes, SameAt s s₁ y := fun y hy => hsame y fun hh => hdis y hh hy
  cases pp with
  | root =>
    refine ⟨s₁, top, t, ?_, hrep, trivial, htop, hlist, hblack, hrepair, ?_⟩
    · have hnull : ¬ null ≠ s₁.up top := by rw [htopup]; simp [HolePath.parent]
      simp only [rotateUp, hcase, if_neg hnull]
    · exact fun y hy => hsame y fun hh => hy (HolePath.mem_plug.mpr (Or.inl hh))
  | step up e b y o =>
    obtain ⟨hy, hchild, hyu, hyc, ho, hrest⟩ := hpp
    have htopy : s₁.up top = y := htopup
    have hymem : y ∈ (HolePath.step up e b y o).nodes := HolePath.mem_step.mpr (Or.inl rfl)
    have hyt : y ∉ t.toList := fun hh => hdis y (hlist ▸ hh) hymem
    -- which link of the parent led to the grandparent
    have hdir : decide (g = s.left (s.up g)) = e := by
      have hgy : s.up g = y := hup
      rw [hgy]
      cases e with
      | true => simpa [Links.child] using hchild.symm
      | false =>
        rw [decide_eq_false_iff_not]
        intro hgl
        refine hdis g hgmem (HolePath.mem_step.mpr (Or.inr (Or.inl ?_)))
        have hgl' : s.child (!false) y = g := hgl.symm
        rw [hgl'] at ho
        exact ho.head_mem hg
    have hrun : rotateUp null s n = (setChild e s₁ y top, top) := by
      have hnull : null ≠ y := Ne.symm hy
      simp only [rotateUp, hgp, hdir, hcase, htopy, if_pos hnull]
      cases e <;> rfl
    obtain ⟨hfar, hup', hcol⟩ := setChild_other e s₁ y top
    have hysame := hpath y hymem
    refine ⟨_, top, t, hrun, ?_, ?_, htop, hlist, hblack, hrepair, ?_⟩
    · refine hrep.congr fun z hz => setChild_same ?_
      rintro rfl
      exact hyt hz
    · refine PathRep.refill ⟨hy, hchild, hyu, hyc, ho, hrest⟩ hndp (setChild_child e s₁ y top)
        (hfar.trans (hysame.child _)) (hup'.trans hysame.up) ?_ ?_
      · rw [hcol]
        exact hysame.color
      · exact fun z hz hzy => (hpath z hz).trans (setChild_same hzy)
    · intro z hz
      rw [HolePath.mem_plug, not_or] at hz
      refine (hsame z hz.1).trans (setChild_same ?_)
      rintro rfl
      exact hz.2 hymem

/-- Recoloring keeps the links; the color of the grandparent stays when it is the root. -/
theorem transferHeat_rep {pp : HolePath P} {side d gb xb ub nb : Bool} {s : Links P} {g x n w : P}
    {l r sib ul ur : NodeTree P}
    (h : TreeRep null s (pp.parent null)
      (.join side gb (.join d xb (.node nb l n r) x sib) g (.node ub ul w ur)) g)
    (hpp : PathRep null s pp g)
    (hnd : (pp.plug (.join side gb (.join d xb (.node nb l n r) x sib) g
      (.node ub ul w ur))).toList.Nodup) :
    ∃ s' c, transferHeat null s n = (s', g) ∧
      TreeRep null s' (pp.parent null)
        (.join side c (.join d true (.node nb l n r) x sib) g (.node true ul w ur)) g ∧
      PathRep null s' pp g ∧ (pp = .root → c = gb) ∧ (pp ≠ .root → c = false) ∧
      ∀ y ∉ (pp.plug (.join side gb (.join d xb (.node nb l n r) x sib) g
        (.node ub ul w ur))).toList, SameAt s s' y := by
  obtain ⟨hndt, hndp, hdis⟩ := HolePath.nodup_plug.mp hnd
  obtain ⟨_, hg, hup, hgc, hin, hunc⟩ := rep_join.mp h
  obtain ⟨hx, hxn, hxu, hxc, hn, hsib⟩ := rep_join.mp hin
  obtain ⟨hw, hwn, hwu, hwc, hul, hur⟩ := hunc
  obtain ⟨hnn, hnnull, hnu, hnc, hl, hr⟩ := hn
  have hndt' := NodeTree.nodup_join.mp hndt
  obtain ⟨hndin, hndunc, hgin, hgunc, hdist⟩ := hndt'
  have hndin' := NodeTree.nodup_join.mp hndin
  simp only [NodeTree.mem_join, not_or] at hgin hdist
  have hgp : s.up (s.up n) = g := by rw [hnu, hxu]
  have hxg : x ≠ g := Ne.symm hgin.2.1
  have hwg : w ≠ g := by
    rintro rfl
    exact hgunc (by simp)
  have hxw : x ≠ w := by
    rintro rfl
    exact hdist x (Or.inr (Or.inl rfl)) (by simp)
  -- the children of the grandparent in either order
  obtain ⟨s', hrun, hlinks, hcol⟩ : ∃ s', transferHeat null s n = (s', g) ∧
      (s'.up = s.up ∧ s'.left = s.left ∧ s'.right = s.right) ∧
      ∀ y, (s'.color y).testBit 0 = if y = x ∨ y = w then true
        else if y = g then if pp.parent null = null then gb else false
        else (s.color y).testBit 0 := by
    refine ⟨_, Prod.ext rfl hgp, ?_, ?_⟩
    · simp only [transferHeat]
      split <;> exact ⟨rfl, rfl, rfl⟩
    · intro y
      have hboth : (s.left g = x ∧ s.right g = w) ∨ (s.left g = w ∧ s.right g = x) := by
        cases side
        · exact Or.inr ⟨hw, hx⟩
        · exact Or.inl ⟨hx, hw⟩
      simp only [transferHeat, hgp, setColor, apply_ite Links.color, Function.update_apply, hup]
      have hb := testBit_blackened
      have hc := testBit_cleared
      rcases hboth with ⟨hl', hr'⟩ | ⟨hl', hr'⟩ <;> rw [hl', hr'] <;> grind
  obtain ⟨hu', hl', hr'⟩ := hlinks
  have hsame : ∀ y, y ≠ x → y ≠ w → y ≠ g → SameAt s s' y := by
    intro y h₁ h₂ h₃
    refine ⟨by rw [hu'], by rw [hl'], by rw [hr'], ?_⟩
    rw [hcol, if_neg (by simp [h₁, h₂]), if_neg h₃]
  have hchild : ∀ e y, s'.child e y = s.child e y := by
    intro e y
    cases e
    · exact congrFun hr' y
    · exact congrFun hl' y
  refine ⟨s', if pp.parent null = null then gb else false, hrun, ?_, ?_, ?_, ?_, ?_⟩
  · refine rep_join.mpr ⟨rfl, hg, ?_, ?_, ?_, ?_⟩
    · rw [hu', hup]
    · rw [hcol, if_neg (by simp [Ne.symm hxg, Ne.symm hwg]), if_pos rfl]
    · rw [hchild]
      refine rep_join.mpr ⟨hx, hxn, by rw [hu', hxu], by rw [hcol]; simp, ?_, ?_⟩
      · rw [hchild]
        have hnrep : TreeRep null s x (.node nb l n r) (s.child d x) := ⟨hnn, hnnull, hnu, hnc, hl, hr⟩
        refine hnrep.congr fun y hy => hsame y ?_ ?_ ?_
        · rintro rfl
          exact hndin'.2.2.1 hy
        · rintro rfl
          exact hdist y (Or.inl hy) (by simp)
        · rintro rfl
          exact hgin.1 hy
      · rw [hchild]
        refine hsib.congr fun y hy => hsame y ?_ ?_ ?_
        · rintro rfl
          exact hndin'.2.2.2.1 hy
        · rintro rfl
          exact hdist y (Or.inr (Or.inr hy)) (by simp)
        · rintro rfl
          exact hgin.2.2 hy
    · rw [hchild]
      have hndw := NodeTree.nodup_join.mp (show (NodeTree.join true ub ul w ur).toList.Nodup from hndunc)
      refine ⟨hw, hwn, by rw [hu', hwu], by rw [hcol]; simp, ?_, ?_⟩
      · rw [hl']
        refine hul.congr fun y hy => hsame y ?_ ?_ ?_
        · rintro rfl
          exact hdist y (Or.inr (Or.inl rfl)) (by simp [hy])
        · rintro rfl
          exact hndw.2.2.1 hy
        · rintro rfl
          exact hgunc (by simp [hy])
      · rw [hr']
        refine hur.congr fun y hy => hsame y ?_ ?_ ?_
        · rintro rfl
          exact hdist y (Or.inr (Or.inl rfl)) (by simp [hy])
        · rintro rfl
          exact hndw.2.2.2.1 hy
        · rintro rfl
          exact hgunc (by simp [hy])
  · refine hpp.congr fun y hy => ?_
    have hout : ∀ z ∈ (NodeTree.join side gb (.join d xb (.node nb l n r) x sib) g
        (.node ub ul w ur)).toList, y ≠ z := fun z hz hyz => hdis z hz (hyz ▸ hy)
    refine hsame y (hout x ?_) (hout w ?_) (hout g ?_)
    · exact NodeTree.mem_join.mpr (Or.inl (NodeTree.mem_join.mpr (Or.inr (Or.inl rfl))))
    · exact NodeTree.mem_join.mpr (Or.inr (Or.inr (by simp)))
    · exact NodeTree.mem_join.mpr (Or.inr (Or.inl rfl))
  · rintro rfl
    simp [HolePath.parent]
  · intro hroot
    cases pp with
    | root => exact absurd rfl hroot
    | step up e b y o => exact if_neg hpp.1
  · intro y hy
    rw [HolePath.mem_plug, not_or, NodeTree.mem_join, NodeTree.mem_join] at hy
    simp only [not_or] at hy
    refine hsame y hy.1.1.2.1 ?_ hy.1.2.1
    rintro rfl
    exact hy.1.2.2 (by simp)

omit [DecidableEq P] in
theorem join_recolored (side c c' d e e' : Bool) (t sib l r : NodeTree P) (x g w : P) (b b' : Bool) :
    (NodeTree.join side c (.join d e t x sib) g (.node b l w r)).toList =
      (NodeTree.join side c' (.join d e' t x sib) g (.node b' l w r)).toList := by
  cases side <;> cases d <;> simp [NodeTree.join]

/-- The tree is balanced if the only fault before was at the node `n` and its parent. -/
def Rebalanced (path : HolePath P) (nb : Bool) (l : NodeTree P) (n : P) (r t : NodeTree P) : Prop :=
  ∀ h, (NodeTree.node nb l n r).RedBlack h → path.Fits true h → nb = false ∨ path = .root →
    ∃ k, t.RedBlack k

/-- The loop ends after at most one round for each node above the inserted one, and leaves a
tree with the same nodes in the same order and a black root. -/
theorem fixLoop_rep {fuel : ℕ} : ∀ {path : HolePath P} {nb : Bool} {l r : NodeTree P} {n : P}
    {s : Links P}, TreeRep null s (path.parent null) (.node nb l n r) n → PathRep null s path n →
    (path.plug (.node nb l n r)).toList.Nodup → path.topBlack nb = true → path.length < fuel →
    ∃ s' curr path' t', fixLoop null fuel s n = some (s', curr) ∧
      TreeRep null s' (path'.parent null) t' curr ∧ PathRep null s' path' curr ∧
      (path'.plug t').toList = (path.plug (.node nb l n r)).toList ∧
      path'.topBlack t'.black = true ∧ path'.length ≤ path.length ∧ t' ≠ .nil ∧
      Rebalanced path nb l n r (path'.plug t') ∧
      ∀ y ∉ (path.plug (.node nb l n r)).toList, SameAt s s' y := by
  induction fuel with
  | zero => intro path nb l r n s _ _ _ _ hf; omega
  | succ fuel ih =>
    intro path nb l r n s hrep hpath hnd hblack hfuel
    have hup : s.up n = path.parent null := hrep.2.2.1
    have hstop : fixLoop null (fuel + 1) s n = some (s, n) →
        Rebalanced path nb l n r (path.plug (.node nb l n r)) →
        ∃ s' curr path' t', fixLoop null (fuel + 1) s n = some (s', curr) ∧
          TreeRep null s' (path'.parent null) t' curr ∧ PathRep null s' path' curr ∧
          (path'.plug t').toList = (path.plug (.node nb l n r)).toList ∧
          path'.topBlack t'.black = true ∧ path'.length ≤ path.length ∧ t' ≠ .nil ∧
          Rebalanced path nb l n r (path'.plug t') ∧
          ∀ y ∉ (path.plug (.node nb l n r)).toList, SameAt s s' y := fun heq hbal =>
      ⟨s, n, path, _, heq, hrep, hpath, rfl, hblack, le_refl _, by simp, hbal,
        fun _ _ => ⟨rfl, rfl, rfl, rfl⟩⟩
    cases path with
    | root =>
      apply hstop
      · rw [fixLoop, if_neg (by rw [hup]; simp [HolePath.parent])]
      · exact fun h hn _ _ => ⟨h, hn⟩
    | step up d xb x sib =>
      obtain ⟨hx, hchild, hxu, hxc, hsib, hrest⟩ := hpath
      have hnx : s.up n = x := hup
      cases xb with
      | true =>
        apply hstop
        · rw [fixLoop, hnx, if_pos hx, if_pos ((and_color_ne_zero _).mpr hxc)]
        · exact fun h hn hfits _ => hfits.recolor.plug hn
      | false =>
        have hred : ¬ s.color x &&& COLOR ≠ 0 := by
          rw [and_color_ne_zero, hxc]
          simp
        cases up with
        | root => exact absurd hblack (by simp [HolePath.topBlack])
        | step pp side gb g unc =>
          obtain ⟨hg, hgchild, hgu, hgc, hunc, hpp⟩ := hrest
          have hxg : s.up x = g := hxu
          have hsub : TreeRep null s g (.join d false (.node nb l n r) x sib) (s.child side g) :=
            rep_join.mpr ⟨hgchild, hx, hxg, hxc, by rw [hchild]; exact hrep, hsib⟩
          have htree : TreeRep null s (pp.parent null)
              (.join side gb (.join d false (.node nb l n r) x sib) g unc) g :=
            rep_join.mpr ⟨rfl, hg, hgu, hgc, hsub, hunc⟩
          have hndpp : (pp.plug (.join side gb (.join d false (.node nb l n r) x sib) g
              unc)).toList.Nodup := hnd
          have hndg := (HolePath.nodup_plug.mp hndpp).1
          have huncle : uncleNode s n = s.child (!side) g := by
            obtain ⟨h₁, h₂⟩ := child_ne htree hndg
            cases side
            · have hne : ¬ x = s.left g := fun hh => h₂ hh.symm
              simp only [uncleNode, hnx, hxg, if_neg hne]
              rfl
            · have heq : x = s.left g := h₁.symm
              simp only [uncleNode, hnx, hxg, if_pos heq]
              rfl
          by_cases hub : unc.black = true
          · -- a black uncle: one rotation, and done
            obtain ⟨s', top, t, hrot, hrep', hpp', htop, hlist, htb, hrepair, hsame⟩ :=
              rotateUp_rep htree hpp hnd
            refine ⟨s', top, pp, t, ?_, hrep', hpp', ?_, ?_, ?_, ?_, ?_, hsame⟩
            · have hcond : ¬ (if null ≠ uncleNode s n then s.color (uncleNode s n) &&& COLOR
                  else BLACK) = 0 := by
                rw [huncle]
                cases unc with
                | nil =>
                  have hnull : s.child (!side) g = null := hunc
                  rw [hnull]
                  simp [BLACK]
                | node ub ul w ur =>
                  obtain ⟨hw, hwn, _, hwc, _⟩ := hunc
                  rw [hw, if_pos (Ne.symm hwn)]
                  exact (and_color_ne_zero _).mpr (hwc.trans hub)
              rw [fixLoop, hnx, if_pos hx, if_neg hred, if_neg hcond, hrot]
            · rw [pp.toList_plug, hlist, ← pp.toList_plug]
              rfl
            · rw [htb]
              exact hblack
            · simp only [HolePath.length]
              omega
            · rintro rfl
              exact htop hrep'
            · rintro h hn ⟨hs, hred, hu, hgred, hfits⟩ hnb
              have hgb : gb = true := by
                by_contra hgb
                exact absurd (hgred (by simpa using hgb)).1 (by simp)
              subst hgb
              rw [hnb.resolve_right (by simp)] at hn
              refine HolePath.Fits.plug (hrepair rfl rfl (hnb.resolve_right (by simp)) h hn hs hu
                (hred rfl).2 hub) ?_
              rw [htb]
              exact hfits
          · -- a red uncle: recolor and go on at the grandparent
            cases unc with
            | nil => exact absurd rfl hub
            | node ub ul w ur =>
              obtain rfl : ub = false := by simpa [NodeTree.black] using hub
              obtain ⟨s₁, c, hheat, hrep₁, hpp₁, hroot, hrest', hsame₁⟩ :=
                transferHeat_rep htree hpp hnd
              obtain ⟨gl, gr, hnode⟩ := NodeTree.join_eq_node side c
                (.join d true (.node nb l n r) x sib) (.node true ul w ur) g
              have hlist : (pp.plug (.node c gl g gr)).toList =
                  ((HolePath.step (.step pp side gb g (.node false ul w ur)) d false x sib).plug
                    (.node nb l n r)).toList := by
                rw [← hnode, pp.toList_plug, join_recolored side c gb d true false _ _ _ _ _ _ _
                  true false, ← pp.toList_plug]
                rfl
              rw [hnode] at hrep₁
              have hcolor : pp.topBlack c = true := by
                by_cases hpr : pp = .root
                · rw [hroot hpr]
                  exact hblack
                · rw [HolePath.topBlack_step hpr c gb]
                  exact hblack
              obtain ⟨s', curr, path', t', hrun, hrep', hpath', hl', hb', hlen, ht', hbal, hsame'⟩ :=
                ih hrep₁ hpp₁ (by rw [hlist]; exact hnd) hcolor
                  (by simp only [HolePath.length] at hfuel; omega)
              refine ⟨s', curr, path', t', ?_, hrep', hpath', hl'.trans hlist, hb', ?_, ht', ?_, ?_⟩
              · have hcond : (if null ≠ uncleNode s n then s.color (uncleNode s n) &&& COLOR
                    else BLACK) = 0 := by
                  obtain ⟨hw, hwn, _, hwc, _⟩ := hunc
                  rw [huncle, hw, if_pos (Ne.symm hwn)]
                  by_contra hne
                  rw [(and_color_ne_zero _).mp hne] at hwc
                  exact absurd hwc (by simp)
                rw [fixLoop, hnx, if_pos hx, if_neg hred, if_pos hcond, hheat]
                exact hrun
              · simp only [HolePath.length]
                omega
              · rintro h hn ⟨hs, _, hu, hgred, hfits⟩ hnb
                have hgb : gb = true := by
                  by_contra hgb
                  exact absurd (hgred (by simpa using hgb)).1 (by simp)
                subst hgb
                have htop : (NodeTree.node c gl g gr).RedBlack (blackHeight c (h + 1)) := by
                  rw [← hnode]
                  exact redBlack_transfer hn hs hu
                by_cases hpr : pp = .root
                · subst hpr
                  exact hbal _ htop trivial (Or.inr rfl)
                · rw [hrest' hpr] at htop
                  exact hbal _ (by rw [hrest' hpr]; exact htop) hfits (Or.inl (hrest' hpr))
              · intro y hy
                exact (hsame₁ y hy).trans (hsame' y (by rw [hlist]; exact hy))

theorem topLoop_top {s : Links P} : ∀ {path : HolePath P} {t : NodeTree P} {p : P} {fuel : ℕ},
    TreeRep null s (path.parent null) t p → PathRep null s path p → t ≠ .nil → path.length < fuel →
    topLoop null s fuel p = some (path.top p)
  | path, .nil, _, _, _, _, ht, _ => absurd rfl ht
  | .root, .node b l x r, p, fuel + 1, ⟨hp, _, hu, _⟩, _, _, _ => by
    subst hp
    have hnull : ¬ null ≠ s.up p := by rw [hu]; simp [HolePath.parent]
    rw [topLoop, if_neg hnull]
    rfl
  | .step up d b' y o, .node b l x r, p, fuel + 1, ⟨hp, hx, hu, hc, hl, hr⟩,
      ⟨hy, hchild, hyu, hyc, ho, hrest⟩, _, hf => by
    subst hp
    have huy : s.up p = y := hu
    have hrep : TreeRep null s (up.parent null) (.join d b' (.node b l p r) y o) y :=
      rep_join.mpr ⟨rfl, hy, hyu, hyc, by rw [hchild]; exact ⟨rfl, hx, hu, hc, hl, hr⟩, ho⟩
    obtain ⟨l', r', hj⟩ := NodeTree.join_eq_node d b' (.node b l p r) o y
    rw [topLoop, huy, if_pos (Ne.symm hy)]
    exact topLoop_top hrep hrest (by rw [hj]; simp) (by simpa [HolePath.length] using hf)

structure Ordered (comp : P → P → ℤ) : Prop where
  anti : ∀ a b, comp a b > 0 ↔ comp b a < 0
  trans : ∀ a b c, comp a b ≤ 0 → comp b c ≤ 0 → comp a c ≤ 0

def Sorted (comp : P → P → ℤ) (l : List P) : Prop := l.Pairwise fun a b => comp a b ≤ 0

/-- A hole below the node `last` of a tree, with the nodes that are not greater than `inn` before
it and the greater ones behind it. -/
structure Hole (null : P) (comp : P → P → ℤ) (s : Links P) (inn : P) (whole : NodeTree P)
    (up : HolePath P) (side black : Bool) (last : P) (other : NodeTree P) : Prop where
  rep : PathRep null s (.step up side black last other) null
  dir : side = true ↔ comp last inn > 0
  plug : (HolePath.step up side black last other).plug .nil = whole
  before : ∀ y ∈ (HolePath.step up side black last other).before, comp y inn ≤ 0
  after : ∀ y ∈ (HolePath.step up side black last other).after, comp y inn > 0

theorem searchLoop_hole (hcomp : Ordered comp) {s : Links P} {inn : P} :
    ∀ {t : NodeTree P} {path : HolePath P} {p : P} {fuel : ℕ}, TreeRep null s (path.parent null) t p →
    PathRep null s path p → t ≠ .nil → Sorted comp (path.plug t).toList →
    (∀ y ∈ path.before, comp y inn ≤ 0) → (∀ y ∈ path.after, comp y inn > 0) →
    t.toList.length < fuel →
    ∃ up side c last other, searchLoop null comp s inn fuel p = some last ∧
      Hole null comp s inn (path.plug t) up side c last other
  | .nil, _, _, _, _, _, ht, _, _, _, _ => absurd rfl ht
  | .node b l x r, path, p, fuel + 1, ⟨hp, hx, hu, hc, hl, hr⟩, hpath, _, hs, hb, ha, hf => by
    subst hp
    -- the frame of this node, with the hole on the side of the descent
    have hgo : ∀ (side : Bool) {t o : NodeTree P}, NodeTree.node b l p r = .join side b t p o →
        (side = true ↔ comp p inn > 0) → t.toList.length < fuel →
        ∃ up side c last other, searchLoop null comp s inn (fuel + 1) p = some last ∧
          Hole null comp s inn (path.plug (.node b l p r)) up side c last other := by
      intro side t o hj hside hlen
      have hrep : TreeRep null s (path.parent null) (.join side b t p o) p :=
        hj ▸ ⟨rfl, hx, hu, hc, hl, hr⟩
      obtain ⟨_, _, _, _, ht, ho⟩ := rep_join.mp hrep
      have hstep : PathRep null s (.step path side b p o) (s.child side p) :=
        ⟨hx, rfl, hu, hc, ho, hpath⟩
      have hplug : (HolePath.step path side b p o).plug t = path.plug (.node b l p r) := by
        rw [HolePath.plug, ← hj]
      have hsorted : Sorted comp ((HolePath.step path side b p o).plug t).toList := by
        rw [hplug]
        exact hs
      have hnode : Sorted comp (NodeTree.join side b t p o).toList := by
        rw [hj, path.toList_plug] at hs
        exact (List.pairwise_append.mp (List.pairwise_append.mp hs).1).2.1
      have hbefore : ∀ y ∈ (HolePath.step path side b p o).before, comp y inn ≤ 0 := by
        intro y hy
        cases side with
        | true => exact hb y (by simpa [HolePath.before] using hy)
        | false =>
          have hle : comp p inn ≤ 0 := by
            by_contra hgt
            exact absurd (hside.mpr (by omega)) (by simp)
          simp only [HolePath.before, Bool.false_eq_true, if_false, List.mem_append,
            List.mem_singleton] at hy
          rcases hy with hy | hy | rfl
          · exact hb y hy
          · have hyp : comp y p ≤ 0 :=
              (List.pairwise_append.mp hnode).2.2 y hy p (by simp)
            exact hcomp.trans _ _ _ hyp hle
          · exact hle
      have hafter : ∀ y ∈ (HolePath.step path side b p o).after, comp y inn > 0 := by
        intro y hy
        cases side with
        | false => exact ha y (by simpa [HolePath.after] using hy)
        | true =>
          have hgt : comp p inn > 0 := hside.mp rfl
          simp only [HolePath.after, if_true, List.mem_append, List.mem_cons] at hy
          rcases hy with (rfl | hy) | hy
          · exact hgt
          · have hpy : comp p y ≤ 0 :=
              (List.pairwise_cons.mp (List.pairwise_append.mp hnode).2.1).1 y hy
            by_contra hle
            have hpi := hcomp.trans p y inn hpy (by omega)
            omega
          · exact ha y hy
      have hnext : (if comp p inn > 0 then s.left p else s.right p) = s.child side p := by
        cases side with
        | true => rw [if_pos (hside.mp rfl)]; rfl
        | false => rw [if_neg (fun h => absurd (hside.mpr h) (by simp))]; rfl
      cases t with
      | nil =>
        have hnull : s.child side p = null := ht
        refine ⟨path, side, b, p, o, ?_, ⟨hnull ▸ hstep, hside, hplug, hbefore, hafter⟩⟩
        simp only [searchLoop, hnext, hnull, ne_eq, not_true_eq_false, if_false]
      | node b' l' x' r' =>
        have hne : null ≠ s.child side p := by
          rw [ht.1]
          exact Ne.symm ht.2.1
        obtain ⟨up, d, c, last, other, hrun, hrest⟩ := searchLoop_hole hcomp ht hstep (by simp)
          hsorted hbefore hafter hlen
        refine ⟨up, d, c, last, other, ?_, by rw [← hplug]; exact hrest⟩
        simp only [searchLoop, hnext, hne, ne_eq, not_false_eq_true, if_true, hrun]
    simp only [NodeTree.toList_node, List.length_append, List.length_cons] at hf
    by_cases hgt : comp p inn > 0
    · exact hgo true rfl (by simpa using hgt) (by omega)
    · exact hgo false rfl (by simpa using hgt) (by omega)

/-- Insertion keeps the tree: the new node stands between the nodes that are not greater and
the greater ones, the links are consistent and the root is black. -/
theorem treeInsert_rep (hcomp : Ordered comp) {s : Links P} {t : NodeTree P} {tree inn : P}
    {fuel : ℕ} (hrep : TreeRep null s null t tree) (hnd : t.toList.Nodup) (hblack : t.black = true)
    (hs : Sorted comp t.toList) (hinn : inn ≠ null) (hfresh : inn ∉ t.toList)
    (hfuel : t.toList.length < fuel) :
    ∃ s' tree' t', treeInsert null comp fuel s tree inn = some (s', tree') ∧
      TreeRep null s' null t' tree' ∧ t'.black = true ∧ Sorted comp t'.toList ∧
      (∃ l r, t.toList = l ++ r ∧ t'.toList = l ++ inn :: r) ∧
      (∀ h, t.RedBlack h → ∃ k, t'.RedBlack k) ∧
      ∀ y ∉ t'.toList, SameAt s s' y := by
  cases t with
  | nil =>
    have htree : tree = null := hrep
    have hcond : ¬ null ≠ tree := by simp [htree]
    obtain ⟨s', hrun, hu, hl, hr, hc, hsame⟩ : ∃ s', treeInsert null comp fuel s tree inn =
        some (s', inn) ∧ s'.up inn = null ∧ s'.left inn = null ∧ s'.right inn = null ∧
        (s'.color inn).testBit 0 = true ∧ ∀ y, y ≠ inn → SameAt s s' y := by
      rw [treeInsert, if_neg hcond]
      refine ⟨_, rfl, ?_, ?_, ?_, ?_, ?_⟩
      · simp [setColor, setLeft, setRight, setUp]
      · simp [setColor, setLeft]
      · simp [setColor, setLeft, setRight]
      · simp only [setColor, Function.update_self]
        exact testBit_blackened _
      · intro y hy
        constructor <;> simp [setColor, setLeft, setRight, setUp, hy]
    refine ⟨s', inn, .node true .nil inn .nil, hrun, ⟨rfl, hinn, hu, hc, hl, hr⟩, rfl, ?_,
      ⟨[], [], rfl, rfl⟩, fun _ _ => ⟨1, .black .nil .nil⟩, ?_⟩
    · exact List.pairwise_singleton _ _
    · exact fun y hy => hsame y (by simpa using hy)
  | node b l x r =>
    have htree : null ≠ tree := by
      rw [hrep.1]
      exact Ne.symm hrep.2.1
    set s₀ := setColor s inn (s.color inn &&& notColor) with hs₀
    have hsame₀ : ∀ y, y ≠ inn → SameAt s s₀ y := by
      intro y hy
      constructor <;> simp [hs₀, setColor, hy]
    have hrep₀ : TreeRep null s₀ null (.node b l x r) tree := by
      refine hrep.congr fun y hy => hsame₀ y ?_
      rintro rfl
      exact hfresh hy
    have hroot : PathRep null s₀ (.root : HolePath P) tree := trivial
    have hnone : ∀ y ∈ (HolePath.root : HolePath P).before, comp y inn ≤ 0 := by simp [HolePath.before]
    obtain ⟨up, side, c, last, other, hrun, hhole⟩ := searchLoop_hole hcomp hrep₀ hroot (by simp)
      hs hnone (by simp [HolePath.after]) hfuel
    obtain ⟨hpath, hdir, hplug, hbefore, hafter⟩ := hhole
    set path := HolePath.step up side c last other with hpathdef
    have hsplit : (NodeTree.node b l x r).toList = path.before ++ path.after := by
      have := congrArg NodeTree.toList hplug
      rw [path.toList_plug] at this
      simpa [HolePath.plug] using this.symm
    have hndpath : path.nodes.Nodup := by
      rw [HolePath.nodes, ← hsplit]
      exact hnd
    have hout : inn ∉ path.nodes := by
      rw [HolePath.nodes, ← hsplit]
      exact hfresh
    have hlast : last ≠ inn := by
      rintro rfl
      exact hout (HolePath.mem_step.mpr (Or.inl rfl))
    -- the links after the new leaf was hung in
    set s₁ := setLeft (setRight (setUp s₀ inn last) inn null) inn null with hs₁
    have hsame₁ : ∀ y, y ≠ inn → SameAt s₀ s₁ y := by
      intro y hy
      constructor <;> simp [hs₁, setLeft, setRight, setUp, hy]
    have hlink : (if comp inn last < 0 then setLeft s₁ last inn else setRight s₁ last inn) =
        setChild side s₁ last inn := by
      cases side with
      | true => rw [if_pos ((hcomp.anti last inn).mp (hdir.mp rfl))]; rfl
      | false =>
        rw [if_neg (fun h => absurd (hdir.mpr ((hcomp.anti last inn).mpr h)) (by simp))]
        rfl
    obtain ⟨hfar, hup, hcol⟩ := setChild_other side s₁ last inn
    have hleaf : TreeRep null (setChild side s₁ last inn) (path.parent null)
        (.node false .nil inn .nil) inn := by
      have hi : SameAt s₁ (setChild side s₁ last inn) inn := setChild_same (Ne.symm hlast)
      refine ⟨rfl, hinn, ?_, ?_, ?_, ?_⟩
      · rw [hi.up]
        simp [hs₁, setLeft, setRight, setUp, hpathdef, HolePath.parent]
      · rw [hi.color]
        simp only [hs₁, setLeft, setRight, setUp, hs₀, setColor, Function.update_self]
        exact testBit_cleared _
      · rw [hi.left]
        simp [TreeRep, hs₁, setLeft]
      · rw [hi.right]
        simp [TreeRep, hs₁, setLeft, setRight]
    have hlsame := hsame₁ last hlast
    have hpath' : PathRep null (setChild side s₁ last inn) path inn := by
      refine hpath.refill hndpath (setChild_child side s₁ last inn) (hfar.trans (hlsame.child _))
        (hup.trans hlsame.up) ?_ ?_
      · rw [hcol]
        exact hlsame.color
      · intro y hy hyl
        refine (hsame₁ y ?_).trans (setChild_same hyl)
        rintro rfl
        exact hout hy
    have hnd' : (path.plug (.node false .nil inn .nil)).toList.Nodup := by
      rw [HolePath.nodup_plug]
      exact ⟨by simp, hndpath, by simpa using hout⟩
    have htop : path.topBlack false = true := by
      have := congrArg NodeTree.black hplug
      rw [path.black_plug] at this
      rw [← hblack]
      exact this
    have hlen : path.length < fuel := by
      have := path.length_le
      rw [HolePath.nodes, ← hsplit] at this
      omega
    obtain ⟨s', curr, path', t', hfix, hrep', hpp', hlist, hb', hlen', ht', hbal, hsame'⟩ :=
      fixLoop_rep hleaf hpath' hnd' htop hlen
    have hlist' : (path'.plug t').toList = path.before ++ inn :: path.after := by
      rw [hlist, path.toList_plug]
      simp
    refine ⟨s', path'.top curr, path'.plug t', ?_, rep_plug ⟨hrep', hpp'⟩, ?_, ?_,
      ⟨path.before, path.after, hsplit, hlist'⟩, ?_, ?_⟩
    · have htopl := topLoop_top hrep' hpp' ht' (show path'.length < fuel by omega)
      rw [treeInsert, if_pos htree]
      simp only [← hs₀, hrun, Option.bind_eq_bind, Option.bind_some, ← hs₁, hlink, hfix, htopl]
    · rw [path'.black_plug]
      exact hb'
    · rw [hlist']
      rw [hsplit] at hs
      obtain ⟨hs₁, hs₂, hs₃⟩ := List.pairwise_append.mp hs
      refine List.pairwise_append.mpr ⟨hs₁, List.pairwise_cons.mpr ⟨?_, hs₂⟩, ?_⟩
      · intro y hy
        have := (hcomp.anti y inn).mp (hafter y hy)
        omega
      · intro y hy z hz
        rcases List.mem_cons.mp hz with rfl | hz
        · exact hbefore y hy
        · exact hs₃ y hy z hz
    · intro h hrb
      have hwhole : (path.plug .nil).RedBlack h := hplug ▸ hrb
      obtain ⟨j, hnil, hfits⟩ := HolePath.fits_of_plug hwhole
      cases hnil
      exact hbal 0 (.red .nil .nil rfl rfl) hfits (Or.inl rfl)
    · intro y hy
      rw [hlist'] at hy
      simp only [List.mem_append, List.mem_cons, not_or] at hy
      have hyp : y ∉ path.nodes := by
        rw [HolePath.nodes, List.mem_append, not_or]
        exact ⟨hy.1, hy.2.2⟩
      have hyl : y ≠ last := by
        rintro rfl
        exact hyp (HolePath.mem_step.mpr (Or.inl rfl))
      refine (((hsame₀ y hy.2.1).trans (hsame₁ y hy.2.1)).trans (setChild_same hyl)).trans
        (hsame' y ?_)
      rw [HolePath.mem_plug, not_or]
      exact ⟨by simpa using hy.2.1, hyp⟩

theorem searchLoop_mono {s : Links P} {inn last : P} : ∀ {fuel fuel' : ℕ} {curr : P},
    searchLoop null comp s inn fuel curr = some last → fuel ≤ fuel' →
    searchLoop null comp s inn fuel' curr = some last
  | fuel + 1, fuel' + 1, curr, h, hle => by
    rw [searchLoop] at h ⊢
    split_ifs at h ⊢ with hgt hnull
    · exact searchLoop_mono h (by omega)
    · exact h
    · exact searchLoop_mono h (by omega)
    · exact h

theorem fixLoop_mono : ∀ {fuel fuel' : ℕ} {s : Links P} {curr : P} {r : Links P × P},
    fixLoop null fuel s curr = some r → fuel ≤ fuel' → fixLoop null fuel' s curr = some r
  | fuel + 1, fuel' + 1, s, curr, r, h, hle => by
    rw [fixLoop] at h ⊢
    split_ifs at h ⊢
    · exact h
    · exact fixLoop_mono h (by omega)
    · exact h
    · exact fixLoop_mono h (by omega)
    · exact h
    · exact h

theorem topLoop_mono {s : Links P} {top : P} : ∀ {fuel fuel' : ℕ} {curr : P},
    topLoop null s fuel curr = some top → fuel ≤ fuel' → topLoop null s fuel' curr = some top
  | fuel + 1, fuel' + 1, curr, h, hle => by
    rw [topLoop] at h ⊢
    split_ifs at h ⊢
    · exact topLoop_mono h (by omega)
    · exact h

/-- The bound on the rounds does not matter once it is large enough. -/
theorem treeInsert_mono {fuel fuel' : ℕ} {s : Links P} {tree inn : P} {r : Links P × P}
    (h : treeInsert null comp fuel s tree inn = some r) (hle : fuel ≤ fuel') :
    treeInsert null comp fuel' s tree inn = some r := by
  unfold treeInsert at h ⊢
  split_ifs at h ⊢ with htree
  · simp only [Option.bind_eq_bind, Option.bind_eq_some_iff] at h ⊢
    obtain ⟨last, hsearch, ⟨s', curr⟩, hfix, top, htop, hr⟩ := h
    exact ⟨last, searchLoop_mono hsearch hle, (s', curr), fixLoop_mono hfix hle, top,
      topLoop_mono htop hle, hr⟩
  · exact h

/-- The trees that calls of `tree_insert` with fresh nodes produce, with the nodes inserted. -/
inductive Built (null : P) (comp : P → P → ℤ) : Links P → P → List P → Prop where
  | empty (s : Links P) : Built null comp s null []
  | insert {s s' : Links P} {tree tree' inn : P} {nodes : List P} {fuel : ℕ} :
      Built null comp s tree nodes → inn ≠ null → inn ∉ nodes →
      treeInsert null comp fuel s tree inn = some (s', tree') → Built null comp s' tree' (inn :: nodes)

structure SearchTree (null : P) (comp : P → P → ℤ) (s : Links P) (tree : P) (nodes : List P)
    (t : NodeTree P) : Prop where
  rep : TreeRep null s null t tree
  sorted : Sorted comp t.toList
  nodes : nodes.Perm t.toList
  nodup : t.toList.Nodup
  root : t.black = true
  balanced : ∃ h, t.RedBlack h

/-- An insertion into a search tree ends, with the new node at one place of the sequence. -/
theorem SearchTree.insert (hcomp : Ordered comp) {s : Links P} {tree inn : P} {nodes : List P}
    {t : NodeTree P} (h : SearchTree null comp s tree nodes t) (hinn : inn ≠ null)
    (hfresh : inn ∉ nodes) :
    ∃ s' tree' t', (∀ fuel, nodes.length < fuel →
        treeInsert null comp fuel s tree inn = some (s', tree')) ∧
      SearchTree null comp s' tree' (inn :: nodes) t' ∧
      ∃ l r, t.toList = l ++ r ∧ t'.toList = l ++ inn :: r := by
  have hfresh' : inn ∉ t.toList := fun hmem => hfresh (h.nodes.mem_iff.mpr hmem)
  have hlen : t.toList.length < nodes.length + 1 := by
    rw [h.nodes.length_eq]
    omega
  obtain ⟨s', tree', t', hrun, hrep, hroot, hsorted, ⟨l, r, hl, hr⟩, hbal, -⟩ :=
    treeInsert_rep hcomp h.rep h.nodup h.root h.sorted hinn hfresh' hlen
  have hperm : (inn :: nodes).Perm t'.toList := by
    rw [hr]
    refine List.Perm.trans ?_ List.perm_middle.symm
    rw [← hl]
    exact h.nodes.cons inn
  have hnodup : (inn :: nodes).Nodup := List.nodup_cons.mpr ⟨hfresh, h.nodes.nodup_iff.mpr h.nodup⟩
  obtain ⟨k, hk⟩ := h.balanced
  refine ⟨s', tree', t', fun fuel hfuel => treeInsert_mono hrun hfuel, ?_, l, r, hl, hr⟩
  exact ⟨hrep, hsorted, hperm, hperm.nodup_iff.mp hnodup, hroot, hbal k hk⟩

theorem Built.searchTree (hcomp : Ordered comp) {s : Links P} {tree : P} {nodes : List P}
    (h : Built null comp s tree nodes) : ∃ t, SearchTree null comp s tree nodes t := by
  induction h with
  | empty s =>
    exact ⟨.nil, rfl, List.Pairwise.nil, List.Perm.refl _, List.nodup_nil, rfl, 0, .nil⟩
  | @insert s s' tree tree' inn nodes fuel _ hinn hfresh hrun ih =>
    obtain ⟨t, ht⟩ := ih
    obtain ⟨s₁, tree₁, t', hall, hsearch, -⟩ := ht.insert hcomp hinn hfresh
    -- the call in the history and the call with a large bound have the same outcome
    have hmax := treeInsert_mono hrun (le_max_left fuel (nodes.length + 1))
    rw [hall _ (lt_of_lt_of_le (Nat.lt_succ_self _) (le_max_right _ _))] at hmax
    cases hmax
    exact ⟨t', hsearch⟩

/-- Every tree that insertions have built is a red-black search tree, and the insertion of a fresh
node ends and gives another one, with the node inserted at one place of the sequence. -/
theorem red_black_insertion (hcomp : Ordered comp) {s : Links P} {tree : P} {nodes : List P}
    (h : Built null comp s tree nodes) {inn : P} (hinn : inn ≠ null) (hfresh : inn ∉ nodes) :
    ∃ t s' tree' t', SearchTree null comp s tree nodes t ∧
      (∀ fuel, nodes.length < fuel → treeInsert null comp fuel s tree inn = some (s', tree')) ∧
      SearchTree null comp s' tree' (inn :: nodes) t' ∧
      ∃ l r, t.toList = l ++ r ∧ t'.toList = l ++ inn :: r := by
  obtain ⟨t, ht⟩ := h.searchTree hcomp
  obtain ⟨s', tree', t', hrun, hsearch, hsplit⟩ := ht.insert hcomp hinn hfresh
  exact ⟨t, s', tree', t', ht, hrun, hsearch, hsplit⟩

def numberOrder (x y : ℕ) : ℤ := if x > y then 1 else if x ≠ y then -1 else 0

theorem numberOrder_ordered : Ordered numberOrder := by
  constructor
  · intro a b
    unfold numberOrder
    split_ifs <;> omega
  · intro a b c
    unfold numberOrder
    split_ifs <;> omega

theorem red_black_insertion_ascending : ∃ s tree, Built 0 numberOrder s tree [2, 1] ∧
    ∃ t s' tree' t', SearchTree 0 numberOrder s tree [2, 1] t ∧
      (∀ fuel, 2 < fuel → treeInsert 0 numberOrder fuel s tree 3 = some (s', tree')) ∧
      SearchTree 0 numberOrder s' tree' [3, 2, 1] t' ∧
      ∃ l r, t.toList = l ++ r ∧ t'.toList = l ++ 3 :: r := by
  have h₀ : Built 0 numberOrder ⟨fun _ => 0, fun _ => 0, fun _ => 0, fun _ => 0⟩ 0 [] := .empty _
  obtain ⟨_, s₁, tree₁, _, _, hrun₁, _⟩ :=
    red_black_insertion numberOrder_ordered h₀ (show 1 ≠ 0 by decide) (by decide)
  have h₁ := h₀.insert (by decide) (by decide) (hrun₁ 1 (by decide))
  obtain ⟨_, s₂, tree₂, _, _, hrun₂, _⟩ :=
    red_black_insertion numberOrder_ordered h₁ (show 2 ≠ 0 by decide) (by decide)
  have h₂ := h₁.insert (by decide) (by decide) (hrun₂ 2 (by decide))
  exact ⟨s₂, tree₂, h₂, red_black_insertion numberOrder_ordered h₂ (by decide) (by decide)⟩

end RedBlackTree
