import Mathlib.Data.List.Nodup
import Mathlib.Logic.Function.Basic
import Mathlib.Tactic.Tauto

/-!
# Binary trees of linked nodes

Nodes have three links and a color word whose lowest bit says black. `TreeRep` relates the links
to a tree, and a path is the part of a tree around a hole, read from the hole to the root.
-/
namespace LinkedTrees

inductive NodeTree (P : Type*) where
  | nil
  | node (black : Bool) (l : NodeTree P) (x : P) (r : NodeTree P)

/-- The frames from a hole up to the root. `side` is true where the hole is on the left. -/
inductive HolePath (P : Type*) where
  | root
  | step (up : HolePath P) (side black : Bool) (x : P) (other : NodeTree P)

structure Links (P : Type*) where
  up : P → P
  left : P → P
  right : P → P
  color : P → ℕ

variable {P : Type*}

def NodeTree.toList : NodeTree P → List P
  | .nil => []
  | .node _ l x r => l.toList ++ x :: r.toList

def NodeTree.black : NodeTree P → Bool
  | .nil => true
  | .node b _ _ _ => b

def NodeTree.join (side black : Bool) (t : NodeTree P) (x : P) (other : NodeTree P) : NodeTree P :=
  if side then .node black t x other else .node black other x t

def HolePath.plug : HolePath P → NodeTree P → NodeTree P
  | .root, t => t
  | .step up side b x other, t => up.plug (.join side b t x other)

def HolePath.before : HolePath P → List P
  | .root => []
  | .step up side _ x other => up.before ++ if side then [] else other.toList ++ [x]

def HolePath.after : HolePath P → List P
  | .root => []
  | .step up side _ x other => (if side then x :: other.toList else []) ++ up.after

def HolePath.nodes (path : HolePath P) : List P := path.before ++ path.after

def HolePath.length : HolePath P → ℕ
  | .root => 0
  | .step up _ _ _ _ => up.length + 1

/-- The color of the root around a hole that is filled with a tree of color `b`. -/
def HolePath.topBlack : HolePath P → Bool → Bool
  | .root, b => b
  | .step up _ b _ _, _ => up.topBlack b

def HolePath.parent (null : P) : HolePath P → P
  | .root => null
  | .step _ _ _ x _ => x

/-- The root around a hole that is filled with a tree at `p`. -/
def HolePath.top : HolePath P → P → P
  | .root, p => p
  | .step up _ _ x _, _ => up.top x

@[simp] theorem NodeTree.toList_nil : (NodeTree.nil : NodeTree P).toList = [] := rfl

@[simp] theorem NodeTree.toList_node (b : Bool) (l r : NodeTree P) (x : P) :
    (NodeTree.node b l x r).toList = l.toList ++ x :: r.toList := rfl

theorem NodeTree.toList_join (side b : Bool) (t other : NodeTree P) (x : P) :
    (NodeTree.join side b t x other).toList =
      if side then t.toList ++ x :: other.toList else other.toList ++ x :: t.toList := by
  cases side <;> rfl

theorem NodeTree.mem_join {side b : Bool} {t other : NodeTree P} {x y : P} :
    y ∈ (NodeTree.join side b t x other).toList ↔ y ∈ t.toList ∨ y = x ∨ y ∈ other.toList := by
  cases side
  · simp only [NodeTree.join, Bool.false_eq_true, if_false, NodeTree.toList_node, List.mem_append,
      List.mem_cons]
    tauto
  · simp only [NodeTree.join, if_true, NodeTree.toList_node, List.mem_append, List.mem_cons]

theorem NodeTree.nodup_join {side b : Bool} {t other : NodeTree P} {x : P} :
    (NodeTree.join side b t x other).toList.Nodup ↔ t.toList.Nodup ∧ other.toList.Nodup ∧
      x ∉ t.toList ∧ x ∉ other.toList ∧ ∀ y ∈ t.toList, y ∉ other.toList := by
  cases side
  · simp only [NodeTree.join, Bool.false_eq_true, if_false, NodeTree.toList_node, List.nodup_cons,
      List.nodup_append]
    grind
  · simp only [NodeTree.join, if_true, NodeTree.toList_node, List.nodup_cons, List.nodup_append]
    grind

theorem NodeTree.toList_rotate (side gb pb gb' pb' : Bool) (a b c : NodeTree P) (p g : P) :
    (NodeTree.join side gb' a p (.join side pb' b g c)).toList =
      (NodeTree.join side gb (.join side pb a p b) g c).toList := by
  cases side <;> simp [NodeTree.join]

theorem NodeTree.exists_join (side b : Bool) (l r : NodeTree P) (x : P) :
    ∃ t other, NodeTree.node b l x r = NodeTree.join side b t x other := by
  cases side
  · exact ⟨r, l, rfl⟩
  · exact ⟨l, r, rfl⟩

theorem NodeTree.join_eq_node (side b : Bool) (t other : NodeTree P) (x : P) :
    ∃ l r, NodeTree.join side b t x other = NodeTree.node b l x r := by
  cases side
  · exact ⟨other, t, rfl⟩
  · exact ⟨t, other, rfl⟩

theorem NodeTree.join_not (side b : Bool) (t other : NodeTree P) (x : P) :
    NodeTree.join (!side) b t x other = NodeTree.join side b other x t := by
  cases side <;> rfl

@[simp] theorem NodeTree.black_join (side b : Bool) (t other : NodeTree P) (x : P) :
    (NodeTree.join side b t x other).black = b := by
  cases side <;> rfl

theorem HolePath.toList_plug : ∀ (path : HolePath P) (t : NodeTree P),
    (path.plug t).toList = path.before ++ t.toList ++ path.after
  | .root, t => by simp [HolePath.plug, HolePath.before, HolePath.after]
  | .step up side b x other, t => by
    rw [HolePath.plug, up.toList_plug, NodeTree.toList_join]
    cases side <;> simp [HolePath.before, HolePath.after]

theorem HolePath.black_plug : ∀ (path : HolePath P) (t : NodeTree P),
    (path.plug t).black = path.topBlack t.black
  | .root, t => rfl
  | .step up side b x other, t => by
    rw [HolePath.plug, up.black_plug, NodeTree.black_join, HolePath.topBlack]

theorem HolePath.topBlack_step {path : HolePath P} (h : path ≠ .root) (b c : Bool) :
    path.topBlack b = path.topBlack c := by
  cases path with
  | root => exact absurd rfl h
  | step => rfl

theorem HolePath.length_le : ∀ path : HolePath P, path.length ≤ path.nodes.length
  | .root => Nat.zero_le _
  | .step up side b x other => by
    have ih := up.length_le
    cases side <;> simp [HolePath.length, HolePath.nodes, HolePath.before, HolePath.after] at * <;> omega

theorem HolePath.mem_plug {path : HolePath P} {t : NodeTree P} {x : P} :
    x ∈ (path.plug t).toList ↔ x ∈ t.toList ∨ x ∈ path.nodes := by
  simp only [path.toList_plug, HolePath.nodes, List.mem_append]
  tauto

theorem HolePath.nodup_plug {path : HolePath P} {t : NodeTree P} : (path.plug t).toList.Nodup ↔
    t.toList.Nodup ∧ path.nodes.Nodup ∧ ∀ x ∈ t.toList, x ∉ path.nodes := by
  simp only [path.toList_plug, HolePath.nodes, List.nodup_append, List.mem_append]
  grind

theorem HolePath.mem_step {up : HolePath P} {side b : Bool} {x y : P} {other : NodeTree P} :
    y ∈ (HolePath.step up side b x other).nodes ↔ y = x ∨ y ∈ other.toList ∨ y ∈ up.nodes := by
  cases side <;> simp [HolePath.nodes, HolePath.before, HolePath.after] <;> tauto

theorem HolePath.nodup_step {up : HolePath P} {side b : Bool} {x : P} {other : NodeTree P} :
    (HolePath.step up side b x other).nodes.Nodup ↔ other.toList.Nodup ∧ up.nodes.Nodup ∧
      x ∉ other.toList ∧ x ∉ up.nodes ∧ ∀ y ∈ other.toList, y ∉ up.nodes := by
  cases side
  · simp only [HolePath.nodes, HolePath.before, HolePath.after, Bool.false_eq_true, if_false, List.nil_append,
      List.nodup_append, List.mem_append, List.mem_singleton, List.nodup_cons, List.not_mem_nil]
    grind
  · simp only [HolePath.nodes, HolePath.before, HolePath.after, if_true, List.append_nil, List.cons_append,
      List.nodup_append, List.mem_append, List.mem_cons, List.nodup_cons]
    grind

def Links.child (s : Links P) (side : Bool) (x : P) : P := if side then s.left x else s.right x

variable (null : P)

def TreeRep (s : Links P) : P → NodeTree P → P → Prop
  | _, .nil, p => p = null
  | u, .node b l x r, p => p = x ∧ x ≠ null ∧ s.up x = u ∧ (s.color x).testBit 0 = b ∧
      TreeRep s x l (s.left x) ∧ TreeRep s x r (s.right x)

def PathRep (s : Links P) : HolePath P → P → Prop
  | .root, _ => True
  | .step up side b x other, p => x ≠ null ∧ s.child side x = p ∧ s.up x = up.parent null ∧
      (s.color x).testBit 0 = b ∧ TreeRep null s x other (s.child (!side) x) ∧ PathRep s up x

variable {null}

theorem rep_join {s : Links P} {u p x : P} {side b : Bool} {t other : NodeTree P} :
    TreeRep null s u (.join side b t x other) p ↔ p = x ∧ x ≠ null ∧ s.up x = u ∧
      (s.color x).testBit 0 = b ∧ TreeRep null s x t (s.child side x) ∧
      TreeRep null s x other (s.child (!side) x) := by
  cases side
  · simp only [NodeTree.join, Links.child, TreeRep, Bool.false_eq_true, if_false, Bool.not_false, if_true,
      and_comm (a := TreeRep null s x other _)]
  · simp [NodeTree.join, Links.child, TreeRep]

theorem rep_plug {s : Links P} : ∀ {path : HolePath P} {t : NodeTree P} {p : P},
    TreeRep null s (path.parent null) t p ∧ PathRep null s path p →
      TreeRep null s null (path.plug t) (path.top p)
  | .root, t, p, h => h.1
  | .step up side b x other, t, p, ⟨h₁, h₂, h₃, h₄, h₅, h₆, h₇⟩ => by
    have hjoin : TreeRep null s (up.parent null) (.join side b t x other) x :=
      rep_join.mpr ⟨rfl, h₂, h₄, h₅, by rw [h₃]; exact h₁, h₆⟩
    have hup : TreeRep null s null (up.plug (.join side b t x other)) (up.top x) :=
      rep_plug ⟨hjoin, h₇⟩
    exact hup

structure SameAt (s s' : Links P) (x : P) : Prop where
  up : s'.up x = s.up x
  left : s'.left x = s.left x
  right : s'.right x = s.right x
  color : (s'.color x).testBit 0 = (s.color x).testBit 0

theorem sameAt_of_child {s s' : Links P} (side : Bool) {x : P} (hu : s'.up x = s.up x)
    (hn : s'.child side x = s.child side x) (hf : s'.child (!side) x = s.child (!side) x)
    (hc : (s'.color x).testBit 0 = (s.color x).testBit 0) : SameAt s s' x := by
  cases side
  · exact ⟨hu, hf, hn, hc⟩
  · exact ⟨hu, hn, hf, hc⟩

theorem SameAt.trans {s s' s'' : Links P} {x : P} (h₁ : SameAt s s' x) (h₂ : SameAt s' s'' x) :
    SameAt s s'' x :=
  ⟨h₂.up.trans h₁.up, h₂.left.trans h₁.left, h₂.right.trans h₁.right, h₂.color.trans h₁.color⟩

theorem SameAt.child {s s' : Links P} {x : P} (h : SameAt s s' x) (side : Bool) :
    s'.child side x = s.child side x := by
  cases side
  · exact h.right
  · exact h.left

theorem TreeRep.congr {s s' : Links P} : ∀ {t : NodeTree P} {u p : P}, TreeRep null s u t p →
    (∀ x ∈ t.toList, SameAt s s' x) → TreeRep null s' u t p
  | .nil, _, _, h, _ => h
  | .node b l x r, u, p, ⟨hp, hx, hu, hc, hl, hr⟩, hs => by
    have hxs := hs x (by simp)
    refine ⟨hp, hx, hxs.up.trans hu, hxs.color.trans hc, ?_, ?_⟩
    · rw [hxs.left]
      exact hl.congr fun y hy => hs y (by simp [hy])
    · rw [hxs.right]
      exact hr.congr fun y hy => hs y (by simp [hy])

theorem TreeRep.head_mem {s : Links P} {t : NodeTree P} {u p : P} (h : TreeRep null s u t p) (hp : p ≠ null) :
    p ∈ t.toList := by
  cases t with
  | nil => exact absurd h hp
  | node b l x r =>
    rw [h.1]
    simp

theorem TreeRep.reparent {s s' : Links P} {t : NodeTree P} {u v p : P} (h : TreeRep null s u t p)
    (hp : p ≠ null → s'.up p = v ∧ s'.left p = s.left p ∧ s'.right p = s.right p ∧
      (s'.color p).testBit 0 = (s.color p).testBit 0)
    (hs : ∀ x ∈ t.toList, x ≠ p → SameAt s s' x) (hnd : t.toList.Nodup) : TreeRep null s' v t p := by
  cases t with
  | nil => exact h
  | node b l x r =>
    obtain ⟨rfl, hx, _, hc, hl, hr⟩ := h
    obtain ⟨hv, h₁, h₂, h₃⟩ := hp hx
    simp only [NodeTree.toList_node, List.nodup_middle, List.nodup_cons, List.mem_append] at hnd
    refine ⟨rfl, hx, hv, h₃.trans hc, ?_, ?_⟩
    · rw [h₁]
      exact hl.congr fun y hy => hs y (by simp [hy]) fun hh => hnd.1 (Or.inl (hh ▸ hy))
    · rw [h₂]
      exact hr.congr fun y hy => hs y (by simp [hy]) fun hh => hnd.1 (Or.inr (hh ▸ hy))

theorem PathRep.congr {s s' : Links P} : ∀ {path : HolePath P} {p : P}, PathRep null s path p →
    (∀ x ∈ path.nodes, SameAt s s' x) → PathRep null s' path p
  | .root, _, _, _ => trivial
  | .step up side b x other, p, ⟨hx, hp, hu, hc, ho, hup⟩, hs => by
    have hxs : SameAt s s' x := hs x (HolePath.mem_step.mpr (Or.inl rfl))
    refine ⟨hx, (hxs.child side).trans hp, hxs.up.trans hu, hxs.color.trans hc, ?_, ?_⟩
    · rw [hxs.child]
      exact ho.congr fun y hy => hs y (HolePath.mem_step.mpr (Or.inr (Or.inl hy)))
    · exact hup.congr fun y hy => hs y (HolePath.mem_step.mpr (Or.inr (Or.inr hy)))

theorem PathRep.refill {s s' : Links P} {up : HolePath P} {side b : Bool} {x p q : P}
    {other : NodeTree P} (h : PathRep null s (.step up side b x other) p)
    (hnd : (HolePath.step up side b x other).nodes.Nodup) (hq : s'.child side x = q)
    (hfar : s'.child (!side) x = s.child (!side) x) (hu : s'.up x = s.up x)
    (hc : (s'.color x).testBit 0 = (s.color x).testBit 0)
    (hs : ∀ y ∈ (HolePath.step up side b x other).nodes, y ≠ x → SameAt s s' y) :
    PathRep null s' (.step up side b x other) q := by
  obtain ⟨hx, _, hup, hcol, ho, hrest⟩ := h
  obtain ⟨_, _, hxo, hxu, _⟩ := HolePath.nodup_step.mp hnd
  refine ⟨hx, hq, hu.trans hup, hc.trans hcol, ?_, ?_⟩
  · rw [hfar]
    refine ho.congr fun y hy => hs y (HolePath.mem_step.mpr (Or.inr (Or.inl hy))) ?_
    rintro rfl
    exact hxo hy
  · refine hrest.congr fun y hy => hs y (HolePath.mem_step.mpr (Or.inr (Or.inr hy))) ?_
    rintro rfl
    exact hxu hy

/-- The links form a tree without repetitions, with the subtree `t` at the node `p` in the hole of
the path. -/
structure Located (null : P) (s : Links P) (path : HolePath P) (t : NodeTree P) (p : P) : Prop where
  rep : TreeRep null s (path.parent null) t p
  around : PathRep null s path p
  nodup : (path.plug t).toList.Nodup

namespace Located

variable {s s' : Links P} {path up : HolePath P} {t t' other : NodeTree P} {side b : Bool} {p q x : P}

theorem ascend (h : Located null s (.step up side b x other) t p) :
    Located null s up (.join side b t x other) x := by
  obtain ⟨hx, hchild, hu, hc, ho, hrest⟩ := h.around
  exact ⟨rep_join.mpr ⟨rfl, hx, hu, hc, by rw [hchild]; exact h.rep, ho⟩, hrest, h.nodup⟩

theorem descend (h : Located null s up (.join side b t x other) p) :
    Located null s (.step up side b x other) t (s.child side x) := by
  obtain ⟨rfl, hx, hu, hc, ht, ho⟩ := rep_join.mp h.rep
  exact ⟨ht, ⟨hx, rfl, hu, hc, ho, h.around⟩, h.nodup⟩

theorem swap (h : Located null s (.step up side b x other) t p) :
    Located null s (.step up (!side) b x t) other (s.child (!side) x) := by
  have hup := h.ascend
  rw [← NodeTree.join_not] at hup
  exact hup.descend

theorem child (h : Located null s (.step up side b x other) t p) : s.child side x = p :=
  h.around.2.1

theorem head_mem (h : Located null s path t p) (hp : p ≠ null) : p ∈ t.toList := h.rep.head_mem hp

theorem nodup_inside (h : Located null s path t p) : t.toList.Nodup := (HolePath.nodup_plug.mp h.nodup).1

theorem nodup_around (h : Located null s path t p) : path.nodes.Nodup :=
  (HolePath.nodup_plug.mp h.nodup).2.1

theorem disjoint (h : Located null s path t p) : ∀ y ∈ t.toList, y ∉ path.nodes :=
  (HolePath.nodup_plug.mp h.nodup).2.2

theorem far_ne (h : Located null s (.step up side b x other) t p) (hp : p ≠ null) :
    s.child (!side) x ≠ p := by
  intro heq
  have hmem : p ∈ other.toList := by
    rw [← heq]
    refine h.swap.head_mem ?_
    rw [heq]
    exact hp
  exact h.disjoint p (h.head_mem hp) (HolePath.mem_step.mpr (Or.inr (Or.inl hmem)))

theorem eq_left [DecidableEq P] (h : Located null s (.step up side b x other) t p) (hp : p ≠ null) :
    decide (p = s.left x) = side := by
  have hne := h.far_ne hp
  have heq := h.child
  cases side with
  | true => exact decide_eq_true heq.symm
  | false => exact decide_eq_false (Ne.symm hne)

/-- The subtree is replaced by another one with the same nodes in the same order. -/
theorem refill (h : Located null s (.step up side b x other) t p)
    (hrep : TreeRep null s' x t' q) (hlist : t'.toList = t.toList) (hq : s'.child side x = q)
    (hfar : s'.child (!side) x = s.child (!side) x) (hu : s'.up x = s.up x)
    (hc : (s'.color x).testBit 0 = (s.color x).testBit 0)
    (hs : ∀ y ∈ (HolePath.step up side b x other).nodes, y ≠ x → SameAt s s' y) :
    Located null s' (.step up side b x other) t' q := by
  refine ⟨hrep, h.around.refill h.nodup_around hq hfar hu hc hs, ?_⟩
  rw [HolePath.nodup_plug, hlist]
  exact HolePath.nodup_plug.mp h.nodup

end Located

end LinkedTrees
