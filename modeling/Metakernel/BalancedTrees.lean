import Metakernel.LinkedTrees

/-!
# Balanced trees of colored nodes

The red-black invariant of a tree, and of the trees that a hole may be filled with.
-/
namespace LinkedTrees

variable {P : Type*}

inductive NodeTree.RedBlack : NodeTree P → ℕ → Prop where
  | nil : RedBlack .nil 0
  | red {l r : NodeTree P} {x : P} {h : ℕ} : RedBlack l h → RedBlack r h → l.black = true →
      r.black = true → RedBlack (.node false l x r) h
  | black {l r : NodeTree P} {x : P} {h : ℕ} : RedBlack l h → RedBlack r h →
      RedBlack (.node true l x r) (h + 1)

/-- The height of a node of the given color over subtrees of height `h`. -/
def blackHeight (b : Bool) (h : ℕ) : ℕ := if b then h + 1 else h

/-- The hole may be filled with a tree of height `h` whose root is black if `c` is true. -/
def HolePath.Fits : HolePath P → Bool → ℕ → Prop
  | .root, _, _ => True
  | .step up _ b _ other, c, h => other.RedBlack h ∧ (b = false → c = true ∧ other.black = true) ∧
      up.Fits b (blackHeight b h)

variable {t other a b c : NodeTree P} {path up : HolePath P} {side d : Bool} {x p g n : P} {h k : ℕ}

theorem redBlack_join {e : Bool} : (NodeTree.join side e t x other).RedBlack h ↔
    ∃ k, t.RedBlack k ∧ other.RedBlack k ∧ h = blackHeight e k ∧
      (e = false → t.black = true ∧ other.black = true) := by
  constructor
  · intro hrb
    cases e with
    | true => cases side with
      | true =>
        obtain ⟨⟩ | ⟨⟩ | ⟨ht, ho⟩ := hrb
        exact ⟨_, ht, ho, rfl, nofun⟩
      | false =>
        obtain ⟨⟩ | ⟨⟩ | ⟨ho, ht⟩ := hrb
        exact ⟨_, ht, ho, rfl, nofun⟩
    | false => cases side with
      | true =>
        obtain ⟨⟩ | ⟨ht, ho, hbt, hbo⟩ | ⟨⟩ := hrb
        exact ⟨_, ht, ho, rfl, fun _ => ⟨hbt, hbo⟩⟩
      | false =>
        obtain ⟨⟩ | ⟨ho, ht, hbo, hbt⟩ | ⟨⟩ := hrb
        exact ⟨_, ht, ho, rfl, fun _ => ⟨hbt, hbo⟩⟩
  · rintro ⟨k, ht, ho, rfl, hred⟩
    cases e with
    | true => cases side with
      | true => exact .black ht ho
      | false => exact .black ho ht
    | false =>
      obtain ⟨hbt, hbo⟩ := hred rfl
      cases side with
      | true => exact .red ht ho hbt hbo
      | false => exact .red ho ht hbo hbt

theorem HolePath.Fits.plug {path : HolePath P} : ∀ {t : NodeTree P} {h : ℕ}, t.RedBlack h →
    path.Fits t.black h → ∃ k, (path.plug t).RedBlack k := by
  induction path with
  | root => exact fun ht _ => ⟨_, ht⟩
  | step up side b x other ih =>
    rintro t h ht ⟨ho, hred, hup⟩
    refine ih (t := .join side b t x other) (redBlack_join.mpr ⟨h, ht, ho, rfl, hred⟩) ?_
    rw [NodeTree.black_join]
    exact hup

theorem HolePath.fits_of_plug {path : HolePath P} : ∀ {t : NodeTree P},
    (path.plug t).RedBlack k → ∃ h, t.RedBlack h ∧ path.Fits t.black h := by
  induction path with
  | root => exact fun ht => ⟨_, ht, trivial⟩
  | step up side b x other ih =>
    intro t ht
    obtain ⟨h, hjoin, hup⟩ := ih ht
    obtain ⟨j, htree, ho, rfl, hred⟩ := redBlack_join.mp hjoin
    rw [NodeTree.black_join] at hup
    exact ⟨j, htree, ho, hred, hup⟩

theorem HolePath.Fits.recolor {e e' : Bool} (hfits : (HolePath.step up side true x other).Fits e h) :
    (HolePath.step up side true x other).Fits e' h :=
  ⟨hfits.1, nofun, hfits.2.2⟩

theorem HolePath.Fits.of_red {e : Bool} (hfits : path.Fits false h) : path.Fits e h := by
  cases path with
  | root => trivial
  | step up side b x other =>
    cases b with
    | true => exact hfits.recolor
    | false => exact absurd (hfits.2.1 rfl).1 nofun

theorem redBlack_single (hn : t.RedBlack h) (hs : a.RedBlack h) (hu : c.RedBlack h)
    (hsb : a.black = true) (hub : c.black = true) :
    (NodeTree.join side true t p (.join side false a g c)).RedBlack (h + 1) := by
  refine redBlack_join.mpr ⟨h, hn, redBlack_join.mpr ⟨h, hs, hu, rfl, fun _ => ⟨hsb, hub⟩⟩, rfl, nofun⟩

theorem redBlack_double (hn : (NodeTree.join d false a n b).RedBlack h) (hs : t.RedBlack h)
    (hu : c.RedBlack h) (hsb : t.black = true) (hub : c.black = true) :
    (NodeTree.join side true (.join side false t p b) n (.join side false a g c)).RedBlack (h + 1) := by
  obtain ⟨j, ha, hb, hj, hblack⟩ := redBlack_join.mp hn
  obtain rfl : h = j := hj
  obtain ⟨hab, hbb⟩ := hblack rfl
  refine redBlack_join.mpr ⟨h, ?_, ?_, rfl, nofun⟩
  · exact redBlack_join.mpr ⟨h, hs, hb, rfl, fun _ => ⟨hsb, hbb⟩⟩
  · exact redBlack_join.mpr ⟨h, ha, hu, rfl, fun _ => ⟨hab, hub⟩⟩

theorem redBlack_transfer (hn : t.RedBlack h) (hs : a.RedBlack h) {ul ur : NodeTree P} {w : P}
    (hu : (NodeTree.node false ul w ur).RedBlack h) {e : Bool} :
    (NodeTree.join side e (.join d true t p a) g (.node true ul w ur)).RedBlack
      (blackHeight e (h + 1)) := by
  cases hu with
  | red hl hr _ _ =>
    refine redBlack_join.mpr ⟨h + 1, redBlack_join.mpr ⟨h, hn, hs, rfl, nofun⟩, .black hl hr, rfl, ?_⟩
    intro _
    rw [NodeTree.black_join]
    exact ⟨rfl, rfl⟩

theorem NodeTree.RedBlack.height_unique (ht : t.RedBlack h) : ∀ {k : ℕ}, t.RedBlack k → h = k := by
  induction ht with
  | nil =>
    rintro k ⟨⟩
    rfl
  | red _ _ _ _ ih _ =>
    rintro k (⟨⟩ | ⟨hl, _, _, _⟩ | ⟨⟩)
    exact ih hl
  | black _ _ ih _ =>
    rintro k (⟨⟩ | ⟨⟩ | ⟨hl, _⟩)
    rw [ih hl]

def HolePath.append : HolePath P → HolePath P → HolePath P
  | .root, rest => rest
  | .step up side b x other, rest => .step (up.append rest) side b x other

theorem HolePath.plug_append {rest : HolePath P} : ∀ {low : HolePath P} {t : NodeTree P},
    (low.append rest).plug t = rest.plug (low.plug t) := by
  intro low
  induction low with
  | root => exact fun {t} => rfl
  | step up side b x other ih => exact fun {t} => ih

theorem HolePath.append_assoc {low mid rest : HolePath P} :
    (low.append mid).append rest = low.append (mid.append rest) := by
  induction low with
  | root => rfl
  | step up side b x other ih => rw [append, append, append, ih]

theorem HolePath.before_append {low rest : HolePath P} :
    (low.append rest).before = rest.before ++ low.before := by
  induction low with
  | root => simp [HolePath.append, HolePath.before]
  | step up side b x other ih =>
    rw [HolePath.append, HolePath.before, HolePath.before, ih, List.append_assoc]

theorem HolePath.after_append {low rest : HolePath P} :
    (low.append rest).after = low.after ++ rest.after := by
  induction low with
  | root => simp [HolePath.append, HolePath.after]
  | step up side b x other ih =>
    rw [HolePath.append, HolePath.after, HolePath.after, ih, List.append_assoc]

theorem HolePath.topBlack_append {low : HolePath P} : ∀ {e : Bool},
    (low.append (.step up side d x other)).topBlack e = up.topBlack d := by
  induction low with
  | root => exact fun {e} => rfl
  | step up' side' d' x' other' ih => exact fun {e} => ih

theorem HolePath.unbalanced_of_red {l r : NodeTree P} (hblack : (up.plug (.node true l x r)).RedBlack k) :
    ¬ ((up.plug (.node false l x r)).black = true ∧ ∃ j, (up.plug (.node false l x r)).RedBlack j) := by
  rintro ⟨hroot, j, hred⟩
  obtain ⟨m, hm, hupm⟩ := HolePath.fits_of_plug hblack
  obtain ⟨n, hn, hupn⟩ := HolePath.fits_of_plug hred
  cases hm with
  | black hl _ =>
    cases hn with
    | red hl' _ _ _ =>
      have heq := hl.height_unique hl'
      cases up with
      | root => exact absurd hroot nofun
      | step up' side' d' x' other' =>
        have hother := hupm.1.height_unique hupn.1
        omega

/-- The path `path'` is `path` after the rotations and recolorings that make room for a hole with
one black node less. -/
inductive HolePath.Lowered : HolePath P → HolePath P → Prop where
  | root : Lowered .root .root
  | redBrother {up path' : HolePath P} {side : Bool} {p q : P} {inner outer : NodeTree P} :
      Lowered (.step (.step up side true q outer) side false p inner) path' →
      Lowered (.step up side true p (.join side false inner q outer)) path'
  | recolorRed {up : HolePath P} {side : Bool} {p q : P} {inner outer : NodeTree P} :
      inner.black = true → outer.black = true →
      Lowered (.step up side false p (.join side true inner q outer))
        (.step up side true p (.join side false inner q outer))
  | recolorBlack {up up' : HolePath P} {side : Bool} {p q : P} {inner outer : NodeTree P} :
      inner.black = true → outer.black = true → Lowered up up' →
      Lowered (.step up side true p (.join side true inner q outer))
        (.step up' side true p (.join side false inner q outer))
  | innerNephew {up : HolePath P} {side b : Bool} {p q m : P} {i₁ i₂ outer : NodeTree P} :
      outer.black = true →
      Lowered (.step up side b p (.join side true (.join side false i₁ m i₂) q outer))
        (.step (.step up side b m (.join side true i₂ q outer)) side true p i₁)
  | outerNephew {up : HolePath P} {side b : Bool} {p q w : P} {inner ol or : NodeTree P} :
      Lowered (.step up side b p (.join side true inner q (.node false ol w or)))
        (.step (.step up side b q (.node true ol w or)) side true p inner)

namespace HolePath.Lowered

variable {path' : HolePath P}

theorem before (hl : path.Lowered path') : path'.before = path.before := by
  induction hl with
  | root => rfl
  | @redBrother _ _ side _ _ _ _ _ ih =>
    rw [ih]
    cases side <;> simp [HolePath.before, NodeTree.join]
  | @recolorRed _ side => cases side <;> simp [HolePath.before, NodeTree.join]
  | @recolorBlack _ _ side _ _ _ _ _ _ _ ih => cases side <;> simp [HolePath.before, NodeTree.join, ih]
  | @innerNephew _ side => cases side <;> simp [HolePath.before, NodeTree.join]
  | @outerNephew _ side => cases side <;> simp [HolePath.before, NodeTree.join]

theorem after (hl : path.Lowered path') : path'.after = path.after := by
  induction hl with
  | root => rfl
  | @redBrother _ _ side _ _ _ _ _ ih =>
    rw [ih]
    cases side <;> simp [HolePath.after, NodeTree.join]
  | @recolorRed _ side => cases side <;> simp [HolePath.after, NodeTree.join]
  | @recolorBlack _ _ side _ _ _ _ _ _ _ ih => cases side <;> simp [HolePath.after, NodeTree.join, ih]
  | @innerNephew _ side => cases side <;> simp [HolePath.after, NodeTree.join]
  | @outerNephew _ side => cases side <;> simp [HolePath.after, NodeTree.join]

theorem topBlack {e : Bool} (hl : path.Lowered path') :
    path.topBlack e = true → path'.topBlack e = true := by
  induction hl generalizing e with
  | root => exact id
  | redBrother _ ih => exact fun htop => ih htop
  | @recolorRed up _ _ _ _ _ _ _ =>
    intro htop
    cases up with
    | root => rfl
    | step => exact htop
  | recolorBlack _ _ _ ih => exact fun htop => ih htop
  | innerNephew _ => exact fun htop => htop
  | outerNephew => exact fun htop => htop

/-- The hole takes a tree of either color with one black node less. -/
theorem fits {e : Bool} (hl : path.Lowered path') : ∀ {h : ℕ}, path.Fits true (h + 1) → path'.Fits e h := by
  induction hl generalizing e with
  | root => exact fun _ => trivial
  | redBrother _ ih =>
    rintro h ⟨ho, -, hup⟩
    obtain ⟨k, hin, hout, hk, hblack⟩ := redBlack_join.mp ho
    obtain rfl : h + 1 = k := hk
    refine ih ⟨hin, fun _ => ⟨rfl, (hblack rfl).1⟩, hout, nofun, hup⟩
  | @recolorRed up _ _ _ _ _ hi ho =>
    rintro h ⟨hother, -, hup⟩
    obtain ⟨k, hin, hout, hk, -⟩ := redBlack_join.mp hother
    obtain rfl : h = k := Nat.succ.inj hk
    refine ⟨redBlack_join.mpr ⟨h, hin, hout, rfl, fun _ => ⟨hi, ho⟩⟩, nofun, ?_⟩
    cases up with
    | root => trivial
    | step up d b x o => exact ⟨hup.1, fun hb => ⟨rfl, (hup.2.1 hb).2⟩, hup.2.2⟩
  | recolorBlack hi ho _ ih =>
    rintro h ⟨hother, -, hup⟩
    obtain ⟨k, hin, hout, hk, -⟩ := redBlack_join.mp hother
    obtain rfl : h = k := Nat.succ.inj hk
    exact ⟨redBlack_join.mpr ⟨h, hin, hout, rfl, fun _ => ⟨hi, ho⟩⟩, nofun, ih hup⟩
  | innerNephew ho =>
    rintro h ⟨hother, -, hup⟩
    obtain ⟨k, hin, hout, hk, -⟩ := redBlack_join.mp hother
    obtain rfl : h = k := Nat.succ.inj hk
    obtain ⟨j, hi₁, hi₂, hj, -⟩ := redBlack_join.mp hin
    obtain rfl : h = j := hj
    refine ⟨hi₁, nofun, redBlack_join.mpr ⟨h, hi₂, hout, rfl, nofun⟩, fun _ => ⟨rfl, ?_⟩, hup⟩
    exact NodeTree.black_join _ _ _ _ _
  | outerNephew =>
    rintro h ⟨hother, -, hup⟩
    obtain ⟨k, hin, hout, hk, -⟩ := redBlack_join.mp hother
    obtain rfl : h = k := Nat.succ.inj hk
    cases hout with
    | red hl hr _ _ => exact ⟨hin, nofun, .black hl hr, fun _ => ⟨rfl, rfl⟩, hup⟩

/-- A node above the hole stays above it on the same side, and a black one stays black. The node
right above the hole is black in any case. -/
theorem frame (hl : path.Lowered path') :
    ∀ {low up : HolePath P} {side b : Bool} {other : NodeTree P},
      path = low.append (.step up side b x other) → b = true ∨ low = .root →
      ∃ (low' up' : HolePath P) (other' : NodeTree P),
        path' = low'.append (.step up' side true x other') := by
  induction hl with
  | root =>
    intro low up side b other heq
    cases low with
    | root => exact absurd heq nofun
    | step => exact absurd heq nofun
  | redBrother _ ih =>
    intro low up side b other heq hb
    cases low with
    | root =>
      -- the node itself is rotated below its child and is red for the moment
      cases heq
      exact @ih .root _ _ _ _ rfl (Or.inr rfl)
    | step low d c y o =>
      cases heq
      exact @ih (.step (.step low _ _ _ _) _ _ _ _) _ _ _ _ rfl (Or.inl (hb.resolve_right nofun))
  | recolorRed _ _ =>
    intro low up side b other heq hb
    cases low with
    | root =>
      cases heq
      exact ⟨.root, _, _, rfl⟩
    | step low d c y o =>
      cases heq
      rw [hb.resolve_right nofun]
      exact ⟨.step low _ _ _ _, _, _, rfl⟩
  | recolorBlack _ _ _ ih =>
    intro low up side b other heq hb
    cases low with
    | root =>
      cases heq
      exact ⟨.root, _, _, rfl⟩
    | step low d c y o =>
      cases heq
      obtain ⟨low', up', other', rfl⟩ := ih rfl (Or.inl (hb.resolve_right nofun))
      exact ⟨.step low' _ _ _ _, up', other', rfl⟩
  | innerNephew _ | outerNephew =>
    intro low up side b other heq hb
    cases low with
    | root =>
      cases heq
      exact ⟨.root, _, _, rfl⟩
    | step low d c y o =>
      cases heq
      rw [hb.resolve_right nofun]
      exact ⟨.step (.step low _ _ _ _) _ _ _ _, _, _, rfl⟩

end HolePath.Lowered

end LinkedTrees
