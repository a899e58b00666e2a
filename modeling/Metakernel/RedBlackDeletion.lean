import Metakernel.RedBlackInsertion

/-!
# Deletion from a red-black tree

The fixer works on the tree that still holds the target, and the path from the replacement to the
root says what it has done. In an ordered tree the search ends at the root or nowhere.
-/
namespace RedBlackTree

open LinkedTrees

variable {P : Type*} [DecidableEq P] {null : P} {comp : P → P → ℤ}

section Places

variable {s s' : Links P} {path up : HolePath P} {t l r inner outer a b c other : NodeTree P}
  {side d e gb pb qb : Bool} {n x y p q g u v : P}

section

omit [DecidableEq P]

theorem rep_head_eq (h : TreeRep null s u t p) (h' : TreeRep null s' v t q) : p = q := by
  cases t with
  | nil =>
    have hp : p = null := h
    have hq : q = null := h'
    rw [hp, hq]
  | node => rw [h.1, h'.1]

theorem rep_up (h : TreeRep null s u t p) (hp : p ≠ null) : s.up p = u := by
  cases t with
  | nil => exact absurd h hp
  | node =>
    obtain ⟨rfl, -, hu, -⟩ := h
    exact hu

theorem rep_ne_null : ∀ {t : NodeTree P} {u p : P}, TreeRep null s u t p → ∀ {y}, y ∈ t.toList →
    y ≠ null := by
  intro t
  induction t with
  | nil => exact fun _ _ hy => absurd hy nofun
  | node d l x r ihl ihr =>
    rintro u p ⟨-, hx, -, -, hl, hr⟩ y hy
    simp only [NodeTree.toList_node, List.mem_append, List.mem_cons] at hy
    rcases hy with hy | rfl | hy
    · exact ihl hl hy
    · exact hx
    · exact ihr hr hy

theorem rep_unique : ∀ {t t' : NodeTree P} {u p : P}, TreeRep null s u t p → TreeRep null s u t' p →
    t = t' := by
  intro t
  induction t with
  | nil =>
    intro t' u p h h'
    cases t' with
    | nil => rfl
    | node => exact absurd (h'.1.symm.trans h) h'.2.1
  | node d l x r ihl ihr =>
    rintro t' u p ⟨rfl, hx, -, hc, hl, hr⟩ h'
    cases t' with
    | nil => exact absurd h' hx
    | node d' l' x' r' =>
      obtain ⟨rfl, -, -, hc', hl', hr'⟩ := h'
      rw [ihl hl hl', ihr hr hr', ← hc, hc']

theorem toList_recolor (side d e : Bool) (l r : NodeTree P) (x : P) :
    (NodeTree.join side d l x r).toList = (NodeTree.join side e l x r).toList := by
  cases side <;> rfl

end

theorem setColor_same {k : ℕ} (h : y ≠ x) : SameAt s (setColor s x k) y := by
  constructor <;> simp [setColor, h]

theorem located_recolor {k : ℕ} (h : Located null s path (.join side d l x r) x)
    (hk : k.testBit 0 = e) : Located null (setColor s x k) path (.join side e l x r) x := by
  obtain ⟨-, hx, hu, -, hl, hr⟩ := rep_join.mp h.rep
  obtain ⟨-, -, hxl, hxr, -⟩ := NodeTree.nodup_join.mp h.nodup_inside
  refine ⟨rep_join.mpr ⟨rfl, hx, hu, ?_, ?_, ?_⟩, ?_, ?_⟩
  · simpa [setColor] using hk
  · refine hl.congr fun y hy => setColor_same ?_
    rintro rfl
    exact hxl hy
  · refine hr.congr fun y hy => setColor_same ?_
    rintro rfl
    exact hxr hy
  · refine h.around.congr fun y hy => setColor_same ?_
    rintro rfl
    exact h.disjoint y (NodeTree.mem_join.mpr (Or.inr (Or.inl rfl))) hy
  · rw [HolePath.nodup_plug, toList_recolor side e d]
    exact HolePath.nodup_plug.mp h.nodup

theorem located_rotate (h : Located null s (.step up d e y other)
      (.join side gb (.join side pb a p b) g c) g) :
    Located null (setChild d (sRotate null side s g).1 y p) (.step up d e y other)
      (.join side gb a p (.join side pb b g c)) p := by
  obtain ⟨-, hrep, hsame⟩ := sRotate_rep h.rep h.nodup_inside
  set s₁ := (sRotate null side s g).1
  have hout : ∀ z ∈ (HolePath.step up d e y other).nodes, SameAt s s₁ z :=
    fun z hz => hsame z fun hmem => h.disjoint z hmem hz
  have hymem : y ∈ (HolePath.step up d e y other).nodes := HolePath.mem_step.mpr (Or.inl rfl)
  have hlist := NodeTree.toList_rotate side gb pb gb pb a b c p g
  obtain ⟨hfar, hu, hcol⟩ := setChild_other d s₁ y p
  have hysame := hout y hymem
  refine h.refill ?_ hlist (setChild_child d s₁ y p) (hfar.trans (hysame.child _))
    (hu.trans hysame.up) ?_ ?_
  · refine hrep.congr fun z hz => setChild_same ?_
    rintro rfl
    rw [hlist] at hz
    exact h.disjoint z hz hymem
  · rw [hcol]
    exact hysame.color
  · exact fun z hz hzy => (hout z hz).trans (setChild_same hzy)

theorem located_rotate_root (h : Located null s .root (.join side gb (.join side pb a p b) g c) g) :
    Located null (sRotate null side s g).1 .root (.join side gb a p (.join side pb b g c)) p := by
  obtain ⟨-, hrep, -⟩ := sRotate_rep h.rep h.nodup_inside
  refine ⟨hrep, trivial, ?_⟩
  rw [HolePath.nodup_plug, NodeTree.toList_rotate side gb pb gb pb]
  exact HolePath.nodup_plug.mp h.nodup

theorem brotherNode_eq (h : Located null s (.step up side d p other) t n) (hn : n ≠ null) :
    brotherNode s n = s.child (!side) p := by
  have hup : s.up n = p := rep_up h.rep hn
  have hleft := h.eq_left hn
  cases side with
  | true =>
    rw [decide_eq_true_eq] at hleft
    simp [brotherNode, hup, ← hleft, Links.child]
  | false =>
    rw [decide_eq_false_iff_not] at hleft
    simp [brotherNode, hup, hleft, Links.child]

omit [DecidableEq P] in
theorem brother_facts (h : Located null s (.step up side d p (.join side qb inner q outer)) t n) :
    s.child (!side) p = q ∧ q ≠ null ∧ s.up q = p ∧ (s.color q).testBit 0 = qb ∧
      TreeRep null s q inner (s.child side q) ∧ TreeRep null s q outer (s.child (!side) q) :=
  rep_join.mp h.swap.rep

theorem brother_left (h : Located null s (.step up side d p (.join side qb inner q outer)) t n) :
    q = s.left p ↔ side = false := by
  obtain ⟨hq, hqn, -⟩ := brother_facts h
  have hleft := h.swap.eq_left (by rw [hq]; exact hqn)
  rw [hq] at hleft
  cases side with
  | true => simpa using hleft
  | false => simpa using hleft

theorem childColor_ne_zero (h : TreeRep null s u t x) : childColor null s x ≠ 0 ↔ t.black = true := by
  cases t with
  | nil =>
    have hx : x = null := h
    simp [childColor, hx, BLACK, NodeTree.black]
  | node d l y r =>
    obtain ⟨rfl, hx, -, hc, -⟩ := h
    rw [childColor, if_neg hx, and_color_ne_zero, hc]
    rfl

theorem innerRed_iff (h : Located null s (.step up side d p (.join side qb inner q outer)) t n) :
    innerRed null s q ↔ outer.black = true ∧ inner.black = false := by
  obtain ⟨-, -, hup, -, hin, hout⟩ := brother_facts h
  have hleft := brother_left h
  have h₁ := childColor_ne_zero hin
  have h₂ := childColor_ne_zero hout
  rw [innerRed, hup]
  cases side with
  | true =>
    rw [if_neg (fun heq => absurd (hleft.mp heq) nofun)]
    have h₁' : childColor null s (s.left q) = 0 ↔ inner.black = false := by
      rw [← not_iff_not, Bool.not_eq_false]
      exact h₁
    exact and_congr h₂ h₁'
  | false =>
    rw [if_pos (hleft.mpr rfl)]
    have h₁' : childColor null s (s.right q) = 0 ↔ inner.black = false := by
      rw [← not_iff_not, Bool.not_eq_false]
      exact h₁
    exact and_congr h₂ h₁'

theorem nephews_black (h : Located null s (.step up side d p (.join side qb inner q outer)) t n) :
    (childColor null s (s.left q) ≠ 0 ∧ childColor null s (s.right q) ≠ 0) ↔
      inner.black = true ∧ outer.black = true := by
  obtain ⟨-, -, -, -, hin, hout⟩ := brother_facts h
  have h₁ := childColor_ne_zero hin
  have h₂ := childColor_ne_zero hout
  cases side with
  | true => exact and_congr h₁ h₂
  | false =>
    rw [and_comm]
    exact and_congr h₁ h₂

theorem rotateParent_located
    (h : Located null s (.step up side d p (.join side qb inner q outer)) t n) :
    Located null (rotateParent null s q).1 (.step (.step up side d q outer) side qb p inner) t n := by
  obtain ⟨hq, hqn, hqu, -, -, -⟩ := brother_facts h
  have htop : Located null s up (.join (!side) d (.join (!side) qb outer q inner) p t) p := by
    rw [NodeTree.join_not side d, NodeTree.join_not side qb]
    exact h.ascend
  have hrot : (if q = s.left p then sRightRotate null s p else sLeftRotate null s p) =
      sRotate null (!side) s p := by
    have hleft := brother_left h
    cases side with
    | true => rw [if_neg (fun heq => absurd (hleft.mp heq) nofun)]; rfl
    | false => rw [if_pos (hleft.mpr rfl)]; rfl
  obtain ⟨hnew, hrep, -⟩ := sRotate_rep htop.rep htop.nodup_inside
  have hnewup : (sRotate null (!side) s p).1.up q = up.parent null := rep_up hrep hqn
  have hdone : Located null (rotateParent null s q).1 up
      (.join (!side) d outer q (.join (!side) qb inner p t)) q := by
    cases up with
    | root =>
      have heq : (rotateParent null s q).1 = (sRotate null (!side) s p).1 := by
        have hnull : ¬ null ≠ (sRotate null (!side) s p).1.up q := by
          rw [hnewup]
          simp [HolePath.parent]
        simp only [rotateParent, hqu, hrot, hnew, if_neg hnull]
      rw [heq]
      exact located_rotate_root htop
    | step up' f e y o =>
      have hy : (sRotate null (!side) s p).1.up q = y := hnewup
      have hpn : p ≠ null := h.around.1
      have hpy : s.up p = y := rep_up htop.rep hpn
      have hdir : decide (p = s.left y) = f := htop.eq_left hpn
      have heq : (rotateParent null s q).1 =
          setChild f (sRotate null (!side) s p).1 y q := by
        have hnull : null ≠ y := Ne.symm htop.around.1
        simp only [rotateParent, hqu, hrot, hnew, hy, hpy, hdir, if_pos hnull]
        cases f <;> rfl
      rw [heq]
      exact located_rotate htop
  rw [NodeTree.join_not side d, NodeTree.join_not side qb] at hdone
  have hbelow := hdone.descend.descend
  rw [rep_head_eq hbelow.rep h.rep] at hbelow
  exact hbelow

/-- The rotation around the brother brings its inner child above it. -/
theorem rotateBrother_located
    (h : Located null s (.step up side d p (.join side gb (.join side pb a x b) q outer)) t n) :
    Located null (rotateBrother null s q)
      (.step up side d p (.join side gb a x (.join side pb b q outer))) t n := by
  obtain ⟨hq, hqn, hqu, -, -, -⟩ := brother_facts h
  have hbro := h.swap
  rw [hq] at hbro
  obtain ⟨hnew, hrep, -⟩ := sRotate_rep hbro.rep hbro.nodup_inside
  have hxn : x ≠ null := (rep_join.mp hrep).2.1
  have hxu : (sRotate null side s q).1.up x = p := rep_up hrep hxn
  have heq : rotateBrother null s q = setChild (!side) (sRotate null side s q).1 p x := by
    have hleft := brother_left h
    cases side with
    | true =>
      rw [rotateBrother, hqu, if_neg (fun heq => absurd (hleft.mp heq) nofun)]
      change setRight (sRotate null true s q).1 ((sRotate null true s q).1.up (sRotate null true s q).2)
        (sRotate null true s q).2 = _
      rw [hnew, hxu]
      rfl
    | false =>
      rw [rotateBrother, hqu, if_pos (hleft.mpr rfl)]
      change setLeft (sRotate null false s q).1 ((sRotate null false s q).1.up (sRotate null false s q).2)
        (sRotate null false s q).2 = _
      rw [hnew, hxu]
      rfl
  have hback := (located_rotate hbro).swap
  rw [← heq, Bool.not_not] at hback
  rw [rep_head_eq hback.rep h.rep] at hback
  exact hback

theorem located_recolor_brother {k : ℕ} {f : Bool}
    (h : Located null s (.step up side d p (.join f qb l q r)) t n) (hk : k.testBit 0 = e) :
    Located null (setColor s q k) (.step up side d p (.join f e l q r)) t n := by
  have hbro := h.swap
  rw [(rep_join.mp hbro.rep).1] at hbro
  have hback := (located_recolor hbro hk).swap
  rw [Bool.not_not] at hback
  rw [rep_head_eq hback.rep h.rep] at hback
  exact hback

theorem fixerLoop_round (fuel : ℕ)
    (h : Located null s (.step up side d p (.join side qb inner q outer)) t n)
    (hn : n ≠ null) (ht : t.black = true) :
    fixerLoop null (fuel + 1) s n =
      if qb = false then fixerLoop null fuel (rotateParent null s q).1 n
      else if inner.black = true ∧ outer.black = true then
        fixerLoop null fuel (setColor s q (s.color q &&& notColor)) p
      else if outer.black = true ∧ inner.black = false then
        fixerLoop null fuel (rotateBrother null s q) n
      else
        let s₁ := (rotateParent null s q).1
        let w := brotherNode s₁ (s₁.up n)
        some (setColor s₁ w (s₁.color w ||| BLACK)) := by
  obtain ⟨hq, -, -, hqc, -, -⟩ := brother_facts h
  have hup : s.up n = p := rep_up h.rep hn
  have hnc : ¬ s.color n &&& COLOR = 0 := by
    have hcol := childColor_ne_zero h.rep
    rw [childColor, if_neg hn] at hcol
    exact hcol.mpr ht
  have hbro : brotherNode s n = q := (brotherNode_eq h hn).trans hq
  have hqcond : s.color q &&& COLOR = 0 ↔ qb = false := by
    rw [← not_iff_not, Bool.not_eq_false, ← hqc]
    exact and_color_ne_zero _
  rw [fixerLoop, hup, if_pos h.around.1, if_neg hnc, hbro]
  simp only [hqcond, nephews_black h, innerRed_iff h]

variable {i₁ i₂ ol or : NodeTree P} {m w : P} {k : ℕ}

theorem fixerLoop_outer {f : Bool} (fuel : ℕ)
    (h : Located null s (.step up side d p (.join side true inner q (.join f false ol w or))) t n)
    (hn : n ≠ null) (ht : t.black = true) :
    ∃ s', fixerLoop null (fuel + 1) s n = some s' ∧
      Located null s' (.step (.step up side d q (.join f true ol w or)) side true p inner) t n := by
  have hrot := rotateParent_located h
  have hround := fixerLoop_round fuel h hn ht
  rw [if_neg nofun, if_neg (fun hb => by simp at hb), if_neg (fun hb => by simp at hb)] at hround
  refine ⟨_, hround, ?_⟩
  set s₁ := (rotateParent null s q).1
  have hpn : p ≠ null := h.around.1
  have hbro : brotherNode s₁ (s₁.up n) = w := by
    rw [rep_up hrot.rep hn, show (HolePath.step (.step up side d q (.join f false ol w or)) side true p
      inner).parent null = p from rfl, brotherNode_eq hrot.ascend hpn]
    exact (rep_join.mp hrot.ascend.swap.rep).1
  simp only [hbro]
  have hdone := (located_recolor_brother hrot.ascend (testBit_blackened (s₁.color w))).descend
  rw [rep_head_eq hdone.rep h.rep] at hdone
  exact hdone

theorem fixerLoop_inner (fuel : ℕ)
    (h : Located null s (.step up side d p (.join side true (.join side false i₁ m i₂) q outer)) t n)
    (hn : n ≠ null) (ht : t.black = true) (hout : outer.black = true) :
    ∃ s', fixerLoop null (fuel + 2) s n = some s' ∧
      Located null s' (.step (.step up side d m (.join side true i₂ q outer)) side true p i₁) t n := by
  obtain ⟨s', hrun, hdone⟩ := fixerLoop_outer fuel (rotateBrother_located h) hn ht
  refine ⟨s', ?_, hdone⟩
  rw [fixerLoop_round _ h hn ht, if_neg nofun, if_neg (fun hb => by simp at hb),
    if_pos ⟨hout, NodeTree.black_join _ _ _ _ _⟩]
  exact hrun

def Fixes (null : P) (fuel : ℕ) (s : Links P) (path : HolePath P) (t : NodeTree P) (n : P) : Prop :=
  ∃ s' path', fixerLoop null fuel s n = some s' ∧ path.Lowered path' ∧ Located null s' path' t n

theorem fixes_nephew (fuel : ℕ)
    (h : Located null s (.step up side d p (.join side true inner q outer)) t n) (hn : n ≠ null)
    (ht : t.black = true) (hred : ¬ (inner.black = true ∧ outer.black = true)) :
    Fixes null (fuel + 2) s (.step up side d p (.join side true inner q outer)) t n := by
  cases hout : outer.black with
  | false =>
    cases outer with
    | nil => exact absurd hout nofun
    | node e ol w or =>
      obtain rfl : e = false := hout
      obtain ⟨s', hrun, hdone⟩ := fixerLoop_outer (f := true) (fuel + 1) h hn ht
      exact ⟨s', _, hrun, .outerNephew, hdone⟩
  | true =>
    cases inner with
    | nil => exact absurd ⟨rfl, hout⟩ hred
    | node e il m ir =>
      obtain rfl : e = false := by
        by_contra he
        exact hred ⟨by simpa [NodeTree.black] using he, hout⟩
      obtain ⟨i₁, i₂, hj⟩ := NodeTree.exists_join side false il ir m
      rw [hj] at h ⊢
      obtain ⟨s', hrun, hdone⟩ := fixerLoop_inner fuel h hn ht hout
      exact ⟨s', _, hrun, .innerNephew hout, hdone⟩

omit [DecidableEq P] in
theorem exists_brother (h : other.RedBlack (k + 1)) (side : Bool) :
    ∃ e inner q outer, other = .join side e inner q outer := by
  cases other with
  | nil => cases h
  | node e l q r =>
    obtain ⟨inner, outer, hj⟩ := NodeTree.exists_join side e l r q
    exact ⟨e, inner, q, outer, hj⟩

theorem fixes_red (fuel : ℕ) (h : Located null s (.step up side false p other) t n) (hn : n ≠ null)
    (ht : t.black = true) (hup : up ≠ .root)
    (hfits : (HolePath.step up side false p other).Fits true (k + 1)) :
    Fixes null (fuel + 2) s (.step up side false p other) t n := by
  obtain ⟨hrb, hblack, -⟩ := hfits
  obtain ⟨e, inner, q, outer, rfl⟩ := exists_brother hrb side
  obtain rfl : e = true := by simpa using (hblack rfl).2
  by_cases hne : inner.black = true ∧ outer.black = true
  · have hrec := located_recolor_brother h (testBit_cleared (s.color q))
    set s₁ := setColor s q (s.color q &&& notColor) with hs₁
    have hpn : p ≠ null := h.around.1
    have hpup : s₁.up p ≠ null := by
      rw [rep_up hrec.ascend.rep hpn]
      cases up with
      | root => exact absurd rfl hup
      | step => exact hrec.ascend.around.1
    have hpc : s₁.color p &&& COLOR = 0 := by
      by_contra hc
      rw [← ne_eq, and_color_ne_zero, hrec.around.2.2.2.1] at hc
      exact absurd hc nofun
    have hdone := (located_recolor hrec.ascend (testBit_blackened (s₁.color p))).descend
    rw [rep_head_eq hdone.rep h.rep] at hdone
    refine ⟨_, _, ?_, .recolorRed hne.1 hne.2, hdone⟩
    rw [fixerLoop_round _ h hn ht, if_neg nofun, if_pos hne, ← hs₁, fixerLoop, if_pos hpup, if_pos hpc]
  · exact fixes_nephew _ h hn ht hne

/-- The rounds go up along the path while the parent and the nephews are black. -/
theorem fixes_of_fits {path : HolePath P} : ∀ {t : NodeTree P} {n : P} {s : Links P} {k fuel : ℕ},
    Located null s path t n → n ≠ null → t.black = true → path.topBlack true = true →
    path.Fits true (k + 1) → path.length + 3 ≤ fuel → Fixes null fuel s path t n := by
  induction path with
  | root =>
    intro t n s k fuel h hn _ _ _ hfuel
    obtain ⟨fuel, rfl⟩ : ∃ f, fuel = f + 1 := ⟨fuel - 1, by omega⟩
    refine ⟨s, .root, ?_, .root, h⟩
    have hup : s.up n = null := rep_up h.rep hn
    rw [fixerLoop, if_neg (not_not.mpr hup)]
  | step up side d p other ih =>
    intro t n s k fuel h hn ht htop hfits hfuel
    simp only [HolePath.length] at hfuel
    cases d with
    | false =>
      obtain ⟨fuel, rfl⟩ : ∃ f, fuel = f + 2 := ⟨fuel - 2, by omega⟩
      refine fixes_red fuel h hn ht ?_ hfits
      rintro rfl
      exact absurd htop Bool.false_ne_true
    | true =>
      obtain ⟨fuel, rfl⟩ : ∃ f, fuel = f + 3 := ⟨fuel - 3, by omega⟩
      obtain ⟨hrb, -, hup⟩ := hfits
      obtain ⟨e, inner, q, outer, rfl⟩ := exists_brother hrb side
      obtain ⟨j, hin, hout, hj, hblack⟩ := redBlack_join.mp hrb
      cases e with
      | false =>
        obtain rfl : k + 1 = j := hj
        obtain ⟨s', path', hrun, hlow, hdone⟩ := fixes_red fuel (rotateParent_located h) hn ht (by simp)
          ⟨hin, fun _ => ⟨rfl, (hblack rfl).1⟩, hout, by simp, hup⟩
        refine ⟨s', path', ?_, .redBrother hlow, hdone⟩
        rw [fixerLoop_round _ h hn ht, if_pos rfl]
        exact hrun
      | true =>
        by_cases hne : inner.black = true ∧ outer.black = true
        · have hrec := located_recolor_brother h (testBit_cleared (s.color q))
          obtain ⟨s', up', hrun, hlow, hdone⟩ := ih hrec.ascend h.around.1
            (NodeTree.black_join _ _ _ _ _) htop hup (show up.length + 3 ≤ fuel + 2 by omega)
          have hbelow := hdone.descend
          rw [rep_head_eq hbelow.rep h.rep] at hbelow
          refine ⟨s', _, ?_, .recolorBlack hne.1 hne.2 hlow, hbelow⟩
          rw [fixerLoop_round _ h hn ht, if_neg (by simp), if_pos hne]
          exact hrun
        · exact fixes_nephew _ h hn ht hne

theorem replacementLoop_located : ∀ {t : NodeTree P} {path : HolePath P} {p : P} {fuel : ℕ},
    Located null s path t p → t ≠ .nil → t.toList.length < fuel →
    ∃ (low : HolePath P) (yb : Bool) (ly : NodeTree P) (y : P),
      replacementLoop null s false fuel p = some y ∧
      Located null s (low.append path) (.node yb ly y .nil) y ∧ low.after = [] ∧
      low.plug (.node yb ly y .nil) = t := by
  intro t
  induction t with
  | nil => exact fun _ hne => absurd rfl hne
  | node d l x r _ ih =>
    intro path p fuel h _ hfuel
    obtain ⟨rfl, hpn, -, -, -, hr⟩ := h.rep
    obtain ⟨fuel, rfl⟩ : ∃ f, fuel = f + 1 := ⟨fuel - 1, by omega⟩
    cases r with
    | nil =>
      have hnull : s.right p = null := hr
      refine ⟨.root, d, l, p, ?_, h, rfl, rfl⟩
      simp [replacementLoop, hnull]
    | node e rl z rr =>
      have hne : null ≠ s.right p := by
        rw [hr.1]
        exact Ne.symm hr.2.1
      have hjoin : Located null s path (.join false d (.node e rl z rr) p l) p := h
      have hlen : (NodeTree.node e rl z rr).toList.length < fuel := by
        simp only [NodeTree.toList_node, List.length_append, List.length_cons] at hfuel ⊢
        omega
      obtain ⟨low, yb, ly, y, hrun, hloc, hafter, hplug⟩ := ih hjoin.descend nofun hlen
      refine ⟨low.append (.step .root false d p l), yb, ly, y, ?_, ?_, ?_, ?_⟩
      · simp only [replacementLoop, Bool.false_eq_true, if_false, if_pos hne]
        exact hrun
      · rw [HolePath.append_assoc]
        exact hloc
      · rw [HolePath.after_append, hafter]
        rfl
      · rw [HolePath.plug_append, hplug]
        rfl

omit [DecidableEq P] in
theorem located_append : ∀ {low : HolePath P} {t : NodeTree P} {p : P},
    Located null s (low.append path) t p → ∃ q, Located null s path (low.plug t) q := by
  intro low
  induction low with
  | root => exact fun h => ⟨_, h⟩
  | step up side d x other ih => exact fun h => ih h.ascend

structure Vacated (null : P) (s : Links P) (up : HolePath P) (l : NodeTree P) (x : P) (r : NodeTree P)
    (y : P) : Prop where
  left : ∃ v, TreeRep null s v l (s.left x)
  right : TreeRep null s x r (s.right x)
  above : s.up x = up.parent null
  around : PathRep null s up x
  nodup : (up.plug (.node true l x r)).toList.Nodup
  fresh : y ∉ (up.plug (.node true l x r)).toList
  target : x ≠ null

omit [DecidableEq P] in
theorem nodup_without (h : (path.plug (.node e l y .nil)).toList.Nodup) :
    (path.plug l).toList.Nodup ∧ y ∉ (path.plug l).toList := by
  rw [HolePath.toList_plug, NodeTree.toList_node] at h
  rw [HolePath.toList_plug]
  have hperm : (path.before ++ (l.toList ++ [y]) ++ path.after).Perm
      (y :: (path.before ++ l.toList ++ path.after)) := by
    rw [← List.append_assoc, List.append_assoc]
    exact List.perm_middle
  have hnd := hperm.nodup_iff.mp h
  exact ⟨(List.nodup_cons.mp hnd).2, (List.nodup_cons.mp hnd).1⟩

/-- The replacement is taken out below its parent, its child moves up. -/
theorem located_drop (h : Located null s (.step up side d p other) (.node e l y .nil) y)
    (hchild : ∀ f z, s'.child f z = if f = side ∧ z = p then s.left y else s.child f z)
    (hup : ∀ z, s'.up z = if z = s.left y ∧ z ≠ null then p else s.up z)
    (hcol : s'.color = s.color) :
    Located null s' (.step up side d p other) l (s.left y) := by
  obtain ⟨-, hyn, -, -, hl, -⟩ := h.rep
  obtain ⟨hnd, hy⟩ := nodup_without h.nodup
  obtain ⟨hndl, -, hdis⟩ := HolePath.nodup_plug.mp hnd
  have hpath : ∀ z ∈ (HolePath.step up side d p other).nodes, ¬ (z = s.left y ∧ z ≠ null) := by
    rintro z hz ⟨rfl, hzn⟩
    exact hdis _ (hl.head_mem hzn) hz
  have hpl : p ∉ l.toList := fun hmem => hdis p hmem (HolePath.mem_step.mpr (Or.inl rfl))
  have hsame : ∀ z, z ≠ p → ¬ (z = s.left y ∧ z ≠ null) → SameAt s s' z := by
    intro z hzp hz
    refine sameAt_of_child side ?_ ?_ ?_ (by rw [hcol])
    · rw [hup, if_neg hz]
    · rw [hchild, if_neg (fun hh => hzp hh.2)]
    · rw [hchild, if_neg (fun hh => hzp hh.2)]
  refine ⟨?_, ?_, hnd⟩
  · refine hl.reparent ?_ ?_ hndl
    · intro hln
      have hlp : s.left y ≠ p := fun heq => hpl (heq ▸ hl.head_mem hln)
      have hleft := hchild true (s.left y)
      have hright := hchild false (s.left y)
      rw [if_neg (fun hh => hlp hh.2)] at hleft hright
      refine ⟨?_, hleft, hright, by rw [hcol]⟩
      rw [hup, if_pos ⟨rfl, hln⟩]
      rfl
    · intro z hz hzl
      exact hsame z (fun heq => hpl (heq ▸ hz)) fun hh => hzl hh.1
  · refine h.around.refill h.nodup_around ?_ ?_ ?_ (by rw [hcol]) ?_
    · rw [hchild, if_pos ⟨rfl, rfl⟩]
    · rw [hchild, if_neg (by simp)]
    · rw [hup, if_neg (hpath p (HolePath.mem_step.mpr (Or.inl rfl)))]
    · exact fun z hz hzp => hsame z hzp (hpath z hz)

omit [DecidableEq P] in
theorem mem_append_step {low : HolePath P} : x ∈ (low.append (.step up side d x r)).nodes := by
  induction low with
  | root => exact HolePath.mem_step.mpr (Or.inl rfl)
  | step up' side' d' x' other' ih => exact HolePath.mem_step.mpr (Or.inr (Or.inr ih))

theorem vacated_below {low : HolePath P} {f : Bool}
    (h : Located null s (.step (low.append (.step up true true x r)) false f p other)
      (.node e l y .nil) y) :
    Vacated null (removeReplacement null s x y false) up
        ((HolePath.step low false f p other).plug l) x r y ∧
      (removeReplacement null s x y false).color = s.color := by
  obtain ⟨-, hyn, hyu, -, -, -⟩ := h.rep
  have hup : s.up y = p := hyu
  have hpn : p ≠ null := h.around.1
  have hpx : p ≠ x := by
    rintro rfl
    exact (HolePath.nodup_step.mp h.nodup_around).2.2.2.1 mem_append_step
  obtain ⟨q, hq⟩ := located_append h.ascend
  have hleft : s.left x ≠ y := by
    intro heq
    have hrep := hq.rep
    rw [show q = s.left x from hq.child.symm, heq] at hrep
    exact hpx (hup.symm.trans (rep_up hrep hyn))
  have hright : s.right x ≠ y := by
    intro heq
    have hrep := hq.swap.rep
    rw [show s.child (!true) x = s.right x from rfl, heq] at hrep
    exact hpx (hup.symm.trans (rep_up hrep hyn))
  have heq : removeReplacement null s x y false =
      if null ≠ s.left y then setUp (setRight s p (s.left y)) (s.left y) p
      else setRight s p (s.left y) := by
    have hkeep : (setRight s p (s.left y)).up y = p := hup
    rw [removeReplacement, if_pos ⟨hleft, hright⟩, if_neg nofun, hup, if_pos (Ne.symm hpn)]
    simp only [hkeep]
    rfl
  set s' := removeReplacement null s x y false
  have hchild : ∀ g z, s'.child g z = if g = false ∧ z = p then s.left y else s.child g z := by
    intro g z
    rw [heq]
    split <;> cases g <;> simp [Links.child, setRight, setUp, Function.update_apply]
  have hups : ∀ z, s'.up z = if z = s.left y ∧ z ≠ null then p else s.up z := by
    intro z
    rw [heq]
    split
    · simp only [setRight, setUp, Function.update_apply]
      grind
    · simp only [setRight]
      grind
  have hcol : s'.color = s.color := by
    rw [heq]
    split <;> rfl
  have hdrop := located_drop h hchild hups hcol
  have hfresh := (nodup_without h.nodup).2
  obtain ⟨q', hq'⟩ := located_append hdrop.ascend
  refine ⟨⟨⟨x, ?_⟩, hq'.swap.rep, hq'.around.2.2.1, hq'.around.2.2.2.2.2, hq'.nodup, ?_, hq'.around.1⟩, hcol⟩
  · have hrep := hq'.rep
    rw [show q' = s'.left x from hq'.child.symm] at hrep
    exact hrep
  · rw [HolePath.plug, HolePath.plug_append] at hfresh
    exact hfresh

theorem vacated_child (h : Located null s (.step up true true x r) (.node e l y .nil) y) :
    Vacated null (removeReplacement null s x y false) up l x r y ∧
      (removeReplacement null s x y false).color = s.color := by
  obtain ⟨-, hyn, -, -, hl, -⟩ := h.rep
  obtain ⟨hxn, hchild, hxu, -, hr, hrest⟩ := h.around
  have hleft : s.left x = y := hchild
  have hright : s.right x ≠ y := h.far_ne hyn
  have heq : removeReplacement null s x y false = setLeft s x (s.left y) := by
    rw [removeReplacement, if_neg (fun hh => hh.1 hleft), if_neg hright]
  obtain ⟨hnd, hy⟩ := nodup_without h.nodup
  obtain ⟨-, -, hdis⟩ := HolePath.nodup_plug.mp hnd
  obtain ⟨-, -, hxr, hxup, -⟩ := HolePath.nodup_step.mp h.nodup_around
  have hsame : ∀ z, z ≠ x → SameAt s (setLeft s x (s.left y)) z := by
    intro z hz
    constructor <;> simp [setLeft, hz]
  rw [heq]
  refine ⟨⟨⟨y, ?_⟩, ?_, hxu, ?_, hnd, hy, hxn⟩, rfl⟩
  · rw [show (setLeft s x (s.left y)).left x = s.left y from Function.update_self ..]
    refine hl.congr fun z hz => hsame z ?_
    rintro rfl
    exact hdis z hz (HolePath.mem_step.mpr (Or.inl rfl))
  · refine hr.congr fun z hz => hsame z ?_
    rintro rfl
    exact hxr hz
  · refine hrest.congr fun z hz => hsame z ?_
    rintro rfl
    exact hxup hz

def giveParent (null : P) (s : Links P) (x y : P) : Links P := if null ≠ x then setUp s x y else s

theorem giveParent_up (z : P) :
    (giveParent null s x y).up z = if z = x ∧ z ≠ null then y else s.up z := by
  unfold giveParent
  split
  · simp only [setUp, Function.update_apply]
    grind
  · grind

theorem giveParent_child : (giveParent null s x y).left = s.left ∧
    (giveParent null s x y).right = s.right ∧ (giveParent null s x y).color = s.color := by
  unfold giveParent
  split <;> exact ⟨rfl, rfl, rfl⟩

def giveChild (null : P) (s : Links P) (u x y : P) : Links P :=
  if null ≠ u then if x = s.left u then setLeft s u y else setRight s u y else s

theorem giveChild_left (z : P) : (giveChild null s u x y).left z =
    if z = u ∧ z ≠ null ∧ x = s.left z then y else s.left z := by
  unfold giveChild
  by_cases hu : null ≠ u
  · rw [if_pos hu]
    by_cases hl : x = s.left u
    · rw [if_pos hl]
      simp only [setLeft, Function.update_apply]
      grind
    · rw [if_neg hl]
      simp only [setRight]
      grind
  · rw [if_neg hu]
    grind

theorem giveChild_right (z : P) : (giveChild null s u x y).right z =
    if z = u ∧ z ≠ null ∧ x ≠ s.left z then y else s.right z := by
  unfold giveChild
  by_cases hu : null ≠ u
  · rw [if_pos hu]
    by_cases hl : x = s.left u
    · rw [if_pos hl]
      simp only [setLeft]
      grind
    · rw [if_neg hl]
      simp only [setRight, Function.update_apply]
      grind
  · rw [if_neg hu]
    grind

theorem giveChild_up : (giveChild null s u x y).up = s.up ∧
    (giveChild null s u x y).color = s.color := by
  unfold giveChild
  split_ifs <;> exact ⟨rfl, rfl⟩

/-- The links after the replacement was installed in the place of the target `x`. -/
structure Installed (null : P) (s s' : Links P) (x y : P) : Prop where
  up : ∀ z, s'.up z = if z = y then s.up x
    else if (z = s.left x ∨ z = s.right x) ∧ z ≠ null then y else s.up z
  left : ∀ z, s'.left z = if z = y then s.left x
    else if z = s.up x ∧ z ≠ null ∧ x = s.left z then y else s.left z
  right : ∀ z, s'.right z = if z = y then s.right x
    else if z = s.up x ∧ z ≠ null ∧ x ≠ s.left z then y else s.right z
  color : s'.color = s.color

theorem installReplacement_installed (hxl : x ≠ s.left x) (hxr : x ≠ s.right x) (hxu : x ≠ s.up x)
    (hyl : y ≠ s.left x) (hyr : y ≠ s.right x) :
    Installed null s (installReplacement null s x y) x y := by
  set s₁ := giveParent null s (s.left x) y with hs₁
  obtain ⟨hl₁, hr₁, hc₁⟩ : s₁.left = s.left ∧ s₁.right = s.right ∧ s₁.color = s.color :=
    giveParent_child
  set s₂ := giveParent null s₁ (s.right x) y with hs₂
  obtain ⟨hl₂, hr₂, hc₂⟩ : s₂.left = s₁.left ∧ s₂.right = s₁.right ∧ s₂.color = s₁.color :=
    giveParent_child
  have hup₂ : ∀ z, s₂.up z = if (z = s.left x ∨ z = s.right x) ∧ z ≠ null then y else s.up z := by
    intro z
    rw [hs₂, giveParent_up, hs₁, giveParent_up]
    grind
  have hx₂ : s₂.up x = s.up x := by
    rw [hup₂, if_neg]
    rintro ⟨h | h, -⟩
    · exact hxl h
    · exact hxr h
  set s₃ := giveChild null s₂ (s.up x) x y with hs₃
  obtain ⟨hup₃, hc₃⟩ : s₃.up = s₂.up ∧ s₃.color = s₂.color := giveChild_up
  have hleft₃ : ∀ z, s₃.left z = if z = s.up x ∧ z ≠ null ∧ x = s.left z then y else s.left z := by
    intro z
    rw [hs₃, giveChild_left, hl₂, hl₁]
  have hright₃ : ∀ z, s₃.right z = if z = s.up x ∧ z ≠ null ∧ x ≠ s.left z then y else s.right z := by
    intro z
    rw [hs₃, giveChild_right, hl₂, hl₁, hr₂, hr₁]
  have hlx : s₃.left x = s.left x := by rw [hleft₃, if_neg (fun hh => hxu hh.1)]
  have hrx : s₃.right x = s.right x := by rw [hright₃, if_neg (fun hh => hxu hh.1)]
  have heq : installReplacement null s x y =
      setLeft (setRight (setUp s₃ y (s.up x)) y (s.right x)) y (s.left x) := by
    have h₁ : (if null ≠ s.left x then setUp s (s.left x) y else s) = s₁ := rfl
    have h₂ : (if null ≠ s₁.right x then setUp s₁ (s₁.right x) y else s₁) = s₂ := by
      rw [hr₁]
      rfl
    have h₃ : (if null ≠ s₂.up x then if x = s₂.left (s₂.up x) then setLeft s₂ (s₂.up x) y
        else setRight s₂ (s₂.up x) y else s₂) = s₃ := by
      rw [hx₂]
      rfl
    have h₄ : s₃.up x = s.up x := by rw [hup₃, hx₂]
    have hr : (setUp s₃ y (s.up x)).right x = s.right x := hrx
    have hl : (setRight (setUp s₃ y (s.up x)) y (s.right x)).left x = s.left x := hlx
    simp only [installReplacement, h₁, h₂, h₃, h₄, hr, if_pos (Ne.symm hyr), hl, if_pos (Ne.symm hyl)]
  rw [heq]
  constructor
  · intro z
    simp only [setLeft, setRight, setUp, Function.update_apply, hup₃, hup₂]
  · intro z
    simp only [setLeft, setRight, setUp, Function.update_apply, hleft₃]
  · intro z
    simp only [setLeft, setRight, setUp, Function.update_apply, hright₃]
  · exact (hc₃.trans hc₂).trans hc₁

omit [DecidableEq P] in
theorem parent_mem (hp : up.parent null ≠ null) : up.parent null ∈ up.nodes := by
  cases up with
  | root => exact absurd rfl hp
  | step up' side d x other => exact HolePath.mem_step.mpr (Or.inl rfl)

theorem install_located (h : Vacated null s up l x r y) (hyn : y ≠ null)
    (hc : (s.color y).testBit 0 = e) :
    Located null (installReplacement null s x y) up (.node e l y r) y := by
  obtain ⟨v, hl⟩ := h.left
  have hr := h.right
  have hu := h.above
  have hfresh := h.fresh
  obtain ⟨hndt, hndu, hdis⟩ := HolePath.nodup_plug.mp h.nodup
  obtain ⟨hndl, hndr, hxl, hxr, hlr⟩ := NodeTree.nodup_join.mp
    (show (NodeTree.join true true l x r).toList.Nodup from hndt)
  simp only [NodeTree.toList_node, List.mem_append, List.mem_cons] at hdis
  rw [HolePath.mem_plug, NodeTree.toList_node, List.mem_append, List.mem_cons] at hfresh
  simp only [not_or] at hfresh
  obtain ⟨⟨hyl, hyx, hyr⟩, hyu⟩ := hfresh
  -- a link of the target leads into the tree or nowhere
  have hmeml : ∀ {z}, z = s.left x → z ≠ null → z ∈ l.toList := fun hz hzn => by
    rw [hz] at hzn ⊢
    exact hl.head_mem hzn
  have hmemr : ∀ {z}, z = s.right x → z ≠ null → z ∈ r.toList := fun hz hzn => by
    rw [hz] at hzn ⊢
    exact hr.head_mem hzn
  have hmemu : ∀ {z}, z = s.up x → z ≠ null → z ∈ up.nodes := fun hz hzn => by
    rw [hz, hu] at hzn ⊢
    exact parent_mem hzn
  have hspec : Installed null s (installReplacement null s x y) x y :=
    installReplacement_installed (fun hz => hxl (hmeml hz h.target)) (fun hz => hxr (hmemr hz h.target))
      (fun hz => hdis x (Or.inr (Or.inl rfl)) (hmemu hz h.target)) (fun hz => hyl (hmeml hz hyn))
      (fun hz => hyr (hmemr hz hyn))
  set s' := installReplacement null s x y
  have hinside : ∀ z, z ≠ y → z ∉ up.nodes → s'.left z = s.left z ∧ s'.right z = s.right z := by
    intro z hzy hz
    rw [hspec.left, hspec.right, if_neg hzy, if_neg hzy, if_neg (fun hh => hz (hmemu hh.1 hh.2.1)),
      if_neg (fun hh => hz (hmemu hh.1 hh.2.1))]
    exact ⟨rfl, rfl⟩
  have hup : ∀ z, z ≠ y → ¬ (z = s.left x ∧ z ≠ null) → ¬ (z = s.right x ∧ z ≠ null) →
      s'.up z = s.up z := by
    intro z hzy hzl hzr
    rw [hspec.up, if_neg hzy, if_neg]
    rintro ⟨hz | hz, hzn⟩
    · exact hzl ⟨hz, hzn⟩
    · exact hzr ⟨hz, hzn⟩
  have hcol : ∀ z, (s'.color z).testBit 0 = (s.color z).testBit 0 := fun z => by rw [hspec.color]
  have hyup : ∀ {z}, z ∈ up.nodes → z ≠ y := fun hz heq => hyu (heq ▸ hz)
  refine ⟨⟨rfl, hyn, ?_, (hcol y).trans hc, ?_, ?_⟩, ?_, ?_⟩
  · rw [hspec.up, if_pos rfl, hu]
  · rw [hspec.left, if_pos rfl]
    refine hl.reparent ?_ ?_ hndl
    · intro hln
      have hmem := hmeml rfl hln
      have hly : s.left x ≠ y := fun heq => hyl (heq ▸ hmem)
      obtain ⟨h₁, h₂⟩ := hinside (s.left x) hly (hdis _ (Or.inl hmem))
      refine ⟨?_, h₁, h₂, hcol _⟩
      rw [hspec.up, if_neg hly, if_pos ⟨Or.inl rfl, hln⟩]
    · intro z hz hzl
      have hzy : z ≠ y := fun heq => hyl (heq ▸ hz)
      obtain ⟨h₁, h₂⟩ := hinside z hzy (hdis z (Or.inl hz))
      exact ⟨hup z hzy (fun hh => hzl hh.1) (fun hh => hlr z hz (hmemr hh.1 hh.2)), h₁, h₂, hcol z⟩
  · rw [hspec.right, if_pos rfl]
    refine hr.reparent ?_ ?_ hndr
    · intro hrn
      have hmem := hmemr rfl hrn
      have hry : s.right x ≠ y := fun heq => hyr (heq ▸ hmem)
      obtain ⟨h₁, h₂⟩ := hinside (s.right x) hry (hdis _ (Or.inr (Or.inr hmem)))
      refine ⟨?_, h₁, h₂, hcol _⟩
      rw [hspec.up, if_neg hry, if_pos ⟨Or.inr rfl, hrn⟩]
    · intro z hz hzr
      have hzy : z ≠ y := fun heq => hyr (heq ▸ hz)
      obtain ⟨h₁, h₂⟩ := hinside z hzy (hdis z (Or.inr (Or.inr hz)))
      exact ⟨hup z hzy (fun hh => hlr z (hmeml hh.1 hh.2) hz) (fun hh => hzr hh.1), h₁, h₂, hcol z⟩
  · have hkeep : ∀ z ∈ up.nodes, s'.up z = s.up z := fun z hz => hup z (hyup hz)
      (fun hh => hdis z (Or.inl (hmeml hh.1 hh.2)) hz)
      (fun hh => hdis z (Or.inr (Or.inr (hmemr hh.1 hh.2))) hz)
    cases up with
    | root => trivial
    | step up' d f w o =>
      have hwmem : w ∈ (HolePath.step up' d f w o).nodes := HolePath.mem_step.mpr (Or.inl rfl)
      have hwu : s.up x = w := hu
      have hwn : w ≠ null := h.around.1
      have hchild : s.child d w = x := h.around.2.1
      have hxleft : x = s.left w ↔ d = true := by
        cases d with
        | true => exact ⟨fun _ => rfl, fun _ => hchild.symm⟩
        | false =>
          refine ⟨fun heq => ?_, nofun⟩
          have ho : TreeRep null s w o (s.left w) := h.around.2.2.2.2.1
          have hxo : x ∈ o.toList := by
            have hmem := ho.head_mem (by rw [← heq]; exact h.target)
            rw [← heq] at hmem
            exact hmem
          exact absurd (HolePath.mem_step.mpr (Or.inr (Or.inl hxo))) (hdis x (Or.inr (Or.inl rfl)))
      refine h.around.refill hndu ?_ ?_ (hkeep w hwmem) (hcol w) ?_
      · cases d with
        | true =>
          change s'.left w = y
          rw [hspec.left, if_neg (hyup hwmem), if_pos ⟨hwu.symm, hwn, hxleft.mpr rfl⟩]
        | false =>
          change s'.right w = y
          rw [hspec.right, if_neg (hyup hwmem), if_pos ⟨hwu.symm, hwn, fun heq => nomatch hxleft.mp heq⟩]
      · cases d with
        | true =>
          change s'.right w = s.right w
          rw [hspec.right, if_neg (hyup hwmem), if_neg (fun hh => hh.2.2 (hxleft.mpr rfl))]
        | false =>
          change s'.left w = s.left w
          rw [hspec.left, if_neg (hyup hwmem), if_neg (fun hh => nomatch hxleft.mp hh.2.2)]
      · intro z hz hzw
        have hzu : z ≠ s.up x := by rw [hwu]; exact hzw
        refine ⟨hkeep z hz, ?_, ?_, hcol z⟩
        · rw [hspec.left, if_neg (hyup hz), if_neg (fun hh => hzu hh.1)]
        · rw [hspec.right, if_neg (hyup hz), if_neg (fun hh => hzu hh.1)]
  · rw [HolePath.nodup_plug]
    have hnode : (NodeTree.join true e l y r).toList.Nodup :=
      NodeTree.nodup_join.mpr ⟨hndl, hndr, hyl, hyr, hlr⟩
    refine ⟨hnode, hndu, ?_⟩
    intro z hz
    simp only [NodeTree.toList_node, List.mem_append, List.mem_cons] at hz
    rcases hz with hz | rfl | hz
    · exact hdis z (Or.inl hz)
    · exact hyu
    · exact hdis z (Or.inr (Or.inr hz))

/-- The replacement with the new color, taken out of its place and put in that of the target. -/
def splice (null : P) (flags : ℕ) (s : Links P) (target replacement : P) (direction : Bool) : Links P :=
  let s := setColor s replacement (s.color replacement &&& notColor)
  let s := setColor s replacement (s.color replacement ||| (flags &&& COLOR))
  installReplacement null (removeReplacement null s target replacement direction) target replacement

theorem located_flags (flags : ℕ) (h : Located null s path (.node e l y r) y) :
    Located null (setColor (setColor s y (s.color y &&& notColor)) y
      ((setColor s y (s.color y &&& notColor)).color y ||| (flags &&& COLOR))) path
      (.node (flags.testBit 0) l y r) y := by
  have h₁ : Located null s path (.join true e l y r) y := h
  have h₂ := located_recolor h₁ (testBit_cleared (s.color y))
  refine located_recolor h₂ ?_
  simp only [setColor, Function.update_self]
  exact testBit_copied _ _

theorem splice_located {low : HolePath P} (flags : ℕ)
    (h : Located null s (low.append (.step up true true x r)) (.node e l y .nil) y)
    (hafter : low.after = []) :
    Located null (splice null flags s x y false) up
      (.node (flags.testBit 0) (low.plug l) y r) y := by
  have hcol := located_flags flags h
  have hyn : y ≠ null := h.rep.2.1
  unfold splice
  set s₁ := setColor (setColor s y (s.color y &&& notColor)) y
      ((setColor s y (s.color y &&& notColor)).color y ||| (flags &&& COLOR)) with hs₁
  have hbit : (s₁.color y).testBit 0 = flags.testBit 0 := hcol.rep.2.2.2.1
  cases low with
  | root =>
    obtain ⟨hvac, hkeep⟩ := vacated_child hcol
    exact install_located hvac hyn (by rw [hkeep]; exact hbit)
  | step low side f p other =>
    cases side with
    | true => exact absurd hafter (by simp [HolePath.after])
    | false =>
      obtain ⟨hvac, hkeep⟩ := vacated_below hcol
      exact install_located hvac hyn (by rw [hkeep]; exact hbit)

theorem splice_leaf (flags : ℕ) (h : Located null s .root (.node true .nil x (.node false .nil y .nil)) x) :
    Located null (splice null flags s x y true) .root (.node (flags.testBit 0) .nil y .nil) y := by
  have hjoin : Located null s .root (.join false true (.node false .nil y .nil) x .nil) x := h
  have hyloc := hjoin.descend
  obtain ⟨hright, hyn, -, -, -, hyr⟩ := hyloc.rep
  rw [hright] at hyloc
  have hcol := located_flags flags hyloc
  unfold splice
  set s₁ := setColor (setColor s y (s.color y &&& notColor)) y
      ((setColor s y (s.color y &&& notColor)).color y ||| (flags &&& COLOR)) with hs₁
  obtain ⟨hxn, hchild, hxu, -, hleft, -⟩ := hcol.around
  have hl : s₁.left x = null := hleft
  have hr : s₁.right x = y := hchild
  have hy : s₁.right y = null := hyr
  have hyx : y ≠ x := by
    have hnd := hcol.nodup
    simp [HolePath.plug, NodeTree.join] at hnd
    exact Ne.symm hnd
  have heq : removeReplacement null s₁ x y true = setRight s₁ x null := by
    rw [removeReplacement, if_neg (fun hh => hh.2 hr), if_pos hr, hy]
  refine install_located ⟨⟨x, ?_⟩, ?_, ?_, trivial, ?_, ?_, hxn⟩ hyn ?_
  · rw [heq]
    exact hl
  · rw [heq]
    exact Function.update_self ..
  · rw [heq]
    exact hxu
  · simp [HolePath.plug]
  · simpa [HolePath.plug] using hyx
  · rw [heq]
    exact hcol.rep.2.2.2.1

end Places

structure Compares (comp : P → P → ℤ) : Prop extends Ordered comp where
  values : ∀ a b, comp a b = -1 ∨ comp a b = 0 ∨ comp a b = 1

section Deletion

variable {s : Links P} {tree inn : P} {nodes : List P} {t : NodeTree P}

/-- Among nodes that all compare to `inn` in one way, not as equals, the search falls off the tree. -/
theorem targetLoop_misses {c : ℤ} (hc : c ≠ 0) : ∀ {t : NodeTree P} {u p : P} {fuel : ℕ},
    TreeRep null s u t p → (∀ y ∈ t.toList, comp y inn = c) → t.toList.length < fuel →
    targetLoop null comp s inn fuel p = some null := by
  intro t
  induction t with
  | nil =>
    intro u p fuel h _ hfuel
    obtain ⟨fuel, rfl⟩ : ∃ f, fuel = f + 1 := ⟨fuel - 1, by omega⟩
    have hp : p = null := h
    rw [targetLoop, hp, if_neg (not_not.mpr rfl)]
  | node b l x r ihl ihr =>
    intro u p fuel h hall hfuel
    obtain ⟨fuel, rfl⟩ : ∃ f, fuel = f + 1 := ⟨fuel - 1, by omega⟩
    obtain ⟨rfl, hpn, -, -, hl, hr⟩ := h
    simp only [NodeTree.toList_node, List.length_append, List.length_cons] at hfuel
    rw [targetLoop, if_pos (Ne.symm hpn), hall p (by simp), if_neg (Ne.symm hc)]
    split
    · exact ihl hl (fun y hy => hall y (by simp [hy])) (by omega)
    · exact ihr hr (fun y hy => hall y (by simp [hy])) (by omega)

theorem targetLoop_eq (hcomp : Compares comp) (inn : P) (hrep : TreeRep null s null t tree)
    (hs : Sorted comp t.toList) {fuel : ℕ} (hfuel : t.toList.length < fuel) :
    targetLoop null comp s inn fuel tree =
      some (if tree ≠ null ∧ comp tree inn = 0 then tree else null) := by
  obtain ⟨fuel, rfl⟩ : ∃ f, fuel = f + 1 := ⟨fuel - 1, by omega⟩
  cases t with
  | nil =>
    have hp : tree = null := hrep
    rw [targetLoop, hp, if_neg (not_not.mpr rfl), ite_self]
  | node b l x r =>
    obtain ⟨rfl, hpn, -, -, hl, hr⟩ := hrep
    simp only [NodeTree.toList_node, List.length_append, List.length_cons] at hfuel
    obtain ⟨-, hright, hleft⟩ := List.pairwise_append.mp hs
    rw [List.pairwise_cons] at hright
    rcases hcomp.values tree inn with hlt | heq | hgt
    · rw [targetLoop, if_pos (Ne.symm hpn), hlt, if_neg (by decide), if_pos rfl, if_neg (by simp)]
      refine targetLoop_misses (c := -1) (by decide) hl (fun y hy => ?_) (by omega)
      have hle := hleft y hy tree (by simp)
      have hgt := (hcomp.anti inn tree).mpr (by omega)
      have hanti := hcomp.anti inn y
      have htrans := hcomp.trans inn y tree
      rcases hcomp.values y inn with h | h | h
      · exact h
      · omega
      · have hle' := hcomp.trans y tree inn hle (by omega)
        omega
    · rw [targetLoop, if_pos (Ne.symm hpn), heq, if_pos rfl, if_pos ⟨hpn, rfl⟩]
    · rw [targetLoop, if_pos (Ne.symm hpn), hgt, if_neg (by decide), if_neg (by decide), if_neg (by simp)]
      refine targetLoop_misses one_ne_zero hr (fun y hy => ?_) (by omega)
      have hle := hright.1 y hy
      have htrans := hcomp.trans tree y inn hle
      rcases hcomp.values y inn with h | h | h <;> omega

/-- The fixer leaves the target, which was the root, as a black node above the replacement. -/
theorem runFixer_located {low : HolePath P} {x y : P} {yb : Bool} {r ly : NodeTree P} {k fuel : ℕ}
    (h : Located null s (low.append (.step .root true true x r)) (.node yb ly y .nil) y)
    (hrb : ((low.append (.step .root true true x r)).plug (.node yb ly y .nil)).RedBlack k)
    (hfuel : (low.append (.step .root true true x r)).length + 3 ≤ fuel) :
    ∃ s' low' up' r' j, runFixer null fuel s y = some s' ∧
      Located null s' (HolePath.append low' (.step up' true true x r')) (.node yb ly y .nil) y ∧
      (low'.append (.step up' true true x r')).before = (low.append (.step .root true true x r)).before ∧
      (low'.append (.step up' true true x r')).after = (low.append (.step .root true true x r)).after ∧
      ly.RedBlack j ∧ (∀ e, (low'.append (.step up' true true x r')).Fits e j) ∧
      up'.topBlack true = true := by
  obtain ⟨j, hy, hfits⟩ := HolePath.fits_of_plug hrb
  have hcol : (s.color y).testBit 0 = yb := h.rep.2.2.2.1
  cases hy with
  | red hl _ _ _ =>
    refine ⟨s, low, .root, r, j, ?_, h, rfl, rfl, hl, fun e => hfits.of_red, rfl⟩
    rw [runFixer, if_neg]
    rw [and_color_ne_zero, hcol]
    exact nofun
  | @black _ _ _ j hl _ =>
    have htop : (low.append (.step .root true true x r)).topBlack true = true :=
      HolePath.topBlack_append
    obtain ⟨s', path', hrun, hlow, hloc⟩ := fixes_of_fits h h.rep.2.1 rfl htop hfits hfuel
    obtain ⟨low', up', r', rfl⟩ := hlow.frame rfl (Or.inl rfl)
    refine ⟨s', low', up', r', j, ?_, hloc, hlow.before, hlow.after, hl, fun e => hlow.fits hfits, ?_⟩
    · rw [runFixer, if_pos ((and_color_ne_zero _).mpr hcol)]
      exact hrun
    · have hblack := hlow.topBlack htop
      rw [HolePath.topBlack_append] at hblack
      exact hblack

omit [DecidableEq P] in
/-- The sequence around the target before and after the replacement has moved. -/
theorem toList_spliced {low low' up' : HolePath P} {x : P} {r r' : NodeTree P} (c yb : Bool)
    (ly : NodeTree P) (y : P)
    (hlow : low.after = [])
    (hbefore : (low'.append (.step up' true true x r')).before =
      (low.append (.step .root true true x r)).before)
    (hafter : (low'.append (.step up' true true x r')).after =
      (low.append (.step .root true true x r)).after)
    (hnd : (low'.append (.step up' true true x r')).nodes.Nodup) :
    low'.after = [] ∧ (up'.plug (.node c (low'.plug ly) y r')).toList =
      (low.plug (.node yb ly y .nil)).toList ++ r.toList := by
  have hb : up'.before ++ low'.before = low.before := by
    simpa [HolePath.before_append, HolePath.before] using hbefore
  have ha : low'.after ++ (x :: r'.toList ++ up'.after) = x :: r.toList := by
    simpa [HolePath.after_append, HolePath.after, hlow] using hafter
  have hempty : low'.after = [] := by
    cases hz : low'.after with
    | nil => rfl
    | cons z zs =>
      rw [hz, List.cons_append, List.cons.injEq] at ha
      rw [HolePath.nodes, HolePath.after_append, hz, ha.1] at hnd
      have hin := (List.nodup_append.mp hnd).2.1
      simp [HolePath.after] at hin
  rw [hempty, List.nil_append, List.cons_append, List.cons.injEq] at ha
  refine ⟨hempty, ?_⟩
  rw [HolePath.toList_plug, NodeTree.toList_node, HolePath.toList_plug, HolePath.toList_plug, hlow, hempty,
    ← hb, ← ha.2]
  simp

/-- What a deletion of the root `x` of the tree `t` gives: a tree of the other nodes in the old
order, balanced where the condition holds. -/
structure RootRemoved (null : P) (x : P) (t t' : NodeTree P) (s' : Links P) (tree' : P) (kept : Prop) :
    Prop where
  rep : TreeRep null s' null t' tree'
  nodup : t'.toList.Nodup
  order : ∃ l r, t.toList = l ++ x :: r ∧ t'.toList = l ++ r
  balance : (t'.black = true ∧ ∃ k, t'.RedBlack k) ↔ kept

theorem treeDelete_replaced {flags : P → ℕ} {fuel : ℕ} {x : P}
    (hfound : targetLoop null comp s inn fuel tree = some x) (hx : x ≠ null)
    (hchild : ¬ (null = s.left x ∧ null = s.right x)) :
    treeDelete null comp flags fuel s tree inn = (do
      let replacement ← replacementLoop null s (decide (s.left x = null)) fuel
        (if decide (s.left x = null) then s.right x else s.left x)
      let s₁ ← runFixer null fuel s replacement
      let s₂ := splice null (flags x) s₁ x replacement (decide (s.left x = null))
      let top ← topLoop null s₂ fuel replacement
      some (s₂, top, x)) := by
  rw [treeDelete, hfound, Option.bind_eq_bind, Option.bind_some, if_pos (Ne.symm hx), if_neg hchild]
  rfl

theorem treeDelete_predecessor {flags : P → ℕ} {fuel : ℕ} {x : P} {l r : NodeTree P} {k : ℕ}
    (hfound : targetLoop null comp s inn fuel tree = some x)
    (h : Located null s .root (.node true l x r) x) (hrb : (NodeTree.node true l x r).RedBlack k)
    (hl : l ≠ .nil) (hfuel : (NodeTree.node true l x r).toList.length + 4 ≤ fuel) :
    ∃ s' tree' t', treeDelete null comp flags fuel s tree inn = some (s', tree', x) ∧
      RootRemoved null x (.node true l x r) t' s' tree' ((flags x).testBit 0 = true) := by
  have hjoin : Located null s .root (.join true true l x r) x := h
  have hleft := hjoin.descend
  have hln : s.left x ≠ null := by
    intro heq
    have hrep := hleft.rep
    cases l with
    | nil => exact hl rfl
    | node => exact hrep.2.1 (hrep.1.symm.trans heq)
  have hlen : l.toList.length < fuel := by
    simp only [NodeTree.toList_node, List.length_append, List.length_cons] at hfuel
    omega
  obtain ⟨low, yb, ly, y, hrun, hloc, hafter, hplug⟩ := replacementLoop_located hleft hl hlen
  have hwhole : (low.append (.step .root true true x r)).plug (.node yb ly y .nil) =
      .node true l x r := by
    rw [HolePath.plug_append, hplug]
    rfl
  have hplen : (low.append (.step .root true true x r)).length + 1 ≤
      (NodeTree.node true l x r).toList.length := by
    have hle := HolePath.length_le (low.append (.step .root true true x r))
    rw [← hwhole, HolePath.toList_plug]
    simp only [HolePath.nodes, List.length_append, NodeTree.toList_node, List.length_cons] at hle ⊢
    omega
  have hrounds : (low.append (.step .root true true x r)).length + 3 ≤ fuel := by omega
  obtain ⟨s₁, low', up', r', j, hfix, hloc₁, hbefore, hafter₁, hly, hfits, htop⟩ :=
    runFixer_located hloc (by rw [hwhole]; exact hrb) hrounds
  obtain ⟨hempty, hlist⟩ := toList_spliced ((flags x).testBit 0) yb ly y hafter hbefore hafter₁
    hloc₁.nodup_around
  rw [hplug] at hlist
  have hdone := splice_located (flags x) hloc₁ hempty
  have huplen : up'.length < fuel := by
    have hle := up'.length_le
    have hcount := congrArg List.length hlist
    rw [HolePath.toList_plug] at hcount
    simp only [HolePath.nodes, List.length_append, NodeTree.toList_node, List.length_cons] at hle hcount hfuel
    omega
  have htopl := topLoop_top hdone.rep hdone.around (by simp) huplen
  refine ⟨_, _, _, ?_, rep_plug ⟨hdone.rep, hdone.around⟩, hdone.nodup, ⟨l.toList, r.toList, rfl, hlist⟩, ?_⟩
  · have hchild : ¬ (null = s.left x ∧ null = s.right x) := fun hh => hln hh.1.symm
    have hrun' : replacementLoop null s false fuel (s.left x) = some y := hrun
    rw [treeDelete_replaced hfound h.rep.2.1 hchild, decide_eq_false hln, if_neg Bool.false_ne_true, hrun']
    simp only [Option.bind_eq_bind, Option.bind_some, hfix, htopl]
  · -- with the color of the target the tree is balanced, with the other one it cannot be
    have hbal : ∃ k, (up'.plug (.node true (low'.plug ly) y r')).RedBlack k := by
      obtain ⟨m, hm⟩ := HolePath.Fits.plug hly (hfits ly.black)
      rw [HolePath.plug_append] at hm
      have hm' : (up'.plug (.node true (low'.plug ly) x r')).RedBlack m := hm
      obtain ⟨i, hnode, hup⟩ := HolePath.fits_of_plug hm'
      have hnode' : (NodeTree.node true (low'.plug ly) y r').RedBlack i := by
        cases hnode with
        | black ha hb => exact .black ha hb
      exact HolePath.Fits.plug hnode' hup
    cases hflag : (flags x).testBit 0 with
    | true =>
      refine ⟨fun _ => rfl, fun _ => ⟨?_, hbal⟩⟩
      rw [HolePath.black_plug]
      exact htop
    | false =>
      obtain ⟨m, hm⟩ := hbal
      exact ⟨fun hno => absurd hno (HolePath.unbalanced_of_red hm),
        fun hyes => absurd hyes Bool.false_ne_true⟩

omit [DecidableEq P] in
theorem redBlack_zero {r : NodeTree P} (h : r.RedBlack 0) :
    r = .nil ∨ ∃ z, r = .node false .nil z .nil := by
  cases h with
  | nil => exact Or.inl rfl
  | @red l r z _ hl hr hlb hrb =>
    -- a child of a red node is black, and there is no black node
    have hnil : ∀ {c : NodeTree P}, c.RedBlack 0 → c.black = true → c = .nil := by
      intro c hc hcb
      cases hc with
      | nil => rfl
      | red => exact absurd hcb nofun
    rw [hnil hl hlb, hnil hr hrb]
    exact Or.inr ⟨z, rfl⟩

theorem treeDelete_successor (flags : P → ℕ) {fuel : ℕ} {x z : P}
    (hfound : targetLoop null comp s inn fuel tree = some x)
    (h : Located null s .root (.node true .nil x (.node false .nil z .nil)) x) (hfuel : 1 < fuel) :
    ∃ s' tree' t', treeDelete null comp flags fuel s tree inn = some (s', tree', x) ∧
      RootRemoved null x (.node true .nil x (.node false .nil z .nil)) t' s' tree'
        ((flags x).testBit 0 = true) := by
  obtain ⟨fuel, rfl⟩ : ∃ f, fuel = f + 1 := ⟨fuel - 1, by omega⟩
  obtain ⟨-, hx, -, -, hleft, hz, hzn, -, hzc, hzl, -⟩ := h.rep
  have hl : s.left x = null := hleft
  have hdone := splice_leaf (flags x) h
  have htopl := topLoop_top hdone.rep hdone.around nofun (show 0 < fuel + 1 by omega)
  refine ⟨_, _, _, ?_, hdone.rep, hdone.nodup, ⟨[], [z], rfl, rfl⟩, ?_⟩
  · have hchild : ¬ (null = s.left x ∧ null = s.right x) := fun hh => hzn (hz.symm.trans hh.2.symm)
    have hrun : replacementLoop null s true (fuel + 1) z = some z := by
      have hznull : s.left z = null := hzl
      simp [replacementLoop, hznull]
    have hfix : runFixer null (fuel + 1) s z = some s := by
      rw [runFixer, if_neg]
      rw [and_color_ne_zero, hzc]
      exact nofun
    rw [treeDelete_replaced hfound hx hchild, decide_eq_true hl, if_pos rfl, hz, hrun]
    simp only [Option.bind_eq_bind, Option.bind_some, hfix, htopl]
    rfl
  · constructor
    · exact fun hb => hb.1
    · intro hb
      refine ⟨hb, 1, ?_⟩
      rw [hb]
      exact .black .nil .nil

theorem treeDelete_root (hcomp : Compares comp) (h : SearchTree null comp s tree nodes t)
    (htree : tree ≠ null) (heq : comp tree inn = 0) (flags : P → ℕ) {fuel : ℕ}
    (hfuel : nodes.length + 4 ≤ fuel) :
    ∃ s' tree' t', treeDelete null comp flags fuel s tree inn = some (s', tree', tree) ∧
      RootRemoved null tree t t' s' tree'
        ((s.left tree = null ∧ s.right tree = null) ∨ (flags tree).testBit 0 = true) := by
  rw [h.nodes.length_eq] at hfuel
  have hfound := targetLoop_eq hcomp inn h.rep h.sorted (show t.toList.length < fuel by omega)
  rw [if_pos ⟨htree, heq⟩] at hfound
  obtain ⟨k, hk⟩ := h.balanced
  have hloc : Located null s .root t tree := ⟨h.rep, trivial, h.nodup⟩
  have hroot := h.root
  cases t with
  | nil => exact absurd h.rep htree
  | node b l x r =>
    obtain ⟨rfl, hx, hup, -, hl, hr⟩ := h.rep
    obtain rfl : b = true := hroot
    cases l with
    | node lb ll lx lr =>
      obtain ⟨s', tree', t', hrun, hdone⟩ := treeDelete_predecessor hfound hloc hk nofun hfuel
      refine ⟨s', tree', t', hrun, hdone.rep, hdone.nodup, hdone.order, hdone.balance.trans ?_⟩
      refine ⟨Or.inr, fun hor => hor.resolve_left fun hh => hl.2.1 (hl.1.symm.trans hh.1)⟩
    | nil =>
      have hleft : s.left tree = null := hl
      have hzero : r.RedBlack 0 := by
        cases hk with
        | black hl hr =>
          cases hl
          exact hr
      rcases redBlack_zero hzero with rfl | ⟨z, rfl⟩
      · have hright : s.right tree = null := hr
        refine ⟨s, null, .nil, ?_, rfl, List.nodup_nil, ⟨[], [], rfl, rfl⟩, ?_⟩
        · rw [treeDelete, hfound, Option.bind_eq_bind, Option.bind_some, if_pos (Ne.symm htree),
            if_pos ⟨hleft.symm, hright.symm⟩, if_neg (not_not.mpr hup.symm)]
        · exact ⟨fun _ => Or.inl ⟨hleft, hright⟩, fun _ => ⟨rfl, 0, .nil⟩⟩
      · obtain ⟨s', tree', t', hrun, hdone⟩ :=
          treeDelete_successor flags hfound hloc (by omega)
        refine ⟨s', tree', t', hrun, hdone.rep, hdone.nodup, hdone.order, hdone.balance.trans ?_⟩
        refine ⟨Or.inr, fun hor => hor.resolve_left fun hh => hr.2.1 (hr.1.symm.trans hh.2)⟩

theorem treeDelete_nothing (hcomp : Compares comp) (h : SearchTree null comp s tree nodes t)
    (hno : ¬ (tree ≠ null ∧ comp tree inn = 0)) (flags : P → ℕ) {fuel : ℕ}
    (hfuel : nodes.length + 4 ≤ fuel) :
    treeDelete null comp flags fuel s tree inn = some (s, tree, null) := by
  rw [h.nodes.length_eq] at hfuel
  have hfound := targetLoop_eq hcomp inn h.rep h.sorted (show t.toList.length < fuel by omega)
  rw [if_neg hno] at hfound
  rw [treeDelete, hfound, Option.bind_eq_bind, Option.bind_some, if_neg (not_not.mpr rfl)]

/-- What a deletion is asked for: a node that compares equal is returned and its place in the
sequence is closed; where there is none, null is returned and nothing changes. -/
def RemovesAsked (null : P) (comp : P → P → ℤ) (flags : P → ℕ) (fuel : ℕ) (s : Links P) (tree inn : P)
    (t : NodeTree P) : Prop :=
  ∃ s' tree' t' ret, treeDelete null comp flags fuel s tree inn = some (s', tree', ret) ∧
    TreeRep null s' null t' tree' ∧
    ((∃ x ∈ t.toList, comp x inn = 0) → ret ∈ t.toList ∧ comp ret inn = 0 ∧
      ∃ l r, t.toList = l ++ ret :: r ∧ t'.toList = l ++ r) ∧
    ((∀ x ∈ t.toList, comp x inn ≠ 0) → ret = null ∧ s' = s ∧ tree' = tree)

/-- The search descends on the wrong side, so a deletion does what it is asked for exactly where no
node compares equal or the root does. -/
theorem red_black_deletion (hcomp : Compares comp) (h : Built null comp s tree nodes)
    (flags : P → ℕ) (inn : P) :
    ∃ t, SearchTree null comp s tree nodes t ∧ ∀ fuel, nodes.length + 4 ≤ fuel →
      (RemovesAsked null comp flags fuel s tree inn t ↔
        (∀ x ∈ nodes, comp x inn ≠ 0) ∨ tree ≠ null ∧ comp tree inn = 0) := by
  obtain ⟨t, ht⟩ := h.searchTree hcomp.toOrdered
  refine ⟨t, ht, fun fuel hfuel => ⟨?_, ?_⟩⟩
  · rintro ⟨s', tree', t', ret, hrun, -, hsome, -⟩
    by_contra hno
    rw [not_or] at hno
    obtain ⟨hex, hroot⟩ := hno
    simp only [not_forall, not_not] at hex
    obtain ⟨x, hx, hxeq⟩ := hex
    rw [treeDelete_nothing hcomp ht hroot flags hfuel] at hrun
    cases hrun
    exact rep_ne_null ht.rep (hsome ⟨x, ht.nodes.mem_iff.mp hx, hxeq⟩).1 rfl
  · rintro (hnone | ⟨htree, heq⟩)
    · have hroot : ¬ (tree ≠ null ∧ comp tree inn = 0) := by
        rintro ⟨htree, heq⟩
        exact hnone tree (ht.nodes.mem_iff.mpr (ht.rep.head_mem htree)) heq
      refine ⟨s, tree, t, null, treeDelete_nothing hcomp ht hroot flags hfuel, ht.rep, ?_, ?_⟩
      · rintro ⟨x, hx, hxeq⟩
        exact absurd hxeq (hnone x (ht.nodes.mem_iff.mpr hx))
      · exact fun _ => ⟨rfl, rfl, rfl⟩
    · obtain ⟨s', tree', t', hrun, hdone⟩ := treeDelete_root hcomp ht htree heq flags hfuel
      refine ⟨s', tree', t', tree, hrun, hdone.rep, fun _ => ⟨ht.rep.head_mem htree, heq, hdone.order⟩, ?_⟩
      exact fun hnone => absurd heq (hnone tree (ht.rep.head_mem htree))

theorem built_two : ∃ s : Links ℕ, Built 0 numberOrder s 1 [2, 1] ∧ s.left 1 = 0 ∧ s.right 1 = 2 := by
  have h₁ := @Built.insert ℕ _ 0 numberOrder _ _ _ _ 1 _ 2
    (.empty ⟨fun _ => 0, fun _ => 0, fun _ => 0, fun _ => 0⟩) (by decide) (by decide) rfl
  have h₂ := @Built.insert ℕ _ 0 numberOrder _ _ _ _ 2 _ 3 h₁ (by decide) (by decide) rfl
  exact ⟨_, h₂, rfl, rfl⟩

theorem numberOrder_compares : Compares numberOrder := by
  refine ⟨numberOrder_ordered, ?_⟩
  intro a b
  unfold numberOrder
  split_ifs <;> simp

theorem red_black_deletion_first : ∃ (s : Links ℕ) (t : NodeTree ℕ),
    Built 0 numberOrder s 1 [2, 1] ∧ SearchTree 0 numberOrder s 1 [2, 1] t ∧
      RemovesAsked 0 numberOrder (fun _ => 1) 6 s 1 1 t := by
  obtain ⟨s, h, -, -⟩ := built_two
  obtain ⟨t, ht, hiff⟩ := red_black_deletion numberOrder_compares h (fun _ => 1) 1
  exact ⟨s, t, h, ht, (hiff 6 (by decide)).mpr (Or.inr ⟨by decide, by decide⟩)⟩

theorem deletion_misses_child : ∃ (s : Links ℕ) (t : NodeTree ℕ),
    Built 0 numberOrder s 1 [2, 1] ∧ SearchTree 0 numberOrder s 1 [2, 1] t ∧
      (∃ x ∈ t.toList, numberOrder x 2 = 0) ∧
      treeDelete 0 numberOrder (fun _ => 1) 6 s 1 2 = some (s, 1, 0) ∧
      ¬ RemovesAsked 0 numberOrder (fun _ => 1) 6 s 1 2 t := by
  obtain ⟨s, h, -, -⟩ := built_two
  obtain ⟨t, ht⟩ := h.searchTree numberOrder_ordered
  have hmem : ∃ x ∈ t.toList, numberOrder x 2 = 0 :=
    ⟨2, ht.nodes.mem_iff.mp (by decide), by decide⟩
  have hrun := treeDelete_nothing numberOrder_compares ht (show ¬ (1 ≠ 0 ∧ numberOrder 1 2 = 0) by decide)
    (fun _ => 1) (show 2 + 4 ≤ 6 by decide)
  refine ⟨s, t, h, ht, hmem, hrun, ?_⟩
  rintro ⟨s', tree', t', ret, hrun', -, hsome, -⟩
  rw [hrun] at hrun'
  cases hrun'
  exact absurd (hsome hmem).2.1 (by decide)

def ValidTree (null : P) (s : Links P) (tree : P) : Prop :=
  ∃ t, TreeRep null s null t tree ∧ t.toList.Nodup ∧ t.black = true ∧ ∃ k, t.RedBlack k

omit [DecidableEq P] in
theorem RootRemoved.valid_iff {x tree' : P} {t t' : NodeTree P} {s' : Links P} {kept : Prop}
    (h : RootRemoved null x t t' s' tree' kept) : ValidTree null s' tree' ↔ kept := by
  rw [← h.balance]
  constructor
  · rintro ⟨t'', hrep, -, hroot, hrb⟩
    rw [rep_unique h.rep hrep]
    exact ⟨hroot, hrb⟩
  · rintro ⟨hroot, hrb⟩
    exact ⟨t', h.rep, h.nodup, hroot, hrb⟩

theorem built_two_reached : ∃ (s : Links ℕ) (t : NodeTree ℕ), Built 0 numberOrder s 1 [2, 1] ∧
    SearchTree 0 numberOrder s 1 [2, 1] t ∧ targetLoop 0 numberOrder s 1 6 1 = some 1 ∧
      s.right 1 = 2 := by
  obtain ⟨s, h, -, hright⟩ := built_two
  obtain ⟨t, ht⟩ := h.searchTree numberOrder_ordered
  have hlen : t.toList.length < 6 := by
    rw [← ht.nodes.length_eq]
    decide
  have hreach := targetLoop_eq numberOrder_compares 1 ht.rep ht.sorted hlen
  rw [if_pos ⟨by decide, by decide⟩] at hreach
  exact ⟨s, t, h, ht, hreach, hright⟩

/-- The node that the search reaches is the root. Its replacement takes the color from the flags,
and the tree stays balanced exactly where there is none or the flags say black. -/
theorem red_black_deletion_balance (hcomp : Compares comp) (h : SearchTree null comp s tree nodes t)
    (flags : P → ℕ) {target : P} {fuel : ℕ} (hfuel : nodes.length + 4 ≤ fuel)
    (hreach : targetLoop null comp s inn fuel tree = some target) (hfound : target ≠ null) :
    ∃ s' tree', treeDelete null comp flags fuel s tree inn = some (s', tree', target) ∧
      (ValidTree null s' tree' ↔
        (s.left target = null ∧ s.right target = null) ∨ (flags target).testBit 0 = true) := by
  have hlen : t.toList.length < fuel := by
    rw [← h.nodes.length_eq]
    omega
  have hroot := targetLoop_eq hcomp inn h.rep h.sorted hlen
  rw [hreach, Option.some.injEq] at hroot
  split at hroot
  case isFalse => exact absurd hroot hfound
  case isTrue hcond =>
    obtain ⟨htree, heq⟩ := hcond
    subst hroot
    obtain ⟨s', tree', t', hrun, hdone⟩ := treeDelete_root hcomp h htree heq flags hfuel
    exact ⟨s', tree', hrun, hdone.valid_iff⟩

theorem red_black_deletion_balance_first : ∃ (s s' : Links ℕ) (tree' : ℕ),
    Built 0 numberOrder s 1 [2, 1] ∧
      treeDelete 0 numberOrder (fun _ => 1) 6 s 1 1 = some (s', tree', 1) ∧ ValidTree 0 s' tree' := by
  obtain ⟨s, t, h, ht, hreach, -⟩ := built_two_reached
  obtain ⟨s', tree', hrun, hvalid⟩ := red_black_deletion_balance numberOrder_compares ht (fun _ => 1)
    (show 2 + 4 ≤ 6 by decide) hreach (by decide)
  exact ⟨s, s', tree', h, hrun, hvalid.mpr (Or.inr (by decide))⟩

/-- With flags whose lowest bit is clear the replacement is a red root. -/
theorem deletion_leaves_red_root : ∃ (s s' : Links ℕ) (tree' : ℕ),
    Built 0 numberOrder s 1 [2, 1] ∧ targetLoop 0 numberOrder s 1 6 1 = some 1 ∧
      treeDelete 0 numberOrder (fun _ => 0) 6 s 1 1 = some (s', tree', 1) ∧ ¬ ValidTree 0 s' tree' := by
  obtain ⟨s, t, h, ht, hreach, hright⟩ := built_two_reached
  obtain ⟨s', tree', t', hrun, hdone⟩ := treeDelete_root numberOrder_compares ht (by decide)
    (show numberOrder 1 1 = 0 by decide) (fun _ => 0) (show 2 + 4 ≤ 6 by decide)
  refine ⟨s, s', tree', h, hreach, hrun, ?_⟩
  rw [hdone.valid_iff]
  rintro (⟨-, hr⟩ | hbit)
  · exact absurd (hright.symm.trans hr) (by decide)
  · exact absurd hbit (by decide)

end Deletion

end RedBlackTree
