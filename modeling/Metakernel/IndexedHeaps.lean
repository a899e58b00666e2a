import Mathlib.Data.Set.Card
import Mathlib.Order.Interval.Finset.Nat

/-!
# Binary heaps whose entries know their index

Entries stand at the indices 1 to `n` and record where they stand. An entry is settled by moving
a hole: up while the new entry goes before the parent, then down while a child goes before the new
entry. Which entries are held does not depend on the keys, so the two are treated apart.
-/
namespace IndexedHeaps

variable {τ : Type*} [DecidableEq τ]

structure Layout (τ : Type*) where
  slot : ℕ → τ
  pos : τ → ℕ

def Layout.place (h : Layout τ) (i : ℕ) (x : τ) : Layout τ :=
  ⟨Function.update h.slot i x, Function.update h.pos x i⟩

section Sifting

variable (before : τ → τ → Bool) (x : τ)

def siftUp : ℕ → Layout τ → ℕ → Layout τ × ℕ
  | 0, h, i => (h, i)
  | fuel + 1, h, i =>
    if i ≠ 1 ∧ before x (h.slot (i / 2)) then siftUp fuel (h.place i (h.slot (i / 2))) (i / 2)
    else (h, i)

def siftDown (n : ℕ) : ℕ → Layout τ → ℕ → Layout τ × ℕ
  | 0, h, i => (h, i)
  | fuel + 1, h, i =>
    if 2 * i + 1 ≤ n ∧ before (h.slot (2 * i + 1)) x then
      if 2 * i ≤ n ∧ before (h.slot (2 * i)) (h.slot (2 * i + 1)) then
        siftDown n fuel (h.place i (h.slot (2 * i))) (2 * i)
      else siftDown n fuel (h.place i (h.slot (2 * i + 1))) (2 * i + 1)
    else if 2 * i ≤ n ∧ before (h.slot (2 * i)) x then
      if 2 * i + 1 ≤ n ∧ before (h.slot (2 * i + 1)) (h.slot (2 * i)) then
        siftDown n fuel (h.place i (h.slot (2 * i + 1))) (2 * i + 1)
      else siftDown n fuel (h.place i (h.slot (2 * i))) (2 * i)
    else (h, i)

def settleDown (n : ℕ) (h : Layout τ) (i : ℕ) : Layout τ :=
  let d := siftDown before x n n h i
  d.1.place d.2 x

def settle (n : ℕ) (h : Layout τ) (i : ℕ) : Layout τ :=
  let u := siftUp before x i h i
  settleDown before x n u.1 u.2

end Sifting

theorem siftUp_extra (before : τ → τ → Bool) (x : τ) (extra : ℕ) : ∀ {fuel i : ℕ} {h : Layout τ},
    1 ≤ i → i ≤ fuel → siftUp before x (fuel + extra) h i = siftUp before x fuel h i := by
  intro fuel
  induction fuel with
  | zero =>
    intro i h h1 hle
    omega
  | succ fuel ih =>
    intro i h h1 hle
    rw [Nat.add_right_comm, siftUp, siftUp]
    split
    · exact ih (by omega) (by omega)
    · rfl

/-- The way down is over after as many rounds as there are entries. -/
theorem siftDown_extra (before : τ → τ → Bool) (x : τ) (n extra : ℕ) :
    ∀ {fuel i : ℕ} {h : Layout τ}, 1 ≤ i → n < fuel + i →
      siftDown before x n (fuel + extra) h i = siftDown before x n fuel h i := by
  intro fuel
  induction fuel with
  | zero =>
    intro i h h1 hle
    cases extra with
    | zero => rfl
    | succ extra =>
      rw [Nat.zero_add, siftDown, siftDown, if_neg (by omega), if_neg (by omega)]
  | succ fuel ih =>
    intro i h h1 hle
    rw [Nat.add_right_comm, siftDown, siftDown]
    repeat' split
    all_goals first | exact ih (by omega) (by omega) | rfl

structure Indexed (h : Layout τ) (n : ℕ) (S : Set τ) : Prop where
  pos : ∀ j, 1 ≤ j → j ≤ n → h.pos (h.slot j) = j
  mem : ∀ t, t ∈ S ↔ ∃ j, 1 ≤ j ∧ j ≤ n ∧ h.slot j = t

/-- The same but for the entry at `i`. -/
structure Holed (h : Layout τ) (n i : ℕ) (S : Set τ) : Prop where
  one_le : 1 ≤ i
  le : i ≤ n
  pos : ∀ j, 1 ≤ j → j ≤ n → j ≠ i → h.pos (h.slot j) = j
  mem : ∀ t, t ∈ S ↔ ∃ j, 1 ≤ j ∧ j ≤ n ∧ j ≠ i ∧ h.slot j = t

variable {h h' : Layout τ} {n i : ℕ} {S : Set τ} {x : τ}

section

omit [DecidableEq τ]

theorem Indexed.slot_mem (hi : Indexed h n S) {j : ℕ} (hj : 1 ≤ j) (hjn : j ≤ n) :
    h.slot j ∈ S := (hi.mem _).mpr ⟨j, hj, hjn, rfl⟩

theorem Indexed.slot_pos (hi : Indexed h n S) {t : τ} (ht : t ∈ S) :
    1 ≤ h.pos t ∧ h.pos t ≤ n ∧ h.slot (h.pos t) = t := by
  obtain ⟨j, hj, hjn, rfl⟩ := (hi.mem t).mp ht
  rw [hi.pos j hj hjn]
  exact ⟨hj, hjn, rfl⟩

theorem Indexed.mem_iff (hi : Indexed h n S) (t : τ) :
    t ∈ S ↔ 1 ≤ h.pos t ∧ h.pos t ≤ n ∧ h.slot (h.pos t) = t :=
  ⟨hi.slot_pos, fun ht => (hi.mem t).mpr ⟨h.pos t, ht⟩⟩

theorem Indexed.ncard (hi : Indexed h n S) : S.ncard = n := by
  have himage : S = h.slot '' Set.Icc 1 n := by
    ext t
    rw [hi.mem]
    constructor
    · rintro ⟨j, hj, hjn, rfl⟩
      exact ⟨j, ⟨hj, hjn⟩, rfl⟩
    · rintro ⟨j, ⟨hj, hjn⟩, rfl⟩
      exact ⟨j, hj, hjn, rfl⟩
  have hinj : Set.InjOn h.slot (Set.Icc 1 n) := by
    intro j hj k hk heq
    rw [← hi.pos j hj.1 hj.2, heq, hi.pos k hk.1 hk.2]
  rw [himage, hinj.ncard_image, ← Finset.coe_Icc, Set.ncard_coe_finset,
    Nat.card_Icc, Nat.add_sub_cancel]

theorem Indexed.congr (hi : Indexed h n S) (hslot : ∀ j, 1 ≤ j → j ≤ n → h'.slot j = h.slot j)
    (hpos : ∀ t ∈ S, h'.pos t = h.pos t) : Indexed h' n S := by
  constructor
  · intro j hj hjn
    rw [hslot j hj hjn, hpos _ (hi.slot_mem hj hjn), hi.pos j hj hjn]
  · intro t
    rw [hi.mem]
    constructor
    · rintro ⟨j, hj, hjn, rfl⟩
      exact ⟨j, hj, hjn, hslot j hj hjn⟩
    · rintro ⟨j, hj, hjn, rfl⟩
      exact ⟨j, hj, hjn, (hslot j hj hjn).symm⟩

theorem indexed_empty (h : Layout τ) : Indexed h 0 ∅ := by
  constructor
  · intro j hj hj0
    omega
  · intro t
    simp only [Set.mem_empty_iff_false, false_iff]
    rintro ⟨j, hj, hj0, -⟩
    omega

end

theorem Holed.move (hh : Holed h n i S) {j : ℕ} (hj : 1 ≤ j) (hjn : j ≤ n) (hji : j ≠ i) :
    Holed (h.place i (h.slot j)) n j S := by
  refine ⟨hj, hjn, fun k hk hkn hkj => ?_, fun t => ?_⟩
  · by_cases hki : k = i
    · simp [Layout.place, hki]
    · have hne : h.slot k ≠ h.slot j := by
        intro heq
        have hpos := congrArg h.pos heq
        rw [hh.pos k hk hkn hki, hh.pos j hj hjn hji] at hpos
        exact hkj hpos
      simp [Layout.place, hki, hne, hh.pos k hk hkn hki]
  · rw [hh.mem]
    constructor
    · rintro ⟨k, hk, hkn, hki, rfl⟩
      by_cases hkj : k = j
      · exact ⟨i, hh.one_le, hh.le, Ne.symm hji, by simp [Layout.place, hkj]⟩
      · exact ⟨k, hk, hkn, hkj, by simp [Layout.place, hki]⟩
    · rintro ⟨k, hk, hkn, hkj, rfl⟩
      by_cases hki : k = i
      · exact ⟨j, hj, hjn, hji, by simp [Layout.place, hki]⟩
      · exact ⟨k, hk, hkn, hki, by simp [Layout.place, hki]⟩

omit [DecidableEq τ] in
theorem Holed.slot_mem (hh : Holed h n i S) {j : ℕ} (hj : 1 ≤ j) (hjn : j ≤ n) (hji : j ≠ i) :
    h.slot j ∈ S := (hh.mem _).mpr ⟨j, hj, hjn, hji, rfl⟩

def SameOutside (S : Set τ) (h h' : Layout τ) : Prop := ∀ t, t ∉ S → h'.pos t = h.pos t

omit [DecidableEq τ] in
theorem SameOutside.trans {h'' : Layout τ} (h₁ : SameOutside S h h') (h₂ : SameOutside S h' h'') :
    SameOutside S h h'' := fun t ht => (h₂ t ht).trans (h₁ t ht)

theorem sameOutside_place (hx : x ∈ S) : SameOutside S h (h.place i x) := by
  intro t ht
  have htx : t ≠ x := fun heq => ht (heq ▸ hx)
  simp [Layout.place, htx]

theorem siftUp_holed (before : τ → τ → Bool) (x : τ) (fuel : ℕ) (hh : Holed h n i S) :
    Holed (siftUp before x fuel h i).1 n (siftUp before x fuel h i).2 S ∧
      SameOutside S h (siftUp before x fuel h i).1 := by
  induction fuel generalizing h i with
  | zero => exact ⟨hh, fun _ _ => rfl⟩
  | succ fuel ih =>
    rw [siftUp]
    split
    · rename_i hup
      have hi := hh.one_le
      have hle := hh.le
      have h1 : 1 ≤ i / 2 := by omega
      have hn : i / 2 ≤ n := by omega
      have hne : i / 2 ≠ i := by omega
      obtain ⟨hrest, hsame⟩ := ih (hh.move h1 hn hne)
      exact ⟨hrest, (sameOutside_place (hh.slot_mem h1 hn hne)).trans hsame⟩
    · exact ⟨hh, fun _ _ => rfl⟩

theorem siftDown_holed (before : τ → τ → Bool) (x : τ) (fuel : ℕ) (hh : Holed h n i S) :
    Holed (siftDown before x n fuel h i).1 n (siftDown before x n fuel h i).2 S ∧
      SameOutside S h (siftDown before x n fuel h i).1 := by
  induction fuel generalizing h i with
  | zero => exact ⟨hh, fun _ _ => rfl⟩
  | succ fuel ih =>
    have hi := hh.one_le
    have child : ∀ j, (j = 2 * i ∨ j = 2 * i + 1) → j ≤ n →
        Holed (siftDown before x n fuel (h.place i (h.slot j)) j).1 n
          (siftDown before x n fuel (h.place i (h.slot j)) j).2 S ∧
        SameOutside S h (siftDown before x n fuel (h.place i (h.slot j)) j).1 := by
      intro j hj hjn
      have h1 : 1 ≤ j := by omega
      have hne : j ≠ i := by omega
      obtain ⟨hrest, hsame⟩ := ih (hh.move h1 hjn hne)
      exact ⟨hrest, (sameOutside_place (hh.slot_mem h1 hjn hne)).trans hsame⟩
    rw [siftDown]
    split
    · rename_i hright
      split
      · exact child _ (Or.inl rfl) (by omega)
      · exact child _ (Or.inr rfl) hright.1
    · split
      · rename_i hleft
        split
        · rename_i hright
          exact child _ (Or.inr rfl) hright.1
        · exact child _ (Or.inl rfl) hleft.1
      · exact ⟨hh, fun _ _ => rfl⟩

theorem Holed.place (hh : Holed h n i S) (hx : x ∉ S) :
    Indexed (h.place i x) n (insert x S) ∧ SameOutside (insert x S) h (h.place i x) := by
  have hother : ∀ j, 1 ≤ j → j ≤ n → j ≠ i → h.slot j ≠ x := by
    rintro j hj hjn hji rfl
    exact hx (hh.slot_mem hj hjn hji)
  refine ⟨⟨fun j hj hjn => ?_, fun t => ?_⟩, sameOutside_place (Set.mem_insert _ _)⟩
  · by_cases hji : j = i
    · simp [Layout.place, hji]
    · simp [Layout.place, hji, hother j hj hjn hji, hh.pos j hj hjn hji]
  · rw [Set.mem_insert_iff, hh.mem]
    constructor
    · rintro (rfl | ⟨j, hj, hjn, hji, rfl⟩)
      · exact ⟨i, hh.one_le, hh.le, by simp [Layout.place]⟩
      · exact ⟨j, hj, hjn, by simp [Layout.place, hji]⟩
    · rintro ⟨j, hj, hjn, rfl⟩
      by_cases hji : j = i
      · left
        simp [Layout.place, hji]
      · right
        exact ⟨j, hj, hjn, hji, by simp [Layout.place, hji]⟩

omit [DecidableEq τ] in
theorem SameOutside.mono {S' : Set τ} (hs : SameOutside S h h') (hS : S ⊆ S') :
    SameOutside S' h h' := fun t ht => hs t fun hmem => ht (hS hmem)

theorem settleDown_indexed (before : τ → τ → Bool) (hh : Holed h n i S) (hx : x ∉ S) :
    Indexed (settleDown before x n h i) n (insert x S) ∧
      SameOutside (insert x S) h (settleDown before x n h i) := by
  obtain ⟨hd, hsame⟩ := siftDown_holed before x n hh
  obtain ⟨hind, hplace⟩ := hd.place hx
  exact ⟨hind, (hsame.mono (Set.subset_insert _ _)).trans hplace⟩

theorem settle_indexed (before : τ → τ → Bool) (hh : Holed h n i S) (hx : x ∉ S) :
    Indexed (settle before x n h i) n (insert x S) ∧
      SameOutside (insert x S) h (settle before x n h i) := by
  obtain ⟨hu, hsame⟩ := siftUp_holed before x i hh
  obtain ⟨hind, hdown⟩ := settleDown_indexed before hu hx
  exact ⟨hind, (hsame.mono (Set.subset_insert _ _)).trans hdown⟩

section

omit [DecidableEq τ]

theorem Indexed.holed_succ (hi : Indexed h n S) : Holed h (n + 1) (n + 1) S := by
  refine ⟨by omega, le_refl _, fun j hj hjn hne => hi.pos j hj (by omega), fun t => ?_⟩
  rw [hi.mem]
  constructor
  · rintro ⟨j, hj, hjn, rfl⟩
    exact ⟨j, hj, by omega, by omega, rfl⟩
  · rintro ⟨j, hj, hjn, hne, rfl⟩
    exact ⟨j, hj, by omega, rfl⟩

theorem Indexed.holed (hi : Indexed h n S) (h1 : 1 ≤ i) (hin : i ≤ n) :
    Holed h n i (S \ {h.slot i}) := by
  refine ⟨h1, hin, fun j hj hjn _ => hi.pos j hj hjn, fun t => ?_⟩
  rw [Set.mem_sdiff, Set.mem_singleton_iff, hi.mem]
  constructor
  · rintro ⟨⟨j, hj, hjn, rfl⟩, hne⟩
    exact ⟨j, hj, hjn, fun hji => hne (hji ▸ rfl), rfl⟩
  · rintro ⟨j, hj, hjn, hji, rfl⟩
    refine ⟨⟨j, hj, hjn, rfl⟩, fun heq => hji ?_⟩
    rw [← hi.pos j hj hjn, heq, hi.pos i h1 hin]

theorem Indexed.dropLast (hi : Indexed h (n + 1) S) : Indexed h n (S \ {h.slot (n + 1)}) := by
  have hh := hi.holed (i := n + 1) (by omega) le_rfl
  refine ⟨fun j hj hjn => hi.pos j hj (by omega), fun t => ?_⟩
  rw [hh.mem]
  constructor
  · rintro ⟨j, hj, hjn, hne, rfl⟩
    exact ⟨j, hj, by omega, rfl⟩
  · rintro ⟨j, hj, hjn, rfl⟩
    exact ⟨j, hj, by omega, by omega, rfl⟩

end

section Order

variable {K : Type*} [LinearOrder K] (key : τ → K)

def Ordered (h : Layout τ) (n : ℕ) : Prop :=
  ∀ j, 2 ≤ j → j ≤ n → key (h.slot j) ≤ key (h.slot (j / 2))

structure OrderedAround (h : Layout τ) (n i : ℕ) : Prop where
  except : ∀ j, 2 ≤ j → j ≤ n → j ≠ i → j / 2 ≠ i → key (h.slot j) ≤ key (h.slot (j / 2))
  bridge : 2 ≤ i → ∀ c, c ≤ n → c / 2 = i → key (h.slot c) ≤ key (h.slot (i / 2))

variable {key}

theorem place_slot_self (h : Layout τ) (i : ℕ) (x : τ) : (h.place i x).slot i = x := by
  simp [Layout.place]

theorem place_slot_ne (h : Layout τ) {i j : ℕ} (x : τ) (hj : j ≠ i) :
    (h.place i x).slot j = h.slot j := by
  simp [Layout.place, hj]

theorem OrderedAround.up (ho : OrderedAround key h n i) (hi : 2 ≤ i) (hin : i ≤ n) :
    OrderedAround key (h.place i (h.slot (i / 2))) n (i / 2) := by
  have hparent : 2 ≤ i / 2 → key (h.slot (i / 2)) ≤ key (h.slot (i / 2 / 2)) :=
    fun h2 => ho.except (i / 2) h2 (by omega) (by omega) (by omega)
  constructor
  · intro j hj hjn hne hpar
    have hji : j ≠ i := by
      rintro rfl
      exact hpar rfl
    rw [place_slot_ne _ _ hji]
    by_cases hc : j / 2 = i
    · rw [hc, place_slot_self]
      exact ho.bridge hi j hjn hc
    · rw [place_slot_ne _ _ hc]
      exact ho.except j hj hjn hji hc
  · intro h2 c hcn hc
    rw [place_slot_ne _ _ (show i / 2 / 2 ≠ i by omega)]
    by_cases hci : c = i
    · rw [hci, place_slot_self]
      exact hparent h2
    · rw [place_slot_ne _ _ hci]
      have hsibling := ho.except c (by omega) hcn hci (by omega)
      rw [hc] at hsibling
      exact hsibling.trans (hparent h2)

theorem OrderedAround.down (ho : OrderedAround key h n i) {j : ℕ} (hj : j / 2 = i)
    (hjn : j ≤ n) (hbest : ∀ c, c ≤ n → c / 2 = i → key (h.slot c) ≤ key (h.slot j)) :
    OrderedAround key (h.place i (h.slot j)) n j := by
  constructor
  · intro k hk hkn hkj hpar
    by_cases hki : k = i
    · rw [hki, place_slot_self, place_slot_ne _ _ (show i / 2 ≠ i by omega)]
      exact ho.bridge (by omega) j hjn hj
    · rw [place_slot_ne _ _ hki]
      by_cases hc : k / 2 = i
      · rw [hc, place_slot_self]
        exact hbest k hkn hc
      · rw [place_slot_ne _ _ hc]
        exact ho.except k hk hkn hki hc
  · intro h2 c hcn hc
    rw [place_slot_ne _ _ (show c ≠ i by omega), hj, place_slot_self]
    have hpair := ho.except c (by omega) hcn (by omega) (by omega)
    rwa [hc] at hpair

def byKey (key : τ → K) (a b : τ) : Bool := key b < key a

def Below (key : τ → K) (x : τ) (h : Layout τ) (i : ℕ) : Prop :=
  2 ≤ i → key x ≤ key (h.slot (i / 2))

def Above (key : τ → K) (x : τ) (h : Layout τ) (n i : ℕ) : Prop :=
  ∀ c, c ≤ n → c / 2 = i → key (h.slot c) ≤ key x

theorem siftUp_ordered {fuel : ℕ} (ho : OrderedAround key h n i) (h1 : 1 ≤ i) (hin : i ≤ n)
    (hfuel : i ≤ fuel) :
    OrderedAround key (siftUp (byKey key) x fuel h i).1 n (siftUp (byKey key) x fuel h i).2 ∧
      Below key x (siftUp (byKey key) x fuel h i).1 (siftUp (byKey key) x fuel h i).2 := by
  induction fuel generalizing h i with
  | zero => omega
  | succ fuel ih =>
    rw [siftUp]
    split
    · rename_i hup
      exact ih (ho.up (by omega) hin) (by omega) (by omega) (by omega)
    · rename_i hstop
      refine ⟨ho, fun h2 => ?_⟩
      simpa [byKey, show i ≠ 1 by omega] using hstop

theorem siftDown_ordered {fuel : ℕ} (ho : OrderedAround key h n i) (h1 : 1 ≤ i) (hin : i ≤ n)
    (hbelow : Below key x h i) (hfuel : n < fuel + i) :
    OrderedAround key (siftDown (byKey key) x n fuel h i).1 n
        (siftDown (byKey key) x n fuel h i).2 ∧
      Below key x (siftDown (byKey key) x n fuel h i).1 (siftDown (byKey key) x n fuel h i).2 ∧
      Above key x (siftDown (byKey key) x n fuel h i).1 n
        (siftDown (byKey key) x n fuel h i).2 := by
  induction fuel generalizing h i with
  | zero => omega
  | succ fuel ih =>
    -- the larger child, when it goes before `x`
    have child : ∀ j, (j = 2 * i ∨ j = 2 * i + 1) → j ≤ n → key x < key (h.slot j) →
        (∀ c, c ≤ n → c / 2 = i → key (h.slot c) ≤ key (h.slot j)) →
        OrderedAround key (siftDown (byKey key) x n fuel (h.place i (h.slot j)) j).1 n
          (siftDown (byKey key) x n fuel (h.place i (h.slot j)) j).2 ∧
        Below key x (siftDown (byKey key) x n fuel (h.place i (h.slot j)) j).1
          (siftDown (byKey key) x n fuel (h.place i (h.slot j)) j).2 ∧
        Above key x (siftDown (byKey key) x n fuel (h.place i (h.slot j)) j).1 n
          (siftDown (byKey key) x n fuel (h.place i (h.slot j)) j).2 := by
      intro j hj hjn hx hbest
      have hhalf : j / 2 = i := by omega
      apply ih (ho.down hhalf hjn hbest) (by omega) hjn
      · intro _
        rw [hhalf, place_slot_self]
        exact hx.le
      · omega
    have children : ∀ c, c / 2 = i → c = 2 * i ∨ c = 2 * i + 1 := by
      intro c hc
      omega
    simp only [siftDown, byKey, decide_eq_true_eq]
    split
    · rename_i hright
      split
      · rename_i hleft
        apply child _ (Or.inl rfl) hleft.1 (hright.2.trans hleft.2)
        intro c hcn hc
        obtain rfl | rfl := children c hc
        · exact le_rfl
        · exact hleft.2.le
      · rename_i hleft
        apply child _ (Or.inr rfl) hright.1 hright.2
        intro c hcn hc
        obtain rfl | rfl := children c hc
        · exact not_lt.mp fun hlt => hleft ⟨hcn, hlt⟩
        · exact le_rfl
    · rename_i hright
      split
      · rename_i hleft
        have hrx : 2 * i + 1 ≤ n → key (h.slot (2 * i + 1)) ≤ key x :=
          fun hn => not_lt.mp fun hlt => hright ⟨hn, hlt⟩
        split
        · rename_i hboth
          exact absurd (hboth.2.trans_le (hrx hboth.1)) (lt_asymm hleft.2)
        · apply child _ (Or.inl rfl) hleft.1 hleft.2
          intro c hcn hc
          obtain rfl | rfl := children c hc
          · exact le_rfl
          · exact (hrx hcn).trans hleft.2.le
      · rename_i hleft
        refine ⟨ho, hbelow, fun c hcn hc => ?_⟩
        obtain rfl | rfl := children c hc
        · exact not_lt.mp fun hlt => hleft ⟨hcn, hlt⟩
        · exact not_lt.mp fun hlt => hright ⟨hcn, hlt⟩

theorem OrderedAround.place (ho : OrderedAround key h n i) (hbelow : Below key x h i)
    (habove : Above key x h n i) : Ordered key (h.place i x) n := by
  intro j hj hjn
  by_cases hji : j = i
  · subst hji
    rw [place_slot_self, place_slot_ne _ _ (show j / 2 ≠ j by omega)]
    exact hbelow hj
  · rw [place_slot_ne _ _ hji]
    by_cases hc : j / 2 = i
    · rw [hc, place_slot_self]
      exact habove j hjn hc
    · rw [place_slot_ne _ _ hc]
      exact ho.except j hj hjn hji hc

theorem settleDown_ordered (ho : OrderedAround key h n i) (h1 : 1 ≤ i) (hin : i ≤ n)
    (hbelow : Below key x h i) : Ordered key (settleDown (byKey key) x n h i) n := by
  obtain ⟨ho', hb, ha⟩ := siftDown_ordered ho h1 hin hbelow (show n < n + i by omega)
  exact ho'.place hb ha

theorem siftUp_index (before : τ → τ → Bool) (x : τ) (fuel : ℕ) (h : Layout τ) {i : ℕ}
    (h1 : 1 ≤ i) : 1 ≤ (siftUp before x fuel h i).2 ∧ (siftUp before x fuel h i).2 ≤ i := by
  induction fuel generalizing h i with
  | zero => exact ⟨h1, le_rfl⟩
  | succ fuel ih =>
    rw [siftUp]
    split
    · rename_i hup
      obtain ⟨hone, hle⟩ := ih (h.place i (h.slot (i / 2))) (show 1 ≤ i / 2 by omega)
      exact ⟨hone, hle.trans (Nat.div_le_self i 2)⟩
    · exact ⟨h1, le_rfl⟩

theorem settle_ordered (ho : OrderedAround key h n i) (h1 : 1 ≤ i) (hin : i ≤ n) :
    Ordered key (settle (byKey key) x n h i) n := by
  obtain ⟨hone, hle⟩ := siftUp_index (byKey key) x i h h1
  obtain ⟨ho', hb⟩ := siftUp_ordered (x := x) ho h1 hin le_rfl
  exact settleDown_ordered ho' hone (hle.trans hin) hb

section

omit [DecidableEq τ]

theorem Ordered.holed_succ (ho : Ordered key h n) : OrderedAround key h (n + 1) (n + 1) :=
  ⟨fun j hj hjn hne _ => ho j hj (by omega), fun _ c hcn hc => by omega⟩

theorem Ordered.mono {m : ℕ} (ho : Ordered key h n) (hm : m ≤ n) : Ordered key h m :=
  fun j hj hjm => ho j hj (hjm.trans hm)

/-- Whatever the key of the entry at `i` becomes. -/
theorem Ordered.around {key' : τ → K} (ho : Ordered key h n) (hin : i ≤ n)
    (hkey : ∀ j, 1 ≤ j → j ≤ n → j ≠ i → key' (h.slot j) = key (h.slot j)) :
    OrderedAround key' h n i := by
  constructor
  · intro j hj hjn hji hpar
    rw [hkey j (by omega) hjn hji, hkey (j / 2) (by omega) (by omega) hpar]
    exact ho j hj hjn
  · intro h2 c hcn hc
    rw [hkey c (by omega) hcn (by omega), hkey (i / 2) (by omega) (by omega) (by omega)]
    have hchild := ho c (by omega) hcn
    rw [hc] at hchild
    exact hchild.trans (ho i h2 hin)

theorem Ordered.le_first (ho : Ordered key h n) {j : ℕ} (hj : 1 ≤ j) (hjn : j ≤ n) :
    key (h.slot j) ≤ key (h.slot 1) := by
  induction j using Nat.strong_induction_on with
  | _ j ih =>
    by_cases h1 : j = 1
    · rw [h1]
    · exact (ho j (by omega) hjn).trans (ih (j / 2) (by omega) (by omega) (by omega))

/-- Below the first entry, the second or the third one has the largest key. -/
theorem Ordered.le_second_or_third (ho : Ordered key h n) {j : ℕ} (hj : 2 ≤ j) (hjn : j ≤ n) :
    key (h.slot j) ≤ key (h.slot 2) ∨ 3 ≤ n ∧ key (h.slot j) ≤ key (h.slot 3) := by
  induction j using Nat.strong_induction_on with
  | _ j ih =>
    obtain rfl | rfl | h4 : j = 2 ∨ j = 3 ∨ 4 ≤ j := by omega
    · exact Or.inl le_rfl
    · exact Or.inr ⟨hjn, le_rfl⟩
    · have hup := ho j hj hjn
      obtain hsecond | ⟨hn, hthird⟩ := ih (j / 2) (by omega) (by omega) (by omega)
      · exact Or.inl (hup.trans hsecond)
      · exact Or.inr ⟨hn, hup.trans hthird⟩

end

end Order

end IndexedHeaps
