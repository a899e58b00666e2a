import Metakernel.AddressSpaces

/-!
# The collision test of address spaces

`collision_test` descends to the nearest mappings on both sides of an address, but calls the one
above `low` and the one below `high`, and reads `low` without a test for NULL. What follows says
when its answer is right all the same.
-/
namespace AddressSpaces

open LinkedTrees RedBlackTree AddressLookup ByteMemory

def Vm.mapSize (vm : Vm) (m : ℕ) : ℕ := (vm.objs (vm.maps m).obj).size

def Overlaps (vm : Vm) (addr size m : ℕ) : Prop :=
  ∃ a, (addr ≤ a ∧ a < addr + size) ∧ (vm.maps m).addr ≤ a ∧ a < (vm.maps m).addr + vm.mapSize m

structure SpaceTree (vm : Vm) (spc : ℕ) (t : NodeTree ℕ) : Prop where
  rep : TreeRep 0 vm.links 0 t (vm.spcs spc).objs
  nodup : t.toList.Nodup
  node : ∀ m ∈ t.toList, 0 < m ∧ m < 4294967296
  ordered : t.toList.Pairwise fun m n => (vm.maps m).addr ≤ (vm.maps n).addr
  inside : ∀ m ∈ t.toList,
    (vm.maps m).addr < 4294967296 ∧ (vm.maps m).addr + vm.mapSize m ≤ 4294967296
  disjoint : ∀ m ∈ t.toList, ∀ n ∈ t.toList, m ≠ n →
    ¬ Overlaps vm (vm.maps n).addr (vm.mapSize n) m

def TestExact (vm : Vm) (spc : ℕ) (t : NodeTree ℕ) (addr size : ℕ) : Prop :=
  ∃ r, collisionTest vm spc addr size = some r ∧
    (r = 0 ↔ ∀ m ∈ t.toList, ¬ Overlaps vm addr size m)

def MapExact (vm : Vm) (spc obj addr : ℕ) (flags : BitVec 32) (block : ℕ) (t : NodeTree ℕ) : Prop :=
  ∃ vm' r, vmobjMap vm spc obj addr flags block = some (vm', r) ∧
    (r = 0 ↔ ∀ m ∈ t.toList, ¬ Overlaps vm addr (vm.objs obj).size m)

def firstAbove (vm : Vm) (l : List ℕ) (addr : ℕ) : Option ℕ :=
  l.find? fun m => addr < (vm.maps m).addr

def lastBelow (vm : Vm) (l : List ℕ) (addr : ℕ) : Option ℕ :=
  l.reverse.find? fun m => (vm.maps m).addr < addr

/-- A mapping at the address itself, or one above it whose end does not wrap below the address, or
one on each side where the end of the request does not wrap below the lower one. -/
def Refused (vm : Vm) (l : List ℕ) (addr size : ℕ) : Prop :=
  (∃ m ∈ l, (vm.maps m).addr = addr) ∨
  ∃ low, firstAbove vm l addr = some low ∧
    (addr = 0 ∨ (vm.maps low).addr + vm.mapSize low < 4294967296 ∨
      ∃ high, lastBelow vm l addr = some high ∧
        (addr + size < 4294967296 ∨ (vm.maps high).addr = 0))

def bounds (vm : Vm) (addr : ℕ) : NodeTree ℕ → ℕ → ℕ → Option (ℕ × ℕ)
  | .nil, low, high => some (low, high)
  | .node _ l x r, low, high =>
    if addr < (vm.maps x).addr then bounds vm addr l x high
    else if addr > (vm.maps x).addr then bounds vm addr r low x
    else none

theorem boundsLoop_eq {vm : Vm} {addr : ℕ} : ∀ {t : NodeTree ℕ} {u p low high fuel : ℕ},
    TreeRep 0 vm.links u t p → t.toList.length < fuel →
    boundsLoop vm addr fuel p low high = some (bounds vm addr t low high)
  | .nil, u, p, low, high, fuel + 1, h, _ => by
    have hp : p = 0 := h
    simp [boundsLoop, bounds, hp]
  | .node b l x r, u, p, low, high, fuel + 1, h, hlen => by
    obtain ⟨rfl, hx, -, -, hl, hr⟩ := h
    rw [NodeTree.toList_node, List.length_append, List.length_cons] at hlen
    rw [boundsLoop, bounds, if_pos hx]
    split_ifs
    · exact boundsLoop_eq hl (by omega)
    · exact boundsLoop_eq hr (by omega)
    · rfl

/-- Whatever the shape of the tree, the descent ends with the nearest mappings on both sides. -/
theorem bounds_eq {vm : Vm} {addr : ℕ} : ∀ {t : NodeTree ℕ} {low high : ℕ},
    t.toList.Pairwise (fun m n => (vm.maps m).addr ≤ (vm.maps n).addr) →
    (∀ m ∈ t.toList, (vm.maps m).addr ≠ addr) →
    bounds vm addr t low high = some ((firstAbove vm t.toList addr).getD low,
      (lastBelow vm t.toList addr).getD high)
  | .nil, low, high, _, _ => rfl
  | .node b l x r, low, high, hs, hne => by
    rw [NodeTree.toList_node, List.pairwise_append, List.pairwise_cons] at hs
    obtain ⟨hl, ⟨hxr, hr⟩, hlx⟩ := hs
    have hle : ∀ m ∈ l.toList, (vm.maps m).addr ≤ (vm.maps x).addr :=
      fun m hm => hlx m hm x List.mem_cons_self
    have hx : (vm.maps x).addr ≠ addr := hne x (by simp)
    rw [bounds, NodeTree.toList_node]
    split_ifs with hlt hgt
    · rw [bounds_eq hl fun m hm => hne m (by simp [hm])]
      have hnone : r.toList.reverse.find? (fun m => decide ((vm.maps m).addr < addr)) = none := by
        rw [List.find?_eq_none]
        intro m hm
        have := hxr m (List.mem_reverse.mp hm)
        simp only [decide_eq_true_eq]
        omega
      simp only [firstAbove, lastBelow, List.find?_append, List.reverse_append, List.reverse_cons,
        List.find?_cons, hlt, hnone, decide_true, List.find?_nil]
      have hxb : ¬ (vm.maps x).addr < addr := by omega
      cases h : l.toList.find? fun m => decide (addr < (vm.maps m).addr) <;> simp [hxb]
    · rw [bounds_eq hr fun m hm => hne m (by simp [hm])]
      have hnone : l.toList.find? (fun m => decide (addr < (vm.maps m).addr)) = none := by
        rw [List.find?_eq_none]
        intro m hm
        have := hle m hm
        simp only [decide_eq_true_eq]
        omega
      simp only [firstAbove, lastBelow, List.find?_append, List.reverse_append, List.reverse_cons,
        List.find?_cons, hlt, hnone, decide_false, List.find?_nil]
      have hxb : (vm.maps x).addr < addr := hgt
      cases h : r.toList.reverse.find? fun m => decide ((vm.maps m).addr < addr) <;> simp [hxb]
    · omega

theorem bounds_none {vm : Vm} {addr m : ℕ} : ∀ {t : NodeTree ℕ} {low high : ℕ},
    t.toList.Pairwise (fun m n => (vm.maps m).addr ≤ (vm.maps n).addr) → m ∈ t.toList →
    (vm.maps m).addr = addr → bounds vm addr t low high = none
  | .node b l x r, low, high, hs, hm, ha => by
    rw [NodeTree.toList_node, List.pairwise_append, List.pairwise_cons] at hs
    obtain ⟨hl, ⟨hxr, hr⟩, hlx⟩ := hs
    rw [NodeTree.toList_node, List.mem_append, List.mem_cons] at hm
    rw [bounds]
    split_ifs with hlt hgt
    · rcases hm with hm | rfl | hm
      · exact bounds_none hl hm ha
      · omega
      · have := hxr m hm
        omega
    · rcases hm with hm | rfl | hm
      · have := hlx m hm x List.mem_cons_self
        omega
      · omega
      · exact bounds_none hr hm ha
    · rfl

section Answer

variable {vm : Vm} {spc addr size : ℕ} {t : NodeTree ℕ}

theorem firstAbove_spec {l : List ℕ} {low : ℕ} (h : firstAbove vm l addr = some low) :
    low ∈ l ∧ addr < (vm.maps low).addr :=
  ⟨List.mem_of_find?_eq_some h, by simpa using List.find?_some h⟩

theorem lastBelow_spec {l : List ℕ} {high : ℕ} (h : lastBelow vm l addr = some high) :
    high ∈ l ∧ (vm.maps high).addr < addr :=
  ⟨List.mem_reverse.mp (List.mem_of_find?_eq_some h), by simpa using List.find?_some h⟩

theorem SpaceTree.loop (h : SpaceTree vm spc t) :
    boundsLoop vm addr loopBound (vm.spcs spc).objs 0 0 = some (bounds vm addr t 0 0) :=
  boundsLoop_eq h.rep (length_lt h.nodup h.node)

theorem SpaceTree.test (h : SpaceTree vm spc t)
    (hne : ∀ m ∈ t.toList, (vm.maps m).addr ≠ addr) :
    collisionTest vm spc addr size =
      match firstAbove vm t.toList addr, lastBelow vm t.toList addr with
      | none, _ => none
      | some low, none =>
        if wadd (vm.maps low).addr (vm.mapSize low) < addr then none else some 1
      | some low, some high =>
        if wadd (vm.maps low).addr (vm.mapSize low) < addr then
          if (vm.maps high).addr > wadd addr size then some 0 else some 1
        else some 1 := by
  rw [collisionTest, h.loop, bounds_eq h.ordered hne]
  simp only [Option.bind_eq_bind, Option.bind_some]
  cases hlow : firstAbove vm t.toList addr with
  | none => simp
  | some low =>
    have hl := (h.node low (firstAbove_spec hlow).1).1.ne'
    cases hhigh : lastBelow vm t.toList addr with
    | none =>
      simp only [Option.getD_some, Option.getD_none, hl, if_false, if_true]
      rfl
    | some high =>
      have hh := (h.node high (lastBelow_spec hhigh).1).1.ne'
      simp [hl, hh, Vm.mapSize]

/-- The end of a range that ends with the address space wraps to 0. -/
theorem wadd_cases {a b : ℕ} (h : a + b ≤ 4294967296) :
    a + b < 4294967296 ∧ wadd a b = a + b ∨ a + b = 4294967296 ∧ wadd a b = 0 := by
  unfold wadd
  omega

theorem SpaceTree.test_refused (h : SpaceTree vm spc t) (hsize : addr + size ≤ 4294967296)
    (hr : Refused vm t.toList addr size) : collisionTest vm spc addr size = some 1 := by
  by_cases hhit : ∃ m ∈ t.toList, (vm.maps m).addr = addr
  · obtain ⟨m, hm, ha⟩ := hhit
    rw [collisionTest, h.loop, bounds_none h.ordered hm ha]
    rfl
  · push Not at hhit
    obtain ⟨m, hm, ha⟩ | ⟨low, hlow, hcase⟩ := hr
    · exact absurd ha (hhit m hm)
    · have hin := (h.inside low (firstAbove_spec hlow).1).2
      have hlt := (firstAbove_spec hlow).2
      have hend := wadd_cases hin
      rw [h.test hhit, hlow]
      rcases hcase with rfl | hbelow | ⟨high, hhigh, hcase⟩
      · cases lastBelow vm t.toList 0 <;> simp
      · cases lastBelow vm t.toList addr <;> simp <;> omega
      · rw [hhigh]
        have hrend := wadd_cases hsize
        have := (lastBelow_spec hhigh).2
        simp only
        split_ifs <;> first | rfl | omega

theorem SpaceTree.test_not_refused (h : SpaceTree vm spc t) (hsize : addr + size ≤ 4294967296)
    (hr : ¬ Refused vm t.toList addr size) : collisionTest vm spc addr size = none ∨
      collisionTest vm spc addr size = some 0 ∧ ∃ m ∈ t.toList, Overlaps vm addr size m := by
  have hhit : ∀ m ∈ t.toList, (vm.maps m).addr ≠ addr := fun m hm ha => hr (Or.inl ⟨m, hm, ha⟩)
  rw [h.test hhit]
  cases hlow : firstAbove vm t.toList addr with
  | none => exact Or.inl rfl
  | some low =>
    obtain ⟨hmem, hlt⟩ := firstAbove_spec hlow
    have hin := h.inside low hmem
    have hend := wadd_cases hin.2
    have hcase : addr ≠ 0 ∧ (vm.maps low).addr + vm.mapSize low = 4294967296 := by
      by_contra hn
      exact hr (Or.inr ⟨low, hlow, by omega⟩)
    have hwrap : wadd (vm.maps low).addr (vm.mapSize low) < addr := by omega
    cases hhigh : lastBelow vm t.toList addr with
    | none =>
      left
      simp only [hwrap, if_true]
    | some high =>
      right
      have hrend := wadd_cases hsize
      have hends : addr + size = 4294967296 ∧ (vm.maps high).addr ≠ 0 := by
        by_contra hn
        exact hr (Or.inr ⟨low, hlow, Or.inr (Or.inr ⟨high, hhigh, by omega⟩)⟩)
      have hgt : (vm.maps high).addr > wadd addr size := by omega
      simp only [hwrap, hgt, if_true, true_and]
      exact ⟨low, hmem, (vm.maps low).addr, by omega, le_refl _, by omega⟩

theorem SpaceTree.testExact_iff (h : SpaceTree vm spc t) (hsize : addr + size ≤ 4294967296) :
    TestExact vm spc t addr size ↔
      (∃ m ∈ t.toList, Overlaps vm addr size m) ∧ Refused vm t.toList addr size := by
  by_cases hr : Refused vm t.toList addr size
  · have htest := h.test_refused hsize hr
    constructor
    · rintro ⟨r, hrun, hexact⟩
      rw [htest, Option.some_inj] at hrun
      subst hrun
      by_contra hfree
      have hzero := hexact.mpr fun m hm ho => hfree ⟨⟨m, hm, ho⟩, hr⟩
      exact absurd hzero (by decide)
    · rintro ⟨⟨m, hm, ho⟩, -⟩
      exact ⟨1, htest, fun hzero => absurd hzero (by decide), fun hfree => absurd ho (hfree m hm)⟩
  · constructor
    · rintro ⟨r, hrun, hexact⟩
      rcases h.test_not_refused hsize hr with hnone | ⟨hzero, m, hm, ho⟩
      · rw [hnone] at hrun
        cases hrun
      · rw [hzero, Option.some_inj] at hrun
        exact absurd ho (hexact.mp hrun.symm m hm)
    · exact fun hcond => absurd hcond.2 hr

theorem SpaceTree.mapExact_iff {obj block : ℕ} {flags : BitVec 32} (h : SpaceTree vm spc t)
    (hsize : addr + (vm.objs obj).size ≤ 4294967296) (hspc : spc ≠ 0) (hobj : obj ≠ 0)
    (hblock : block ≠ 0) : MapExact vm spc obj addr flags block t ↔
      TestExact vm spc t addr (vm.objs obj).size := by
  have hlock : ¬ (spc = 0 ∨ obj = 0) := by tauto
  by_cases hr : Refused vm t.toList addr (vm.objs obj).size
  · have htest := h.test_refused hsize hr
    have hrun : vmobjMap vm spc obj addr flags block = some (vm, -1) := by
      rw [vmobjMap, if_neg hlock, htest]
      rfl
    constructor
    · rintro ⟨vm', r, hrun', hexact⟩
      rw [hrun, Option.some_inj, Prod.mk.injEq] at hrun'
      refine ⟨1, htest, fun hzero => absurd hzero (by decide), fun hfree => ?_⟩
      exact absurd (hrun'.2.trans (hexact.mpr hfree)) (by decide)
    · rintro ⟨r, hrun', hexact⟩
      rw [htest, Option.some_inj] at hrun'
      refine ⟨vm, -1, hrun, fun hzero => absurd hzero (by decide), fun hfree => ?_⟩
      exact absurd (hrun'.trans (hexact.mpr hfree)) (by decide)
  · rw [h.testExact_iff hsize]
    refine iff_of_false ?_ (fun hcond => hr hcond.2)
    rintro ⟨vm', r, hrun, hexact⟩
    rw [vmobjMap, if_neg hlock] at hrun
    rcases h.test_not_refused hsize hr with hnone | ⟨hzero, m, hm, ho⟩
    · rw [hnone] at hrun
      cases hrun
    · rw [hzero] at hrun
      simp only [Option.bind_eq_bind, Option.bind_some, true_and, hblock, ne_eq, not_false_eq_true,
        if_true, Option.bind_eq_some_iff, Option.some_inj, Prod.mk.injEq] at hrun
      obtain ⟨-, -, -, hret⟩ := hrun
      exact absurd ho (hexact.mp hret.symm m hm)

end Answer

/-- The test, and the call that relies on it, are right exactly on requests that meet a mapping
and are refused; a request for a free range never succeeds. -/
theorem collision_test_exact {vm : Vm} {spc addr size : ℕ} {t : NodeTree ℕ}
    (h : SpaceTree vm spc t) (hsize : addr + size ≤ 4294967296) :
    (TestExact vm spc t addr size ↔
      (∃ m ∈ t.toList, Overlaps vm addr size m) ∧ Refused vm t.toList addr size) ∧
    ∀ obj flags block, spc ≠ 0 → obj ≠ 0 → block ≠ 0 → (vm.objs obj).size = size →
      (MapExact vm spc obj addr flags block t ↔
        (∃ m ∈ t.toList, Overlaps vm addr size m) ∧ Refused vm t.toList addr size) := by
  refine ⟨h.testExact_iff hsize, ?_⟩
  rintro obj flags block hspc hobj hblock rfl
  rw [h.mapExact_iff hsize hspc hobj hblock]
  exact h.testExact_iff hsize

/-- One mapping of a page at 8192, with the node at 100, in every space. -/
def onePage : Vm where
  maps _ := ⟨0, 8192, 16, 8, 0⟩
  links := ⟨fun _ => 0, fun _ => 0, fun _ => 0, fun _ => 1⟩
  spcs _ := ⟨1, 0, 0, 0, 100⟩
  objs _ := ⟨1, 0, 4096, 1, fun _ => 0, 0, 0, 0⟩
  addrTab _ := 0
  vmObjTab _ := 0
  freed := []

theorem onePage_tree : SpaceTree onePage 8 (.node true .nil 100 .nil) := by
  refine ⟨⟨rfl, by decide, rfl, rfl, rfl, rfl⟩, by decide, ?_, ?_, ?_, ?_⟩ <;>
    simp [onePage, Vm.mapSize]

theorem collision_test_exact_below :
    TestExact onePage 8 (.node true .nil 100 .nil) 4097 4096 ∧
      MapExact onePage 8 16 4097 0 200 (.node true .nil 100 .nil) := by
  have hcond : (∃ m ∈ (NodeTree.node true .nil 100 .nil).toList, Overlaps onePage 4097 4096 m) ∧
      Refused onePage (NodeTree.node true .nil 100 .nil).toList 4097 4096 :=
    ⟨⟨100, by decide, 8192, by decide⟩, Or.inr ⟨100, by decide, Or.inr (Or.inl (by decide))⟩⟩
  have h := collision_test_exact onePage_tree (by norm_num : 4097 + 4096 ≤ 4294967296)
  exact ⟨h.1.mpr hcond, (h.2 16 0 200 (by decide) (by decide) (by decide) rfl).mpr hcond⟩

/-- The page at 0 is free and the test says it is not; above the page, and in a space without
mappings, the test follows NULL. -/
theorem collision_test_refuses_free : SpaceTree onePage 8 (.node true .nil 100 .nil) ∧
    (∀ m ∈ (NodeTree.node true .nil 100 .nil).toList, ¬ Overlaps onePage 0 4096 m) ∧
    collisionTest onePage 8 0 4096 = some 1 ∧
    (vmobjMap onePage 8 16 0 0 200).map Prod.snd = some (-1) ∧
    collisionTest onePage 8 16384 4096 = none ∧
    collisionTest (onePage.setSpc 8 ⟨1, 0, 0, 0, 0⟩) 8 0 4096 = none ∧
    ¬ TestExact onePage 8 (.node true .nil 100 .nil) 0 4096 := by
  have hfree : ∀ m ∈ (NodeTree.node true .nil 100 .nil).toList, ¬ Overlaps onePage 0 4096 m := by
    rintro m hm ⟨a, ha, hb, -⟩
    simp [onePage] at hb
    omega
  have htest : collisionTest onePage 8 0 4096 = some 1 := by
    rw [onePage_tree.test_refused (by norm_num)]
    exact Or.inr ⟨100, by decide, Or.inl rfl⟩
  refine ⟨onePage_tree, hfree, htest, by decide +kernel, by decide +kernel, by decide +kernel, ?_⟩
  rintro ⟨r, hrun, hexact⟩
  rw [htest, Option.some_inj] at hrun
  exact absurd (hrun.trans (hexact.mpr hfree)) (by decide)

end AddressSpaces
