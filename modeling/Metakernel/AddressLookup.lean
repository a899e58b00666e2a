import Metakernel.ByteMemory
import Metakernel.RedBlackInsertion
import Mathlib.Data.Finset.Range
import Mathlib.Data.Finset.Card

/-!
# Mappings of an address space

The tree of virt_mem.c orders mappings by the address of their `vmap_t` nodes, and the lookup
descends by the mapped address. Addresses are 32-bit words and NULL is 0.
-/
namespace AddressLookup

open LinkedTrees RedBlackTree ByteMemory

/-- The comparison of node pointers that the tree is built with. -/
def comp (x y : ℕ) : ℤ := if x > y then 1 else if x ≠ y then -1 else 0

/-- The number of rounds after which a loop counts as endless. -/
def loopBound : ℕ := 4294967296

def vmapTreeInsert (s : Links ℕ) (tree inn : ℕ) : Option (Links ℕ × ℕ) :=
  treeInsert 0 comp loopBound s tree inn

structure Vmaps where
  addr : ℕ → ℕ
  size : ℕ → ℕ

def closestLoop (v : Vmaps) (s : Links ℕ) (addr : ℕ) : ℕ → ℕ → ℕ → Option ℕ
  | 0, _, _ => none
  | fuel + 1, tree, lastRight =>
    if tree ≠ 0 then
      if addr < v.addr tree then closestLoop v s addr fuel (s.left tree) lastRight
      else if addr > v.addr tree then closestLoop v s addr fuel (s.right tree) tree
      else some tree
    else some lastRight

def getClosestLow (v : Vmaps) (s : Links ℕ) (tree addr : ℕ) : Option ℕ :=
  closestLoop v s addr loopBound tree 0

/-- The end of the range is computed on pointers, so it wraps at the end of the address space. -/
def getMappingObj (v : Vmaps) (s : Links ℕ) (objs addr : ℕ) : Option ℕ := do
  let out ← getClosestLow v s objs addr
  if out ≠ 0 ∧ addr < wadd (v.addr out) (v.size out) then some out else some 0

def insertAll : Links ℕ → ℕ → List ℕ → Option (Links ℕ × ℕ)
  | s, tree, [] => some (s, tree)
  | s, tree, m :: ms => do
    let (s, tree) ← vmapTreeInsert s tree m
    insertAll s tree ms

def Vmaps.Contains (v : Vmaps) (m a : ℕ) : Prop := v.addr m ≤ a ∧ a < v.addr m + v.size m

structure Mappings (v : Vmaps) (ms : List ℕ) : Prop where
  nodup : ms.Nodup
  node : ∀ m ∈ ms, 0 < m ∧ m < 4294967296
  occupied : ∀ m ∈ ms, 0 < v.size m
  inside : ∀ m ∈ ms, v.addr m + v.size m ≤ 4294967296
  disjoint : ∀ m ∈ ms, ∀ n ∈ ms, m ≠ n →
    v.addr m + v.size m ≤ v.addr n ∨ v.addr n + v.size n ≤ v.addr m

/-- Every lookup returns the mapping around the address, or NULL when there is none. -/
def LookupCorrect (v : Vmaps) (s : Links ℕ) (tree : ℕ) (ms : List ℕ) : Prop :=
  ∀ a, a < 4294967296 →
    (∀ m ∈ ms, v.Contains m a → getMappingObj v s tree a = some m) ∧
    ((∀ m ∈ ms, ¬ v.Contains m a) → getMappingObj v s tree a = some 0)

theorem comp_ordered : Ordered comp := by
  constructor
  · intro a b
    unfold comp
    split_ifs <;> omega
  · intro a b c
    unfold comp
    split_ifs <;> omega

theorem sorted_lt {l : List ℕ} (hs : Sorted comp l) (hnd : l.Nodup) : l.Pairwise (· < ·) := by
  apply List.Pairwise.imp₂ _ hs hnd
  intro a b hle hne
  unfold comp at hle
  split_ifs at hle <;> omega

theorem length_lt {l : List ℕ} (hnd : l.Nodup) (hl : ∀ m ∈ l, 0 < m ∧ m < 4294967296) :
    l.length < loopBound := by
  have hsub : l.toFinset ⊆ (Finset.range 4294967296).erase 0 := by
    intro m hm
    obtain ⟨h₁, h₂⟩ := hl m (List.mem_toFinset.mp hm)
    exact Finset.mem_erase.mpr ⟨by omega, Finset.mem_range.mpr h₂⟩
  have hcard := Finset.card_le_card hsub
  rw [List.toFinset_card_of_nodup hnd,
    Finset.card_erase_of_mem (Finset.mem_range.mpr (by norm_num)), Finset.card_range] at hcard
  unfold loopBound
  omega

/-- Every sequence of insertions of different nodes returns a tree of these nodes, ordered by
their pointers. -/
theorem insertAll_rep {ms : List ℕ} : ∀ {s : Links ℕ} {t : NodeTree ℕ} {tree : ℕ},
    TreeRep 0 s 0 t tree → t.black = true → Sorted comp t.toList → (t.toList ++ ms).Nodup →
    (∀ m ∈ t.toList ++ ms, 0 < m ∧ m < 4294967296) →
    ∃ s' tree' t', insertAll s tree ms = some (s', tree') ∧ TreeRep 0 s' 0 t' tree' ∧
      Sorted comp t'.toList ∧ (t.toList ++ ms).Perm t'.toList := by
  induction ms with
  | nil =>
    intro s t tree hrep _ hs _ _
    exact ⟨s, tree, t, rfl, hrep, hs, by simp⟩
  | cons m ms ih =>
    intro s t tree hrep hblack hs hnd hnode
    have hndt : t.toList.Nodup := (List.nodup_append.mp hnd).1
    have hfresh : m ∉ t.toList := fun hm => (List.nodup_append.mp hnd).2.2 m hm m (by simp) rfl
    have hm := hnode m (by simp)
    have hlen := length_lt hndt fun x hx => hnode x (by simp [hx])
    obtain ⟨s₁, tree₁, t₁, hrun, hrep₁, hblack₁, hs₁, ⟨l, r, hl, hr⟩, _⟩ :=
      treeInsert_rep comp_ordered hrep hndt hblack hs (show m ≠ 0 by omega) hfresh hlen
    have hperm : (t.toList ++ m :: ms).Perm (t₁.toList ++ ms) := by
      rw [hl, hr]
      have h₁ : (l ++ r ++ m :: ms).Perm (m :: (l ++ r ++ ms)) := List.perm_middle
      have h₂ : (l ++ m :: (r ++ ms)).Perm (m :: (l ++ (r ++ ms))) := List.perm_middle
      rw [List.append_assoc l (m :: r) ms, List.cons_append]
      exact h₁.trans (by rw [List.append_assoc]; exact h₂.symm)
    obtain ⟨s', tree', t', hrest, hrep', hs', hperm'⟩ := ih hrep₁ hblack₁ hs₁
      (hperm.nodup_iff.mp hnd) (fun x hx => hnode x (hperm.mem_iff.mpr hx))
    refine ⟨s', tree', t', ?_, hrep', hs', hperm.trans hperm'⟩
    rw [insertAll, vmapTreeInsert, hrun, Option.bind_eq_bind, Option.bind_some]
    exact hrest

/-- The descent of `get_closest_low` on the tree. -/
def closest (v : Vmaps) (a : ℕ) : NodeTree ℕ → ℕ → ℕ
  | .nil, last => last
  | .node _ l x r, last =>
    if a < v.addr x then closest v a l last else if a > v.addr x then closest v a r x else x

theorem closestLoop_eq {v : Vmaps} {s : Links ℕ} {a : ℕ} :
    ∀ {t : NodeTree ℕ} {u p last fuel : ℕ}, TreeRep 0 s u t p → t.toList.length < fuel →
    closestLoop v s a fuel p last = some (closest v a t last)
  | .nil, _, p, last, fuel + 1, h, _ => by
    have hzero : p = 0 := h
    have hp : ¬ p ≠ 0 := by simp [hzero]
    rw [closestLoop, if_neg hp, closest]
  | .node b l x r, _, p, last, fuel + 1, ⟨hp, hx, _, _, hl, hr⟩, hf => by
    subst hp
    simp only [NodeTree.toList_node, List.length_append, List.length_cons] at hf
    rw [closestLoop, if_pos hx, closest, closestLoop_eq hl (by omega), closestLoop_eq hr (by omega)]
    by_cases h₁ : a < v.addr p
    · rw [if_pos h₁, if_pos h₁]
    · rw [if_neg h₁, if_neg h₁]
      by_cases h₂ : a > v.addr p
      · rw [if_pos h₂, if_pos h₂]
      · rw [if_neg h₂, if_neg h₂]

theorem closest_mem (v : Vmaps) (a : ℕ) : ∀ (t : NodeTree ℕ) (last : ℕ),
    closest v a t last = last ∨ closest v a t last ∈ t.toList
  | .nil, last => Or.inl rfl
  | .node b l x r, last => by
    rw [closest]
    split
    · rcases closest_mem v a l last with h | h
      · exact Or.inl h
      · exact Or.inr (by simp [h])
    · split
      · rcases closest_mem v a r x with h | h
        · exact Or.inr (by simp [h])
        · exact Or.inr (by simp [h])
      · exact Or.inr (by simp)

/-- In a tree that is ordered by mapped address the descent finds the last node at or below
the address. -/
theorem closest_greatest {v : Vmaps} {a : ℕ} : ∀ (t : NodeTree ℕ) (last : ℕ),
    t.toList.Pairwise (fun m n => v.addr m < v.addr n) →
    (∀ m ∈ t.toList, v.addr m ≤ a → v.addr m ≤ v.addr (closest v a t last) ∧
      v.addr (closest v a t last) ≤ a ∧ closest v a t last ∈ t.toList) ∧
    ((∀ m ∈ t.toList, a < v.addr m) → closest v a t last = last)
  | .nil, last, _ => ⟨by simp, fun _ => rfl⟩
  | .node b l x r, last, hs => by
    obtain ⟨hl, hxr, hlr⟩ := List.pairwise_append.mp hs
    obtain ⟨hxr, hr⟩ := List.pairwise_cons.mp hxr
    have hlx : ∀ m ∈ l.toList, v.addr m < v.addr x := fun m hm => hlr m hm x (by simp)
    rw [closest]
    by_cases h₁ : a < v.addr x
    · rw [if_pos h₁]
      obtain ⟨ih₁, ih₂⟩ := closest_greatest (a := a) l last hl
      constructor
      · intro m hm hle
        rcases List.mem_append.mp hm with hm | hm
        · obtain ⟨h, h', h''⟩ := ih₁ m hm hle
          exact ⟨h, h', by simp [h'']⟩
        · rcases List.mem_cons.mp hm with rfl | hm
          · omega
          · have := hxr m hm
            omega
      · exact fun hall => ih₂ fun m hm => hall m (by simp [hm])
    · rw [if_neg h₁]
      by_cases h₂ : a > v.addr x
      · rw [if_pos h₂]
        obtain ⟨ih₁, ih₂⟩ := closest_greatest (a := a) r x hr
        -- either some node of the right subtree is low enough, or the answer is `x`
        have hcase : (v.addr x ≤ v.addr (closest v a r x) ∧ v.addr (closest v a r x) ≤ a ∧
            closest v a r x ∈ (NodeTree.node b l x r).toList) := by
          by_cases hany : ∃ m ∈ r.toList, v.addr m ≤ a
          · obtain ⟨m, hm, hle⟩ := hany
            obtain ⟨h, h', h''⟩ := ih₁ m hm hle
            have := hxr m hm
            exact ⟨by omega, h', by simp [h'']⟩
          · have heq := ih₂ fun m hm => by
              by_contra hge
              exact hany ⟨m, hm, by omega⟩
            rw [heq]
            exact ⟨le_refl _, by omega, by simp⟩
        constructor
        · intro m hm hle
          refine ⟨?_, hcase.2⟩
          rcases List.mem_append.mp hm with hm | hm
          · have := hlx m hm
            omega
          · rcases List.mem_cons.mp hm with rfl | hm
            · exact hcase.1
            · exact (ih₁ m hm hle).1
        · intro hall
          have := hall x (by simp)
          omega
      · rw [if_neg h₂]
        constructor
        · intro m hm hle
          exact ⟨by omega, by omega, by simp⟩
        · intro hall
          have := hall x (by simp)
          omega

/-- A descent that finds every node by its own address follows an order by address. -/
theorem ordered_of_closest {v : Vmaps} : ∀ {t : NodeTree ℕ} {last : ℕ}, t.toList.Nodup →
    last ∉ t.toList → (∀ m ∈ t.toList, closest v (v.addr m) t last = m) →
    t.toList.Pairwise (fun m n => v.addr m < v.addr n)
  | .nil, _, _, _, _ => List.Pairwise.nil
  | .node b l x r, last, hnd, hlast, hfind => by
    obtain ⟨hndl, hndr, hxl, hxr, hlr⟩ :=
      NodeTree.nodup_join.mp (show (NodeTree.join true b l x r).toList.Nodup from hnd)
    simp only [NodeTree.toList_node, List.mem_append, List.mem_cons, not_or] at hlast
    have hleft : ∀ m ∈ l.toList, v.addr m < v.addr x ∧ closest v (v.addr m) l last = m := by
      intro m hm
      have hm' := hfind m (by simp [hm])
      rw [closest] at hm'
      by_cases h₁ : v.addr m < v.addr x
      · rw [if_pos h₁] at hm'
        exact ⟨h₁, hm'⟩
      · rw [if_neg h₁] at hm'
        exfalso
        split at hm'
        · rcases closest_mem v (v.addr m) r x with h | h
          · rw [hm'] at h
            exact hxl (h ▸ hm)
          · rw [hm'] at h
            exact hlr m hm h
        · exact hxl (hm' ▸ hm)
    have hright : ∀ m ∈ r.toList, v.addr x < v.addr m ∧ closest v (v.addr m) r x = m := by
      intro m hm
      have hm' := hfind m (by simp [hm])
      rw [closest] at hm'
      by_cases h₁ : v.addr m < v.addr x
      · rw [if_pos h₁] at hm'
        exfalso
        rcases closest_mem v (v.addr m) l last with h | h
        · rw [hm'] at h
          exact hlast.2.2 (h ▸ hm)
        · rw [hm'] at h
          exact hlr m h hm
      · rw [if_neg h₁] at hm'
        by_cases h₂ : v.addr m > v.addr x
        · rw [if_pos h₂] at hm'
          exact ⟨h₂, hm'⟩
        · rw [if_neg h₂] at hm'
          exact absurd (hm' ▸ hm) hxr
    refine List.pairwise_append.mpr ⟨?_, List.pairwise_cons.mpr ⟨?_, ?_⟩, ?_⟩
    · exact ordered_of_closest hndl hlast.1 fun m hm => (hleft m hm).2
    · exact fun m hm => (hright m hm).1
    · exact ordered_of_closest hndr hxr fun m hm => (hright m hm).2
    · intro m hm n hn
      have h₁ := (hleft m hm).1
      rcases List.mem_cons.mp hn with rfl | hn
      · exact h₁
      · have h₂ := (hright n hn).1
        omega

def SameOrder (v : Vmaps) (ms : List ℕ) : Prop :=
  (∀ m ∈ ms, ∀ n ∈ ms, m < n → v.addr m < v.addr n) ∧
    ∀ m ∈ ms, v.addr m + v.size m < 4294967296

theorem getMappingObj_eq {v : Vmaps} {s : Links ℕ} {t : NodeTree ℕ} {tree a : ℕ}
    (hrep : TreeRep 0 s 0 t tree) (hlen : t.toList.length < loopBound) :
    getMappingObj v s tree a =
      let out := closest v a t 0
      if out ≠ 0 ∧ a < wadd (v.addr out) (v.size out) then some out else some 0 := by
  rw [getMappingObj, getClosestLow, closestLoop_eq hrep hlen, Option.bind_eq_bind,
    Option.bind_some]

/-- The lookups in a tree of the mappings that is ordered by node pointers are right exactly
when the two orders agree. -/
theorem lookupCorrect_iff {v : Vmaps} {s : Links ℕ} {t : NodeTree ℕ} {tree : ℕ} {ms : List ℕ}
    (hms : Mappings v ms) (hrep : TreeRep 0 s 0 t tree) (hs : Sorted comp t.toList)
    (hperm : ms.Perm t.toList) : LookupCorrect v s tree ms ↔ SameOrder v ms := by
  have hnd : t.toList.Nodup := hperm.nodup_iff.mp hms.nodup
  have hlen := length_lt hnd fun m hm => hms.node m (hperm.mem_iff.mpr hm)
  have hlt := sorted_lt hs hnd
  have hzero : 0 ∉ t.toList := by
    intro h
    have := (hms.node 0 (hperm.mem_iff.mpr h)).1
    omega
  constructor
  · intro hcorrect
    -- every mapping is found at its own address
    have hself : ∀ m ∈ ms, closest v (v.addr m) t 0 = m ∧ v.addr m + v.size m < 4294967296 := by
      intro m hm
      have hpos := hms.occupied m hm
      have hin := hms.inside m hm
      have hget := (hcorrect (v.addr m) (by omega)).1 m hm ⟨le_refl _, by omega⟩
      rw [getMappingObj_eq hrep hlen] at hget
      have hm0 := (hms.node m hm).1
      simp only at hget
      split at hget
      · next hcond =>
        have heq := Option.some.inj hget
        refine ⟨heq, ?_⟩
        have hw := hcond.2
        rw [heq] at hw
        unfold wadd at hw
        omega
      · exact absurd (Option.some.inj hget) (by omega)
    have hord := ordered_of_closest hnd hzero fun m hm => (hself m (hperm.mem_iff.mpr hm)).1
    refine ⟨?_, fun m hm => (hself m hm).2⟩
    have hboth := hlt.and hord
    have hsymm : Std.Symm fun m n => (m < n → v.addr m < v.addr n) ∧
        (n < m → v.addr n < v.addr m) := ⟨fun _ _ h => ⟨h.2, h.1⟩⟩
    have hagree : t.toList.Pairwise fun m n => (m < n → v.addr m < v.addr n) ∧
        (n < m → v.addr n < v.addr m) :=
      hboth.imp fun h => ⟨fun _ => h.2, fun h' => absurd h.1 (by omega)⟩
    intro m hm n hn
    exact (hagree.forall_of_forall (fun _ _ => ⟨fun h => absurd h (lt_irrefl _),
      fun h => absurd h (lt_irrefl _)⟩) (hperm.mem_iff.mp hm) (hperm.mem_iff.mp hn)).1
  · rintro ⟨hsame, hwrap⟩ a ha
    have hord : t.toList.Pairwise (fun m n => v.addr m < v.addr n) :=
      hlt.imp_of_mem fun hm hn h => hsame _ (hperm.mem_iff.mpr hm) _ (hperm.mem_iff.mpr hn) h
    obtain ⟨hgreat, hnone⟩ := closest_greatest (a := a) t 0 hord
    rw [getMappingObj_eq hrep hlen]
    simp only
    constructor
    · intro m hm hcon
      obtain ⟨hle, hca, hcm⟩ := hgreat m (hperm.mem_iff.mp hm) hcon.1
      have hc := hperm.mem_iff.mpr hcm
      have heq : closest v a t 0 = m := by
        by_contra hne
        have hdis := hms.disjoint _ hc m hm hne
        have hpos := hms.occupied _ hc
        obtain ⟨h₁, h₂⟩ := hcon
        omega
      have hm0 := (hms.node m hm).1
      have hw := hwrap m hm
      rw [heq, if_pos]
      refine ⟨by omega, ?_⟩
      rw [wadd_eq hw]
      exact hcon.2
    · intro hno
      by_cases hany : ∃ m ∈ t.toList, v.addr m ≤ a
      · obtain ⟨m, hm, hle⟩ := hany
        obtain ⟨_, hca, hcm⟩ := hgreat m hm hle
        have hc := hperm.mem_iff.mpr hcm
        rw [if_neg]
        rintro ⟨_, hlt'⟩
        rw [wadd_eq (hwrap _ hc)] at hlt'
        exact hno _ hc ⟨hca, hlt'⟩
      · have heq := hnone fun m hm => by
          by_contra hge
          exact hany ⟨m, hm, by omega⟩
        rw [heq, if_neg (by simp)]

theorem insertAll_empty {v : Vmaps} {ms : List ℕ} (hms : Mappings v ms) (s : Links ℕ) :
    ∃ s' tree t, insertAll s 0 ms = some (s', tree) ∧ TreeRep 0 s' 0 t tree ∧
      Sorted comp t.toList ∧ ms.Perm t.toList := by
  have hrep : TreeRep 0 s 0 (.nil : NodeTree ℕ) 0 := rfl
  obtain ⟨s', tree, t, hrun, hrep', hs, hperm⟩ := insertAll_rep hrep rfl List.Pairwise.nil
    (by simpa using hms.nodup) (by simpa using hms.node)
  exact ⟨s', tree, t, hrun, hrep', hs, by simpa using hperm⟩

/-- Any insertions of the mappings into an empty address space build a tree, and the lookups in
it are all right exactly when the node pointers have the order of the mapped addresses and no
range ends at the end of the address space. -/
theorem lookup_finds_mapping {v : Vmaps} {ms : List ℕ} (hms : Mappings v ms) (s : Links ℕ) :
    ∃ s' tree, insertAll s 0 ms = some (s', tree) ∧
      (LookupCorrect v s' tree ms ↔ SameOrder v ms) := by
  obtain ⟨s', tree, t, hrun, hrep, hs, hperm⟩ := insertAll_empty hms s
  exact ⟨s', tree, hrun, lookupCorrect_iff hms hrep hs hperm⟩

def twoPages (low high : ℕ) : Vmaps where
  addr m := if m = low then 0x1000 else if m = high then 0x2000 else 0
  size _ := 0x1000

theorem twoPages_mappings (low high : ℕ) (hl : 0 < low ∧ low < 4294967296)
    (hh : 0 < high ∧ high < 4294967296) (hne : low ≠ high) :
    Mappings (twoPages low high) [low, high] := by
  have hcase : ∀ m ∈ [low, high], m = low ∨ m = high := by simp
  constructor
  · simp [hne]
  · intro m hm
    rcases hcase m hm with rfl | rfl
    · exact hl
    · exact hh
  · intro m _
    simp [twoPages]
  · intro m hm
    simp only [twoPages]
    split_ifs <;> omega
  · intro m hm n hn hmn
    rcases hcase m hm with rfl | rfl <;> rcases hcase n hn with rfl | rfl <;>
      simp [twoPages, hne, Ne.symm hne] at hmn ⊢

theorem lookup_finds_ordered_pages : ∃ s tree,
    insertAll ⟨fun _ => 0, fun _ => 0, fun _ => 0, fun _ => 0⟩ 0 [100, 200] = some (s, tree) ∧
      LookupCorrect (twoPages 100 200) s tree [100, 200] := by
  obtain ⟨s, tree, hrun, hiff⟩ := lookup_finds_mapping
    (twoPages_mappings 100 200 (by norm_num) (by norm_num) (by norm_num))
    ⟨fun _ => 0, fun _ => 0, fun _ => 0, fun _ => 0⟩
  refine ⟨s, tree, hrun, hiff.mpr ⟨by decide, by decide⟩⟩

/-- The node of the lower page is at the higher place in memory: the upper page is not found. -/
theorem lookup_misses_swapped_pages : Mappings (twoPages 200 100) [200, 100] ∧ ∃ s tree,
    insertAll ⟨fun _ => 0, fun _ => 0, fun _ => 0, fun _ => 0⟩ 0 [200, 100] = some (s, tree) ∧
      (twoPages 200 100).Contains 100 0x2000 ∧
      getMappingObj (twoPages 200 100) s tree 0x2000 = some 0 ∧
      ¬ LookupCorrect (twoPages 200 100) s tree [200, 100] := by
  have hrun : ((insertAll ⟨fun _ => 0, fun _ => 0, fun _ => 0, fun _ => 0⟩ 0 [200, 100]).bind
      fun r => getMappingObj (twoPages 200 100) r.1 r.2 0x2000) = some 0 := by decide +kernel
  obtain ⟨⟨s, tree⟩, hbuilt, hget⟩ := Option.bind_eq_some_iff.mp hrun
  have hcon : (twoPages 200 100).Contains 100 0x2000 := by
    constructor <;> decide
  refine ⟨twoPages_mappings 200 100 (by norm_num) (by norm_num) (by norm_num), s, tree, hbuilt,
    hcon, hget, ?_⟩
  intro hcorrect
  have hfound := (hcorrect 0x2000 (by norm_num)).1 100 (by simp) hcon
  simp only at hget
  rw [hget] at hfound
  exact absurd hfound (by simp)

end AddressLookup
