import Metakernel.MapperTables

/-!
# Teardown of an address space

The loop of `unmap_all_objs` walks the tree of a space in postorder and takes it apart on its way.
-/
namespace AddressSpaces

open LinkedNodes LinkedTrees DataStructures NodeTables RedBlackTree AddressLookup

def postorder : NodeTree ℕ → List ℕ
  | .nil => []
  | .node _ l x r => postorder l ++ postorder r ++ [x]

def Below : NodeTree ℕ → ℕ → ℕ → Prop
  | .nil, _, _ => False
  | .node _ l x r, m, n => (m = x ∧ (n ∈ l.toList ∨ n ∈ r.toList)) ∨ Below l m n ∨ Below r m n

/-- The mappings that `delete_mapping` is called on. -/
def deletions (log : List Access) : List ℕ :=
  log.filterMap fun a => match a with
    | .deleteMapping p => some p
    | _ => none

def frees (log : List Access) : List ℕ :=
  log.filterMap fun a => match a with
    | .free p => some p
    | _ => none

def leave (x y : ℕ) : List Access :=
  [.read y, .deleteMapping y, .read y, .read x, .read y, .read x, .free y, .write x]

/-- What is done with the nodes of a tree below `x`, until the loop is back at `x`. -/
def walk (x : ℕ) : NodeTree ℕ → List Access
  | .nil => []
  | .node _ l y r => .read x :: (walk y l ++ walk y r ++ leave x y)

/-- The memory with other links and another list of what was given back. -/
def Vm.withTree (vm : Vm) (s : Links ℕ) (freed : List Block) : Vm :=
  { vm with links := s, freed := freed }

/-- The blocks of the nodes, the last one first, before those given back earlier. -/
def blocks (l : List ℕ) (freed : List Block) : List Block := (l.map Block.vmap).reverse ++ freed

theorem mem_postorder {m : ℕ} : ∀ {t : NodeTree ℕ}, m ∈ postorder t ↔ m ∈ t.toList := by
  intro t
  induction t with
  | nil => rfl
  | node b l x r ihl ihr =>
    simp only [postorder, NodeTree.toList_node, List.mem_append, List.mem_cons, ihl, ihr,
      List.not_mem_nil, or_false]
    tauto

theorem postorder_perm : ∀ t : NodeTree ℕ, (postorder t).Perm t.toList := by
  intro t
  induction t with
  | nil => exact .nil
  | node b l x r ihl ihr =>
    rw [postorder, NodeTree.toList_node, List.append_assoc]
    exact ihl.append ((List.perm_append_comm).trans (ihr.cons x))

theorem below_sublist {m n : ℕ} : ∀ {t : NodeTree ℕ}, Below t m n → [n, m].Sublist (postorder t) := by
  intro t
  induction t with
  | nil =>
    intro h
    exact h.elim
  | node b l x r ihl ihr =>
    intro h
    rw [postorder]
    obtain ⟨rfl, hn⟩ | hl | hr := h
    · have hmem : n ∈ postorder l ++ postorder r := by
        rw [List.mem_append, mem_postorder, mem_postorder]
        exact hn
      exact (List.singleton_sublist.mpr hmem).append (List.Sublist.refl [m])
    · exact ((ihl hl).trans (List.sublist_append_left _ _)).trans (List.sublist_append_left _ _)
    · exact ((ihr hr).trans (List.sublist_append_right _ _)).trans (List.sublist_append_left _ _)

@[simp] theorem deletions_append (l l' : List Access) :
    deletions (l ++ l') = deletions l ++ deletions l' := List.filterMap_append

@[simp] theorem frees_append (l l' : List Access) : frees (l ++ l') = frees l ++ frees l' :=
  List.filterMap_append

theorem deletions_walk : ∀ {t : NodeTree ℕ} {x : ℕ}, deletions (walk x t) = postorder t := by
  intro t
  induction t with
  | nil =>
    intro x
    rfl
  | node b l y r ihl ihr =>
    intro x
    rw [walk, ← List.singleton_append, deletions_append, deletions_append, deletions_append, ihl, ihr]
    rfl

theorem frees_walk : ∀ {t : NodeTree ℕ} {x : ℕ}, frees (walk x t) = postorder t := by
  intro t
  induction t with
  | nil =>
    intro x
    rfl
  | node b l y r ihl ihr =>
    intro x
    rw [walk, ← List.singleton_append, frees_append, frees_append, frees_append, ihl, ihr]
    rfl

theorem node_of_mem_walk {a : Access} : ∀ {t : NodeTree ℕ} {x : ℕ}, a ∈ walk x t →
    a.node = x ∨ a.node ∈ t.toList := by
  intro t
  induction t with
  | nil =>
    intro x h
    cases h
  | node b l y r ihl ihr =>
    intro x h
    rw [walk, List.mem_cons, List.mem_append, List.mem_append] at h
    rw [NodeTree.toList_node, List.mem_append, List.mem_cons]
    rcases h with rfl | (h | h) | h
    · exact Or.inl rfl
    · rcases ihl h with h | h <;> tauto
    · rcases ihr h with h | h <;> tauto
    · simp only [leave, List.mem_cons, List.not_mem_nil, or_false] at h
      rcases h with rfl | rfl | rfl | rfl | rfl | rfl | rfl | rfl <;> simp [Access.node]

theorem mem_of_free_mem_walk {t : NodeTree ℕ} {x p : ℕ} (h : Access.free p ∈ walk x t) :
    p ∈ t.toList := by
  have hp : p ∈ frees (walk x t) := List.mem_filterMap.mpr ⟨_, h, rfl⟩
  rwa [frees_walk, mem_postorder] at hp

def Untouched (log : List Access) : Prop := log.Pairwise fun a b => a ≠ .free b.node

theorem leave_untouched {x y : ℕ} (h : x ≠ y) : Untouched (leave x y) := by
  simp [Untouched, leave, Access.node, h.symm]

theorem walk_untouched : ∀ {t : NodeTree ℕ} {x : ℕ}, t.toList.Nodup → x ∉ t.toList →
    Untouched (walk x t) := by
  intro t
  induction t with
  | nil =>
    intro x _ _
    exact List.Pairwise.nil
  | node b l y r ihl ihr =>
    intro x hnd hx
    rw [NodeTree.toList_node] at hnd hx
    obtain ⟨hl, hyr, hdis⟩ := List.nodup_append.mp hnd
    obtain ⟨hy, hr⟩ := List.nodup_cons.mp hyr
    have hyl : y ∉ l.toList := fun hm => hdis y hm y (by simp) rfl
    have hdis' : ∀ p ∈ l.toList, p ∉ r.toList := fun p hp hp' => hdis p hp p (by simp [hp']) rfl
    simp only [List.mem_append, List.mem_cons, not_or] at hx
    obtain ⟨hxl, hxy, hxr⟩ := hx
    rw [walk, Untouched, List.pairwise_cons, List.pairwise_append, List.pairwise_append]
    refine ⟨fun b _ => by simp, ⟨ihl hl hyl, ihr hr hy, ?_⟩, leave_untouched hxy, ?_⟩
    · rintro a ha c hc rfl
      have hp := mem_of_free_mem_walk ha
      rcases node_of_mem_walk hc with hc | hc
      · exact hyl (hc ▸ hp)
      · exact hdis' _ hp hc
    · rintro a ha c hc rfl
      have hcxy : c.node = x ∨ c.node = y := by
        simp only [leave, List.mem_cons, List.not_mem_nil, or_false] at hc
        rcases hc with rfl | rfl | rfl | rfl | rfl | rfl | rfl | rfl <;> simp [Access.node]
      have hp : c.node ∈ l.toList ∨ c.node ∈ r.toList := by
        rcases List.mem_append.mp ha with ha | ha
        · exact Or.inl (mem_of_free_mem_walk ha)
        · exact Or.inr (mem_of_free_mem_walk ha)
      rcases hcxy with hc | hc <;> rw [hc] at hp <;> tauto

theorem mapTableDelete_withTree (vm : Vm) (s : Links ℕ) (freed : List Block) (o key : ℕ) :
    mapTableDelete (vm.withTree s freed) o key =
      (mapTableDelete vm o key).map fun r => (r.1.withTree s freed, r.2) := by
  have hdel : hashTableDelete mapNext 0 mapId (fun a b => a = b) mapIndex loopBound
      (vm.withTree s freed) (vm.objs o).mappers key =
      (hashTableDelete mapNext 0 mapId (fun a b => a = b) mapIndex loopBound vm
        (vm.objs o).mappers key).map fun r => (r.1.withTree s freed, r.2) :=
    hashTableDelete_map (fun v : Vm => v.withTree s freed) (fun _ _ => rfl)
      (fun _ _ _ => rfl) (fun _ _ => rfl) vm _ key loopBound
  rw [mapTableDelete, mapTableDelete]
  have hobjs : (vm.withTree s freed).objs = vm.objs := rfl
  rw [hobjs, hdel]
  cases hashTableDelete mapNext 0 mapId (fun a b => a = b) mapIndex loopBound vm
    (vm.objs o).mappers key <;> rfl

theorem deleteMapping_withTree (vm : Vm) (s : Links ℕ) (freed : List Block) (m : ℕ) :
    deleteMapping (vm.withTree s freed) m =
      (deleteMapping vm m).map fun v => v.withTree s freed := by
  rw [deleteMapping, deleteMapping]
  have hmaps : (vm.withTree s freed).maps = vm.maps := rfl
  rw [hmaps]
  split_ifs
  · rfl
  · have hset : (vm.withTree s freed).setObj (vm.maps m).obj
        { (vm.withTree s freed).objs (vm.maps m).obj with
          numMappers := ((vm.withTree s freed).objs (vm.maps m).obj).numMappers - 1 } =
        (vm.setObj (vm.maps m).obj { vm.objs (vm.maps m).obj with
          numMappers := (vm.objs (vm.maps m).obj).numMappers - 1 }).withTree s freed := rfl
    have hspcs : ∀ v : Vm, (v.withTree s freed).spcs = v.spcs := fun _ => rfl
    simp only [hset, hspcs, mapTableDelete_withTree, garbageCollect_eq]
    cases mapTableDelete (vm.setObj (vm.maps m).obj { vm.objs (vm.maps m).obj with
      numMappers := (vm.objs (vm.maps m).obj).numMappers - 1 }) (vm.maps m).obj
      ((vm.setObj (vm.maps m).obj { vm.objs (vm.maps m).obj with
        numMappers := (vm.objs (vm.maps m).obj).numMappers - 1 }).spcs (vm.maps m).spc).id <;> rfl

theorem deleteMapping_spcs {vm vm' : Vm} {m : ℕ} (h : deleteMapping vm m = some vm') :
    vm'.spcs = vm.spcs := by
  rw [deleteMapping] at h
  split_ifs at h
  simp only [garbageCollect_eq, Option.bind_eq_bind, Option.bind_eq_some_iff, Option.some_inj] at h
  obtain ⟨⟨vm₁, x⟩, hdel, rfl⟩ := h
  exact (mapTableDelete_side hdel).spcs

theorem deleteMappings_spcs : ∀ {l : List ℕ} {vm vm' : Vm}, l.foldlM deleteMapping vm = some vm' →
    vm'.spcs = vm.spcs := by
  intro l
  induction l with
  | nil =>
    intro vm vm' h
    rw [List.foldlM_nil] at h
    exact congrArg Vm.spcs (Option.some_inj.mp h).symm
  | cons m l ih =>
    intro vm vm' h
    rw [List.foldlM_cons] at h
    obtain ⟨vm₁, hm, hl⟩ := Option.bind_eq_some_iff.mp h
    rw [ih hl, deleteMapping_spcs hm]

/-- With every mapping in the table of its object, all calls return, and the tables lose what was
passed to `delete_mapping`. -/
theorem deleteMappings_tables {O : ℕ → Prop} : ∀ {l : List ℕ} {vm : Vm} {E : ℕ → Finset ℕ},
    MapperTables vm O E → l.Nodup → (∀ m ∈ l, O (vm.maps m).obj ∧ m ∈ E (vm.maps m).obj) →
    ∃ v, l.foldlM deleteMapping vm = some v ∧ MapperTables v O fun o => E o \ l.toFinset := by
  intro l
  induction l with
  | nil =>
    intro vm E h _ _
    refine ⟨vm, rfl, ?_⟩
    simpa using h
  | cons m l ih =>
    intro vm E h hnd hl
    obtain ⟨hml, hndl⟩ := List.nodup_cons.mp hnd
    obtain ⟨hO, hm⟩ := hl m List.mem_cons_self
    obtain ⟨v₁, hdel, hside, -, h₁⟩ := h.deleteMapping hO hm
    have hl₁ : ∀ q ∈ l, O (v₁.maps q).obj ∧
        q ∈ Function.update E (vm.maps m).obj ((E (vm.maps m).obj).erase m) (v₁.maps q).obj := by
      intro q hq
      obtain ⟨hOq, hEq⟩ := hl q (List.mem_cons_of_mem _ hq)
      rw [hside.map_obj]
      refine ⟨hOq, ?_⟩
      by_cases ho : (vm.maps q).obj = (vm.maps m).obj
      · rw [ho] at hEq ⊢
        rw [Function.update_self]
        exact Finset.mem_erase.mpr ⟨fun heq => hml (heq ▸ hq), hEq⟩
      · rwa [Function.update_of_ne ho]
    obtain ⟨v, hrun, h'⟩ := ih h₁ hndl hl₁
    refine ⟨v, ?_, fun o ho => ?_⟩
    · rw [List.foldlM_cons, hdel]
      exact hrun
    · have hset : Function.update E (vm.maps m).obj ((E (vm.maps m).obj).erase m) o \ l.toFinset =
          E o \ (m :: l).toFinset := by
        ext q
        by_cases hom : o = (vm.maps m).obj
        · subst hom
          simp only [Function.update_self, Finset.mem_sdiff, Finset.mem_erase, List.mem_toFinset,
            List.mem_cons, not_or]
          tauto
        · have hq : q ∈ E o → q ≠ m := by
            rintro hq rfl
            exact hom ((h o ho).obj q hq).symm
          simp only [Function.update_of_ne hom, Finset.mem_sdiff, List.mem_toFinset, List.mem_cons,
            not_or]
          tauto
      have ho' := h' o ho
      simp only [hset] at ho'
      exact ho'

structure Detached (s s' : Links ℕ) (t : NodeTree ℕ) (x : ℕ) (side : Bool) : Prop where
  up : s'.up = s.up
  color : s'.color = s.color
  gone : s'.child side x = 0
  other : s'.child (!side) x = s.child (!side) x
  elsewhere : ∀ q, q ≠ x → q ∉ t.toList → s'.left q = s.left q ∧ s'.right q = s.right q

theorem Detached.sameAt {s s' : Links ℕ} {t : NodeTree ℕ} {x q : ℕ} {side : Bool}
    (h : Detached s s' t x side) (hq : q ≠ x) (ht : q ∉ t.toList) : SameAt s s' q :=
  ⟨by rw [h.up], (h.elsewhere q hq ht).1, (h.elsewhere q hq ht).2, by rw [h.color]⟩

def NextChild (s : Links ℕ) (side : Bool) (x p : ℕ) : Prop :=
  if side then s.left x = p else s.left x = 0 ∧ s.right x = p

def clearChild (s : Links ℕ) (side : Bool) (x : ℕ) : Links ℕ :=
  if side then setLeft s x 0 else setRight s x 0

section Loop

variable {spc root : ℕ} {vm : Vm} {s : Links ℕ} {freed : List Block} {log : List Access}
  {x y fuel : ℕ} {side : Bool}

theorem unmapLoop_down (hx : x ≠ 0) (hy : y ≠ 0) (hnext : NextChild s side x y) :
    unmapLoop spc (fuel + 1) (vm.withTree s freed) log x =
      unmapLoop spc fuel (vm.withTree s freed) (log ++ [.read x]) y := by
  have hlinks : (vm.withTree s freed).links = s := rfl
  rw [unmapLoop, if_neg hx, hlinks]
  cases side with
  | true =>
    have hleft : s.left x = y := hnext
    rw [hleft, if_pos hy]
  | false =>
    obtain ⟨hleft, hright⟩ : s.left x = 0 ∧ s.right x = y := hnext
    rw [hleft, hright, if_neg (by simp), if_pos hy]

/-- A round at a node without children takes it away, unless it is the root. -/
theorem unmapLoop_leave (hx : x ≠ 0) (hy : y ≠ 0) (hnext : NextChild s side x y)
    (hup : s.up y = x) (hleft : s.left y = 0) (hright : s.right y = 0)
    (hroot : y ≠ (vm.spcs spc).objs) :
    unmapLoop spc (fuel + 1) (vm.withTree s freed) log y =
      (deleteMapping vm y).bind fun v => unmapLoop spc fuel
        (v.withTree (clearChild s side x) (.vmap y :: freed)) (log ++ leave x y) x := by
  have hlinks : ∀ v : Vm, (v.withTree s freed).links = s := fun _ => rfl
  have hspcs : (vm.withTree s freed).spcs = vm.spcs := rfl
  rw [unmapLoop, if_neg hy, hlinks, hspcs, hleft, hright, if_neg (by simp), if_neg (by simp),
    if_pos hroot, deleteMapping_withTree]
  cases hdel : deleteMapping vm y with
  | none => rfl
  | some v =>
    simp only [Option.map_some, Option.bind_eq_bind, Option.bind_some, hlinks, hup, hx, if_false]
    cases side with
    | true =>
      have hchild : s.left x = y := hnext
      rw [hchild, if_pos rfl]
      rfl
    | false =>
      obtain ⟨hnone, hchild⟩ : s.left x = 0 ∧ s.right x = y := hnext
      rw [hnone, hchild, if_neg hy]
      rfl

theorem unmapLoop_root (hy : y ≠ 0) (hleft : s.left y = 0) (hright : s.right y = 0)
    (hroot : (vm.spcs spc).objs = y) : unmapLoop spc (fuel + 1) (vm.withTree s freed) log y =
      (deleteMapping vm y).map fun v =>
        (v.withTree s (.vmap y :: freed), log ++ [.read y, .deleteMapping y, .free y]) := by
  have hlinks : (vm.withTree s freed).links = s := rfl
  have hspcs : (vm.withTree s freed).spcs = vm.spcs := rfl
  rw [unmapLoop, if_neg hy, hlinks, hspcs, hleft, hright, if_neg (by simp), if_neg (by simp),
    if_neg (not_not.mpr hroot.symm), deleteMapping_withTree]
  cases deleteMapping vm y <;> rfl

theorem blocks_append (l l' : List ℕ) (freed : List Block) :
    blocks (l ++ l') freed = blocks l' (blocks l freed) := by
  simp [blocks]

theorem Detached.nil (hgone : s.child side x = 0) : Detached s s .nil x side :=
  ⟨rfl, rfl, hgone, rfl, fun _ _ _ => ⟨rfl, rfl⟩⟩

end Loop

/-- From a node with its next child on, the loop calls `delete_mapping` for every node below that
child and is back at the node without the child. -/
theorem unmapLoop_subtree {root : ℕ} (spc : ℕ) : ∀ {t : NodeTree ℕ} {x p : ℕ} {side : Bool} {s : Links ℕ},
    x ≠ 0 → TreeRep 0 s x t p → NextChild s side x p → t.toList.Nodup → x ∉ t.toList →
    root ∉ t.toList → ∃ s', Detached s s' t x side ∧ ∀ (vm : Vm) freed log fuel,
      (vm.spcs spc).objs = root →
      unmapLoop spc (fuel + 2 * t.toList.length) (vm.withTree s freed) log x =
        ((postorder t).foldlM deleteMapping vm).bind fun v =>
          unmapLoop spc fuel (v.withTree s' (blocks (postorder t) freed)) (log ++ walk x t) x := by
  intro t
  induction t with
  | nil =>
    intro x p side s hx hrep hnext _ _ _
    obtain rfl : p = 0 := hrep
    refine ⟨s, Detached.nil ?_, fun vm freed log fuel _ => ?_⟩
    · cases side with
      | true => exact hnext
      | false => exact hnext.2
    · simp [postorder, walk, blocks]
  | node b l y r ihl ihr =>
    intro x p side s hx hrep hnext hnd hxt hroot
    obtain ⟨rfl, hy, hup, hcolor, hrepl, hrepr⟩ := hrep
    rw [NodeTree.toList_node] at hnd hxt hroot
    obtain ⟨hndl, hndyr, hdis⟩ := List.nodup_append.mp hnd
    obtain ⟨hyr, hndr⟩ := List.nodup_cons.mp hndyr
    have hyl : p ∉ l.toList := fun hm => hdis p hm p (by simp) rfl
    simp only [List.mem_append, List.mem_cons, not_or] at hxt hroot
    obtain ⟨hxl, hxp, hxr⟩ := hxt
    obtain ⟨hrl, hrp, hrr⟩ := hroot
    have hnextl : NextChild s true p (s.left p) := rfl
    obtain ⟨s₁, hd₁, hloop₁⟩ := ihl hy hrepl hnextl hndl hyl hrl
    have hrepr₁ : TreeRep 0 s₁ p r (s.right p) := hrepr.congr fun q hq =>
      hd₁.sameAt (fun heq => hyr (heq ▸ hq)) fun hql => hdis q hql q (by simp [hq]) rfl
    have hnext₁ : NextChild s₁ false p (s.right p) := ⟨hd₁.gone, hd₁.other⟩
    obtain ⟨s₂, hd₂, hloop₂⟩ := ihr hy hrepr₁ hnext₁ hndr hyr hrr
    have hup₂ : s₂.up p = x := by rw [hd₂.up, hd₁.up, hup]
    have hleft₂ : s₂.left p = 0 := hd₂.other.trans hd₁.gone
    have hx₂ : s₂.left x = s.left x ∧ s₂.right x = s.right x := by
      have h₁ := hd₁.elsewhere x hxp hxl
      have h₂ := hd₂.elsewhere x hxp hxr
      exact ⟨h₂.1.trans h₁.1, h₂.2.trans h₁.2⟩
    have hnext₂ : NextChild s₂ side x p := by
      rw [NextChild, hx₂.1, hx₂.2]
      exact hnext
    refine ⟨clearChild s₂ side x, ⟨?_, ?_, ?_, ?_, ?_⟩, fun vm freed log fuel hobjs => ?_⟩
    · rw [← hd₁.up, ← hd₂.up]
      cases side <;> rfl
    · rw [← hd₁.color, ← hd₂.color]
      cases side <;> rfl
    · cases side <;> simp [clearChild, Links.child, setLeft, setRight]
    · cases side <;> simp [clearChild, Links.child, setLeft, setRight, hx₂]
    · intro q hqx hqt
      simp only [NodeTree.toList_node, List.mem_append, List.mem_cons, not_or] at hqt
      obtain ⟨hql, hqp, hqr⟩ := hqt
      have h₁ := hd₁.elsewhere q hqp hql
      have h₂ := hd₂.elsewhere q hqp hqr
      cases side <;>
        simp [clearChild, setLeft, setRight, hqx, h₂.1, h₂.2, h₁.1, h₁.2]
    · have hrounds : fuel + 2 * (NodeTree.node b l p r).toList.length =
          fuel + 1 + 2 * r.toList.length + 2 * l.toList.length + 1 := by
        rw [NodeTree.toList_node, List.length_append, List.length_cons]
        omega
      rw [hrounds, unmapLoop_down hx hy hnext, hloop₁ vm freed _ _ hobjs, postorder,
        List.foldlM_append, List.foldlM_append]
      simp only [Option.bind_eq_bind, Option.bind_assoc]
      refine Option.bind_congr fun v₁ hv₁ => ?_
      have hobjs₁ : (v₁.spcs spc).objs = root := by rw [deleteMappings_spcs hv₁, hobjs]
      rw [hloop₂ v₁ _ _ _ hobjs₁]
      refine Option.bind_congr fun v₂ hv₂ => ?_
      have hobjs₂ : (v₂.spcs spc).objs = root := by rw [deleteMappings_spcs hv₂, hobjs₁]
      rw [unmapLoop_leave hx hy hnext₂ hup₂ hleft₂ hd₂.gone (by rw [hobjs₂]; exact Ne.symm hrp)]
      simp only [List.foldlM_cons, List.foldlM_nil, Option.bind_eq_bind, Option.pure_def,
        Option.bind_assoc, Option.bind_some]
      refine Option.bind_congr fun v₃ _ => ?_
      rw [walk, blocks_append, blocks_append]
      simp [blocks]

def fullWalk : NodeTree ℕ → List Access
  | .nil => []
  | .node _ l x r => walk x l ++ walk x r ++ [.read x, .deleteMapping x, .free x]

theorem fullWalk_calls (t : NodeTree ℕ) :
    deletions (fullWalk t) = postorder t ∧ frees (fullWalk t) = postorder t := by
  cases t with
  | nil => exact ⟨rfl, rfl⟩
  | node b l x r =>
    rw [fullWalk, deletions_append, deletions_append, deletions_walk, deletions_walk, frees_append,
      frees_append, frees_walk, frees_walk]
    exact ⟨rfl, rfl⟩

theorem fullWalk_untouched {t : NodeTree ℕ} (hnd : t.toList.Nodup) : Untouched (fullWalk t) := by
  cases t with
  | nil => exact List.Pairwise.nil
  | node b l x r =>
    rw [NodeTree.toList_node] at hnd
    obtain ⟨hl, hxr, hdis⟩ := List.nodup_append.mp hnd
    obtain ⟨hx, hr⟩ := List.nodup_cons.mp hxr
    have hxl : x ∉ l.toList := fun hm => hdis x hm x (by simp) rfl
    rw [fullWalk, Untouched, List.pairwise_append, List.pairwise_append]
    refine ⟨⟨walk_untouched hl hxl, walk_untouched hr hx, ?_⟩, by simp [Access.node], ?_⟩
    · rintro a ha c hc rfl
      have hp := mem_of_free_mem_walk ha
      rcases node_of_mem_walk hc with hc | hc
      · exact hxl (hc ▸ hp)
      · exact hdis _ hp c.node (by simp [hc]) rfl
    · rintro a ha c hc rfl
      have hcx : c.node = x := by
        simp only [List.mem_cons, List.not_mem_nil, or_false] at hc
        rcases hc with rfl | rfl | rfl <;> rfl
      rw [hcx] at ha
      rcases List.mem_append.mp ha with ha | ha
      · exact hxl (mem_of_free_mem_walk ha)
      · exact hx (mem_of_free_mem_walk ha)

/-- The whole loop makes the calls in postorder and does nothing else that can fail. -/
theorem unmapAllObjs_eq {vm : Vm} {spc : ℕ} {t : NodeTree ℕ}
    (hrep : TreeRep 0 vm.links 0 t (vm.spcs spc).objs) (hnd : t.toList.Nodup)
    (hnode : ∀ m ∈ t.toList, IsNode m) (hne : t ≠ .nil) : ∃ s', unmapAllObjs vm spc =
      ((postorder t).foldlM deleteMapping vm).map fun v =>
        (v.withTree s' (blocks (postorder t) vm.freed), fullWalk t) := by
  cases t with
  | nil => exact absurd rfl hne
  | node b l x r =>
    obtain ⟨hroot, hx, -, -, hl, hr⟩ := hrep
    have hlen := length_lt hnd hnode
    rw [NodeTree.toList_node] at hnd
    obtain ⟨hndl, hndxr, hdis⟩ := List.nodup_append.mp hnd
    obtain ⟨hxr, hndr⟩ := List.nodup_cons.mp hndxr
    have hxl : x ∉ l.toList := fun hm => hdis x hm x (by simp) rfl
    have hnext : NextChild vm.links true x (vm.links.left x) := rfl
    obtain ⟨s₁, hd₁, hloop₁⟩ := unmapLoop_subtree spc hx hl hnext hndl hxl hxl
    have hr₁ : TreeRep 0 s₁ x r (vm.links.right x) := hr.congr fun q hq =>
      hd₁.sameAt (fun heq => hxr (heq ▸ hq)) fun hql => hdis q hql q (by simp [hq]) rfl
    have hnext₁ : NextChild s₁ false x (vm.links.right x) := ⟨hd₁.gone, hd₁.other⟩
    obtain ⟨s₂, hd₂, hloop₂⟩ := unmapLoop_subtree spc hx hr₁ hnext₁ hndr hxr hxr
    have hleft₂ : s₂.left x = 0 := hd₂.other.trans hd₁.gone
    refine ⟨s₂, ?_⟩
    have hrounds : 2 * loopBound = 2 * (loopBound - (l.toList.length + r.toList.length + 1)) + 1 + 1 +
        2 * r.toList.length + 2 * l.toList.length := by
      rw [NodeTree.toList_node, List.length_append, List.length_cons] at hlen
      omega
    have hself : vm = vm.withTree vm.links vm.freed := rfl
    rw [unmapAllObjs, hroot, hself, hrounds, hloop₁ vm vm.freed [] _ hroot, postorder,
      List.foldlM_append, List.foldlM_append]
    simp only [Option.bind_eq_bind, Option.map_bind, ← hself]
    rw [Option.bind_assoc]
    refine Option.bind_congr fun v₁ hv₁ => ?_
    have hroot₁ : (v₁.spcs spc).objs = x := by rw [deleteMappings_spcs hv₁, hroot]
    rw [hloop₂ v₁ _ _ _ hroot₁]
    refine Option.bind_congr fun v₂ hv₂ => ?_
    have hroot₂ : (v₂.spcs spc).objs = x := by rw [deleteMappings_spcs hv₂, hroot₁]
    rw [unmapLoop_root hx hleft₂ hd₂.gone hroot₂]
    simp only [List.foldlM_cons, List.foldlM_nil, Option.bind_eq_bind, Option.pure_def,
      Function.comp_apply]
    cases deleteMapping v₂ x with
    | none => rfl
    | some v₃ => simp [fullWalk, blocks]

/-- The loop calls `delete_mapping` once for every mapping of the tree, after those below it, frees
every node once, and does not touch a freed node. It returns if the calls do, and they do where
every mapping is in the table of its object; none of the tables walked by a call then holds a node
freed before it. -/
theorem teardown_visits_once {vm : Vm} {spc : ℕ} {t : NodeTree ℕ}
    (hrep : TreeRep 0 vm.links 0 t (vm.spcs spc).objs) (hnd : t.toList.Nodup)
    (hnode : ∀ m ∈ t.toList, IsNode m) (hne : t ≠ .nil) :
    ∃ log s', (deletions log).Perm t.toList ∧
      (∀ m n, Below t m n → [n, m].Sublist (deletions log)) ∧
      (frees log).Perm t.toList ∧ Untouched log ∧
      (unmapAllObjs vm spc = ((deletions log).foldlM deleteMapping vm).map fun v =>
        (v.withTree s' (blocks (frees log) vm.freed), log)) ∧
      ∀ O E, MapperTables vm O E →
        (∀ m ∈ t.toList, O (vm.maps m).obj ∧ m ∈ E (vm.maps m).obj) →
        (∃ v, unmapAllObjs vm spc = some (v, log)) ∧
        ∀ done m rest, deletions log = done ++ m :: rest →
          ∃ v, done.foldlM deleteMapping vm = some v ∧
            MapperTables v O fun o => E o \ done.toFinset := by
  obtain ⟨hdeletions, hfrees⟩ := fullWalk_calls t
  obtain ⟨s', hrun⟩ := unmapAllObjs_eq hrep hnd hnode hne
  have hperm := postorder_perm t
  refine ⟨fullWalk t, s', ?_, fun m n hbelow => ?_, ?_, fullWalk_untouched hnd, ?_,
    fun O E h hin => ⟨?_, fun done m rest hsplit => ?_⟩⟩
  · rw [hdeletions]
    exact hperm
  · rw [hdeletions]
    exact below_sublist hbelow
  · rw [hfrees]
    exact hperm
  · rw [hdeletions, hfrees]
    exact hrun
  · obtain ⟨v, hcalls, -⟩ := deleteMappings_tables h (hperm.nodup_iff.mpr hnd) fun m hm =>
      hin m (hperm.mem_iff.mp hm)
    rw [hrun, hcalls]
    exact ⟨_, rfl⟩
  · rw [hdeletions] at hsplit
    rw [hsplit] at hperm
    refine deleteMappings_tables h ?_ fun q hq => hin q (hperm.mem_iff.mp ?_)
    · exact (List.nodup_append.mp (hperm.nodup_iff.mpr hnd)).1
    · exact List.mem_append_left _ hq

def threePages : Vm where
  maps p := ⟨0, p, p + 1, 8, 0⟩
  links :=
    { up := fun p => if p = 200 then 0 else 200
      left := fun p => if p = 200 then 100 else 0
      right := fun p => if p = 200 then 300 else 0
      color := fun p => if p = 200 then 1 else 0 }
  spcs _ := ⟨1, 0, 0, 0, 200⟩
  objs p := ⟨p, 0, 4096, 1, fun j => if j = 1 then p - 1 else 0, 0, 0, 0⟩
  addrTab _ := 0
  vmObjTab _ := 0
  freed := []

theorem threePages_tables :
    MapperTables threePages (fun o => o = 101 ∨ o = 201 ∨ o = 301) fun o => {o - 1} := by
  intro o ho
  have hpos : 1 < o ∧ o - 1 < 4294967296 := by omega
  refine ⟨by omega, EntrySet.of_heads (fun j hj => ?_) fun x => ?_, fun m hm => ?_, fun _ _ => ?_⟩
  · simp only [threePages] at hj ⊢
    split_ifs at hj ⊢ with h₁
    · exact ⟨⟨by omega, hpos.2⟩, by simp [mapIndex, mapId, h₁], rfl⟩
    · exact absurd rfl hj
  · rw [Finset.mem_singleton]
    constructor
    · rintro rfl
      exact ⟨1, by simp only [threePages, if_true]; omega, rfl⟩
    · rintro ⟨j, hj, rfl⟩
      simp only [threePages] at hj ⊢
      split_ifs at hj ⊢ with h₁
      · rfl
      · exact absurd rfl hj
  · rw [Finset.mem_singleton.mp hm]
    exact Nat.sub_add_cancel (by omega)
  · simp [threePages]

theorem teardown_visits_three : ∃ log v,
    (deletions log).Perm [100, 200, 300] ∧ (frees log).Perm [100, 200, 300] ∧ Untouched log ∧
      unmapAllObjs threePages 8 = some (v, log) := by
  have hrep : TreeRep 0 threePages.links 0
      (.node true (.node false .nil 100 .nil) 200 (.node false .nil 300 .nil))
      (threePages.spcs 8).objs := by
    simp [TreeRep, threePages]
  obtain ⟨log, s', hcalls, -, hfrees, huntouched, -, htables⟩ :=
    teardown_visits_once hrep (by decide) (by simp [IsNode]) (by simp)
  obtain ⟨⟨v, hrun⟩, -⟩ := htables _ _ threePages_tables (by simp [threePages])
  exact ⟨log, v, hcalls, hfrees, huntouched, hrun⟩

end AddressSpaces
