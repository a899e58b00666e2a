import Metakernel.AddressSpaces

/-!
# The mapper tables of vm objects

A mapping is an entry of the mapper table of its object, under the id of its space. Removing one
keeps the tables of all objects, and nothing a removal does makes an object be destroyed.
-/
namespace AddressSpaces

open LinkedNodes LinkedTrees DataStructures NodeTables RedBlackTree AddressLookup

def IsNode (p : ℕ) : Prop := 0 < p ∧ p < 4294967296

structure MapperTable (vm : Vm) (o : ℕ) (e : Finset ℕ) : Prop where
  object : o ≠ 0
  entries : EntrySet mapNext 0 mapId mapIndex IsNode vm (vm.objs o).mappers e
  obj : ∀ m ∈ e, (vm.maps m).obj = o
  spc : ∀ m ∈ e, (vm.maps m).spc ≠ 0

def MapperTables (vm : Vm) (O : ℕ → Prop) (E : ℕ → Finset ℕ) : Prop :=
  ∀ o, O o → MapperTable vm o (E o)

/-- `num_mappers` is the number of entries. -/
def Counted (vm : Vm) (O : ℕ → Prop) (E : ℕ → Finset ℕ) : Prop :=
  ∀ o, O o → (vm.objs o).numMappers.toNat = (E o).card

theorem mapNext_lawful : mapNext.Lawful IsNode fun _ => True := by
  constructor
  · intro vm p v _ _
    simp [mapNext, Vm.setMap]
  · intro vm p q v _ _ hne
    simp [mapNext, Vm.setMap, hne]

/-- Memory in which only links of mapper tables and what `o` says of its mappers have changed. -/
structure ObjectSide (vm vm' : Vm) (o : ℕ) : Prop where
  links : vm'.links = vm.links
  spcs : vm'.spcs = vm.spcs
  addrTab : vm'.addrTab = vm.addrTab
  vmObjTab : vm'.vmObjTab = vm.vmObjTab
  freed : vm'.freed = vm.freed
  maps : ∀ p, { vm'.maps p with next := 0 } = { vm.maps p with next := 0 }
  others : ∀ p, p ≠ o → vm'.objs p = vm.objs p
  flags : (vm'.objs o).flags = (vm.objs o).flags

namespace ObjectSide

variable {vm vm' vm'' : Vm} {o : ℕ}

theorem refl (vm : Vm) (o : ℕ) : ObjectSide vm vm o :=
  ⟨rfl, rfl, rfl, rfl, rfl, fun _ => rfl, fun _ _ => rfl, rfl⟩

theorem trans (h : ObjectSide vm vm' o) (h' : ObjectSide vm' vm'' o) : ObjectSide vm vm'' o where
  links := h'.links.trans h.links
  spcs := h'.spcs.trans h.spcs
  addrTab := h'.addrTab.trans h.addrTab
  vmObjTab := h'.vmObjTab.trans h.vmObjTab
  freed := h'.freed.trans h.freed
  maps p := (h'.maps p).trans (h.maps p)
  others p hp := (h'.others p hp).trans (h.others p hp)
  flags := h'.flags.trans h.flags

theorem map_spc (h : ObjectSide vm vm' o) (p : ℕ) : (vm'.maps p).spc = (vm.maps p).spc :=
  (Vmap.mk.inj (h.maps p)).2.2.2.1

theorem map_obj (h : ObjectSide vm vm' o) (p : ℕ) : (vm'.maps p).obj = (vm.maps p).obj :=
  (Vmap.mk.inj (h.maps p)).2.2.1

theorem mapId (h : ObjectSide vm vm' o) (p : ℕ) : mapId vm' p = mapId vm p := by
  rw [AddressSpaces.mapId, h.map_spc, h.spcs]
  rfl

theorem all_flags (h : ObjectSide vm vm' o) (p : ℕ) : (vm'.objs p).flags = (vm.objs p).flags := by
  by_cases hp : p = o
  · rw [hp, h.flags]
  · rw [h.others p hp]

end ObjectSide

theorem setNext_side (vm : Vm) (w v o : ℕ) : ObjectSide vm (mapNext.set vm w v) o := by
  refine ⟨rfl, rfl, rfl, rfl, rfl, fun p => ?_, fun _ _ => rfl, rfl⟩
  by_cases hp : p = w
  · subst hp
    simp [mapNext, Vm.setMap]
  · simp [mapNext, Vm.setMap, hp]

theorem setObj_side (vm : Vm) (o : ℕ) (x : VmObj) (hx : x.flags = (vm.objs o).flags) :
    ObjectSide vm (vm.setObj o x) o := by
  refine ⟨rfl, rfl, rfl, rfl, rfl, fun _ => rfl, fun p hp => ?_, ?_⟩
  · simp [Vm.setObj, hp]
  · simp [Vm.setObj, hx]

theorem mapTableDelete_side {vm vm' : Vm} {o key m : ℕ}
    (h : mapTableDelete vm o key = some (vm', m)) : ObjectSide vm vm' o := by
  simp only [mapTableDelete, Option.bind_eq_bind, Option.bind_eq_some_iff, Option.some_inj,
    Prod.mk.injEq] at h
  obtain ⟨⟨vm₁, tab, x⟩, hdel, rfl, rfl⟩ := h
  refine ObjectSide.trans ?_ (setObj_side vm₁ o _ rfl)
  rcases hashTableDelete_writes hdel with rfl | ⟨w, v, rfl⟩
  · exact ObjectSide.refl _ o
  · exact setNext_side vm w v o

/-- The operand of the test is the address of the table, which is not NULL. -/
@[simp] theorem garbageCollect_eq (vm : Vm) (o : ℕ) : garbageCollect vm o = some vm := by
  rw [garbageCollect, if_neg]
  rintro ⟨haddr, -⟩
  exact absurd haddr (by simp [mappersAddr])

section Removal

variable {vm vm' : Vm} {O : ℕ → Prop} {E : ℕ → Finset ℕ} {o m key : ℕ} {e : Finset ℕ}

theorem MapperTable.congr (h : MapperTable vm o e)
    (hmaps : ∀ m ∈ e, (vm'.maps m).next = (vm.maps m).next ∧ (vm'.maps m).obj = (vm.maps m).obj ∧
      (vm'.maps m).spc = (vm.maps m).spc)
    (hids : ∀ p, (vm'.spcs p).id = (vm.spcs p).id)
    (hmappers : (vm'.objs o).mappers = (vm.objs o).mappers) : MapperTable vm' o e := by
  refine ⟨h.object, ?_, ?_, ?_⟩
  · rw [hmappers]
    refine h.entries.congr fun m hm => ⟨(hmaps m hm).1, ?_⟩
    rw [mapId, mapId, (hmaps m hm).2.2, hids]
  · intro m hm
    rw [(hmaps m hm).2.1, h.obj m hm]
  · intro m hm
    rw [(hmaps m hm).2.2]
    exact h.spc m hm

theorem mapTableDelete_eq {tab : ℕ → ℕ} (h : hashTableDelete mapNext 0 mapId (fun a b => a = b)
    mapIndex loopBound vm (vm.objs o).mappers key = some (vm', tab, m)) :
    mapTableDelete vm o key = some (vm'.setObj o { vm'.objs o with mappers := tab }, m) := by
  rw [mapTableDelete, h]
  rfl

/-- The entry is taken out of the table of its object and no other table changes. -/
theorem MapperTables.delete (h : MapperTables vm O E) (ho : O o) (hm : m ∈ E o) :
    ∃ vm', mapTableDelete vm o (mapId vm m) = some (vm', m) ∧
      (vm'.objs o).numMappers = (vm.objs o).numMappers ∧
      MapperTables vm' O (Function.update E o ((E o).erase m)) := by
  obtain ⟨vm₁, tab, hdel, htab, hwrite⟩ := (h o ho).entries.delete (fun _ => length_lt)
    mapNext_lawful hm fun w y => (setNext_side vm w _ o).mapId y
  have hrun := mapTableDelete_eq hdel
  have hside := mapTableDelete_side hrun
  have hobjs : vm₁.objs = vm.objs := by
    rcases hwrite with rfl | ⟨w, -, rfl⟩ <;> rfl
  refine ⟨_, hrun, by simp [Vm.setObj, hobjs], fun p hp => ?_⟩
  by_cases hpo : p = o
  · subst hpo
    rw [Function.update_self]
    refine ⟨(h p ho).object, ?_, fun x hx => ?_, fun x hx => ?_⟩
    · have htable : ((vm₁.setObj p { vm₁.objs p with mappers := tab }).objs p).mappers = tab := by
        simp [Vm.setObj]
      rw [htable]
      exact htab.congr fun x _ => ⟨rfl, rfl⟩
    · rw [hside.map_obj]
      exact (h p ho).obj x (Finset.mem_of_mem_erase hx)
    · rw [hside.map_spc]
      exact (h p ho).spc x (Finset.mem_of_mem_erase hx)
  · rw [Function.update_of_ne hpo]
    refine (h p hp).congr (fun x hx => ⟨?_, hside.map_obj x, hside.map_spc x⟩)
      (fun q => by rw [hside.spcs]) (by rw [hside.others p hpo])
    -- the written link belongs to an entry of `o`, so not to one of `p`
    rcases hwrite with rfl | ⟨w, hw, rfl⟩
    · rfl
    · have hne : x ≠ w := by
        rintro rfl
        exact hpo (((h p hp).obj x hx).symm.trans ((h o ho).obj x hw))
      simp [mapNext, Vm.setMap, Vm.setObj, hne]

theorem MapperTable.delete_none (h : MapperTable vm o e) (hkey : ∀ m ∈ e, mapId vm m ≠ key) :
    mapTableDelete vm o key = some (vm, 0) := by
  rw [mapTableDelete, h.entries.delete_none (fun _ => length_lt) hkey]
  simp [Vm.setObj]

/-- What `delete_mapping` does with an entry. -/
theorem MapperTables.deleteMapping (h : MapperTables vm O E) (ho : O o) (hm : m ∈ E o) :
    ∃ vm', deleteMapping vm m = some vm' ∧ ObjectSide vm vm' o ∧
      (vm'.objs o).numMappers = (vm.objs o).numMappers - 1 ∧
      MapperTables vm' O (Function.update E o ((E o).erase m)) := by
  have hobj := (h o ho).obj m hm
  let vm₁ := vm.setObj o { vm.objs o with numMappers := (vm.objs o).numMappers - 1 }
  have hside : ObjectSide vm vm₁ o := setObj_side vm o _ rfl
  have h₁ : MapperTables vm₁ O E := by
    intro p hp
    refine (h p hp).congr (fun x _ => ⟨rfl, rfl, rfl⟩) (fun _ => rfl) ?_
    by_cases hpo : p = o
    · subst hpo
      simp [vm₁, Vm.setObj]
    · rw [hside.others p hpo]
  obtain ⟨vm', hdel, hnum, h'⟩ := h₁.delete ho hm
  refine ⟨vm', ?_, hside.trans (mapTableDelete_side hdel), ?_, h'⟩
  · rw [AddressSpaces.deleteMapping, hobj, if_neg (not_or.mpr ⟨(h o ho).spc m hm, (h o ho).object⟩)]
    have hkey : (vm₁.spcs (vm.maps m).spc).id = mapId vm₁ m := rfl
    simp only [hkey, hdel, vm₁, Option.bind_eq_bind, Option.bind_some, garbageCollect_eq]
  · rw [hnum]
    simp [vm₁, Vm.setObj]

theorem treeDeleteMap_side {spc : ℕ} (h : treeDeleteMap vm spc m = some vm') :
    vm'.maps = vm.maps ∧ vm'.objs = vm.objs ∧ vm'.freed = vm.freed ∧
      ∀ p, (vm'.spcs p).id = (vm.spcs p).id := by
  simp only [treeDeleteMap, Option.bind_eq_bind, Option.bind_eq_some_iff, Option.some_inj] at h
  obtain ⟨⟨links, objs, x⟩, -, rfl⟩ := h
  refine ⟨rfl, rfl, rfl, fun p => ?_⟩
  by_cases hp : p = spc
  · subst hp
    simp [Vm.setSpc]
  · simp [Vm.setSpc, hp]

/-- An unmapping that returns has either found no entry for the space and changed nothing, or has
taken the entry out and given its node back. -/
theorem MapperTables.unmap (h : MapperTables vm O E) (ho : O o) {spc : ℕ} {r : ℤ}
    (hrun : vmobjUnmap vm spc o = some (vm', r)) :
    (vm' = vm ∧ r = -1 ∧ ∀ m ∈ E o, mapId vm m ≠ (vm.spcs spc).id) ∨
    ∃ m ∈ E o, mapId vm m = (vm.spcs spc).id ∧ r = 0 ∧ vm'.freed = .vmap m :: vm.freed ∧
      (∀ p, (vm'.objs p).flags = (vm.objs p).flags) ∧ (∀ p, p ≠ o → vm'.objs p = vm.objs p) ∧
      (vm'.objs o).numMappers = (vm.objs o).numMappers - 1 ∧
      MapperTables vm' O (Function.update E o ((E o).erase m)) := by
  rw [vmobjUnmap] at hrun
  split_ifs at hrun with hnull
  by_cases hkey : ∃ m ∈ E o, mapId vm m = (vm.spcs spc).id
  · right
    obtain ⟨m, hm, hid⟩ := hkey
    obtain ⟨vm₁, hdel, hnum, h₁⟩ := h.delete ho hm
    have hside := mapTableDelete_side hdel
    have hm0 : m ≠ 0 := ((h o ho).entries.node hm).1.ne'
    rw [hid] at hdel
    simp only [hdel, hm0, Option.bind_eq_bind, Option.bind_some, ne_eq, not_false_eq_true, if_true,
      garbageCollect_eq, Option.bind_eq_some_iff, Option.some_inj, Prod.mk.injEq] at hrun
    obtain ⟨vm₂, htree, rfl, rfl⟩ := hrun
    obtain ⟨hmaps, hobjs, hfreed, hids⟩ := treeDeleteMap_side htree
    have hone : ∀ p, p ≠ o → (vm₂.setObj o { vm₂.objs o with
        numMappers := (vm₂.objs o).numMappers - 1 }).objs p = vm₁.objs p := by
      intro p hp
      rw [Vm.setObj, ← hobjs]
      exact Function.update_of_ne hp _ _
    refine ⟨m, hm, hid, rfl, ?_, fun p => ?_, fun p hp => ?_, ?_, fun p hp => ?_⟩
    · rw [Vm.free, Vm.setObj, hfreed, hside.freed]
    · rw [← hside.all_flags p]
      by_cases hpo : p = o
      · subst hpo
        simp [Vm.free, Vm.setObj, hobjs]
      · exact congrArg VmObj.flags (hone p hpo)
    · exact (hone p hp).trans (hside.others p hp)
    · simp [Vm.free, Vm.setObj, hobjs, hnum]
    · refine (h₁ p hp).congr (fun x _ => ?_) hids ?_
      · rw [Vm.free, Vm.setObj, hmaps]
        exact ⟨rfl, rfl, rfl⟩
      · by_cases hpo : p = o
        · subst hpo
          simp [Vm.free, Vm.setObj, hobjs]
        · exact congrArg VmObj.mappers (hone p hpo)
  · left
    push Not at hkey
    simp only [(h o ho).delete_none hkey, Option.bind_eq_bind, Option.bind_some, ne_eq,
      not_true_eq_false, if_false, Option.some_inj, Prod.mk.injEq] at hrun
    obtain ⟨rfl, rfl⟩ := hrun
    exact ⟨rfl, rfl, hkey⟩

end Removal

end AddressSpaces
