import Metakernel.MapperTables

/-!
# Registered spaces and objects

The calls that look their arguments up in the tables of address spaces and vm objects: the two
destructions, and the remapping of an object.
-/
namespace AddressSpaces

open LinkedNodes LinkedTrees DataStructures NodeTables RedBlackTree AddressLookup

def RegisteredSpcs (vm : Vm) (e : Finset ℕ) : Prop :=
  EntrySet spcNext 0 spcId spcIndex IsNode vm vm.addrTab e

def RegisteredObjs (vm : Vm) (e : Finset ℕ) : Prop :=
  EntrySet objNext 0 objId objIndex IsNode vm vm.vmObjTab e

theorem spcNext_lawful : spcNext.Lawful IsNode fun _ => True := by
  constructor
  · intro vm p v _ _
    simp [spcNext, Vm.setSpc]
  · intro vm p q v _ _ hne
    simp [spcNext, Vm.setSpc, hne]

theorem objNext_lawful : objNext.Lawful IsNode fun _ => True := by
  constructor
  · intro vm p v _ _
    simp [objNext, Vm.setObj]
  · intro vm p q v _ _ hne
    simp [objNext, Vm.setObj, hne]

/-- A write to the link of a space changes nothing else of any space. -/
theorem spcNext_set (vm : Vm) (w v p : ℕ) : ((spcNext.set vm w v).spcs p).id = (vm.spcs p).id ∧
    ((spcNext.set vm w v).spcs p).numMappers = (vm.spcs p).numMappers := by
  by_cases hp : p = w
  · subst hp
    simp [spcNext, Vm.setSpc]
  · simp [spcNext, Vm.setSpc, hp]

theorem objNext_set (vm : Vm) (w v p : ℕ) : ((objNext.set vm w v).objs p).id = (vm.objs p).id ∧
    ((objNext.set vm w v).objs p).cowNext = (vm.objs p).cowNext ∧
    ((objNext.set vm w v).objs p).cowPrev = (vm.objs p).cowPrev := by
  by_cases hp : p = w
  · subst hp
    simp [objNext, Vm.setObj]
  · simp [objNext, Vm.setObj, hp]

section Destruction

variable {vm vm' : Vm} {spcs objs e : Finset ℕ} {p spc obj : ℕ}

theorem RegisteredSpcs.delete (h : RegisteredSpcs vm e) (hp : p ∈ e) :
    ∃ vm', spcTableDelete vm (spcId vm p) = some (vm', p) ∧ RegisteredSpcs vm' (e.erase p) ∧
      ∀ q, (vm'.spcs q).numMappers = (vm.spcs q).numMappers := by
  obtain ⟨vm₁, tab, hdel, htab, hwrite⟩ := EntrySet.delete (fun _ => length_lt) spcNext_lawful h hp
    fun w y => (spcNext_set vm w _ y).1
  refine ⟨{ vm₁ with addrTab := tab }, ?_, ?_, fun q => ?_⟩
  · rw [spcTableDelete, hdel]
    rfl
  · exact htab.congr fun x _ => ⟨rfl, rfl⟩
  · rcases hwrite with rfl | ⟨w, -, rfl⟩
    · rfl
    · exact (spcNext_set vm w _ q).2

theorem RegisteredSpcs.delete_none {key : ℕ} (h : RegisteredSpcs vm e)
    (hkey : ∀ p ∈ e, spcId vm p ≠ key) : spcTableDelete vm key = some (vm, 0) := by
  rw [spcTableDelete, EntrySet.delete_none (fun _ => length_lt) h hkey]
  rfl

theorem RegisteredObjs.delete (h : RegisteredObjs vm e) (hp : p ∈ e) :
    ∃ vm', objTableDelete vm (objId vm p) = some (vm', p) ∧ RegisteredObjs vm' (e.erase p) ∧
      ∀ q, (vm'.objs q).cowNext = (vm.objs q).cowNext ∧
        (vm'.objs q).cowPrev = (vm.objs q).cowPrev := by
  obtain ⟨vm₁, tab, hdel, htab, hwrite⟩ := EntrySet.delete (fun _ => length_lt) objNext_lawful h hp
    fun w y => (objNext_set vm w _ y).1
  refine ⟨{ vm₁ with vmObjTab := tab }, ?_, ?_, fun q => ?_⟩
  · rw [objTableDelete, hdel]
    rfl
  · exact htab.congr fun x _ => ⟨rfl, rfl⟩
  · rcases hwrite with rfl | ⟨w, -, rfl⟩
    · exact ⟨rfl, rfl⟩
    · exact (objNext_set vm w _ q).2

theorem RegisteredObjs.delete_none {key : ℕ} (h : RegisteredObjs vm e)
    (hkey : ∀ p ∈ e, objId vm p ≠ key) : objTableDelete vm key = some (vm, 0) := by
  rw [objTableDelete, EntrySet.delete_none (fun _ => length_lt) h hkey]
  rfl

theorem RegisteredObjs.cowDelete (h : RegisteredObjs vm e) (hrun : cowDelete vm p = some vm') :
    RegisteredObjs vm' e := by
  rw [AddressSpaces.cowDelete] at hrun
  split_ifs at hrun
  obtain rfl := Option.some_inj.mp hrun
  have htab : (clistDelete cowNext cowLast 0 vm p).1.vmObjTab = vm.vmObjTab :=
    clistDelete_keeps (fun _ _ _ => rfl) (fun _ _ _ => rfl) vm p
  rw [RegisteredObjs, htab]
  refine EntrySet.congr h fun x _ => ⟨?_, ?_⟩
  · refine clistDelete_keeps (g := fun s => objNext.get s x) (fun s q v => ?_) (fun s q v => ?_) vm p
    all_goals
      by_cases hq : x = q
      · subst hq
        simp [objNext, cowNext, cowLast, Vm.setObj]
      · simp [objNext, cowNext, cowLast, Vm.setObj, hq]
  · refine clistDelete_keeps (g := fun s => objId s x) (fun s q v => ?_) (fun s q v => ?_) vm p
    all_goals
      by_cases hq : x = q
      · subst hq
        simp [objId, cowNext, cowLast, Vm.setObj]
      · simp [objId, cowNext, cowLast, Vm.setObj, hq]

/-- The destruction of a space returns, succeeds exactly on a registered one that nobody maps, then
takes it out of the table, and changes nothing where it is refused. -/
def SpcDestroyExact (vm : Vm) (spcs : Finset ℕ) (spc : ℕ) : Prop :=
  ∃ vm' r, addrSpcDestroy vm spc = some (vm', r) ∧ (r = 0 ∨ r = -1) ∧
    (r = 0 ↔ spc ∈ spcs ∧ (vm.spcs spc).numMappers = 0) ∧
    (r = 0 → ∃ e, RegisteredSpcs vm' e ∧ spc ∉ e) ∧ (r = -1 → vm' = vm)

def ObjDestroyExact (vm : Vm) (objs : Finset ℕ) (obj : ℕ) : Prop :=
  ∃ vm' r, vmobjDestroy vm obj = some (vm', r) ∧ (r = 0 ∨ r = -1) ∧
    (r = 0 ↔ obj ∈ objs ∧ (vm.objs obj).numMappers = 0) ∧
    (r = 0 → ∃ e, RegisteredObjs vm' e ∧ obj ∉ e) ∧ (r = -1 → vm' = vm)

def InRing (vm : Vm) (obj : ℕ) : Prop :=
  (vm.objs obj).cowNext = obj ∨ (vm.objs obj).cowNext ≠ 0 ∧ (vm.objs obj).cowPrev ≠ 0

theorem spcDestroyExact_iff (h : RegisteredSpcs vm spcs) (hspc : spc ≠ 0) :
    SpcDestroyExact vm spcs spc ↔ ∀ p ∈ spcs, spcId vm p ≠ spcId vm spc := by
  constructor
  · rintro ⟨vm', r, hrun, -, hzero, -, hkeep⟩ p hp hid
    obtain ⟨vm₁, hdel, h₁, hnum⟩ := h.delete hp
    have hp0 : p ≠ 0 := (h.node hp).1.ne'
    rw [hid, spcId] at hdel
    rw [addrSpcDestroy, if_neg hspc] at hrun
    simp only [hdel, hnum, hp0, Option.bind_eq_bind, Option.bind_some, ne_eq, not_false_eq_true,
      if_true] at hrun
    split_ifs at hrun with hmapped
    · -- refused, but the entry is gone
      rw [Option.some_inj, Prod.mk.injEq] at hrun
      obtain ⟨rfl, rfl⟩ := hrun
      obtain rfl := hkeep rfl
      have heq : spcs = spcs.erase p := EntrySet.unique h h₁
      rw [heq] at hp
      exact absurd rfl (Finset.mem_erase.mp hp).1
    · obtain ⟨a, -, heq⟩ := Option.bind_eq_some_iff.mp hrun
      rw [Option.some_inj, Prod.mk.injEq] at heq
      exact hmapped (hzero.mp heq.2.symm).2
  · intro hnone
    have hdel : spcTableDelete vm (vm.spcs spc).id = some (vm, 0) := h.delete_none hnone
    refine ⟨vm, -1, ?_, Or.inr rfl, iff_of_false (by decide) ?_, fun hz => absurd hz (by decide),
      fun _ => rfl⟩
    · rw [addrSpcDestroy, if_neg hspc, hdel]
      rfl
    · rintro ⟨hmem, -⟩
      exact hnone spc hmem rfl

theorem cowDelete_isSome_iff (hp : p ≠ 0) : (cowDelete vm p).isSome ↔ InRing vm p := by
  rw [cowDelete, InRing]
  split_ifs with hnull
  · simp only [Option.isSome_none, Bool.false_eq_true, false_iff]
    omega
  · simp only [Option.isSome_some, true_iff]
    omega

theorem objDestroyExact_iff (h : RegisteredObjs vm objs) (hobj : obj ≠ 0) :
    ObjDestroyExact vm objs obj ↔
      obj ∈ objs ∧ (vm.objs obj).numMappers = 0 ∧ InRing vm obj := by
  by_cases hid : ∃ p ∈ objs, objId vm p = objId vm obj
  · obtain ⟨p, hp, hid⟩ := hid
    obtain ⟨vm₁, hdel, h₁, hcow⟩ := h.delete hp
    have hp0 : p ≠ 0 := (h.node hp).1.ne'
    have hring : InRing vm₁ p ↔ InRing vm p := by
      rw [InRing, InRing, (hcow p).1, (hcow p).2]
    have hrun : vmobjDestroy vm obj = (cowDelete vm₁ p).bind
        fun s => some (s.free (.vmObj p), 0) := by
      rw [hid, objId] at hdel
      rw [vmobjDestroy, if_neg hobj, hdel]
      simp only [hp0, Option.bind_eq_bind, Option.bind_some, ne_eq, not_false_eq_true, if_true]
    constructor
    · rintro ⟨vm', r, hcall, -, hzero, -, -⟩
      rw [hrun] at hcall
      obtain ⟨s, hcut, heq⟩ := Option.bind_eq_some_iff.mp hcall
      rw [Option.some_inj, Prod.mk.injEq] at heq
      obtain ⟨hmem, hnum⟩ := hzero.mp heq.2.symm
      obtain rfl := h.only p hp obj hmem hid
      refine ⟨hmem, hnum, hring.mp ((cowDelete_isSome_iff hp0).mp ?_)⟩
      rw [hcut]
      rfl
    · rintro ⟨hmem, hnum, hin⟩
      obtain rfl := h.only p hp obj hmem hid
      obtain ⟨s, hcut⟩ := Option.isSome_iff_exists.mp ((cowDelete_isSome_iff hp0).mpr (hring.mpr hin))
      refine ⟨s.free (.vmObj p), 0, ?_, Or.inl rfl, iff_of_true rfl ⟨hmem, hnum⟩, fun _ => ?_,
        fun hneg => absurd hneg (by decide)⟩
      · rw [hrun, hcut]
        rfl
      · refine ⟨objs.erase p, ?_, by simp⟩
        have hcut' := h₁.cowDelete hcut
        exact EntrySet.congr hcut' fun x _ => ⟨rfl, rfl⟩
  · push Not at hid
    refine iff_of_false ?_ fun hreg => hid obj hreg.1 rfl
    -- nothing is found, and the count is read through NULL
    rintro ⟨vm', r, hcall, -⟩
    have hdel : objTableDelete vm (vm.objs obj).id = some (vm, 0) := h.delete_none hid
    rw [vmobjDestroy, if_neg hobj, hdel] at hcall
    simp [readNumMappers] at hcall

end Destruction

/-- A space is destroyed as it should be exactly where no registered space has its id, so never
when it is registered; an object exactly where it is registered, unmapped and in a ring. -/
theorem destruction_exact {vm : Vm} {spcs objs : Finset ℕ} (hs : RegisteredSpcs vm spcs)
    (ho : RegisteredObjs vm objs) :
    (∀ spc, spc ≠ 0 →
      (SpcDestroyExact vm spcs spc ↔ ∀ p ∈ spcs, spcId vm p ≠ spcId vm spc)) ∧
    ∀ obj, obj ≠ 0 → (ObjDestroyExact vm objs obj ↔
      obj ∈ objs ∧ (vm.objs obj).numMappers = 0 ∧ InRing vm obj) :=
  ⟨fun _ hspc => spcDestroyExact_iff hs hspc, fun _ hobj => objDestroyExact_iff ho hobj⟩

/-- Two spaces, the second with the page of the object 32 at 8192 and one thread in it; the object
16 has no links to other copies, and 48 is alone in its ring. -/
def twoOfEach : Vm where
  maps _ := ⟨0, 8192, 32, 24, 0⟩
  links := ⟨fun _ => 0, fun _ => 0, fun _ => 0, fun _ => 1⟩
  spcs p := if p = 8 then ⟨1, 0, 0, 0, 0⟩ else if p = 24 then ⟨2, 0, 1, 0, 100⟩ else ⟨3, 0, 0, 0, 0⟩
  objs p :=
    if p = 16 then ⟨1, 0, 4096, 0, fun _ => 0, 0, 0, 0⟩
    else if p = 32 then ⟨2, 0, 4096, 1, fun j => if j = 2 then 100 else 0, 32, 32, 0⟩
    else ⟨3, 0, 4096, 0, fun _ => 0, 48, 48, 0⟩
  addrTab j := if j = 1 then 8 else if j = 2 then 24 else 0
  vmObjTab j := if j = 1 then 16 else if j = 2 then 32 else if j = 3 then 48 else 0
  freed := []

theorem twoOfEach_spcs : RegisteredSpcs twoOfEach {8, 24} := by
  refine EntrySet.of_heads (fun j hj => ?_) fun p => ?_
  · simp only [twoOfEach] at hj ⊢
    split_ifs at hj ⊢ <;> simp_all [IsNode, spcIndex, spcId, spcNext]
  · simp only [Finset.mem_insert, Finset.mem_singleton, twoOfEach]
    constructor
    · rintro (rfl | rfl)
      · exact ⟨1, by simp⟩
      · exact ⟨2, by simp⟩
    · rintro ⟨j, hj, rfl⟩
      split_ifs at hj ⊢ <;> simp_all

theorem twoOfEach_objs : RegisteredObjs twoOfEach {16, 32, 48} := by
  refine EntrySet.of_heads (fun j hj => ?_) fun p => ?_
  · simp only [twoOfEach] at hj ⊢
    split_ifs at hj ⊢ <;> simp_all [IsNode, objIndex, objId, objNext]
  · simp only [Finset.mem_insert, Finset.mem_singleton, twoOfEach]
    constructor
    · rintro (rfl | rfl | rfl)
      · exact ⟨1, by simp⟩
      · exact ⟨2, by simp⟩
      · exact ⟨3, by simp⟩
    · rintro ⟨j, hj, rfl⟩
      split_ifs at hj ⊢ <;> simp_all

/-- A space that is not registered is refused, and an object alone in its ring is destroyed. -/
theorem destruction_exact_unmapped :
    SpcDestroyExact twoOfEach {8, 24} 40 ∧ ObjDestroyExact twoOfEach {16, 32, 48} 48 := by
  have h := destruction_exact twoOfEach_spcs twoOfEach_objs
  refine ⟨(h.1 40 (by decide)).mpr ?_, (h.2 48 (by decide)).mpr ⟨by decide, by decide, Or.inl rfl⟩⟩
  intro p hp
  simp only [Finset.mem_insert, Finset.mem_singleton] at hp
  rcases hp with rfl | rfl <;> decide

/-- The space that is mapped is destroyed and the one that is not is refused, though its entry is
gone; the object that is mapped is destroyed and the one without a ring faults. -/
theorem destruction_inverted : RegisteredSpcs twoOfEach {8, 24} ∧
    RegisteredObjs twoOfEach {16, 32, 48} ∧
    (addrSpcDestroy twoOfEach 24).map Prod.snd = some 0 ∧
    (addrSpcDestroy twoOfEach 8).map (fun p => decide (p.2 = -1 ∧ p.1.addrTab 1 = 0)) =
      some true ∧
    (vmobjDestroy twoOfEach 32).map Prod.snd = some 0 ∧
    (twoOfEach.objs 16).numMappers = 0 ∧ vmobjDestroy twoOfEach 16 = none ∧
    ¬ SpcDestroyExact twoOfEach {8, 24} 24 ∧ ¬ ObjDestroyExact twoOfEach {16, 32, 48} 16 := by
  have hfault : vmobjDestroy twoOfEach 16 = none := by
    have hring : (vmobjDestroy twoOfEach 16).isSome = false := by decide +kernel
    exact Option.isSome_eq_false_iff.mp hring |> Option.isNone_iff_eq_none.mp
  have hmapped : (addrSpcDestroy twoOfEach 24).map Prod.snd = some 0 := by decide +kernel
  refine ⟨twoOfEach_spcs, twoOfEach_objs, hmapped, by decide +kernel, by decide +kernel, rfl, hfault,
    ?_, ?_⟩
  · rintro ⟨vm', r, hrun, -, hzero, -⟩
    rw [hrun, Option.map_some, Option.some_inj] at hmapped
    exact absurd (hzero.mp hmapped).2 (by decide)
  · rintro ⟨vm', r, hrun, -⟩
    rw [hfault] at hrun
    cases hrun

def OccursOnce (vm : Vm) (spc obj m : ℕ) : Prop :=
  (∃ t, TreeRep 0 vm.links 0 t (vm.spcs spc).objs ∧ t.toList.count m = 1) ∧
  ∃ chains, HashTable mapNext 0 mapId mapIndex IsNode vm (vm.objs obj).mappers chains ∧
    ((List.range 31).flatMap chains).count m = 1

def RemapExact (vm : Vm) (spc obj m addr : ℕ) (flags : BitVec 32) : Prop :=
  ∃ vm' r, vmobjRemap vm spc obj addr flags = some (vm', r) ∧
    (r = 0 → (vm'.maps m).addr = addr ∧ (vm'.maps m).flags = flags &&& ~~~VMOBJ_RESERVED ∧
      OccursOnce vm' spc obj m) ∧
    (r = -1 → vm' = vm)

structure MappedIn (vm : Vm) (spcs objs e : Finset ℕ) (t : NodeTree ℕ) (spc obj m : ℕ) : Prop where
  spcTable : RegisteredSpcs vm spcs
  objTable : RegisteredObjs vm objs
  spc_only : ∀ p ∈ spcs, spcId vm p = spcId vm spc → p = spc
  obj_only : ∀ p ∈ objs, objId vm p = objId vm obj → p = obj
  mapTable : MapperTable vm obj e
  map_mem : m ∈ e
  map_spc : (vm.maps m).spc = spc
  rep : TreeRep 0 vm.links 0 t (vm.spcs spc).objs
  nodup : t.toList.Nodup
  tree_mem : m ∈ t.toList

section Remapping

variable {vm : Vm} {spcs objs e : Finset ℕ} {t : NodeTree ℕ} {spc obj m addr : ℕ} {flags : BitVec 32}

/-- The space found is always the one the mapping is in, so the flags are all that is set. -/
theorem MappedIn.remap (h : MappedIn vm spcs objs e t spc obj m) (hs : spc ∈ spcs) (ho : obj ∈ objs) :
    vmobjRemap vm spc obj addr flags =
      some (vm.setMap m { vm.maps m with flags := flags &&& ~~~VMOBJ_RESERVED }, 0) := by
  have hspc : spc ≠ 0 := (EntrySet.node h.spcTable hs).1.ne'
  have hobj : obj ≠ 0 := h.mapTable.object
  have hm : m ≠ 0 := (h.mapTable.entries.node h.map_mem).1.ne'
  have hfind : spcTableLookup vm (vm.spcs spc).id = some spc :=
    EntrySet.lookup (fun _ => length_lt) h.spcTable hs
  have hfind' : objTableLookup vm (vm.objs obj).id = some obj :=
    EntrySet.lookup (fun _ => length_lt) h.objTable ho
  have hmap : mapTableLookup vm obj (vm.spcs spc).id = some m := by
    have := h.mapTable.entries.lookup (fun _ => length_lt) h.map_mem
    rwa [mapId, h.map_spc] at this
  rw [vmobjRemap, if_neg (not_or.mpr ⟨hspc, hobj⟩)]
  simp [hfind, hfind', hmap, hspc, hobj, hm, h.map_spc]

/-- Where one of them is not registered, a mutex is locked through NULL. -/
theorem MappedIn.remap_unregistered (h : MappedIn vm spcs objs e t spc obj m)
    (hnot : ¬ (spc ∈ spcs ∧ obj ∈ objs)) : vmobjRemap vm spc obj addr flags = none := by
  rw [vmobjRemap]
  split_ifs with hnull
  · rfl
  obtain ⟨p, hp, hid, hfind⟩ | ⟨-, hfind⟩ :=
    EntrySet.lookup_cases (fun _ => length_lt) h.spcTable (vm.spcs spc).id
  · obtain rfl := h.spc_only p hp hid
    have hlookup : spcTableLookup vm (vm.spcs p).id = some p := hfind
    obtain ⟨q, hq, hid', -⟩ | ⟨-, hfind'⟩ :=
      EntrySet.lookup_cases (fun _ => length_lt) h.objTable (vm.objs obj).id
    · obtain rfl := h.obj_only q hq hid'
      exact absurd ⟨hp, hq⟩ hnot
    · have hlookup' : objTableLookup vm (vm.objs obj).id = some 0 := hfind'
      simp [hlookup, hlookup']
  · have hlookup : spcTableLookup vm (vm.spcs spc).id = some 0 := hfind
    simp [hlookup]

theorem MappedIn.occursOnce (h : MappedIn vm spcs objs e t spc obj m) (flags : BitVec 32) :
    OccursOnce (vm.setMap m { vm.maps m with flags := flags }) spc obj m := by
  refine ⟨⟨t, h.rep, List.count_eq_one_of_mem h.nodup h.tree_mem⟩, ?_⟩
  have hside : MapperTable (vm.setMap m { vm.maps m with flags := flags }) obj e := by
    refine h.mapTable.congr (fun x _ => ?_) (fun _ => rfl) rfl
    by_cases hx : x = m
    · subst hx
      simp [Vm.setMap]
    · simp [Vm.setMap, hx]
  exact hside.entries.count (fun k => Nat.mod_lt k (by norm_num)) h.map_mem

end Remapping

/-- A remapping moves the mapping exactly where the space and the object are registered and the
mapping is at the address already. -/
theorem remapping_exact {vm : Vm} {spcs objs e : Finset ℕ} {t : NodeTree ℕ} {spc obj m : ℕ}
    (h : MappedIn vm spcs objs e t spc obj m) (addr : ℕ) (flags : BitVec 32) :
    RemapExact vm spc obj m addr flags ↔
      spc ∈ spcs ∧ obj ∈ objs ∧ (vm.maps m).addr = addr := by
  by_cases hreg : spc ∈ spcs ∧ obj ∈ objs
  · have hremap : vmobjRemap vm spc obj addr flags =
        some (vm.setMap m { vm.maps m with flags := flags &&& ~~~VMOBJ_RESERVED }, 0) :=
      h.remap hreg.1 hreg.2
    constructor
    · rintro ⟨vm', r, hrun, hmoved, -⟩
      rw [hremap, Option.some_inj, Prod.mk.injEq] at hrun
      obtain ⟨rfl, rfl⟩ := hrun
      have haddr := (hmoved rfl).1
      rw [Vm.setMap_self] at haddr
      exact ⟨hreg.1, hreg.2, haddr⟩
    · rintro ⟨-, -, rfl⟩
      refine ⟨_, 0, hremap, fun _ => ⟨?_, ?_, h.occursOnce _⟩, fun hneg => absurd hneg (by decide)⟩
      · rw [Vm.setMap_self]
      · rw [Vm.setMap_self]
  · refine iff_of_false ?_ fun hcond => hreg ⟨hcond.1, hcond.2.1⟩
    rintro ⟨vm', r, hrun, -⟩
    rw [h.remap_unregistered hreg] at hrun
    cases hrun

theorem twoOfEach_mapped :
    MappedIn twoOfEach {8, 24} {16, 32, 48} {100} (.node true .nil 100 .nil) 24 32 100 := by
  refine ⟨twoOfEach_spcs, twoOfEach_objs, fun p hp => twoOfEach_spcs.only p hp 24 (by decide),
    fun p hp => twoOfEach_objs.only p hp 32 (by decide), ⟨by decide, ?_, ?_, ?_⟩, by decide,
    rfl, ⟨rfl, by decide, rfl, rfl, rfl, rfl⟩, by decide, by decide⟩
  · refine EntrySet.of_heads (fun j hj => ?_) fun p => ?_
    · simp only [twoOfEach] at hj ⊢
      simp_all [IsNode, mapIndex, mapId, mapNext]
    · simp only [Finset.mem_singleton, twoOfEach]
      constructor
      · rintro rfl
        exact ⟨2, by simp⟩
      · rintro ⟨j, hj, rfl⟩
        simp_all
  · intro m _
    rfl
  · intro m _
    simp [twoOfEach]

theorem remapping_exact_in_place : RemapExact twoOfEach 24 32 100 8192 3 :=
  (remapping_exact twoOfEach_mapped 8192 3).mpr ⟨by decide, by decide, rfl⟩

/-- The page stays where it was, although the call says that it was moved. -/
theorem remapping_stays :
    MappedIn twoOfEach {8, 24} {16, 32, 48} {100} (.node true .nil 100 .nil) 24 32 100 ∧
    (vmobjRemap twoOfEach 24 32 12288 3).map
      (fun p => decide (p.2 = 0 ∧ (p.1.maps 100).addr = 8192)) = some true ∧
    ¬ RemapExact twoOfEach 24 32 100 12288 3 := by
  have hrun : (vmobjRemap twoOfEach 24 32 12288 3).map
      (fun p => decide (p.2 = 0 ∧ (p.1.maps 100).addr = 8192)) = some true := by decide +kernel
  refine ⟨twoOfEach_mapped, hrun, ?_⟩
  rintro ⟨vm', r, hcall, hmoved, -⟩
  rw [hcall, Option.map_some, Option.some_inj] at hrun
  obtain ⟨hzero, hstays⟩ := of_decide_eq_true hrun
  exact absurd (hstays.symm.trans (hmoved hzero).1) (by decide)

end AddressSpaces
