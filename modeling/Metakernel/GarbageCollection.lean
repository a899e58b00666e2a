import Metakernel.MapperTables

/-!
# Garbage collection of mapped objects

An object with `VMOBJ_REF_COUNT` is to be destroyed by the removal of its last mapping, in
`vmobj_unmap` or in `delete_mapping`. A run is a list of removals with the memory after each.
-/
namespace AddressSpaces

open RedBlackTree AddressLookup LinkedTrees NodeTables

inductive Removal where
  | unmap (spc obj : ℕ)
  | tearDown (map : ℕ)

def Removal.run (vm : Vm) : Removal → Option Vm
  | .unmap spc obj => (vmobjUnmap vm spc obj).map Prod.fst
  | .tearDown map => deleteMapping vm map

/-- Objects in `O` only, and a teardown is of a mapping that is in the table of its object. -/
def Removal.Proper (vm : Vm) (O : ℕ → Prop) : Removal → Prop
  | .unmap _ obj => O obj
  | .tearDown map => O (vm.maps map).obj ∧ map ≠ 0 ∧
      mapTableLookup vm (vm.maps map).obj (mapId vm map) = some map

def Removal.TakesLast (vm : Vm) (o : ℕ) : Removal → Prop
  | .unmap spc obj => obj = o ∧ (vm.objs o).numMappers = 1 ∧
      mapTableLookup vm o (vm.spcs spc).id ≠ some 0
  | .tearDown map => (vm.maps map).obj = o ∧ (vm.objs o).numMappers = 1

def Mapped (vm : Vm) (o : ℕ) : Prop := ∃ j, (vm.objs o).mappers j ≠ 0

def RefCounted (vm : Vm) (o : ℕ) : Prop := (vm.objs o).flags &&& VMOBJ_REF_COUNT ≠ 0

def Destroys (vm vm' : Vm) (o : ℕ) : Prop :=
  vm.freed.count (.vmObj o) < vm'.freed.count (.vmObj o)

/-- The object is destroyed by the removal of its last mapping if it is to be collected, and by no
other one, and its count is the number of entries of its table. -/
def Collects (o : ℕ) (vm : Vm) (_ : Removal) (vm' : Vm) : Prop :=
  (Destroys vm vm' o ↔ RefCounted vm o ∧ Mapped vm o ∧ ¬ Mapped vm' o) ∧
  ∃ e, MapperTable vm' o e ∧ (vm'.objs o).numMappers.toNat = e.card

def Along (P : Vm → Removal → Vm → Prop) : Vm → List (Removal × Vm) → Prop
  | _, [] => True
  | vm, (r, vm') :: run => P vm r vm' ∧ Along P vm' run

def Runs (O : ℕ → Prop) : Vm → List (Removal × Vm) → Prop :=
  Along fun vm r vm' => r.Proper vm O ∧ r.run vm = some vm'

theorem Along.iff {P Q R : Vm → Removal → Vm → Prop} {I : Vm → Prop}
    (hstep : ∀ vm r vm', I vm → R vm r vm' → I vm' ∧ (P vm r vm' ↔ Q vm r vm')) :
    ∀ {run : List (Removal × Vm)} {vm : Vm}, I vm → Along R vm run →
      (Along P vm run ↔ Along Q vm run) := by
  intro run
  induction run with
  | nil =>
    intro vm _ _
    exact Iff.rfl
  | cons step run ih =>
    intro vm hI hR
    obtain ⟨r, vm'⟩ := step
    obtain ⟨hfirst, hrest⟩ := hR
    obtain ⟨hI', hiff⟩ := hstep vm r vm' hI hfirst
    rw [Along, Along, hiff, ih hI' hrest]

section Step

variable {vm vm' : Vm} {O : ℕ → Prop} {E : ℕ → Finset ℕ} {o : ℕ} {e : Finset ℕ}

theorem MapperTable.mapped_iff (h : MapperTable vm o e) : Mapped vm o ↔ e.Nonempty :=
  h.entries.nonempty_iff.symm

theorem MapperTable.lookup_cases (h : MapperTable vm o e) (key : ℕ) :
    (∃ m ∈ e, mapId vm m = key ∧ mapTableLookup vm o key = some m ∧ m ≠ 0) ∨
    (∀ m ∈ e, mapId vm m ≠ key) ∧ mapTableLookup vm o key = some 0 := by
  obtain ⟨m, hm, hkey, hrun⟩ | hnone := h.entries.lookup_cases (fun _ => length_lt) key
  · exact Or.inl ⟨m, hm, hkey, hrun, (h.entries.node hm).1.ne'⟩
  · exact Or.inr hnone

/-- One removal: nothing is found and nothing changes, or one entry of one object goes. -/
theorem removal_cases {r : Removal} (h : MapperTables vm O E) (hp : r.Proper vm O)
    (hrun : r.run vm = some vm') :
    (vm' = vm ∧ ∀ p, O p → ¬ r.TakesLast vm p) ∨
    ∃ p m, O p ∧ m ∈ E p ∧ (∀ q, r.TakesLast vm q ↔ q = p ∧ (vm.objs p).numMappers = 1) ∧
      (∀ q, vm'.freed.count (.vmObj q) = vm.freed.count (.vmObj q)) ∧
      (∀ q, q ≠ p → vm'.objs q = vm.objs q) ∧
      (vm'.objs p).numMappers = (vm.objs p).numMappers - 1 ∧
      MapperTables vm' O (Function.update E p ((E p).erase m)) := by
  cases r with
  | unmap spc obj =>
    obtain ⟨⟨vm₁, ret⟩, hcall, rfl⟩ := Option.map_eq_some_iff.mp hrun
    obtain ⟨heq, -, hnone⟩ | ⟨m, hm, hid, -, hfreed, -, hothers, hnum, h'⟩ := h.unmap hp hcall
    · refine Or.inl ⟨heq, ?_⟩
      rintro p hpO ⟨rfl, -, hfound⟩
      obtain ⟨m, hm, hkey, -⟩ | ⟨-, hlookup⟩ := (h obj hpO).lookup_cases (vm.spcs spc).id
      · exact hnone m hm hkey
      · exact hfound hlookup
    · refine Or.inr ⟨obj, m, hp, hm, fun q => ?_, fun q => ?_, hothers, hnum, h'⟩
      · have hfound : mapTableLookup vm obj (vm.spcs spc).id ≠ some 0 := by
          obtain ⟨n, -, -, hlookup, hn⟩ | ⟨hnone, -⟩ := (h obj hp).lookup_cases (vm.spcs spc).id
          · rw [hlookup]
            simpa using hn
          · exact absurd hid (hnone m hm)
        constructor
        · rintro ⟨rfl, hone, -⟩
          exact ⟨rfl, hone⟩
        · rintro ⟨rfl, hone⟩
          exact ⟨rfl, hone, hfound⟩
      · rw [hfreed]
        exact List.count_cons_of_ne (by simp)
  | tearDown map =>
    obtain ⟨hO, hne, hlookup⟩ := hp
    have hm : map ∈ E (vm.maps map).obj := by
      obtain ⟨n, hn, -, hfind, -⟩ | ⟨-, hfind⟩ := (h _ hO).lookup_cases (mapId vm map)
      · rw [hlookup, Option.some_inj] at hfind
        subst hfind
        exact hn
      · rw [hlookup, Option.some_inj] at hfind
        exact absurd hfind hne
    obtain ⟨vm₁, hcall, hside, hnum, h'⟩ := h.deleteMapping hO hm
    obtain rfl : vm₁ = vm' := Option.some_inj.mp (hcall.symm.trans hrun)
    refine Or.inr ⟨_, map, hO, hm, fun q => ?_, fun q => by rw [hside.freed], hside.others, hnum, h'⟩
    constructor
    · rintro ⟨rfl, hone⟩
      exact ⟨rfl, hone⟩
    · rintro ⟨rfl, hone⟩
      exact ⟨rfl, hone⟩

theorem toNat_pred {n : BitVec 32} {k : ℕ} (h : n.toNat = k) (hk : 0 < k) :
    (n - 1).toNat = k - 1 := by
  have hn := n.isLt
  have hone : (1 : BitVec 32).toNat = 1 := rfl
  rw [BitVec.toNat_sub, hone]
  omega

/-- A removal keeps the tables and the counts, destroys nothing, and leaves an object unmapped that
was mapped only where it takes the last entry. -/
theorem removal_step {r : Removal} (h : MapperTables vm O E) (hc : Counted vm O E)
    (hp : r.Proper vm O) (hrun : r.run vm = some vm') :
    ∃ E', MapperTables vm' O E' ∧ Counted vm' O E' ∧ ∀ q, ¬ Destroys vm vm' q ∧
      (O q → (Mapped vm q ∧ ¬ Mapped vm' q ↔ r.TakesLast vm q)) := by
  obtain ⟨rfl, hnot⟩ | ⟨p, m, hpO, hm, hlast, hfreed, hothers, hnum, h'⟩ := removal_cases h hp hrun
  · exact ⟨E, h, hc, fun q => ⟨lt_irrefl _, fun hq =>
      iff_of_false (fun hmap => hmap.2 hmap.1) (hnot q hq)⟩⟩
  · have hpos : 0 < (E p).card := Finset.card_pos.mpr ⟨m, hm⟩
    refine ⟨_, h', fun q hq => ?_, fun q => ⟨?_, fun hq => ?_⟩⟩
    · by_cases hqp : q = p
      · subst hqp
        rw [hnum, Function.update_self, Finset.card_erase_of_mem hm]
        exact toNat_pred (hc q hq) hpos
      · rw [hothers q hqp, Function.update_of_ne hqp]
        exact hc q hq
    · rw [Destroys, hfreed]
      exact lt_irrefl _
    · rw [hlast, (h q hq).mapped_iff, (h' q hq).mapped_iff, Finset.not_nonempty_iff_eq_empty]
      by_cases hqp : q = p
      · subst hqp
        rw [Function.update_self, ← Finset.card_eq_zero, Finset.card_erase_of_mem hm]
        have hcount := hc q hq
        constructor
        · rintro ⟨-, hzero⟩
          refine ⟨rfl, BitVec.eq_of_toNat_eq ?_⟩
          have hbit : (1 : BitVec 32).toNat = 1 := rfl
          rw [hcount, hbit]
          omega
        · rintro ⟨-, hone⟩
          have hbit : (1 : BitVec 32).toNat = 1 := rfl
          rw [hone, hbit] at hcount
          exact ⟨⟨m, hm⟩, by omega⟩
      · rw [Function.update_of_ne hqp]
        refine iff_of_false ?_ fun hq' => hqp hq'.1
        rintro ⟨hne, hempty⟩
        exact hne.ne_empty hempty

end Step

/-- Along every run of removals, the destruction of an object happens when it should exactly where
no removal takes the last mapping of the object while it is to be collected: nothing is ever
destroyed, whatever the order. -/
theorem garbage_collection {vm : Vm} {O : ℕ → Prop} {E : ℕ → Finset ℕ} (h : MapperTables vm O E)
    (hc : Counted vm O E) {run : List (Removal × Vm)} (hrun : Runs O vm run) {o : ℕ} (ho : O o) :
    Along (Collects o) vm run ↔
      Along (fun s r _ => ¬ (RefCounted s o ∧ r.TakesLast s o)) vm run := by
  refine Along.iff (I := fun s => ∃ E, MapperTables s O E ∧ Counted s O E) ?_ ⟨E, h, hc⟩ hrun
  rintro s r s' ⟨E, h, hc⟩ ⟨hp, hstep⟩
  obtain ⟨E', h', hc', hall⟩ := removal_step h hc hp hstep
  refine ⟨⟨E', h', hc'⟩, ?_⟩
  obtain ⟨hkeeps, hlast⟩ := hall o
  constructor
  · rintro ⟨hdestroys, -⟩ ⟨href, htakes⟩
    exact hkeeps (hdestroys.mpr ⟨href, (hlast ho).mpr htakes⟩)
  · intro hnot
    refine ⟨iff_of_false hkeeps ?_, E' o, h' o ho, hc' o ho⟩
    rintro ⟨href, hmapped⟩
    exact hnot ⟨href, (hlast ho).mp hmapped⟩

/-- The object 16 is mapped by the nodes 100 and 200 in the spaces 8 and 24. -/
def twoSpaces (counted : Bool) : Vm where
  maps p := ⟨0, 8192, 16, if p = 100 then 8 else 24, 0⟩
  links := ⟨fun _ => 0, fun _ => 0, fun _ => 0, fun _ => 1⟩
  spcs p := if p = 8 then ⟨1, 0, 0, 0, 100⟩ else ⟨2, 0, 0, 0, 200⟩
  objs _ := ⟨1, if counted then VMOBJ_REF_COUNT else 0, 4096, 2,
    fun j => if j = 1 then 100 else if j = 2 then 200 else 0, 0, 0, 0⟩
  addrTab _ := 0
  vmObjTab _ := 0
  freed := []

theorem twoSpaces_tables (counted : Bool) :
    MapperTables (twoSpaces counted) (· = 16) fun _ => {100, 200} := by
  rintro o rfl
  refine ⟨by decide, EntrySet.of_heads ?_ ?_, ?_, ?_⟩
  · intro j hj
    simp only [twoSpaces] at hj ⊢
    split_ifs at hj ⊢ <;> simp_all [IsNode, mapIndex, mapId, mapNext]
  · intro m
    simp only [Finset.mem_insert, Finset.mem_singleton, twoSpaces]
    constructor
    · rintro (rfl | rfl)
      · exact ⟨1, by simp⟩
      · exact ⟨2, by simp⟩
    · rintro ⟨j, hj, rfl⟩
      split_ifs at hj ⊢ <;> simp_all
  · intro m _
    rfl
  · intro m _
    simp only [twoSpaces]
    split_ifs <;> decide

theorem twoSpaces_counted (counted : Bool) :
    Counted (twoSpaces counted) (· = 16) fun _ => {100, 200} := by
  rintro o rfl
  rfl

theorem twoSpaces_run (counted : Bool) : ∃ s₁ s₂, vmobjUnmap (twoSpaces counted) 24 16 = some (s₁, 0) ∧
    deleteMapping s₁ 100 = some s₂ ∧
    Runs (· = 16) (twoSpaces counted) [(.unmap 24 16, s₁), (.tearDown 100, s₂)] ∧
    (s₁.objs 16).flags = (if counted then VMOBJ_REF_COUNT else 0) ∧
    (s₁.maps 100).obj = 16 ∧ (s₁.objs 16).numMappers = 1 := by
  have hfacts : (vmobjUnmap (twoSpaces counted) 24 16).map (fun p => decide (p.2 = 0 ∧
      (p.1.objs 16).flags = (if counted then VMOBJ_REF_COUNT else 0) ∧ (p.1.maps 100).obj = 16 ∧
      (p.1.objs 16).numMappers = 1 ∧ mapTableLookup p.1 16 (mapId p.1 100) = some 100 ∧
      (deleteMapping p.1 100).isSome)) = some true := by
    cases counted with
    | false => decide +kernel
    | true => decide +kernel
  obtain ⟨⟨s₁, r⟩, hcall, heq⟩ := Option.map_eq_some_iff.mp hfacts
  obtain ⟨rfl, hflags, hobj, hnum, hlookup, hsome⟩ := of_decide_eq_true heq
  obtain ⟨s₂, hdel⟩ := Option.isSome_iff_exists.mp hsome
  refine ⟨s₁, s₂, hcall, hdel, ⟨⟨rfl, ?_⟩, ⟨?_, hdel⟩, trivial⟩, hflags, hobj, hnum⟩
  · rw [Removal.run, hcall]
    rfl
  · exact ⟨hobj, by decide, by rw [hobj, hlookup]⟩

theorem garbage_collection_uncounted : ∃ s₁ s₂, vmobjUnmap (twoSpaces false) 24 16 = some (s₁, 0) ∧
    deleteMapping s₁ 100 = some s₂ ∧
    Along (Collects 16) (twoSpaces false) [(.unmap 24 16, s₁), (.tearDown 100, s₂)] := by
  obtain ⟨s₁, s₂, hcall, hdel, hrun, hflags, -⟩ := twoSpaces_run false
  refine ⟨s₁, s₂, hcall, hdel, (garbage_collection (twoSpaces_tables false)
    (twoSpaces_counted false) hrun rfl).mpr ⟨?_, ?_, trivial⟩⟩
  · rintro ⟨href, -⟩
    exact href rfl
  · rintro ⟨href, -⟩
    rw [RefCounted, hflags] at href
    exact href rfl

/-- The object stays when its last mapping goes, although it is to be collected. -/
theorem last_mapping_leaks : ∃ s₁ s₂, vmobjUnmap (twoSpaces true) 24 16 = some (s₁, 0) ∧
    deleteMapping s₁ 100 = some s₂ ∧ RefCounted s₁ 16 ∧ Mapped s₁ 16 ∧ ¬ Mapped s₂ 16 ∧
    ¬ Destroys s₁ s₂ 16 ∧
    ¬ Along (Collects 16) (twoSpaces true) [(.unmap 24 16, s₁), (.tearDown 100, s₂)] := by
  obtain ⟨s₁, s₂, hcall, hdel, hrun, hflags, hobj, hnum⟩ := twoSpaces_run true
  obtain ⟨⟨hp₁, hrun₁⟩, ⟨hp₂, hrun₂⟩, -⟩ := hrun
  obtain ⟨E₁, h₁, hc₁, -⟩ :=
    removal_step (twoSpaces_tables true) (twoSpaces_counted true) hp₁ hrun₁
  obtain ⟨E₂, -, -, hall⟩ := removal_step h₁ hc₁ hp₂ hrun₂
  obtain ⟨hkeeps, hlast⟩ := hall 16
  obtain ⟨hmapped, hgone⟩ := (hlast rfl).mpr ⟨hobj, hnum⟩
  have href : RefCounted s₁ 16 := by
    rw [RefCounted, hflags]
    decide
  refine ⟨s₁, s₂, hcall, hdel, href, hmapped, hgone, hkeeps, ?_⟩
  rintro ⟨-, ⟨hdestroys, -⟩, -⟩
  exact hkeeps (hdestroys.mpr ⟨href, hmapped, hgone⟩)

end AddressSpaces
