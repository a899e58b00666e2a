import Mathlib.Data.Fintype.Card
import Metakernel.DataStructures

/-!
# Nodes in a table of records

The nodes are the entries of a table, a pointer is the index of one or null. Several rings, or the
chains of a hash table, share the table; what matters is that no node is in two of them.
-/
namespace NodeTables

open LinkedNodes DataStructures

variable {ι R κ K V : Type*} [DecidableEq ι]

def tableField (get : R → Option ι) (put : R → Option ι → R) :
    NodeField (ι → R) (Option ι) (Option ι) where
  get m p := p.bind fun x => get (m x)
  set m p v := match p with
    | some x => Function.update m x (put (m x) v)
    | none => m

abbrev isNode (p : Option ι) : Prop := p.isSome = true

omit [DecidableEq ι] in
theorem none_not_node : ¬ isNode (none : Option ι) := by simp

theorem tableField_lawful {get : R → Option ι} {put : R → Option ι → R}
    (hget : ∀ r v, get (put r v) = v) (D : Option ι → Prop) :
    (tableField get put).Lawful isNode D := by
  constructor
  · intro m p v hp _
    obtain ⟨x, rfl⟩ := Option.isSome_iff_exists.mp hp
    simp [tableField, hget]
  · intro m p q v hp hq hne
    obtain ⟨x, rfl⟩ := Option.isSome_iff_exists.mp hp
    obtain ⟨y, rfl⟩ := Option.isSome_iff_exists.mp hq
    have hxy : y ≠ x := fun h => hne (congrArg some h)
    simp [tableField, hxy]

theorem tableField_untouched {get get' : R → Option ι} {put' : R → Option ι → R}
    {put : R → Option ι → R} (hget : ∀ r v, get (put' r v) = get r) :
    (tableField get put).Untouched (tableField get' put') isNode := by
  intro m p q v hp hq
  obtain ⟨x, rfl⟩ := Option.isSome_iff_exists.mp hp
  obtain ⟨y, rfl⟩ := Option.isSome_iff_exists.mp hq
  by_cases hxy : y = x <;> simp [tableField, hxy, hget]

theorem tableField_rings {next last : R → Option ι} {putNext putLast : R → Option ι → R}
    (hnext : ∀ r v, next (putNext r v) = v) (hlast : ∀ r v, last (putLast r v) = v)
    (hnl : ∀ r v, next (putLast r v) = next r) (hln : ∀ r v, last (putNext r v) = last r) :
    RingFields (tableField next putNext) (tableField last putLast) isNode :=
  ⟨tableField_lawful hnext _, tableField_lawful hlast _, tableField_untouched hnl,
    tableField_untouched hln⟩

theorem mem_update_cons [DecidableEq κ] {f : κ → List V} {c d : κ} {x y : V} :
    y ∈ Function.update f c (x :: f c) d ↔ y = x ∧ d = c ∨ y ∈ f d := by
  by_cases hd : d = c
  · subst hd
    simp
  · simp [hd]

theorem mem_of_mem_update [DecidableEq κ] {f : κ → List V} {c d : κ} {l : List V} {y : V}
    (hl : l ⊆ f c) (hy : y ∈ Function.update f c l d) : y ∈ f d := by
  by_cases hd : d = c
  · subst hd
    rw [Function.update_self] at hy
    exact hl hy
  · rwa [Function.update_of_ne hd] at hy

section Rings

variable {M : Type*} (next last : NodeField M (Option ι) (Option ι))

structure EntryRing (m : M) (entry : Option ι) (l : List ι) : Prop where
  entry : entry = l.head?
  ring : NodeRing next last isNode m (l.map some)

structure RingFamily (m : M) (entry : κ → Option ι) (ring : κ → List ι) : Prop where
  rings : ∀ c, EntryRing next last m (entry c) (ring c)
  disjoint : ∀ c d x, x ∈ ring c → x ∈ ring d → c = d

variable {next last} {m m' : M} {entry : Option ι} {l : List ι} {t u : ι}

section

omit [DecidableEq ι]

theorem EntryRing.nodup (h : EntryRing next last m entry l) : l.Nodup := h.ring.nodup.of_map

theorem EntryRing.congr (h : EntryRing next last m entry l)
    (hl : ∀ u ∈ l, next.get m' (some u) = next.get m (some u) ∧
      last.get m' (some u) = last.get m (some u)) : EntryRing next last m' entry l := by
  refine ⟨h.entry, h.ring.congr ?_ ?_⟩
  · intro p hp
    obtain ⟨u, hu, rfl⟩ := List.mem_map.mp hp
    exact (hl u hu).1
  · intro p hp
    obtain ⟨u, hu, rfl⟩ := List.mem_map.mp hp
    exact (hl u hu).2

theorem head_map_some (l : List ι) : (l.map some).head?.getD none = l.head? := by
  cases l <;> rfl

/-- A node in the ring is the first one of a ring that holds the same nodes. -/
theorem EntryRing.enter (h : EntryRing next last m entry l) (ht : t ∈ l) :
    ∃ r, NodeRing next last isNode m (some t :: r.map some) ∧ ∀ u, u ∈ t :: r ↔ u ∈ l := by
  obtain ⟨xs, ys, rfl⟩ := List.append_of_mem ht
  have hring := h.ring
  rw [List.map_append] at hring
  refine ⟨ys ++ xs, by simpa using hring.rotate, fun u => ?_⟩
  simp only [List.mem_cons, List.mem_append]
  tauto

theorem EntryRing.next_mem (h : EntryRing next last m entry l) (ht : t ∈ l) :
    ∃ u ∈ l, next.get m (some t) = some u := by
  obtain ⟨r, hring, hmem⟩ := h.enter ht
  cases r with
  | nil => exact ⟨t, ht, hring.next_single⟩
  | cons u r => exact ⟨u, (hmem u).mp (by simp), hring.next_head⟩

theorem EntryRing.reach_iff (h : EntryRing next last m entry l) (hnull : next.get m none = none) :
    (∃ k, (next.get m)^[k] entry = some t) ↔ t ∈ l := by
  constructor
  · rintro ⟨k, hk⟩
    have hmet : ∀ j u, (next.get m)^[j] entry = some u → u ∈ l := by
      intro j
      induction j with
      | zero =>
        intro u hu
        rw [Function.iterate_zero_apply, h.entry] at hu
        exact List.mem_of_mem_head? hu
      | succ j ih =>
        intro u hu
        rw [Function.iterate_succ_apply'] at hu
        cases hj : (next.get m)^[j] entry with
        | none => simp [hj, hnull] at hu
        | some v =>
          obtain ⟨w, hw, hvw⟩ := h.next_mem (ih v hj)
          rw [hj, hvw, Option.some_inj] at hu
          exact hu ▸ hw
    exact hmet k t hk
  · intro ht
    cases l with
    | nil => cases ht
    | cons u l =>
      rw [h.entry]
      exact h.ring.reach (by simpa using ht)

end

variable (hf : RingFields next last isNode)

include hf

/-- A node that the ring is not entered at is taken out by two writes. -/
theorem EntryRing.unlink (h : EntryRing next last m entry l) (ht : t ∈ l) (hne : entry ≠ some t) :
    ∃ x ∈ l.erase t, ∃ z ∈ l.erase t,
      next.get m (some t) = some x ∧ last.get m (some t) = some z ∧
      EntryRing next last (next.set (last.set m (some x) (some z)) (some z) (some x)) entry
        (l.erase t) := by
  obtain ⟨xs, ys, rfl⟩ := List.append_of_mem ht
  have htx : t ∉ xs := fun hmem => (List.nodup_append.mp h.nodup).2.2 t hmem t (by simp) rfl
  have herase : (xs ++ t :: ys).erase t = xs ++ ys := by simp [List.erase_append_right, htx]
  have hentry : entry = (xs ++ ys).head? := by
    rw [h.entry] at hne ⊢
    cases xs with
    | nil => exact absurd rfl hne
    | cons u xs => rfl
  have hnil : ys ++ xs ≠ [] := by
    intro hnil
    rw [h.entry, (List.append_eq_nil_iff.mp hnil).2] at hne
    exact hne rfl
  have hring := h.ring
  rw [List.map_append] at hring
  have hturn : NodeRing next last isNode m (some t :: (ys ++ xs).map some) := by
    simpa using hring.rotate
  have hhead : ((ys ++ xs).map some).head? = some (some ((ys ++ xs).head hnil)) := by
    rw [List.head?_map, List.head?_eq_some_head hnil, Option.map_some]
  have hlast : ((ys ++ xs).map some).getLast? = some (some ((ys ++ xs).getLast hnil)) := by
    rw [List.getLast?_map, List.getLast?_eq_some_getLast hnil, Option.map_some]
  have hsub : ∀ u ∈ ys ++ xs, u ∈ xs ++ ys := by
    intro u hu
    rw [List.mem_append] at hu ⊢
    exact hu.symm
  have hnode : ∀ p ∈ (ys ++ xs).map some, isNode p := by
    intro p hp
    obtain ⟨u, -, rfl⟩ := List.mem_map.mp hp
    rfl
  obtain ⟨hnt, hlt⟩ := hturn.neighbours hhead hlast
  rw [herase]
  refine ⟨_, hsub _ (List.head_mem hnil), _, hsub _ (List.getLast_mem hnil), hnt, hlt, hentry, ?_⟩
  have hout : NodeRing next last isNode (next.set (last.set m (some ((ys ++ xs).head hnil))
      (some ((ys ++ xs).getLast hnil))) (some ((ys ++ xs).getLast hnil))
        (some ((ys ++ xs).head hnil))) ((ys ++ xs).map some) := by
    apply hturn.unlink hhead hlast
    · exact hf.next_lawful.get_set rfl rfl
    · rw [hf.last_untouched rfl rfl, hf.last_lawful.get_set rfl rfl]
    · intro a ha hz
      rw [hf.next_lawful.get_set_ne rfl (hnode a ha) hz, hf.next_untouched rfl (hnode a ha)]
    · intro a ha hx
      rw [hf.last_untouched rfl (hnode a ha), hf.last_lawful.get_set_ne rfl (hnode a ha) hx]
  rw [List.map_append] at hout ⊢
  exact hout.rotate

theorem EntryRing.insert (h : EntryRing next last m entry l) (ht : t ∉ l) :
    EntryRing next last (clistInsert next last none m entry (some t)).1 (some t) (t :: l) := by
  have ht' : some t ∉ l.map some := by simpa using ht
  have hring := clistInsert_ring hf none_not_node h.ring rfl ht'
  rw [head_map_some, ← h.entry] at hring
  exact ⟨rfl, hring⟩

theorem EntryRing.delete (h : EntryRing next last m entry (t :: l)) :
    EntryRing next last (clistDelete next last none m entry).1
      (clistDelete next last none m entry).2 l := by
  have hring : NodeRing next last isNode m (some t :: l.map some) := h.ring
  have hdel := clistDelete_ring hf none_not_node hring
  rw [head_map_some] at hdel
  rw [h.entry]
  exact ⟨hdel.2, hdel.1⟩

theorem EntryRing.insert_frame {g : M → V} (h : EntryRing next last m entry l) (ht : t ∉ l)
    (hn : ∀ m p v, p ∈ some t :: l.map some → g (next.set m p v) = g m)
    (hp : ∀ m p v, p ∈ some t :: l.map some → g (last.set m p v) = g m) :
    g (clistInsert next last none m entry (some t)).1 = g m := by
  have ht' : some t ∉ l.map some := by simpa using ht
  have hframe := clistInsert_frame hf none_not_node h.ring rfl ht' hn hp
  rwa [head_map_some, ← h.entry] at hframe

theorem EntryRing.delete_frame {g : M → V} (h : EntryRing next last m entry (t :: l))
    (hn : ∀ m p v, p ∈ l.map some → g (next.set m p v) = g m)
    (hp : ∀ m p v, p ∈ l.map some → g (last.set m p v) = g m) :
    g (clistDelete next last none m entry).1 = g m := by
  have hring : NodeRing next last isNode m (some t :: l.map some) := h.ring
  rw [h.entry]
  exact clistDelete_frame hf none_not_node hring hn hp

omit [DecidableEq ι] in
/-- The links of a node that is not in the ring are kept by writes to nodes that are. -/
theorem links_elsewhere (hu : u ∉ l) :
    (∀ m p v, p ∈ l.map some → next.get (next.set m p v) (some u) = next.get m (some u)) ∧
    (∀ m p v, p ∈ l.map some → next.get (last.set m p v) (some u) = next.get m (some u)) ∧
    (∀ m p v, p ∈ l.map some → last.get (next.set m p v) (some u) = last.get m (some u)) ∧
    (∀ m p v, p ∈ l.map some → last.get (last.set m p v) (some u) = last.get m (some u)) := by
  have hnode : ∀ p ∈ l.map some, isNode p ∧ some u ≠ p := by
    intro p hp
    obtain ⟨x, hx, rfl⟩ := List.mem_map.mp hp
    exact ⟨rfl, fun heq => hu (Option.some_inj.mp heq ▸ hx)⟩
  refine ⟨fun m p v hp => ?_, fun m p v hp => hf.next_untouched (hnode p hp).1 rfl,
    fun m p v hp => hf.last_untouched (hnode p hp).1 rfl, fun m p v hp => ?_⟩
  · exact hf.next_lawful.get_set_ne (hnode p hp).1 rfl (hnode p hp).2
  · exact hf.last_lawful.get_set_ne (hnode p hp).1 rfl (hnode p hp).2

theorem EntryRing.insert_other (h : EntryRing next last m entry l) (ht : t ∉ l) (hu : u ∉ t :: l) :
    next.get (clistInsert next last none m entry (some t)).1 (some u) = next.get m (some u) ∧
      last.get (clistInsert next last none m entry (some t)).1 (some u) = last.get m (some u) := by
  obtain ⟨hnn, hnl, hln, hll⟩ := links_elsewhere hf hu
  exact ⟨h.insert_frame hf (g := fun m => next.get m (some u)) ht hnn hnl,
    h.insert_frame hf (g := fun m => last.get m (some u)) ht hln hll⟩

theorem EntryRing.delete_other (h : EntryRing next last m entry (t :: l)) (hu : u ∉ l) :
    next.get (clistDelete next last none m entry).1 (some u) = next.get m (some u) ∧
      last.get (clistDelete next last none m entry).1 (some u) = last.get m (some u) := by
  obtain ⟨hnn, hnl, hln, hll⟩ := links_elsewhere hf hu
  exact ⟨h.delete_frame hf (g := fun m => next.get m (some u)) hnn hnl,
    h.delete_frame hf (g := fun m => last.get m (some u)) hln hll⟩

variable [DecidableEq κ] {entries : κ → Option ι} {ring : κ → List ι} {c : κ}

theorem RingFamily.insert (h : RingFamily next last m entries ring) (ht : ∀ d, t ∉ ring d) :
    RingFamily next last (clistInsert next last none m (entries c) (some t)).1
      (Function.update entries c (some t)) (Function.update ring c (t :: ring c)) := by
  refine ⟨fun d => ?_, fun d e x hd he => ?_⟩
  · by_cases hdc : d = c
    · subst hdc
      rw [Function.update_self, Function.update_self]
      exact (h.rings d).insert hf (ht d)
    · rw [Function.update_of_ne hdc, Function.update_of_ne hdc]
      refine (h.rings d).congr fun u hu => ?_
      have hut : u ∉ t :: ring c := by
        rintro (_ | ⟨_, hmem⟩)
        · exact ht d hu
        · exact hdc (h.disjoint d c u hu hmem)
      exact (h.rings c).insert_other hf (ht c) hut
  · rcases mem_update_cons.mp hd with ⟨rfl, rfl⟩ | hd'
    · rcases mem_update_cons.mp he with ⟨-, rfl⟩ | he'
      · rfl
      · exact absurd he' (ht e)
    · rcases mem_update_cons.mp he with ⟨rfl, rfl⟩ | he'
      · exact absurd hd' (ht d)
      · exact h.disjoint d e x hd' he'

theorem RingFamily.delete (h : RingFamily next last m entries ring) (hc : ring c = t :: l) :
    RingFamily next last (clistDelete next last none m (entries c)).1
      (Function.update entries c (clistDelete next last none m (entries c)).2)
      (Function.update ring c l) := by
  have hring := h.rings c
  rw [hc] at hring
  have hsub : ∀ d x, x ∈ Function.update ring c l d → x ∈ ring d :=
    fun _ _ hx => mem_of_mem_update (hc ▸ List.subset_cons_self t l) hx
  refine ⟨fun d => ?_, fun d e x hd he => h.disjoint d e x (hsub d x hd) (hsub e x he)⟩
  by_cases hdc : d = c
  · subst hdc
    rw [Function.update_self, Function.update_self]
    exact hring.delete hf
  · rw [Function.update_of_ne hdc, Function.update_of_ne hdc]
    refine (h.rings d).congr fun u hu => ?_
    have hul : u ∉ l := by
      intro hmem
      refine hdc (h.disjoint d c u hu ?_)
      rw [hc]
      exact List.mem_cons_of_mem t hmem
    exact hring.delete_other hf hul

end Rings

section HashTables

variable {M P : Type*} [DecidableEq P] (next : NodeField M P P) (null : P) (uniqueId : M → P → K)
  (uniqueEq : K → K → Bool) (index : K → ℕ) (N : P → Prop)

structure ChainFamily (m : M) (table : ℕ → P) (chains : ℕ → List P) : Prop where
  chain : ∀ j, Chain next null m (table j) (chains j)
  nodup : ∀ j, (chains j).Nodup
  nodes : ∀ j, ∀ x ∈ chains j, N x

structure HashTable (m : M) (table : ℕ → P) (chains : ℕ → List P) : Prop where
  chain : ∀ j, Chain next null m (table j) (chains j)
  nodup : ∀ j, (chains j).Nodup
  nodes : ∀ j, ∀ x ∈ chains j, N x
  bucket : ∀ j, ∀ x ∈ chains j, index (uniqueId m x) = j

variable {next null uniqueId uniqueEq index N} {m m' : M} {table : ℕ → P} {chains : ℕ → List P}
  {x : P} {key : K}

section

omit [DecidableEq P]

theorem HashTable.family (h : HashTable next null uniqueId index N m table chains) :
    ChainFamily next null N m table chains := ⟨h.chain, h.nodup, h.nodes⟩

theorem ChainFamily.congr (h : ChainFamily next null N m table chains)
    (hm : ∀ j, ∀ x ∈ chains j, next.get m' x = next.get m x) :
    ChainFamily next null N m' table chains :=
  ⟨fun j => (h.chain j).congr (hm j), h.nodup, h.nodes⟩

theorem HashTable.congr (h : HashTable next null uniqueId index N m table chains)
    (hm : ∀ j, ∀ x ∈ chains j, next.get m' x = next.get m x ∧ uniqueId m' x = uniqueId m x) :
    HashTable next null uniqueId index N m' table chains := by
  refine ⟨fun j => (h.chain j).congr fun x hx => (hm j x hx).1, h.nodup, h.nodes, fun j x hx => ?_⟩
  rw [(hm j x hx).2]
  exact h.bucket j x hx

theorem HashTable.empty (m : M) :
    HashTable next null uniqueId index N m (fun _ => null) fun _ => [] :=
  ⟨fun _ => rfl, fun _ => List.nodup_nil, fun _ _ hx => (by cases hx), fun _ _ hx => (by cases hx)⟩

end

theorem HashTable.lookup (h : HashTable next null uniqueId index N m table chains) {fuel : ℕ}
    (hfuel : (chains (index key)).length < fuel) :
    hashTableLookup next null uniqueId uniqueEq index fuel m table key =
      some (((chains (index key)).find? fun x => uniqueEq (uniqueId m x) key).getD null) :=
  hashTableLookupFrom_chain (h.chain _) hfuel

/-- With plain equality of keys, a lookup finds a node with the key wherever there is one. -/
theorem HashTable.lookup_cases [DecidableEq K]
    (h : HashTable next null uniqueId index N m table chains) (key : K) {fuel : ℕ}
    (hfuel : (chains (index key)).length < fuel) :
    (∃ x ∈ chains (index key), uniqueId m x = key ∧
      hashTableLookup next null uniqueId (fun a b => a = b) index fuel m table key = some x) ∨
    (∀ j, ∀ x ∈ chains j, uniqueId m x ≠ key) ∧
      hashTableLookup next null uniqueId (fun a b => a = b) index fuel m table key =
        some null := by
  rw [h.lookup hfuel]
  cases hl : (chains (index key)).find? fun x => decide (uniqueId m x = key) with
  | some x =>
    have hkey : uniqueId m x = key := by simpa using List.find?_some hl
    exact Or.inl ⟨x, List.mem_of_find?_eq_some hl, hkey, rfl⟩
  | none =>
    refine Or.inr ⟨fun j x hx hkey => ?_, rfl⟩
    have hj := h.bucket j x hx
    rw [hkey] at hj
    subst hj
    exact List.find?_eq_none.mp hl x hx (by simpa using hkey)

variable (hf : next.Lawful N fun _ => True)

include hf

omit [DecidableEq P] in
theorem ChainFamily.push (h : ChainFamily next null N m table chains) (hx : N x)
    (hout : ∀ j, x ∉ chains j) (hnull : x ≠ null) (i : ℕ) :
    ChainFamily next null N (next.set m x (table i)) (Function.update table i x)
      (Function.update chains i (x :: chains i)) := by
  refine ⟨fun j => ?_, fun j => ?_, fun j y hy => ?_⟩
  · have hkeep : ∀ y ∈ chains j, next.get (next.set m x (table i)) y = next.get m y := by
      intro y hy
      refine hf.get_set_ne hx (h.nodes j y hy) ?_
      rintro rfl
      exact hout j hy
    by_cases hj : j = i
    · subst hj
      rw [Function.update_self, Function.update_self]
      refine ⟨rfl, hnull, ?_⟩
      rw [hf.get_set hx trivial]
      exact (h.chain j).congr hkeep
    · rw [Function.update_of_ne hj, Function.update_of_ne hj]
      exact (h.chain j).congr hkeep
  · by_cases hj : j = i
    · subst hj
      rw [Function.update_self]
      exact List.nodup_cons.mpr ⟨hout _, h.nodup _⟩
    · rw [Function.update_of_ne hj]
      exact h.nodup j
  · obtain ⟨rfl, -⟩ | hy := mem_update_cons.mp hy
    · exact hx
    · exact h.nodes j y hy

omit [DecidableEq P] in
theorem HashTable.insert (h : HashTable next null uniqueId index N m table chains) (hx : N x)
    (hout : ∀ j, x ∉ chains j) (hnull : x ≠ null)
    (hid : ∀ y, N y → uniqueId (next.set m x (table (index (uniqueId m x)))) y = uniqueId m y) :
    HashTable next null uniqueId index N (hashTableInsert next uniqueId index m table x).1
      (hashTableInsert next uniqueId index m table x).2
      (Function.update chains (index (uniqueId m x)) (x :: chains (index (uniqueId m x)))) := by
  obtain ⟨hchain, hnodup, hnodes⟩ := h.family.push hf hx hout hnull (index (uniqueId m x))
  refine ⟨hchain, hnodup, hnodes, fun j y hy => ?_⟩
  simp only [hashTableInsert]
  obtain ⟨rfl, rfl⟩ | hy := mem_update_cons.mp hy
  · rw [hid y hx]
  · rw [hid y (h.nodes j y hy)]
    exact h.bucket j y hy

/-- The first node of the chain with the key is deleted; at most one link is written. -/
theorem HashTable.delete_first (h : HashTable next null uniqueId index N m table chains)
    {l r : List P} {fuel : ℕ} (hlr : chains (index key) = l ++ x :: r)
    (hkey : uniqueEq (uniqueId m x) key = true)
    (hl : ∀ a ∈ l, uniqueEq (uniqueId m a) key = false) (hfuel : l.length < fuel)
    (hid : ∀ w y, N w → N y → uniqueId (next.set m w (next.get m x)) y = uniqueId m y) :
    ∃ m' table', hashTableDelete next null uniqueId uniqueEq index fuel m table key =
        some (m', table', x) ∧
      HashTable next null uniqueId index N m' table' (Function.update chains (index key) (l ++ r)) ∧
      (m' = m ∨ ∃ w ∈ chains (index key), m' = next.set m w (next.get m x)) := by
  have hnd := h.nodup (index key)
  have hchain := h.chain (index key)
  rw [hlr] at hnd hchain
  have hnodes : ∀ a ∈ l ++ x :: r, N a := hlr ▸ h.nodes (index key)
  obtain ⟨m', table', hdel, hch, htable, hm'⟩ :=
    hashTableDelete_chain uniqueId uniqueEq hf hchain hnd hnodes trivial hkey hl hfuel
  have hin : ∀ w ∈ l, w ∈ chains (index key) := fun w hw => hlr ▸ List.mem_append_left _ hw
  have hsub : l ++ r ⊆ chains (index key) := by
    rw [hlr]
    intro y hy
    rcases List.mem_append.mp hy with hy | hy
    · exact List.mem_append_left _ hy
    · exact List.mem_append_right _ (List.mem_cons_of_mem _ hy)
  have hmem : ∀ j y, y ∈ Function.update chains (index key) (l ++ r) j → y ∈ chains j :=
    fun _ _ hy => mem_of_mem_update hsub hy
  have hkeep : ∀ y, N y → uniqueId m' y = uniqueId m y := by
    intro y hy
    obtain rfl | ⟨w, hw, rfl⟩ := hm'
    · rfl
    · exact hid w y (h.nodes _ w (hin w hw)) hy
  refine ⟨m', table', hdel, ⟨fun j => ?_, fun j => ?_,
    fun j y hy => h.nodes j y (hmem j y hy), fun j y hy => ?_⟩, ?_⟩
  · by_cases hj : j = index key
    · subst hj
      rw [Function.update_self]
      exact hch
    · rw [Function.update_of_ne hj, htable j hj]
      refine (h.chain j).congr fun y hy => ?_
      obtain rfl | ⟨w, hw, rfl⟩ := hm'
      · rfl
      · refine hf.get_set_ne (h.nodes _ w (hin w hw)) (h.nodes j y hy) ?_
        rintro rfl
        exact hj ((h.bucket j y hy).symm.trans (h.bucket _ y (hin y hw)))
  · by_cases hj : j = index key
    · subst hj
      rw [Function.update_self]
      exact (List.nodup_middle.mp hnd).of_cons
    · rw [Function.update_of_ne hj]
      exact h.nodup j
  · rw [hkeep y (h.nodes j y (hmem j y hy))]
    exact h.bucket j y (hmem j y hy)
  · exact hm'.imp_right fun ⟨w, hw, heq⟩ => ⟨w, hin w hw, heq⟩

/-- The only node with the key is deleted; at most one link is written. -/
theorem HashTable.delete (h : HashTable next null uniqueId index N m table chains) {fuel : ℕ}
    (hx : x ∈ chains (index key)) (hkey : uniqueEq (uniqueId m x) key = true)
    (honly : ∀ y ∈ chains (index key), uniqueEq (uniqueId m y) key = true → y = x)
    (hfuel : (chains (index key)).length < fuel)
    (hid : ∀ w y, N w → N y → uniqueId (next.set m w (next.get m x)) y = uniqueId m y) :
    ∃ m' table' rest, hashTableDelete next null uniqueId uniqueEq index fuel m table key =
        some (m', table', x) ∧
      HashTable next null uniqueId index N m' table' (Function.update chains (index key) rest) ∧
      (∀ y, y ∈ rest ↔ y ∈ chains (index key) ∧ y ≠ x) ∧
      (m' = m ∨ ∃ w ∈ chains (index key), m' = next.set m w (next.get m x)) := by
  obtain ⟨l, r, hlr⟩ := List.append_of_mem hx
  have hnd := h.nodup (index key)
  rw [hlr] at hnd
  have hxl : x ∉ l := fun hmem => (List.disjoint_of_nodup_append hnd) hmem List.mem_cons_self
  have hl : ∀ a ∈ l, uniqueEq (uniqueId m a) key = false := by
    intro a ha
    by_contra hne
    have heq := honly a (hlr ▸ List.mem_append_left _ ha) (by simpa using hne)
    exact hxl (heq ▸ ha)
  have hlen : l.length < fuel := by
    rw [hlr, List.length_append] at hfuel
    omega
  obtain ⟨m', table', hdel, htab, hm'⟩ := h.delete_first hf hlr hkey hl hlen hid
  refine ⟨m', table', l ++ r, hdel, htab, fun y => ?_, hm'⟩
  have hxr : x ∉ l ++ r := (List.nodup_middle.mp hnd).notMem
  rw [hlr, List.perm_middle.mem_iff, List.mem_cons]
  constructor
  · intro hy
    exact ⟨Or.inr hy, fun heq => hxr (heq ▸ hy)⟩
  · rintro ⟨rfl | hy, hne⟩
    · exact absurd rfl hne
    · exact hy

theorem HashTable.delete_key [DecidableEq K]
    (h : HashTable next null uniqueId index N m table chains) {fuel : ℕ}
    (hx : x ∈ chains (index key)) (hkey : uniqueId m x = key)
    (honly : ∀ y ∈ chains (index key), uniqueId m y = key → y = x)
    (hfuel : (chains (index key)).length < fuel)
    (hid : ∀ w y, N w → N y → uniqueId (next.set m w (next.get m x)) y = uniqueId m y) :
    ∃ m' table' rest,
      hashTableDelete next null uniqueId (fun a b => a = b) index fuel m table key =
        some (m', table', x) ∧
      HashTable next null uniqueId index N m' table' (Function.update chains (index key) rest) ∧
      (∀ y, y ∈ rest ↔ y ∈ chains (index key) ∧ y ≠ x) ∧
      (m' = m ∨ ∃ w ∈ chains (index key), m' = next.set m w (next.get m x)) :=
  h.delete hf hx (decide_eq_true hkey) (fun y hy heq => honly y hy (of_decide_eq_true heq)) hfuel hid

omit hf

omit [DecidableEq P] in
/-- The nodes left by the deletion of `x` are the other ones. -/
theorem HashTable.mem_deleted (h : HashTable next null uniqueId index N m table chains)
    {rest : List P} {y : P} (hx : x ∈ chains (index key))
    (hrest : ∀ y, y ∈ rest ↔ y ∈ chains (index key) ∧ y ≠ x) :
    (∃ j, y ∈ Function.update chains (index key) rest j) ↔ (∃ j, y ∈ chains j) ∧ y ≠ x := by
  constructor
  · rintro ⟨j, hj⟩
    have hold := mem_of_mem_update (fun y hy => ((hrest y).mp hy).1) hj
    refine ⟨⟨j, hold⟩, ?_⟩
    rintro rfl
    have hjk : j = index key := (h.bucket j y hold).symm.trans (h.bucket _ y hx)
    rw [hjk, Function.update_self, hrest] at hj
    exact hj.2 rfl
  · rintro ⟨⟨j, hj⟩, hne⟩
    refine ⟨j, ?_⟩
    by_cases hjk : j = index key
    · rw [hjk, Function.update_self, hrest]
      exact ⟨hjk ▸ hj, hne⟩
    · rwa [Function.update_of_ne hjk]

theorem hashTableDeleteFrom_none : ∀ {l : List P} {fuel : ℕ} {y curr : P},
    Chain next null m curr l → (∀ a ∈ l, uniqueEq (uniqueId m a) key = false) → l.length < fuel →
    hashTableDeleteFrom next null uniqueId uniqueEq m key fuel y curr = some (m, null)
  | [], fuel + 1, y, curr, h, _, _ => by
    have hc : curr = null := h
    simp [hashTableDeleteFrom, hc]
  | a :: l, fuel + 1, y, curr, ⟨hp, hn, hr⟩, hl, hfuel => by
    subst hp
    have hne : uniqueEq (uniqueId m curr) key = false := hl curr List.mem_cons_self
    rw [hashTableDeleteFrom, if_neg hn, hne, if_neg (by simp)]
    exact hashTableDeleteFrom_none hr (fun b hb => hl b (List.mem_cons_of_mem _ hb))
      (by simpa using hfuel)

theorem HashTable.delete_none (h : HashTable next null uniqueId index N m table chains) {fuel : ℕ}
    (hkey : ∀ y ∈ chains (index key), uniqueEq (uniqueId m y) key = false)
    (hfuel : (chains (index key)).length < fuel) :
    hashTableDelete next null uniqueId uniqueEq index fuel m table key =
      some (m, table, null) := by
  have hchain := h.chain (index key)
  simp only [hashTableDelete]
  generalize chains (index key) = l at hchain hkey hfuel
  cases l with
  | nil =>
    have hnull : table (index key) = null := hchain
    rw [if_pos hnull]
  | cons a l =>
    obtain ⟨hp, hn, hr⟩ := hchain
    have hne := hkey a List.mem_cons_self
    rw [hp, if_neg hn, hne, if_neg (by simp),
      hashTableDeleteFrom_none hr (fun b hb => hkey b (List.mem_cons_of_mem _ hb)) (by
        simp only [List.length_cons] at hfuel
        omega)]
    rfl

end HashTables

section Entries

variable {M P : Type*} [DecidableEq P] [DecidableEq K] (next : NodeField M P P) (null : P)
  (uniqueId : M → P → K) (index : K → ℕ) (N : P → Prop)

structure EntrySet (m : M) (table : ℕ → P) (e : Finset P) : Prop where
  chains : ∃ chains, HashTable next null uniqueId index N m table chains ∧
    ∀ x, x ∈ e ↔ ∃ j, x ∈ chains j
  only : ∀ x ∈ e, ∀ y ∈ e, uniqueId m x = uniqueId m y → x = y

variable {next null uniqueId index N} {m m' : M} {table : ℕ → P} {e e' : Finset P} {x : P} {key : K}
  {fuel : ℕ}

omit [DecidableEq K] [DecidableEq P] in
theorem EntrySet.congr (h : EntrySet next null uniqueId index N m table e)
    (hm : ∀ x ∈ e, next.get m' x = next.get m x ∧ uniqueId m' x = uniqueId m x) :
    EntrySet next null uniqueId index N m' table e := by
  obtain ⟨chains, htab, hmem⟩ := h.chains
  refine ⟨⟨chains, htab.congr fun j x hx => hm x ((hmem x).mpr ⟨j, hx⟩), hmem⟩, ?_⟩
  intro x hx y hy heq
  rw [(hm x hx).2, (hm y hy).2] at heq
  exact h.only x hx y hy heq

omit [DecidableEq P] [DecidableEq K] in
theorem EntrySet.unique (h : EntrySet next null uniqueId index N m table e)
    (h' : EntrySet next null uniqueId index N m table e') : e = e' := by
  obtain ⟨chains, htab, hmem⟩ := h.chains
  obtain ⟨chains', htab', hmem'⟩ := h'.chains
  have heq : chains = chains' := funext fun j => (htab.chain j).unique (htab'.chain j)
  subst heq
  ext x
  rw [hmem, hmem']

omit [DecidableEq P] [DecidableEq K] in
theorem EntrySet.node (h : EntrySet next null uniqueId index N m table e) (hx : x ∈ e) : N x := by
  obtain ⟨chains, htab, hmem⟩ := h.chains
  obtain ⟨j, hj⟩ := (hmem x).mp hx
  exact htab.nodes j x hj

omit [DecidableEq K] in
theorem EntrySet.insert (hf : next.Lawful N fun _ => True)
    (h : EntrySet next null uniqueId index N m table e) (hx : N x) (hout : x ∉ e)
    (hnull : x ≠ null) (hnew : ∀ y ∈ e, uniqueId m y ≠ uniqueId m x)
    (hid : ∀ y, N y → uniqueId (next.set m x (table (index (uniqueId m x)))) y = uniqueId m y) :
    EntrySet next null uniqueId index N (hashTableInsert next uniqueId index m table x).1
      (hashTableInsert next uniqueId index m table x).2 (insert x e) := by
  have hnode : ∀ y, y = x ∨ y ∈ e → N y := by
    rintro y (rfl | hy)
    · exact hx
    · exact h.node hy
  obtain ⟨chains, htab, hmem⟩ := h.chains
  have htab' := htab.insert hf hx (fun j hj => hout ((hmem x).mpr ⟨j, hj⟩)) hnull hid
  refine ⟨⟨_, htab', fun y => ?_⟩, fun y hy z hz heq => ?_⟩
  · rw [Finset.mem_insert, hmem]
    constructor
    · rintro (rfl | ⟨j, hj⟩)
      · exact ⟨_, mem_update_cons.mpr (Or.inl ⟨rfl, rfl⟩)⟩
      · exact ⟨j, mem_update_cons.mpr (Or.inr hj)⟩
    · rintro ⟨j, hj⟩
      rcases mem_update_cons.mp hj with ⟨rfl, -⟩ | hj
      · exact Or.inl rfl
      · exact Or.inr ⟨j, hj⟩
  · simp only [hashTableInsert] at heq
    rw [Finset.mem_insert] at hy hz
    rw [hid y (hnode y hy), hid z (hnode z hz)] at heq
    rcases hy with hyx | hy <;> rcases hz with hzx | hz
    · rw [hyx, hzx]
    · exact absurd (hyx ▸ heq).symm (hnew z hz)
    · exact absurd (hzx ▸ heq) (hnew y hy)
    · exact h.only y hy z hz heq

omit [DecidableEq P] [DecidableEq K] in
/-- The table has an entry exactly where one of its buckets is not empty. -/
theorem EntrySet.nonempty_iff (h : EntrySet next null uniqueId index N m table e) :
    e.Nonempty ↔ ∃ j, table j ≠ null := by
  obtain ⟨chains, htab, hmem⟩ := h.chains
  constructor
  · rintro ⟨x, hx⟩
    obtain ⟨j, hj⟩ := (hmem x).mp hx
    refine ⟨j, fun hnull => ?_⟩
    cases hl : chains j with
    | nil =>
      rw [hl] at hj
      cases hj
    | cons y l =>
      have hch := htab.chain j
      rw [hl, hnull] at hch
      exact hch.2.1 hch.1.symm
  · rintro ⟨j, hj⟩
    cases hl : chains j with
    | nil =>
      have hch := htab.chain j
      rw [hl] at hch
      exact absurd hch hj
    | cons x l => exact ⟨x, (hmem x).mpr ⟨j, by simp [hl]⟩⟩

omit [DecidableEq K] in
theorem EntrySet.of_heads (hnode : ∀ j, table j ≠ null →
      N (table j) ∧ index (uniqueId m (table j)) = j ∧ next.get m (table j) = null)
    (hmem : ∀ x, x ∈ e ↔ ∃ j, table j ≠ null ∧ table j = x) :
    EntrySet next null uniqueId index N m table e := by
  refine ⟨⟨fun j => if table j = null then [] else [table j], ⟨fun j => ?_, fun j => ?_, fun j => ?_,
    fun j => ?_⟩, fun x => ?_⟩, ?_⟩
  · by_cases hj : table j = null
    · rw [if_pos hj]
      exact hj
    · rw [if_neg hj]
      exact ⟨rfl, hj, (hnode j hj).2.2⟩
  · split_ifs <;> simp
  · intro x hx
    split_ifs at hx with hj
    · cases hx
    · rw [List.mem_singleton.mp hx]
      exact (hnode j hj).1
  · intro x hx
    split_ifs at hx with hj
    · cases hx
    · rw [List.mem_singleton.mp hx]
      exact (hnode j hj).2.1
  · rw [hmem]
    refine exists_congr fun j => ?_
    by_cases hj : table j = null
    · simp [hj]
    · simp only [if_neg hj, List.mem_singleton]
      exact ⟨fun h => h.2.symm, fun h => ⟨hj, h.symm⟩⟩
  · intro x hx y hy heq
    obtain ⟨i, hi, rfl⟩ := (hmem x).mp hx
    obtain ⟨j, hj, rfl⟩ := (hmem y).mp hy
    have hij := congrArg index heq
    rw [(hnode i hi).2.1, (hnode j hj).2.1] at hij
    rw [hij]

omit [DecidableEq K] in
/-- An entry is met exactly once in the first `n` buckets, if the keys have no other ones. -/
theorem EntrySet.count (h : EntrySet next null uniqueId index N m table e) {n : ℕ}
    (hn : ∀ k, index k < n) (hx : x ∈ e) : ∃ chains,
    HashTable next null uniqueId index N m table chains ∧
      ((List.range n).flatMap chains).count x = 1 := by
  obtain ⟨chains, htab, hmem⟩ := h.chains
  refine ⟨chains, htab, List.count_eq_one_of_mem ?_ ?_⟩
  · rw [List.nodup_flatMap]
    refine ⟨fun j _ => htab.nodup j, List.Pairwise.imp ?_ List.nodup_range⟩
    intro i j hij y hi hj
    exact hij ((htab.bucket i y hi).symm.trans (htab.bucket j y hj))
  · obtain ⟨j, hj⟩ := (hmem x).mp hx
    rw [List.mem_flatMap]
    refine ⟨j, List.mem_range.mpr ?_, hj⟩
    rw [← htab.bucket j x hj]
    exact hn _

variable (hfuel : ∀ l : List P, l.Nodup → (∀ x ∈ l, N x) → l.length < fuel)

include hfuel

theorem EntrySet.lookup_cases (h : EntrySet next null uniqueId index N m table e) (key : K) :
    (∃ x ∈ e, uniqueId m x = key ∧
      hashTableLookup next null uniqueId (fun a b => a = b) index fuel m table key = some x) ∨
    (∀ x ∈ e, uniqueId m x ≠ key) ∧
      hashTableLookup next null uniqueId (fun a b => a = b) index fuel m table key =
        some null := by
  obtain ⟨chains, htab, hmem⟩ := h.chains
  obtain ⟨x, hx, hkey, hrun⟩ | ⟨hnone, hrun⟩ :=
    htab.lookup_cases key (hfuel _ (htab.nodup _) (htab.nodes _))
  · exact Or.inl ⟨x, (hmem x).mpr ⟨_, hx⟩, hkey, hrun⟩
  · refine Or.inr ⟨fun x hx => ?_, hrun⟩
    obtain ⟨j, hj⟩ := (hmem x).mp hx
    exact hnone j x hj

theorem EntrySet.lookup (h : EntrySet next null uniqueId index N m table e) (hx : x ∈ e) :
    hashTableLookup next null uniqueId (fun a b => a = b) index fuel m table (uniqueId m x) =
      some x := by
  obtain ⟨y, hy, hkey, hrun⟩ | ⟨hnone, -⟩ := h.lookup_cases hfuel (uniqueId m x)
  · rw [hrun, h.only y hy x hx hkey]
  · exact absurd rfl (hnone x hx)

/-- A deletion takes the entry out; at most one link of an entry is written. -/
theorem EntrySet.delete (hf : next.Lawful N fun _ => True)
    (h : EntrySet next null uniqueId index N m table e) (hx : x ∈ e)
    (hid : ∀ w y, uniqueId (next.set m w (next.get m x)) y = uniqueId m y) :
    ∃ m' table', hashTableDelete next null uniqueId (fun a b => a = b) index fuel m table
        (uniqueId m x) = some (m', table', x) ∧
      EntrySet next null uniqueId index N m' table' (e.erase x) ∧
      (m' = m ∨ ∃ w ∈ e, m' = next.set m w (next.get m x)) := by
  obtain ⟨chains, htab, hmem⟩ := h.chains
  obtain ⟨j, hj⟩ := (hmem x).mp hx
  have hbucket := htab.bucket j x hj
  subst hbucket
  obtain ⟨m', table', rest, hdel, htab', hrest, hwrite⟩ := htab.delete_key hf hj rfl
    (fun y hy heq => h.only y ((hmem y).mpr ⟨_, hy⟩) x hx heq)
    (hfuel _ (htab.nodup _) (htab.nodes _)) fun w y _ _ => hid w y
  have hids : ∀ y, uniqueId m' y = uniqueId m y := by
    rcases hwrite with rfl | ⟨w, -, rfl⟩
    · exact fun _ => rfl
    · exact hid w
  refine ⟨m', table', hdel, ⟨⟨_, htab', fun y => ?_⟩, ?_⟩, hwrite.imp_right ?_⟩
  · rw [Finset.mem_erase, htab.mem_deleted hj hrest, hmem y, and_comm]
  · intro y hy z hz heq
    rw [hids, hids] at heq
    exact h.only y (Finset.mem_of_mem_erase hy) z (Finset.mem_of_mem_erase hz) heq
  · rintro ⟨w, hw, heq⟩
    exact ⟨w, (hmem w).mpr ⟨_, hw⟩, heq⟩

theorem EntrySet.delete_none (h : EntrySet next null uniqueId index N m table e)
    (hkey : ∀ y ∈ e, uniqueId m y ≠ key) :
    hashTableDelete next null uniqueId (fun a b => a = b) index fuel m table key =
      some (m, table, null) := by
  obtain ⟨chains, htab, hmem⟩ := h.chains
  exact htab.delete_none (fun y hy => decide_eq_false (hkey y ((hmem y).mpr ⟨_, hy⟩)))
    (hfuel _ (htab.nodup _) (htab.nodes _))

end Entries

end NodeTables
