import Metakernel.LinkedNodes

/-!
# The intrusive containers of data_structures.h

`CIRCULAR_LIST` and `STAT_HASH_TABLE` are macros over a node type, its link fields and a
null pointer; the definitions below take these as parameters and follow the expansions
statement by statement. A loop of a macro only follows links, so `fuel` counts the nodes
it may visit: with 32-bit pointers a longer walk has met a node twice and never ends.
-/
namespace DataStructures

open LinkedNodes

variable {M P K : Type*} [DecidableEq P]

section CircularList

variable (next last : NodeField M P P) (null : P)

/-- Returns the memory and the new entry node, which is always `inn`. -/
def clistInsert (m : M) (list inn : P) : M × P :=
  if list = null then
    let m := next.set m inn inn
    let m := last.set m inn inn
    (m, inn)
  else
    let m := next.set m inn list
    let m := last.set m inn (last.get m list)
    let m := next.set m (last.get m list) inn
    let m := last.set m list inn
    (m, inn)

/-- Returns the memory and the node after the deleted one, or null for a one-node ring. -/
def clistDelete (m : M) (list : P) : M × P :=
  if list ≠ null then
    if list ≠ next.get m list then
      let m := next.set m (last.get m list) (next.get m list)
      let m := last.set m (next.get m list) (last.get m list)
      (m, next.get m list)
    else (m, null)
  else (m, null)

variable {next last null} {N : P → Prop}

omit [DecidableEq P] in
theorem ring_singleton {m : M} {i : P} (hi : N i) (hn : next.get m i = i)
    (hl : last.get m i = i) : NodeRing next last N m [i] := by
  refine ⟨List.nodup_singleton i, ?_, ?_⟩
  · intro x hx
    rw [List.mem_singleton.mp hx]
    exact hi
  · simp only [List.head?_cons, Option.toList_some, List.cons_append, List.nil_append,
      List.isChain_cons_cons, List.isChain_singleton, and_true]
    exact ⟨hn, hl⟩

@[simp] theorem clistInsert_entry (m : M) (list inn : P) :
    (clistInsert next last null m list inn).2 = inn := by
  unfold clistInsert
  split <;> rfl

theorem clistInsert_keeps {V : Type*} {g : M → V} (hn : ∀ m p v, g (next.set m p v) = g m)
    (hp : ∀ m p v, g (last.set m p v) = g m) (m : M) (list inn : P) :
    g (clistInsert next last null m list inn).1 = g m := by
  unfold clistInsert
  split <;> simp [hn, hp]

theorem clistDelete_keeps {V : Type*} {g : M → V} (hn : ∀ m p v, g (next.set m p v) = g m)
    (hp : ∀ m p v, g (last.set m p v) = g m) (m : M) (list : P) :
    g (clistDelete next last null m list).1 = g m := by
  unfold clistDelete
  split
  · split <;> simp [hn, hp]
  · rfl

/-- In a non-empty ring the writes go to the new node, the entry node and its predecessor. -/
theorem clistInsert_writes (hf : RingFields next last N) (hnull : ¬ N null) {m : M} {x z : P}
    {l ys : List P} {inn : P} (hl : x :: l = ys ++ [z]) (h : NodeRing next last N m (x :: l))
    (hi : N inn) (hni : inn ∉ x :: l) :
    (clistInsert next last null m x inn).1 =
      last.set (next.set (last.set (next.set m inn x) inn z) z inn) x inn := by
  have hx : N x := h.nodes x (by simp)
  have hxi : x ≠ inn := fun hh => hni (by simp [hh])
  have hxnull : x ≠ null := fun hh => hnull (hh ▸ hx)
  have hlast : last.get m x = z := by
    have := (hl ▸ h : NodeRing next last N m (ys ++ [z])).last_head.1
    simpa [← hl] using this
  -- the predecessor of the entry node is read twice, before and after it is stored
  have hread : last.get (next.set m inn x) x = z := by rw [hf.last_untouched hi hx, hlast]
  have hread' : last.get (last.set (next.set m inn x) inn z) x = z := by
    rw [hf.last_lawful.get_set_ne hi hx hxi, hread]
  simp only [clistInsert, if_neg hxnull, hread, hread']

/-- Inserting before the entry node puts the new node in front of the sequence. -/
theorem clistInsert_ring (hf : RingFields next last N) (hnull : ¬ N null) {m : M} {l : List P}
    {inn : P} (h : NodeRing next last N m l) (hi : N inn) (hni : inn ∉ l) :
    NodeRing next last N (clistInsert next last null m (l.head?.getD null) inn).1 (inn :: l) := by
  cases l with
  | nil =>
    simp only [List.head?_nil, Option.getD_none, clistInsert, if_true]
    refine ring_singleton hi ?_ (hf.last_lawful.get_set hi hi)
    rw [hf.next_untouched hi hi, hf.next_lawful.get_set hi hi]
  | cons x xs =>
    obtain ⟨ys, z, hyz⟩ : ∃ ys z, x :: xs = ys ++ [z] :=
      ⟨_, _, (List.dropLast_append_getLast (List.cons_ne_nil x xs)).symm⟩
    have hx : N x := h.nodes x (by simp)
    have hz : N z := h.nodes z (by simp [hyz])
    have hxi : x ≠ inn := fun hh => hni (by simp [hh])
    have hzi : z ≠ inn := fun hh => hni (by simp [hyz, hh])
    rw [List.head?_cons, Option.getD_some, clistInsert_writes hf hnull hyz h hi hni]
    have node : ∀ a ∈ x :: xs, N a ∧ a ≠ inn := fun a ha =>
      ⟨h.nodes a ha, fun hh => hni (hh ▸ ha)⟩
    refine NodeRing.link h rfl (z := z) (by rw [hyz]; simp) hni hi ?_ ?_ ?_ ?_ ?_ ?_
    · rw [hf.next_untouched hx hi, hf.next_lawful.get_set_ne hz hi hzi.symm,
        hf.next_untouched hi hi, hf.next_lawful.get_set hi hx]
    · rw [hf.last_lawful.get_set_ne hx hi hxi.symm, hf.last_untouched hz hi,
        hf.last_lawful.get_set hi hz]
    · rw [hf.next_untouched hx hz, hf.next_lawful.get_set hz hi]
    · exact hf.last_lawful.get_set hx hi
    · intro a ha haz
      obtain ⟨haN, hai⟩ := node a ha
      rw [hf.next_untouched hx haN, hf.next_lawful.get_set_ne hz haN haz,
        hf.next_untouched hi haN, hf.next_lawful.get_set_ne hi haN hai]
    · intro a ha hax
      obtain ⟨haN, hai⟩ := node a ha
      rw [hf.last_lawful.get_set_ne hx haN hax, hf.last_untouched hz haN,
        hf.last_lawful.get_set_ne hi haN hai, hf.last_untouched hi haN]

/-- What the link writes at the new node and at the nodes of the ring cannot change is not
changed by an insertion. -/
theorem clistInsert_frame {V : Type*} {g : M → V} (hf : RingFields next last N)
    (hnull : ¬ N null) {m : M} {l : List P} {inn : P} (h : NodeRing next last N m l) (hi : N inn)
    (hni : inn ∉ l) (hn : ∀ m p v, p ∈ inn :: l → g (next.set m p v) = g m)
    (hp : ∀ m p v, p ∈ inn :: l → g (last.set m p v) = g m) :
    g (clistInsert next last null m (l.head?.getD null) inn).1 = g m := by
  cases l with
  | nil =>
    simp only [List.head?_nil, Option.getD_none, clistInsert, if_true]
    rw [hp _ _ _ (by simp), hn _ _ _ (by simp)]
  | cons x xs =>
    obtain ⟨ys, z, hyz⟩ : ∃ ys z, x :: xs = ys ++ [z] :=
      ⟨_, _, (List.dropLast_append_getLast (List.cons_ne_nil x xs)).symm⟩
    rw [List.head?_cons, Option.getD_some, clistInsert_writes hf hnull hyz h hi hni,
      hp _ _ _ (by simp), hn _ _ _ (by simp [hyz]), hp _ _ _ (by simp), hn _ _ _ (by simp)]

/-- In a longer ring the writes go to the neighbours of the deleted node. -/
theorem clistDelete_writes (hf : RingFields next last N) (hnull : ¬ N null) {m : M} {i x z : P}
    {l ys : List P} (hl : x :: l = ys ++ [z]) (h : NodeRing next last N m (i :: x :: l)) :
    clistDelete next last null m i = (last.set (next.set m z x) x z, x) := by
  have hi : N i := h.nodes i (by simp)
  have hx : N x := h.nodes x (by simp)
  have hz : N z := h.nodes z (by simp [hl])
  have hinull : i ≠ null := fun hh => hnull (hh ▸ hi)
  have hnd := (List.nodup_cons.mp h.nodup).1
  have hix : i ≠ x := fun hh => hnd (by simp [hh])
  have hiz : i ≠ z := fun hh => hnd (by simp [hl, hh])
  obtain ⟨hnext, hlast⟩ := h.neighbours rfl (z := z) (by rw [hl]; simp)
  -- the links of the deleted node are read again after the neighbours were written
  have hread : next.get (next.set m z x) i = x := by
    rw [hf.next_lawful.get_set_ne hz hi hiz, hnext]
  have hread' : last.get (next.set m z x) i = z := by rw [hf.last_untouched hz hi, hlast]
  have hread'' : next.get (last.set (next.set m z x) x z) i = x := by
    rw [hf.next_untouched hx hi, hread]
  simp only [clistDelete, hinull, ne_eq, not_false_eq_true, if_true, hnext, hix, hlast, hread,
    hread', hread'']

/-- Deleting the entry node leaves the rest of the sequence, entered at its first node. -/
theorem clistDelete_ring (hf : RingFields next last N) (hnull : ¬ N null) {m : M} {i : P}
    {l : List P} (h : NodeRing next last N m (i :: l)) :
    NodeRing next last N (clistDelete next last null m i).1 l ∧
      (clistDelete next last null m i).2 = l.head?.getD null := by
  cases l with
  | nil =>
    have hs : next.get m i = i := h.next_single
    simp [clistDelete, hs, ring_nil]
  | cons x xs =>
    obtain ⟨ys, z, hyz⟩ : ∃ ys z, x :: xs = ys ++ [z] :=
      ⟨_, _, (List.dropLast_append_getLast (List.cons_ne_nil x xs)).symm⟩
    have hx : N x := h.nodes x (by simp)
    have hz : N z := h.nodes z (by simp [hyz])
    rw [clistDelete_writes hf hnull hyz h]
    have node : ∀ a ∈ x :: xs, N a := fun a ha => h.nodes a (List.mem_cons_of_mem _ ha)
    refine ⟨NodeRing.unlink h rfl (z := z) (by rw [hyz]; simp) ?_ ?_ ?_ ?_, rfl⟩
    · rw [hf.next_untouched hx hz, hf.next_lawful.get_set hz hx]
    · exact hf.last_lawful.get_set hx hz
    · intro a ha haz
      rw [hf.next_untouched hx (node a ha), hf.next_lawful.get_set_ne hz (node a ha) haz]
    · intro a ha hax
      rw [hf.last_lawful.get_set_ne hx (node a ha) hax, hf.last_untouched hz (node a ha)]

theorem clistDelete_frame {V : Type*} {g : M → V} (hf : RingFields next last N)
    (hnull : ¬ N null) {m : M} {i : P} {l : List P} (h : NodeRing next last N m (i :: l))
    (hn : ∀ m p v, p ∈ l → g (next.set m p v) = g m)
    (hp : ∀ m p v, p ∈ l → g (last.set m p v) = g m) :
    g (clistDelete next last null m i).1 = g m := by
  cases l with
  | nil =>
    have hs : next.get m i = i := h.next_single
    simp [clistDelete, hs]
  | cons x xs =>
    obtain ⟨ys, z, hyz⟩ : ∃ ys z, x :: xs = ys ++ [z] :=
      ⟨_, _, (List.dropLast_append_getLast (List.cons_ne_nil x xs)).symm⟩
    rw [clistDelete_writes hf hnull hyz h, hp _ _ _ (by simp), hn _ _ _ (by simp [hyz])]

end CircularList

section HashTable

variable (next : NodeField M P P) (null : P) (uniqueId : M → P → K)
  (uniqueEq : K → K → Bool) (index : K → ℕ)

/-- `index` stands for `hash_func(key) % size` as stored in the unsigned local. -/
def hashTableInsert (m : M) (table : ℕ → P) (inn : P) : M × (ℕ → P) :=
  let i := index (uniqueId m inn)
  (next.set m inn (table i), Function.update table i inn)

def hashTableLookupFrom (m : M) (key : K) : ℕ → P → Option P
  | 0, _ => none
  | fuel + 1, curr =>
    if curr = null then some null
    else if uniqueEq (uniqueId m curr) key then some curr
    else hashTableLookupFrom m key fuel (next.get m curr)

def hashTableLookup (fuel : ℕ) (m : M) (table : ℕ → P) (key : K) : Option P :=
  hashTableLookupFrom next null uniqueId uniqueEq m key fuel (table (index key))

def hashTableDeleteFrom (m : M) (key : K) : ℕ → P → P → Option (M × P)
  | 0, _, _ => none
  | fuel + 1, last, curr =>
    if curr = null then some (m, null)
    else if uniqueEq (uniqueId m curr) key then some (next.set m last (next.get m curr), curr)
    else hashTableDeleteFrom m key fuel curr (next.get m curr)

def hashTableDelete (fuel : ℕ) (m : M) (table : ℕ → P) (key : K) : Option (M × (ℕ → P) × P) :=
  let i := index key
  let curr := table i
  if curr = null then some (m, table, null)
  else if uniqueEq (uniqueId m curr) key then
    some (m, Function.update table i (next.get m curr), curr)
  else
    (hashTableDeleteFrom next null uniqueId uniqueEq m key fuel curr (next.get m curr)).map
      fun r => (r.1, table, r.2)

variable {next null uniqueId uniqueEq index}

theorem hashTableDeleteFrom_finds {m : M} {key : K} : ∀ {fuel : ℕ} {last curr : P},
    (hashTableDeleteFrom next null uniqueId uniqueEq m key fuel last curr).map Prod.snd =
      hashTableLookupFrom next null uniqueId uniqueEq m key fuel curr
  | 0, _, _ => rfl
  | fuel + 1, last, curr => by
    rw [hashTableDeleteFrom, hashTableLookupFrom]
    split
    · rfl
    · split
      · rfl
      · exact hashTableDeleteFrom_finds

/-- On any links the deletion ends at the node that a lookup finds. -/
theorem hashTableDelete_finds {fuel : ℕ} {m : M} {table : ℕ → P} {key : K} :
    (hashTableDelete next null uniqueId uniqueEq index fuel m table key).map (fun r => r.2.2) =
      hashTableLookup next null uniqueId uniqueEq index (fuel + 1) m table key := by
  rw [hashTableDelete, hashTableLookup, hashTableLookupFrom]
  split
  · simp_all
  · split
    · rfl
    · rw [Option.map_map, ← hashTableDeleteFrom_finds]
      rfl

theorem hashTableDeleteFrom_keeps {V : Type*} {g : M → V} (hn : ∀ m p v, g (next.set m p v) = g m)
    {m : M} {key : K} {r : M × P} : ∀ {fuel : ℕ} {last curr : P},
    hashTableDeleteFrom next null uniqueId uniqueEq m key fuel last curr = some r → g r.1 = g m
  | fuel + 1, last, curr, h => by
    rw [hashTableDeleteFrom] at h
    split at h
    · cases h
      rfl
    · split at h
      · cases h
        exact hn m last _
      · exact hashTableDeleteFrom_keeps hn h

theorem hashTableDelete_keeps {V : Type*} {g : M → V} (hn : ∀ m p v, g (next.set m p v) = g m)
    {fuel : ℕ} {m : M} {table : ℕ → P} {key : K} {r : M × (ℕ → P) × P}
    (h : hashTableDelete next null uniqueId uniqueEq index fuel m table key = some r) :
    g r.1 = g m := by
  rw [hashTableDelete] at h
  split at h
  · cases h
    rfl
  · split at h
    · cases h
      rfl
    · obtain ⟨q, hq, rfl⟩ := Option.map_eq_some_iff.mp h
      exact hashTableDeleteFrom_keeps hn hq

theorem hashTableLookupFrom_chain {m : M} {key : K} : ∀ {l : List P} {fuel : ℕ} {curr : P},
    Chain next null m curr l → l.length < fuel →
    hashTableLookupFrom next null uniqueId uniqueEq m key fuel curr =
      some ((l.find? fun x => uniqueEq (uniqueId m x) key).getD null)
  | [], fuel + 1, curr, h, _ => by
    have hc : curr = null := h
    simp [hashTableLookupFrom, hc]
  | x :: l, fuel + 1, curr, ⟨hp, hx, hr⟩, hf => by
    subst hp
    rw [hashTableLookupFrom, if_neg hx]
    by_cases hk : uniqueEq (uniqueId m curr) key
    · simp [hk]
    · rw [if_neg hk, hashTableLookupFrom_chain hr (by simpa using hf)]
      simp [hk]

/-- A walk finds a node of any set of nodes that it starts in and that the links do not leave. -/
theorem hashTableLookupFrom_within {m : M} {key : K} {S : P → Prop}
    (hnext : ∀ p, S p → p ≠ null → S (next.get m p)) {p : P} : ∀ {fuel : ℕ} {curr : P}, S curr →
    hashTableLookupFrom next null uniqueId uniqueEq m key fuel curr = some p → p ≠ null →
    S p ∧ uniqueEq (uniqueId m p) key = true
  | fuel + 1, curr, hcurr, h, hp => by
    rw [hashTableLookupFrom] at h
    split at h
    · exact absurd (Option.some_inj.mp h).symm hp
    · rename_i hnull
      split at h
      · rename_i hk
        cases h
        exact ⟨hcurr, hk⟩
      · exact hashTableLookupFrom_within hnext (hnext curr hcurr hnull) h hp

/-- The deleting walk stops at the first node with the key and redirects the node before. -/
theorem hashTableDeleteFrom_chain {m : M} {key : K} {x : P} {r : List P}
    (hx : uniqueEq (uniqueId m x) key = true) :
    ∀ {l : List P} {fuel : ℕ} {y curr : P}, Chain next null m curr (l ++ x :: r) →
    (∀ a ∈ l, uniqueEq (uniqueId m a) key = false) → l.length < fuel →
    hashTableDeleteFrom next null uniqueId uniqueEq m key fuel y curr =
      some (next.set m ((y :: l).getLast (by simp)) (next.get m x), x)
  | [], fuel + 1, y, curr, ⟨hp, hn, _⟩, _, _ => by
    subst hp
    simp [hashTableDeleteFrom, hn, hx]
  | a :: l, fuel + 1, y, curr, ⟨hp, hn, hr⟩, hl, hf => by
    subst hp
    rw [hashTableDeleteFrom, if_neg hn, if_neg (by simp [hl curr (by simp)]),
      hashTableDeleteFrom_chain hx hr (fun b hb => hl b (List.mem_cons_of_mem _ hb))
        (by simpa using hf)]
    simp

variable (uniqueId uniqueEq) in
/-- Deleting a key removes the first node of its chain with that key. The only write is to
the link of another node of the chain, or to the bucket itself. -/
theorem hashTableDelete_chain {D : P → Prop} {N : P → Prop} (hf : next.Lawful N D) {m : M}
    {table : ℕ → P} {key : K} {x : P} {l r : List P} {fuel : ℕ}
    (h : Chain next null m (table (index key)) (l ++ x :: r)) (hnd : (l ++ x :: r).Nodup)
    (hN : ∀ a ∈ l ++ x :: r, N a) (hD : D (next.get m x))
    (hx : uniqueEq (uniqueId m x) key = true)
    (hl : ∀ a ∈ l, uniqueEq (uniqueId m a) key = false) (hfuel : l.length < fuel) :
    ∃ m' table', hashTableDelete next null uniqueId uniqueEq index fuel m table key =
        some (m', table', x) ∧
      Chain next null m' (table' (index key)) (l ++ r) ∧
      (∀ j, j ≠ index key → table' j = table j) ∧
      (m' = m ∨ ∃ w ∈ l, m' = next.set m w (next.get m x)) := by
  cases l with
  | nil =>
    obtain ⟨hp, hn, hr⟩ := h
    refine ⟨m, Function.update table (index key) (next.get m x), ?_, ?_, ?_, Or.inl rfl⟩
    · simp only [hashTableDelete, hp, hx, if_true, if_neg hn]
    · simpa using hr
    · intro j hj
      simp [hj]
  | cons y l =>
    obtain ⟨hp, hn, hr⟩ := h
    have hy : uniqueEq (uniqueId m y) key = false := hl y (by simp)
    obtain ⟨ys, w, hw⟩ : ∃ ys w, y :: l = ys ++ [w] :=
      ⟨_, _, (List.dropLast_append_getLast (List.cons_ne_nil y l)).symm⟩
    have hlast : (y :: l).getLast (by simp) = w := by simp [hw]
    have hwm : w ∈ y :: l := by simp [hw]
    have hwN : N w := hN w (by simp only [List.cons_append, List.mem_cons, List.mem_append] at *
                               tauto)
    refine ⟨next.set m w (next.get m x), table, ?_, ?_, fun _ _ => rfl, Or.inr ⟨w, hwm, rfl⟩⟩
    · have hshort : l.length < fuel := by
        simp only [List.length_cons] at hfuel
        omega
      have hwalk := hashTableDeleteFrom_chain (y := y) hx hr
        (fun a ha => hl a (List.mem_cons_of_mem _ ha)) hshort
      rw [hlast] at hwalk
      simp only [hashTableDelete, hp, if_neg hn, hy, Bool.false_eq_true, if_false, hwalk,
        Option.map_some]
    · have hch : Chain next null m (table (index key)) (ys ++ w :: x :: r) := by
        have : ys ++ w :: x :: r = (y :: l) ++ x :: r := by rw [hw]; simp
        rw [this]
        exact ⟨hp, hn, hr⟩
      have heq : (y :: l) ++ r = ys ++ w :: r := by rw [hw]; simp
      have hsrc : (y :: l) ++ x :: r = ys ++ w :: x :: r := by rw [hw]; simp
      rw [heq]
      rw [hsrc] at hnd hN
      refine hch.splice hnd (hf.get_set hwN hD) ?_
      intro a ha haw
      exact hf.get_set_ne hwN (hN a ha) haw

theorem hashTableDeleteFrom_writes {m m' : M} {key : K} {x : P} : ∀ {fuel : ℕ} {last curr : P},
    hashTableDeleteFrom next null uniqueId uniqueEq m key fuel last curr = some (m', x) →
    m' = m ∨ ∃ w v, m' = next.set m w v
  | fuel + 1, last, curr, h => by
    rw [hashTableDeleteFrom] at h
    split_ifs at h with hnull hkey
    · cases h
      exact Or.inl rfl
    · cases h
      exact Or.inr ⟨_, _, rfl⟩
    · exact hashTableDeleteFrom_writes h

theorem hashTableDelete_writes {m m' : M} {table table' : ℕ → P} {key : K} {x : P} {fuel : ℕ}
    (h : hashTableDelete next null uniqueId uniqueEq index fuel m table key = some (m', table', x)) :
    m' = m ∨ ∃ w v, m' = next.set m w v := by
  simp only [hashTableDelete] at h
  split_ifs at h with hnull hkey
  · cases h
    exact Or.inl rfl
  · cases h
    exact Or.inl rfl
  · obtain ⟨r, hr, heq⟩ := Option.map_eq_some_iff.mp h
    cases heq
    exact hashTableDeleteFrom_writes hr

/-- What the table does not use of the memory does not matter to a deletion. -/
theorem hashTableDeleteFrom_map (φ : M → M) (hget : ∀ m p, next.get (φ m) p = next.get m p)
    (hset : ∀ m p v, next.set (φ m) p v = φ (next.set m p v))
    (hid : ∀ m p, uniqueId (φ m) p = uniqueId m p) (m : M) (key : K) : ∀ (fuel : ℕ) (last curr : P),
    hashTableDeleteFrom next null uniqueId uniqueEq (φ m) key fuel last curr =
      (hashTableDeleteFrom next null uniqueId uniqueEq m key fuel last curr).map
        fun r => (φ r.1, r.2)
  | 0, _, _ => rfl
  | fuel + 1, last, curr => by
    rw [hashTableDeleteFrom, hashTableDeleteFrom, hid, hget, hset,
      hashTableDeleteFrom_map φ hget hset hid m key fuel curr]
    split_ifs <;> rfl

theorem hashTableDelete_map (φ : M → M) (hget : ∀ m p, next.get (φ m) p = next.get m p)
    (hset : ∀ m p v, next.set (φ m) p v = φ (next.set m p v))
    (hid : ∀ m p, uniqueId (φ m) p = uniqueId m p) (m : M) (table : ℕ → P) (key : K) (fuel : ℕ) :
    hashTableDelete next null uniqueId uniqueEq index fuel (φ m) table key =
      (hashTableDelete next null uniqueId uniqueEq index fuel m table key).map
        fun r => (φ r.1, r.2) := by
  simp only [hashTableDelete, hid, hget, hashTableDeleteFrom_map φ hget hset hid]
  split_ifs
  · rfl
  · rfl
  · rw [Option.map_map, Option.map_map]
    rfl

omit [DecidableEq P] in
theorem hashTableInsert_chain {N D : P → Prop} (hf : next.Lawful N D) {m : M} {table : ℕ → P}
    {inn : P} {l : List P} (h : Chain next null m (table (index (uniqueId m inn))) l)
    (hN : ∀ a ∈ l, N a) (hi : N inn) (hni : inn ∉ l) (hnull : inn ≠ null)
    (hD : D (table (index (uniqueId m inn)))) :
    Chain next null (hashTableInsert next uniqueId index m table inn).1
      ((hashTableInsert next uniqueId index m table inn).2 (index (uniqueId m inn)))
      (inn :: l) := by
  refine ⟨by simp [hashTableInsert], hnull, ?_⟩
  simp only [hashTableInsert]
  rw [hf.get_set hi hD]
  refine h.congr fun a ha => hf.get_set_ne hi (hN a ha) ?_
  rintro rfl
  exact hni ha

end HashTable

end DataStructures
