import Metakernel.NodeTables

/-!
# The hash table as a stack for each key

`STAT_HASH_TABLE` puts a new node in front of its chain, and both walks stop at the first node with
the key. What the table does is therefore a stack of nodes for each key, whatever other keys share
the bucket.
-/
namespace KeyStacks

open LinkedNodes DataStructures NodeTables

variable {M P K : Type*} [DecidableEq P]

abbrev Stacks (P K : Type*) := K → List P

/-- The calls on one table. Between them other code writes the memory. -/
inductive Event (M P K : Type*) where
  | insert (inn : P) (key : K)
  | lookup (key : K)
  | delete (key : K)
  | elsewhere (mem : M)

section Spec

variable (null : P) (uniqueEq : K → K → Bool)

def push (stack : Stacks P K) (key : K) (x : P) : Stacks P K :=
  fun k => if uniqueEq key k then x :: stack k else stack k

def pop (stack : Stacks P K) (key : K) : Stacks P K :=
  fun k => if uniqueEq key k then (stack k).tail else stack k

def top (stack : Stacks P K) (key : K) : P := (stack key).head?.getD null

def after (stack : Stacks P K) : Event M P K → Stacks P K
  | .insert inn key => push uniqueEq stack key inn
  | .delete key => pop uniqueEq stack key
  | _ => stack

/-- Lookups and deletions return the node on top of the stack, or null. -/
def reply (stack : Stacks P K) : Event M P K → Option P
  | .lookup key | .delete key => some (top null stack key)
  | _ => none

def afterAll (stack : Stacks P K) : List (Event M P K) → Stacks P K
  | [] => stack
  | e :: es => afterAll (after uniqueEq stack e) es

def replies (stack : Stacks P K) : List (Event M P K) → List (Option P)
  | [] => []
  | e :: es => reply null stack e :: replies (after uniqueEq stack e) es

end Spec

structure State (M P : Type*) where
  mem : M
  table : ℕ → P

section Code

variable (next : NodeField M P P) (null : P) (uniqueId : M → P → K) (uniqueEq : K → K → Bool)
  (index : K → ℕ) (N : P → Prop)

def perform (fuel : ℕ) (s : State M P) : Event M P K → Option (State M P × Option P)
  | .insert inn _ =>
    let r := hashTableInsert next uniqueId index s.mem s.table inn
    some (⟨r.1, r.2⟩, none)
  | .lookup key =>
    (hashTableLookup next null uniqueId uniqueEq index fuel s.mem s.table key).map fun p =>
      (s, some p)
  | .delete key =>
    (hashTableDelete next null uniqueId uniqueEq index fuel s.mem s.table key).map fun r =>
      (⟨r.1, r.2.1⟩, some r.2.2)
  | .elsewhere mem => some (⟨mem, s.table⟩, none)

def performAll (fuel : ℕ) : State M P → List (Event M P K) → Option (State M P × List (Option P))
  | s, [] => some (s, [])
  | s, e :: es => do
    let (s, r) ← perform next null uniqueId uniqueEq index fuel s e
    let (s, rs) ← performAll fuel s es
    some (s, r :: rs)

def Allowed (s : State M P) (stack : Stacks P K) : Event M P K → Prop
  | .insert inn key => N inn ∧ inn ≠ null ∧ uniqueId s.mem inn = key ∧ ∀ k, inn ∉ stack k
  | .elsewhere mem => ∀ k, ∀ x ∈ stack k,
      next.get mem x = next.get s.mem x ∧ uniqueId mem x = uniqueId s.mem x
  | _ => True

def AllAllowed (fuel : ℕ) : State M P → Stacks P K → List (Event M P K) → Prop
  | _, _, [] => True
  | s, stack, e :: es => Allowed next null uniqueId N s stack e ∧
      ∀ r ∈ perform next null uniqueId uniqueEq index fuel s e,
        AllAllowed fuel r.1 (after uniqueEq stack e) es

def Represents (s : State M P) (stack : Stacks P K) (n : ℕ) : Prop :=
  ∃ chains, HashTable next null uniqueId index N s.mem s.table chains ∧
    (∀ k, stack k = (chains (index k)).filter fun x => uniqueEq (uniqueId s.mem x) k) ∧
    ∀ j, (chains j).length ≤ n

variable {next null uniqueId uniqueEq index N} {s : State M P} {stack : Stacks P K} {n fuel : ℕ}
  {e : Event M P K} {es : List (Event M P K)} {key : K} {inn : P}

omit [DecidableEq P] in
theorem represents_empty (m : M) :
    Represents next null uniqueId uniqueEq index N ⟨m, fun _ => null⟩ (fun _ => []) 0 :=
  ⟨fun _ => [], .empty m, fun _ => rfl, fun _ => le_refl 0⟩

omit [DecidableEq P] in
theorem Represents.outside (h : Represents next null uniqueId uniqueEq index N s stack n) {j : ℕ}
    (hj : ∀ k, index k ≠ j) : s.table j = null := by
  obtain ⟨chains, htab, -, -⟩ := h
  have hchain := htab.chain j
  cases hl : chains j with
  | nil =>
    rw [hl] at hchain
    exact hchain
  | cons x l => exact absurd (htab.bucket j x (by simp [hl])) (hj _)

theorem Represents.lookup (h : Represents next null uniqueId uniqueEq index N s stack n)
    (hfuel : n < fuel) :
    hashTableLookup next null uniqueId uniqueEq index fuel s.mem s.table key =
      some (top null stack key) := by
  obtain ⟨chains, htab, hstack, hlen⟩ := h
  rw [htab.lookup ((hlen _).trans_lt hfuel), top, hstack, List.head?_filter]

section

omit [DecidableEq P]

theorem filter_first {p : P → Bool} {l r : List P} {x : P} (hl : ∀ a ∈ l, p a = false)
    (hx : p x = true) : (l ++ x :: r).filter p = x :: (l ++ r).filter p := by
  have hskip : l.filter p = [] := by
    rw [List.filter_eq_nil_iff]
    intro a ha
    simp [hl a ha]
  rw [List.filter_append, List.filter_append, hskip, List.filter_cons, if_pos hx]
  rfl

theorem mem_own_stack (heq : Equivalence fun a b => uniqueEq a b = true) {chains : ℕ → List P}
    {m : M} {table : ℕ → P} {j : ℕ} {x : P}
    (htab : HashTable next null uniqueId index N m table chains)
    (hstack : ∀ k, stack k = (chains (index k)).filter fun x => uniqueEq (uniqueId m x) k)
    (hx : x ∈ chains j) : x ∈ stack (uniqueId m x) := by
  rw [hstack, List.mem_filter, htab.bucket j x hx]
  exact ⟨hx, heq.refl _⟩

theorem filter_equal (heq : Equivalence fun a b => uniqueEq a b = true) {m : M} {l : List P} {k : K}
    (hk : uniqueEq key k = true) :
    l.filter (fun x => uniqueEq (uniqueId m x) k) = l.filter fun x => uniqueEq (uniqueId m x) key := by
  refine List.filter_congr fun x _ => ?_
  rw [Bool.eq_iff_iff]
  exact ⟨fun h => heq.trans h (heq.symm hk), fun h => heq.trans h hk⟩

end

variable (hf : next.Lawful N fun _ => True)
  (hid : ∀ m w v y, N w → N y → uniqueId (next.set m w v) y = uniqueId m y)
  (heq : Equivalence fun a b => uniqueEq a b = true)
  (hindex : ∀ a b, uniqueEq a b = true → index a = index b)

include hf hid heq hindex

omit [DecidableEq P] in
theorem Represents.insert (h : Represents next null uniqueId uniqueEq index N s stack n)
    (hi : N inn) (hnull : inn ≠ null) (hout : ∀ k, inn ∉ stack k) :
    Represents next null uniqueId uniqueEq index N
      ⟨(hashTableInsert next uniqueId index s.mem s.table inn).1,
        (hashTableInsert next uniqueId index s.mem s.table inn).2⟩
      (push uniqueEq stack (uniqueId s.mem inn) inn) (n + 1) := by
  obtain ⟨chains, htab, hstack, hlen⟩ := h
  have hnew : ∀ j, inn ∉ chains j := fun j hj =>
    hout _ (mem_own_stack heq htab hstack hj)
  have hids : ∀ y, N y →
      uniqueId (hashTableInsert next uniqueId index s.mem s.table inn).1 y = uniqueId s.mem y :=
    fun y hy => hid _ _ _ y hi hy
  refine ⟨_, htab.insert hf hi hnew hnull fun y hy => hid _ _ _ y hi hy, fun k => ?_, fun j => ?_⟩
  · have hsame : (chains (index k)).filter (fun x => uniqueEq (uniqueId
        (hashTableInsert next uniqueId index s.mem s.table inn).1 x) k) = stack k := by
      rw [hstack]
      refine List.filter_congr fun x hx => ?_
      rw [hids x (htab.nodes _ x hx)]
    by_cases hk : index k = index (uniqueId s.mem inn)
    · rw [hk, Function.update_self, ← hk, List.filter_cons, hids inn hi, hsame, push]
    · have hne : ¬ uniqueEq (uniqueId s.mem inn) k = true := fun hc => hk (hindex _ _ hc).symm
      rw [Function.update_of_ne hk, hsame, push, if_neg hne]
  · by_cases hj : j = index (uniqueId s.mem inn)
    · rw [hj, Function.update_self, List.length_cons]
      exact Nat.succ_le_succ (hlen _)
    · rw [Function.update_of_ne hj]
      exact (hlen j).trans (Nat.le_succ n)

omit hf hid [DecidableEq P] in
theorem equal_stacks {chains : ℕ → List P} {m : M} {k : K}
    (hstack : ∀ k, stack k = (chains (index k)).filter fun x => uniqueEq (uniqueId m x) k)
    (hk : uniqueEq key k = true) : stack k = stack key := by
  rw [hstack, hstack, ← hindex _ _ hk]
  exact filter_equal heq hk

omit hf hid [DecidableEq P] in
theorem pop_empty {chains : ℕ → List P} {m : M}
    (hstack : ∀ k, stack k = (chains (index k)).filter fun x => uniqueEq (uniqueId m x) k)
    (hempty : stack key = []) : pop uniqueEq stack key = stack := by
  funext k
  rw [pop]
  split
  · rename_i hk
    rw [equal_stacks heq hindex hstack hk, hempty, List.tail_nil]
  · rfl

theorem Represents.delete (h : Represents next null uniqueId uniqueEq index N s stack n)
    (hfuel : n < fuel) : ∃ m' table',
    hashTableDelete next null uniqueId uniqueEq index fuel s.mem s.table key =
      some (m', table', top null stack key) ∧
    Represents next null uniqueId uniqueEq index N ⟨m', table'⟩ (pop uniqueEq stack key) n := by
  obtain ⟨chains, htab, hstack, hlen⟩ := h
  have hshort := (hlen (index key)).trans_lt hfuel
  cases hfind : (chains (index key)).find? fun x => uniqueEq (uniqueId s.mem x) key with
  | none =>
    have hnone : ∀ x ∈ chains (index key), uniqueEq (uniqueId s.mem x) key = false := by
      intro x hx
      simpa using List.find?_eq_none.mp hfind x hx
    have hempty : stack key = [] := by
      rw [hstack, List.filter_eq_nil_iff]
      exact List.find?_eq_none.mp hfind
    refine ⟨s.mem, s.table, ?_, ?_⟩
    · rw [htab.delete_none hnone hshort, top, hempty]
      rfl
    · rw [pop_empty heq hindex hstack hempty]
      exact ⟨chains, htab, hstack, hlen⟩
  | some x =>
    obtain ⟨hkey, l, r, hlr, hl⟩ := List.find?_eq_some_iff_append.mp hfind
    have hl' : ∀ a ∈ l, uniqueEq (uniqueId s.mem a) key = false := fun a ha => by simpa using hl a ha
    have hlen' : l.length < fuel := by
      rw [hlr, List.length_append] at hshort
      omega
    have hx : N x := htab.nodes (index key) x (by simp [hlr])
    obtain ⟨m', table', hdel, htab', hwrite⟩ := htab.delete_first hf hlr hkey hl' hlen'
      fun w y hw hy => hid _ w _ y hw hy
    have hids : ∀ y, N y → uniqueId m' y = uniqueId s.mem y := by
      intro y hy
      rcases hwrite with rfl | ⟨w, hw, rfl⟩
      · rfl
      · exact hid _ _ _ y (htab.nodes _ w hw) hy
    have hfilter : (stack key) = x :: (l ++ r).filter fun y => uniqueEq (uniqueId s.mem y) key := by
      rw [hstack, hlr]
      exact filter_first hl' hkey
    have hrest : ∀ y ∈ l ++ r, N y := by
      intro y hy
      refine htab.nodes (index key) y ?_
      rw [hlr]
      rcases List.mem_append.mp hy with hy | hy
      · exact List.mem_append_left _ hy
      · exact List.mem_append_right _ (List.mem_cons_of_mem _ hy)
    refine ⟨m', table', ?_, _, htab', fun k => ?_, fun j => ?_⟩
    · rw [hdel, top, hfilter]
      rfl
    · by_cases hk : index k = index key
      · have hkeep : (l ++ r).filter (fun y => uniqueEq (uniqueId m' y) k) =
            (l ++ r).filter fun y => uniqueEq (uniqueId s.mem y) k :=
          List.filter_congr fun y hy => by rw [hids y (hrest y hy)]
        rw [hk, Function.update_self, hkeep, pop]
        by_cases hsame : uniqueEq key k = true
        · rw [if_pos hsame, equal_stacks heq hindex hstack hsame, hfilter, List.tail_cons]
          exact (filter_equal heq hsame).symm
        · have hxk : ¬ uniqueEq (uniqueId s.mem x) k = true := fun hc =>
            hsame (heq.trans (heq.symm hkey) hc)
          rw [if_neg hsame, hstack, hk, hlr, List.filter_append, List.filter_append,
            List.filter_cons, if_neg hxk]
      · have hne : ¬ uniqueEq key k = true := fun hc => hk (hindex _ _ hc).symm
        rw [Function.update_of_ne hk, pop, if_neg hne, hstack]
        exact List.filter_congr fun y hy => by rw [hids y (htab.nodes _ y hy)]
    · by_cases hj : j = index key
      · have hle := hlen (index key)
        rw [hlr, List.length_append, List.length_cons] at hle
        rw [hj, Function.update_self, List.length_append]
        omega
      · rw [Function.update_of_ne hj]
        exact hlen j

theorem perform_represents (h : Represents next null uniqueId uniqueEq index N s stack n)
    (ha : Allowed next null uniqueId N s stack e) (hfuel : n < fuel) : ∃ s',
    perform next null uniqueId uniqueEq index fuel s e = some (s', reply null stack e) ∧
      Represents next null uniqueId uniqueEq index N s' (after uniqueEq stack e) (n + 1) := by
  have hmore : ∀ {s : State M P} {stack : Stacks P K},
      Represents next null uniqueId uniqueEq index N s stack n →
      Represents next null uniqueId uniqueEq index N s stack (n + 1) := by
    rintro s stack ⟨chains, htab, hstack, hlen⟩
    exact ⟨chains, htab, hstack, fun j => (hlen j).trans (Nat.le_succ n)⟩
  cases e with
  | insert inn key =>
    obtain ⟨hi, hnull, rfl, hout⟩ := ha
    exact ⟨_, rfl, h.insert hf hid heq hindex hi hnull hout⟩
  | lookup key =>
    refine ⟨s, ?_, hmore h⟩
    rw [perform, h.lookup hfuel]
    rfl
  | delete key =>
    obtain ⟨m', table', hdel, hrep⟩ := h.delete hf hid heq hindex hfuel
    refine ⟨⟨m', table'⟩, ?_, hmore hrep⟩
    rw [perform, hdel]
    rfl
  | elsewhere mem =>
    refine ⟨_, rfl, hmore ?_⟩
    obtain ⟨chains, htab, hstack, hlen⟩ := h
    have hkeep : ∀ j, ∀ x ∈ chains j,
        next.get mem x = next.get s.mem x ∧ uniqueId mem x = uniqueId s.mem x := fun j x hx =>
      ha _ x (mem_own_stack heq htab hstack hx)
    refine ⟨chains, htab.congr hkeep, fun k => ?_, hlen⟩
    have hafter : after uniqueEq stack (.elsewhere mem) k = stack k := rfl
    rw [hafter, hstack]
    exact List.filter_congr fun x hx => by rw [(hkeep _ x hx).2]

theorem performAll_represents (h : Represents next null uniqueId uniqueEq index N s stack n)
    (ha : AllAllowed next null uniqueId uniqueEq index N fuel s stack es)
    (hfuel : n + es.length < fuel) : ∃ s',
    performAll next null uniqueId uniqueEq index fuel s es = some (s', replies null uniqueEq stack es) ∧
      Represents next null uniqueId uniqueEq index N s' (afterAll uniqueEq stack es)
        (n + es.length) := by
  induction es generalizing s stack n with
  | nil => exact ⟨s, rfl, h⟩
  | cons e es ih =>
    rw [List.length_cons] at hfuel
    have hmore : n < fuel := by omega
    obtain ⟨s₁, hstep, hrep⟩ := perform_represents hf hid heq hindex h ha.1 hmore
    have hnext := ha.2 _ hstep
    obtain ⟨s', hall, hend⟩ := ih hrep hnext (by omega)
    refine ⟨s', ?_, ?_⟩
    · rw [performAll, hstep, Option.bind_eq_bind, Option.bind_some]
      simp only [hall]
      rfl
    · rw [List.length_cons, show n + (es.length + 1) = n + 1 + es.length by omega]
      exact hend

/-- From an empty table on, every sequence of calls runs to its end, and every lookup and every
deletion returns the node on top of the stack of its key. -/
theorem hash_table_key_stacks {size : ℕ} (hsize : ∀ k, index k < size) (m : M)
    (ha : AllAllowed next null uniqueId uniqueEq index N fuel ⟨m, fun _ => null⟩ (fun _ => []) es)
    (hfuel : es.length < fuel) : ∃ s',
    performAll next null uniqueId uniqueEq index fuel ⟨m, fun _ => null⟩ es =
        some (s', replies null uniqueEq (fun _ => []) es) ∧
      (∃ n, Represents next null uniqueId uniqueEq index N s'
        (afterAll uniqueEq (fun _ => []) es) n) ∧
      ∀ j, size ≤ j → s'.table j = null := by
  obtain ⟨s', hall, hrep⟩ :=
    performAll_represents hf hid heq hindex (represents_empty m) ha (by omega)
  refine ⟨s', hall, ⟨_, hrep⟩, fun j hj => hrep.outside fun k hk => ?_⟩
  have := hsize k
  omega

end Code

section Nodes

variable {ι : Type*} [DecidableEq ι]

def nodeNext : NodeField (ι → Option ι × ℕ) (Option ι) (Option ι) :=
  tableField Prod.fst fun r v => (v, r.2)

def nodeKey (m : ι → Option ι × ℕ) (p : Option ι) : ℕ := p.elim 0 fun x => (m x).2

theorem nodeNext_lawful : (nodeNext (ι := ι)).Lawful isNode fun _ => True :=
  tableField_lawful (fun _ _ => rfl) _

theorem nodeKey_set (m : ι → Option ι × ℕ) (w v y : Option ι) :
    nodeKey (nodeNext.set m w v) y = nodeKey m y := by
  cases w with
  | none => rfl
  | some x =>
    cases y with
    | none => rfl
    | some z =>
      by_cases hz : z = x
      · subst hz
        simp [nodeKey, nodeNext, tableField]
      · simp [nodeKey, nodeNext, tableField, hz]

end Nodes

theorem hash_table_key_stacks_three : ∃ s',
    performAll nodeNext none nodeKey (fun a b : ℕ => a % 4 == b % 4) (fun a => a % 2) 10
      ⟨fun x : ℕ => (none, 2 * x + 1), fun _ => none⟩
      [.insert (some 0) 1, .insert (some 1) 3, .insert (some 2) 5, .lookup 1, .delete 5, .lookup 1,
        .delete 7, .lookup 3] =
      some (s', [none, none, none, some (some 2), some (some 2), some (some 0), some (some 1),
        some none]) ∧ ∀ j, 2 ≤ j → s'.table j = none := by
  have hequal : Equivalence fun a b : ℕ => (a % 4 == b % 4) = true := by
    refine ⟨fun a => by simp, fun {a b} h => ?_, fun {a b c} h h' => ?_⟩
    · simp only [beq_iff_eq] at *
      exact h.symm
    · simp only [beq_iff_eq] at *
      exact h.trans h'
  have hindex : ∀ a b : ℕ, (a % 4 == b % 4) = true → a % 2 = b % 2 := by
    intro a b h
    simp only [beq_iff_eq] at h
    omega
  have hallowed : AllAllowed nodeNext none nodeKey (fun a b : ℕ => a % 4 == b % 4) (fun a => a % 2)
      isNode 10 ⟨fun x : ℕ => (none, 2 * x + 1), fun _ => none⟩ (fun _ => [])
      [.insert (some 0) 1, .insert (some 1) 3, .insert (some 2) 5, .lookup 1, .delete 5, .lookup 1,
        .delete 7, .lookup 3] := by
    refine ⟨⟨rfl, by decide, rfl, by simp⟩, ?_⟩
    rintro r ⟨⟩
    refine ⟨⟨rfl, by decide, rfl, fun k => ?_⟩, ?_⟩
    · simp only [after, push]
      split <;> simp
    rintro r ⟨⟩
    refine ⟨⟨rfl, by decide, rfl, fun k => ?_⟩, fun _ _ => ⟨trivial, fun _ _ => ⟨trivial, fun _ _ =>
      ⟨trivial, fun _ _ => ⟨trivial, fun _ _ => ⟨trivial, fun _ _ => trivial⟩⟩⟩⟩⟩⟩
    simp only [after, push]
    split_ifs <;> simp
  obtain ⟨s', hrun, -, hempty⟩ := hash_table_key_stacks nodeNext_lawful
    (fun m w v y _ _ => nodeKey_set m w v y) hequal hindex (fun k => Nat.mod_lt k (by decide)) _
    hallowed (by decide)
  exact ⟨s', hrun, hempty⟩

end KeyStacks
