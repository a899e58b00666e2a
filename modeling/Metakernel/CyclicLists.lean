import Mathlib.Data.List.Cycle
import Metakernel.DataStructures
import Metakernel.NodeTables

/-!
# Circular lists as cyclic sequences

A ring has no first node: both functions of `CIRCULAR_LIST` take the node that they are given as
the first one. The abstract lists are cyclic sequences, any number of them in one memory, and a call
edits the one that its node is in.
-/
namespace CyclicLists

open LinkedNodes DataStructures

variable {M P κ : Type*} [DecidableEq P] [DecidableEq κ]

inductive Call (P : Type*) where
  | insert (list inn : P)
  | delete (list : P)
  deriving DecidableEq, Repr

inductive Edit (null : P) : Cycle P → Call P → Cycle P → P → Prop
  | first (inn : P) : Edit null Cycle.nil (.insert null inn) ([inn] : List P) inn
  | insert (x inn : P) (l : List P) : inn ∉ x :: l →
      Edit null (x :: l : List P) (.insert x inn) (inn :: x :: l : List P) inn
  | delete (x : P) (l : List P) : Edit null (x :: l : List P) (.delete x) l (l.head?.getD null)
  | nothing (c : Cycle P) : Edit null c (.delete null) c null

def Fresh (N : P → Prop) (rings : κ → Cycle P) : Call P → Prop
  | .insert _ inn => N inn ∧ ∀ c, inn ∉ rings c
  | .delete _ => True

inductive Edits (null : P) (N : P → Prop) :
    (κ → Cycle P) → List (κ × Call P) → (κ → Cycle P) → List P → Prop
  | nil (rings : κ → Cycle P) : Edits null N rings [] rings []
  | cons {rings rings' : κ → Cycle P} {c : κ} {call : Call P} {calls : List (κ × Call P)}
      {l : Cycle P} {x : P} {returned : List P} : Fresh N rings call →
      Edit null (rings c) call l x → Edits null N (Function.update rings c l) calls rings' returned →
      Edits null N rings ((c, call) :: calls) rings' (x :: returned)

section Code

variable (next last : NodeField M P P) (null : P) (N : P → Prop)

def perform (m : M) : Call P → M × P
  | .insert list inn => clistInsert next last null m list inn
  | .delete list => clistDelete next last null m list

def performAll (m : M) : List (Call P) → M × List P
  | [] => (m, [])
  | call :: calls =>
    let (m', x) := perform next last null m call
    let (m'', returned) := performAll m' calls
    (m'', x :: returned)

def RingOf (m : M) (c : Cycle P) : Prop := ∀ l : List P, c = l → NodeRing next last N m l

structure Represents (m : M) (rings : κ → Cycle P) : Prop where
  ring : ∀ c, RingOf next last N m (rings c)
  disjoint : ∀ c d x, x ∈ rings c → x ∈ rings d → c = d

variable {next last null N} {m : M} {rings : κ → Cycle P} {x inn : P} {l k : List P}

omit [DecidableEq P] in
theorem ringOf_coe : RingOf next last N m (l : Cycle P) ↔ NodeRing next last N m l := by
  refine ⟨fun h => h l rfl, fun h k hk => ?_⟩
  obtain ⟨n, hn, rfl⟩ := List.isRotated_iff_mod.mp (Cycle.coe_eq_coe.mp hk)
  rw [List.rotate_eq_drop_append_take hn]
  apply NodeRing.rotate
  rwa [List.take_append_drop]

variable (hf : RingFields next last N) (hnull : ¬ N null)

include hf hnull

theorem insert_apart (h : NodeRing next last N m l) (hi : N inn) (hni : inn ∉ l)
    (hk : NodeRing next last N m k) (happart : ∀ y ∈ k, y ∉ inn :: l) :
    NodeRing next last N (clistInsert next last null m (l.head?.getD null) inn).1 k := by
  have hnode : ∀ p ∈ inn :: l, N p := by
    intro p hp
    rcases List.mem_cons.mp hp with rfl | hp
    · exact hi
    · exact h.nodes p hp
  have hne : ∀ y ∈ k, ∀ p ∈ inn :: l, y ≠ p := fun y hy p hp heq => happart y hy (heq ▸ hp)
  refine hk.congr (fun y hy => ?_) fun y hy => ?_
  · apply clistInsert_frame (g := fun m => next.get m y) hf hnull h hi hni
    · exact fun m p v hp => hf.next_lawful.get_set_ne (hnode p hp) (hk.nodes y hy) (hne y hy p hp)
    · exact fun m p v hp => hf.next_untouched (hnode p hp) (hk.nodes y hy)
  · apply clistInsert_frame (g := fun m => last.get m y) hf hnull h hi hni
    · exact fun m p v hp => hf.last_untouched (hnode p hp) (hk.nodes y hy)
    · exact fun m p v hp => hf.last_lawful.get_set_ne (hnode p hp) (hk.nodes y hy) (hne y hy p hp)

theorem delete_apart (h : NodeRing next last N m (x :: l)) (hk : NodeRing next last N m k)
    (happart : ∀ y ∈ k, y ∉ x :: l) :
    NodeRing next last N (clistDelete next last null m x).1 k := by
  have hnode : ∀ p ∈ l, N p := fun p hp => h.nodes p (List.mem_cons_of_mem _ hp)
  have hne : ∀ y ∈ k, ∀ p ∈ l, y ≠ p := by
    intro y hy p hp heq
    exact happart y hy (List.mem_cons_of_mem _ (heq ▸ hp))
  refine hk.congr (fun y hy => ?_) fun y hy => ?_
  · apply clistDelete_frame (g := fun m => next.get m y) hf hnull h
    · exact fun m p v hp => hf.next_lawful.get_set_ne (hnode p hp) (hk.nodes y hy) (hne y hy p hp)
    · exact fun m p v hp => hf.next_untouched (hnode p hp) (hk.nodes y hy)
  · apply clistDelete_frame (g := fun m => last.get m y) hf hnull h
    · exact fun m p v hp => hf.last_untouched (hnode p hp) (hk.nodes y hy)
    · exact fun m p v hp => hf.last_lawful.get_set_ne (hnode p hp) (hk.nodes y hy) (hne y hy p hp)

omit hf hnull [DecidableEq P] in
theorem Edit.mem {c c' : Cycle P} {call : Call P} {y : P} (h : Edit null c call c' x) (hy : y ∈ c') :
    y ∈ c ∨ ∃ list, call = .insert list y := by
  cases h with
  | first => exact Or.inr ⟨null, by rw [List.mem_singleton.mp (Cycle.mem_coe_iff.mp hy)]⟩
  | insert z inn l =>
    rcases List.mem_cons.mp (Cycle.mem_coe_iff.mp hy) with rfl | hy
    · exact Or.inr ⟨z, rfl⟩
    · exact Or.inl (Cycle.mem_coe_iff.mpr hy)
  | delete z l => exact Or.inl (Cycle.mem_coe_iff.mpr (List.mem_cons_of_mem _ (Cycle.mem_coe_iff.mp hy)))
  | nothing => exact Or.inl hy

/-- A call makes its edit and leaves the rings of other nodes alone. -/
theorem perform_edit {c c' : Cycle P} {call : Call P} (h : RingOf next last N m c)
    (hfresh : ∀ list inn, call = .insert list inn → N inn ∧ inn ∉ c) (hedit : Edit null c call c' x) :
    (perform next last null m call).2 = x ∧
      RingOf next last N (perform next last null m call).1 c' ∧
      ∀ k, NodeRing next last N m k → (∀ y ∈ k, y ∉ c ∧ ∀ list, call ≠ .insert list y) →
        NodeRing next last N (perform next last null m call).1 k := by
  cases hedit with
  | first inn =>
    obtain ⟨hi, -⟩ := hfresh _ _ rfl
    have hempty : NodeRing next last N m [] := ring_nil m
    refine ⟨clistInsert_entry _ _ _, ringOf_coe.mpr ?_, fun k hk happart => ?_⟩
    · exact clistInsert_ring hf hnull hempty hi (by simp)
    · refine insert_apart hf hnull hempty hi (by simp) hk fun y hy hmem => ?_
      exact (happart y hy).2 null (by rw [List.mem_singleton.mp hmem])
  | insert z inn l hni =>
    obtain ⟨hi, -⟩ := hfresh _ _ rfl
    have hring := ringOf_coe.mp h
    refine ⟨clistInsert_entry _ _ _, ringOf_coe.mpr ?_, fun k hk happart => ?_⟩
    · exact clistInsert_ring hf hnull hring hi hni
    · refine insert_apart hf hnull hring hi hni hk fun y hy hmem => ?_
      rcases List.mem_cons.mp hmem with rfl | hmem
      · exact (happart y hy).2 z rfl
      · exact (happart y hy).1 (Cycle.mem_coe_iff.mpr hmem)
  | delete z l =>
    have hring := ringOf_coe.mp h
    obtain ⟨hdel, hret⟩ := clistDelete_ring hf hnull hring
    refine ⟨hret, ringOf_coe.mpr hdel, fun k hk happart => ?_⟩
    exact delete_apart hf hnull hring hk fun y hy hmem =>
      (happart y hy).1 (Cycle.mem_coe_iff.mpr hmem)
  | nothing =>
    have hsame : clistDelete next last null m null = (m, null) := by simp [clistDelete]
    rw [perform, hsame]
    exact ⟨rfl, h, fun k hk _ => hk⟩

theorem perform_represents {c : κ} {call : Call P} {c' : Cycle P}
    (h : Represents next last N m rings) (hfresh : Fresh N rings call)
    (hedit : Edit null (rings c) call c' x) :
    (perform next last null m call).2 = x ∧
      Represents next last N (perform next last null m call).1 (Function.update rings c c') := by
  have hnew : ∀ list inn, call = .insert list inn → N inn ∧ ∀ d, inn ∉ rings d := by
    rintro list inn rfl
    exact hfresh
  obtain ⟨hret, hring, happart⟩ := perform_edit hf hnull (h.ring c)
    (fun list inn heq => ⟨(hnew list inn heq).1, (hnew list inn heq).2 c⟩) hedit
  have hold : ∀ d y, y ∈ Function.update rings c c' d →
      y ∈ rings d ∨ d = c ∧ ∃ list, call = .insert list y := by
    intro d y hy
    by_cases hdc : d = c
    · subst hdc
      rw [Function.update_self] at hy
      exact (hedit.mem hy).imp_right fun hins => ⟨rfl, hins⟩
    · exact Or.inl (by rwa [Function.update_of_ne hdc] at hy)
  refine ⟨hret, fun d => ?_, fun d e y hd he => ?_⟩
  · by_cases hdc : d = c
    · subst hdc
      rwa [Function.update_self]
    · rw [Function.update_of_ne hdc]
      intro l hl
      refine happart l (h.ring d l hl) fun y hy => ?_
      have hyd : y ∈ rings d := hl ▸ Cycle.mem_coe_iff.mpr hy
      exact ⟨fun hyc => hdc (h.disjoint d c y hyd hyc), fun list heq => (hnew list y heq).2 d hyd⟩
  · rcases hold d y hd with hyd | ⟨hdc, list, heq⟩ <;> rcases hold e y he with hye | ⟨hec, list', heq'⟩
    · exact h.disjoint d e y hyd hye
    · exact absurd hyd ((hnew list' y heq').2 d)
    · exact absurd hye ((hnew list y heq).2 e)
    · rw [hdc, hec]

/-- Both functions edit the sequence that starts at the node they are given and leave every other
ring alone, and a sequence of calls at any nodes of any rings is the sequence of the same edits. -/
theorem circular_list_edits :
    (∀ (m : M) (x inn : P) (l : List P), NodeRing next last N m (x :: l) → N inn → inn ∉ x :: l →
      (clistInsert next last null m x inn).2 = inn ∧
      NodeRing next last N (clistInsert next last null m x inn).1 (inn :: x :: l) ∧
      ∀ k, NodeRing next last N m k → (∀ y ∈ k, y ∉ inn :: x :: l) →
        NodeRing next last N (clistInsert next last null m x inn).1 k) ∧
    (∀ (m : M) (x : P) (l : List P), NodeRing next last N m (x :: l) →
      (clistDelete next last null m x).2 = l.head?.getD null ∧
      NodeRing next last N (clistDelete next last null m x).1 l ∧
      ∀ k, NodeRing next last N m k → (∀ y ∈ k, y ∉ x :: l) →
        NodeRing next last N (clistDelete next last null m x).1 k) ∧
    ∀ (m : M) (rings rings' : κ → Cycle P) (calls : List (κ × Call P)) (returned : List P),
      Represents next last N m rings → Edits null N rings calls rings' returned →
      (performAll next last null m (calls.map Prod.snd)).2 = returned ∧
      Represents next last N (performAll next last null m (calls.map Prod.snd)).1 rings' := by
  refine ⟨fun m x inn l hring hi hni => ?_, fun m x l hring => ?_, ?_⟩
  · exact ⟨clistInsert_entry _ _ _, clistInsert_ring hf hnull hring hi hni,
      fun k => insert_apart hf hnull hring hi hni⟩
  · obtain ⟨hdel, hret⟩ := clistDelete_ring hf hnull hring
    exact ⟨hret, hdel, fun k => delete_apart hf hnull hring⟩
  · intro m rings rings' calls returned h hrun
    induction hrun generalizing m with
    | nil rings => exact ⟨rfl, h⟩
    | cons hfresh hedit _ ih =>
      obtain ⟨hret, hnext⟩ := perform_represents hf hnull h hfresh hedit
      obtain ⟨hrets, hend⟩ := ih _ hnext
      exact ⟨by rw [← hret, ← hrets]; rfl, hend⟩

end Code

section Links

open NodeTables

variable {ι : Type*} [DecidableEq ι]

def nextLink : NodeField (ι → Option ι × Option ι) (Option ι) (Option ι) :=
  tableField Prod.fst fun r v => (v, r.2)

def lastLink : NodeField (ι → Option ι × Option ι) (Option ι) (Option ι) :=
  tableField Prod.snd fun r v => (r.1, v)

theorem link_rings : RingFields (nextLink (ι := ι)) lastLink isNode :=
  tableField_rings (fun _ _ => rfl) (fun _ _ => rfl) (fun _ _ => rfl) fun _ _ => rfl

end Links

/-- Node 1 is put in front of node 0 of one ring, node 2 into another one, and node 0 deleted. -/
theorem circular_list_edits_three :
    let r := performAll nextLink lastLink none (fun _ : ℕ => (none, none))
      [.insert none (some 0), .insert (some 0) (some 1), .insert none (some 2), .delete (some 0)]
    r.2 = [some 0, some 1, some 2, some 1] ∧
      NodeRing nextLink lastLink NodeTables.isNode r.1 [some 1] ∧
      NodeRing nextLink lastLink NodeTables.isNode r.1 [some 2] := by
  have hstart : Represents nextLink lastLink NodeTables.isNode (fun _ : ℕ => (none, none))
      fun _ : Bool => Cycle.nil := by
    refine ⟨fun _ => ringOf_coe.mpr (ring_nil _), fun _ _ x hx => absurd hx (Cycle.notMem_nil x)⟩
  have hturn : Cycle.ofList [some 1, some (0 : ℕ)] = Cycle.ofList [some 0, some 1] :=
    Cycle.coe_eq_coe.mpr (by decide)
  obtain ⟨rings, hrun, hfirst, hsecond⟩ : ∃ rings, Edits none NodeTables.isNode
      (fun _ : Bool => Cycle.nil) [(false, .insert none (some 0)), (false, .insert (some 0) (some 1)),
        (true, .insert none (some 2)), (false, .delete (some 0))] rings
      [some 0, some 1, some 2, some (1 : ℕ)] ∧ rings false = Cycle.ofList [some 1] ∧
      rings true = Cycle.ofList [some 2] := by
    refine ⟨_, .cons ⟨rfl, by simp⟩ (.first (some 0)) (.cons ⟨rfl, ?_⟩
      (.insert (some 0) (some 1) [] (by decide)) (.cons ⟨rfl, ?_⟩ (.first (some 2))
      (.cons trivial (l := Cycle.ofList [some 1]) ?_ (.nil _)))), rfl, rfl⟩
    · decide
    · decide
    · exact hturn ▸ Edit.delete (some 0) [some 1]
  obtain ⟨hret, hrings⟩ := (circular_list_edits link_rings NodeTables.none_not_node).2.2 _ _ _ _ _
    hstart hrun
  exact ⟨hret, ringOf_coe.mp (hfirst ▸ hrings.ring false), ringOf_coe.mp (hsecond ▸ hrings.ring true)⟩

end CyclicLists
