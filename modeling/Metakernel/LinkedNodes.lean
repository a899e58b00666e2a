import Mathlib.Data.List.Chain
import Mathlib.Data.List.Nodup

/-!
# Nodes linked through fields of a memory

A memory is any type with fields that can be read and written at a node. Rings are
doubly linked circular lists, chains are null-terminated lists. Both are described by
the list of their nodes, so that an update of a few links is an edit of that list.
-/
namespace LinkedNodes

variable {M P V W : Type*}

structure NodeField (M P V : Type*) where
  get : M → P → V
  set : M → P → V → M

structure NodeField.Lawful (f : NodeField M P V) (N : P → Prop) (D : V → Prop) : Prop where
  get_set : ∀ {m p v}, N p → D v → f.get (f.set m p v) p = v
  get_set_ne : ∀ {m p q v}, N p → N q → q ≠ p → f.get (f.set m p v) q = f.get m q

/-- Writing the field `g` is not seen through the field `f`. -/
def NodeField.Untouched (f : NodeField M P V) (g : NodeField M P W) (N : P → Prop) : Prop :=
  ∀ {m p q v}, N p → N q → f.get (g.set m p v) q = f.get m q

section Rings

variable (next last : NodeField M P P) (N : P → Prop)

structure RingFields : Prop where
  next_lawful : next.Lawful N N
  last_lawful : last.Lawful N N
  next_untouched : next.Untouched last N
  last_untouched : last.Untouched next N

def Linked (m : M) (x y : P) : Prop := next.get m x = y ∧ last.get m y = x

structure NodeRing (m : M) (l : List P) : Prop where
  nodup : l.Nodup
  nodes : ∀ x ∈ l, N x
  links : (l ++ l.head?.toList).IsChain (Linked next last m)

variable {next last N}

/-- A link relation changes along a list when it changes at every pair of neighbours; a left
neighbour is never the final element and a right neighbour never the first. -/
theorem isChain_imp_ends {R S : P → P → Prop} {l : List P} (hl : l.IsChain R)
    (h : ∀ a b, a ∈ l.dropLast → b ∈ l.tail → R a b → S a b) : l.IsChain S := by
  induction l with
  | nil => exact .nil
  | cons x l ih =>
    cases l with
    | nil => exact .singleton _
    | cons y r =>
      rw [List.isChain_cons_cons] at hl ⊢
      refine ⟨h x y (by simp) (by simp) hl.1, ih hl.2 fun a b ha hb => h a b ?_ ?_⟩
      · simp only [List.dropLast_cons_cons, List.mem_cons]
        exact Or.inr ha
      · exact List.mem_of_mem_tail hb

theorem ring_nil (m : M) : NodeRing next last N m [] := ⟨List.nodup_nil, by simp, by simp⟩

theorem NodeRing.congr {m m' : M} {l : List P} (h : NodeRing next last N m l)
    (hn : ∀ x ∈ l, next.get m' x = next.get m x) (hl : ∀ x ∈ l, last.get m' x = last.get m x) :
    NodeRing next last N m' l := by
  refine ⟨h.nodup, h.nodes, h.links.imp_of_mem_imp ?_⟩
  intro a b ha hb hab
  have mem : ∀ x, x ∈ l ++ l.head?.toList → x ∈ l := by
    intro x hx
    rcases List.mem_append.mp hx with hx | hx
    · exact hx
    · exact List.mem_of_mem_head? (by simpa using hx)
  exact ⟨(hn a (mem a ha)).trans hab.1, (hl b (mem b hb)).trans hab.2⟩

theorem NodeRing.rotate {m : M} {xs ys : List P} (h : NodeRing next last N m (xs ++ ys)) :
    NodeRing next last N m (ys ++ xs) := by
  refine ⟨List.nodup_append_comm.mp h.nodup, ?_, ?_⟩
  · intro x hx
    exact h.nodes x (by simpa [or_comm] using hx)
  · have hl := h.links
    cases xs with
    | nil => simpa using hl
    | cons x xs =>
      cases ys with
      | nil => simpa using hl
      | cons y ys =>
        simp only [List.cons_append, List.head?_cons, Option.toList_some, List.append_assoc] at hl ⊢
        rw [← List.cons_append, List.isChain_split] at hl ⊢
        exact ⟨hl.2, hl.1⟩

theorem NodeRing.next_head {m : M} {x y : P} {l : List P} (h : NodeRing next last N m (x :: y :: l)) :
    next.get m x = y := by
  have hl := h.links
  simp only [List.cons_append, List.isChain_cons_cons] at hl
  exact hl.1.1

theorem NodeRing.next_single {m : M} {x : P} (h : NodeRing next last N m [x]) : next.get m x = x := by
  have hl := h.links
  simp only [List.cons_append, List.nil_append, List.head?_cons, Option.toList_some,
    List.isChain_cons_cons] at hl
  exact hl.1.1

theorem isChain_reach {m : M} {x y : P} {l : List P} (h : (x :: l).IsChain (Linked next last m))
    (hy : y ∈ x :: l) : ∃ k, (next.get m)^[k] x = y := by
  induction l generalizing x with
  | nil => exact ⟨0, (List.mem_singleton.mp hy).symm⟩
  | cons z l ih =>
    obtain rfl | hy := List.mem_cons.mp hy
    · exact ⟨0, rfl⟩
    · rw [List.isChain_cons_cons] at h
      obtain ⟨k, hk⟩ := ih h.2 hy
      refine ⟨k + 1, ?_⟩
      rw [Function.iterate_succ_apply, h.1.1]
      exact hk

theorem NodeRing.reach {m : M} {x y : P} {l : List P} (h : NodeRing next last N m (x :: l))
    (hy : y ∈ x :: l) : ∃ k, (next.get m)^[k] x = y :=
  isChain_reach (h.links.left_of_append) hy

theorem NodeRing.last_head {m : M} {l : List P} {z : P} (h : NodeRing next last N m (l ++ [z])) :
    last.get m ((l ++ [z]).head (by simp)) = z ∧ next.get m z = (l ++ [z]).head (by simp) := by
  have hr := h.rotate
  have hl := hr.links
  cases l with
  | nil =>
    simp only [List.append_nil, List.head?_cons, Option.toList_some, List.cons_append,
      List.nil_append, List.isChain_cons_cons] at hl
    exact ⟨hl.1.2, hl.1.1⟩
  | cons x l =>
    simp only [List.cons_append, List.nil_append, List.isChain_cons_cons] at hl
    exact ⟨hl.1.2, hl.1.1⟩

theorem NodeRing.neighbours {m : M} {l : List P} {i x z : P} (h : NodeRing next last N m (i :: l))
    (hx : l.head? = some x) (hz : l.getLast? = some z) : next.get m i = x ∧ last.get m i = z := by
  constructor
  · obtain ⟨ys, rfl⟩ := List.head?_eq_some_iff.mp hx
    exact h.next_head
  · obtain ⟨ys, rfl⟩ := List.getLast?_eq_some_iff.mp hz
    rw [← List.cons_append] at h
    simpa using h.last_head.1

/-- The inner links of a ring survive when only the successor of the final node and the
predecessor of the first one are rewritten. -/
theorem links_keep {m m' : M} {l : List P} {x z : P} (hl : l.IsChain (Linked next last m))
    (hnd : l.Nodup) (hx : l.head? = some x) (hz : l.getLast? = some z)
    (hn : ∀ a ∈ l, a ≠ z → next.get m' a = next.get m a)
    (hp : ∀ a ∈ l, a ≠ x → last.get m' a = last.get m a) :
    l.IsChain (Linked next last m') := by
  refine isChain_imp_ends hl ?_
  intro a b ha hb hab
  have haz : a ≠ z := by
    rintro rfl
    obtain ⟨ys, rfl⟩ := List.getLast?_eq_some_iff.mp hz
    rw [List.dropLast_concat] at ha
    exact (List.nodup_append.mp hnd).2.2 a ha a (by simp) rfl
  have hbx : b ≠ x := by
    rintro rfl
    obtain ⟨ys, rfl⟩ := List.head?_eq_some_iff.mp hx
    exact (List.nodup_cons.mp hnd).1 hb
  exact ⟨(hn a (List.dropLast_subset l ha) haz).trans hab.1,
    (hp b (List.mem_of_mem_tail hb) hbx).trans hab.2⟩

/-- Linking a new node in front of the first one: four links change. -/
theorem NodeRing.link {m m' : M} {l : List P} {x z i : P} (h : NodeRing next last N m l)
    (hx : l.head? = some x) (hz : l.getLast? = some z) (hi : i ∉ l) (hiN : N i)
    (hin : next.get m' i = x) (hil : last.get m' i = z) (hzn : next.get m' z = i)
    (hxl : last.get m' x = i)
    (hn : ∀ a ∈ l, a ≠ z → next.get m' a = next.get m a)
    (hp : ∀ a ∈ l, a ≠ x → last.get m' a = last.get m a) :
    NodeRing next last N m' (i :: l) := by
  refine ⟨List.nodup_cons.mpr ⟨hi, h.nodup⟩, ?_, ?_⟩
  · intro a ha
    rcases List.mem_cons.mp ha with rfl | ha
    · exact hiN
    · exact h.nodes a ha
  · have inner := links_keep h.links.left_of_append h.nodup hx hz hn hp
    have front : (i :: l).IsChain (Linked next last m') := by
      refine inner.cons ?_
      intro y hy
      rw [hx, Option.mem_some_iff] at hy
      exact hy ▸ ⟨hin, hxl⟩
    refine front.append (.singleton _) ?_
    intro a ha b hb
    obtain ⟨ys, rfl⟩ := List.getLast?_eq_some_iff.mp hz
    rw [← List.cons_append, List.getLast?_concat, Option.mem_some_iff] at ha
    simp only [List.head?_cons, Option.toList_some, Option.mem_some_iff] at hb
    subst ha hb
    exact ⟨hzn, hil⟩

theorem NodeRing.unlink {m m' : M} {l : List P} {i x z : P} (h : NodeRing next last N m (i :: l))
    (hx : l.head? = some x) (hz : l.getLast? = some z)
    (hzn : next.get m' z = x) (hxl : last.get m' x = z)
    (hn : ∀ a ∈ l, a ≠ z → next.get m' a = next.get m a)
    (hp : ∀ a ∈ l, a ≠ x → last.get m' a = last.get m a) :
    NodeRing next last N m' l := by
  have hnd := (List.nodup_cons.mp h.nodup).2
  have hlk : l.IsChain (Linked next last m) := (List.isChain_cons.mp h.links.left_of_append).2
  refine ⟨hnd, fun a ha => h.nodes a (List.mem_cons_of_mem _ ha), ?_⟩
  rw [hx, Option.toList_some]
  refine (links_keep hlk hnd hx hz hn hp).append (.singleton _) ?_
  intro a ha b hb
  rw [hz, Option.mem_some_iff] at ha
  simp only [List.head?_cons, Option.mem_some_iff] at hb
  subst ha hb
  exact ⟨hzn, hxl⟩

end Rings

section Chains

variable (next : NodeField M P P) (null : P)

/-- The nodes `l`, in order, are reached from `p` and the walk ends in `null`. -/
def Chain (m : M) : P → List P → Prop
  | p, [] => p = null
  | p, x :: xs => p = x ∧ x ≠ null ∧ Chain m (next.get m x) xs

variable {next null}

theorem Chain.congr {m m' : M} : ∀ {p : P} {l : List P}, Chain next null m p l →
    (∀ x ∈ l, next.get m' x = next.get m x) → Chain next null m' p l
  | _, [], h, _ => h
  | _, x :: xs, ⟨hp, hx, hr⟩, hn => by
    refine ⟨hp, hx, ?_⟩
    rw [hn x (by simp)]
    exact hr.congr fun y hy => hn y (List.mem_cons_of_mem _ hy)

theorem Chain.head {m : M} {p : P} {l : List P} (h : Chain next null m p l) :
    p = l.head?.getD null := by
  cases l with
  | nil => exact h
  | cons x xs => exact h.1

theorem Chain.unique {m : M} : ∀ {p : P} {l l' : List P}, Chain next null m p l →
    Chain next null m p l' → l = l'
  | _, [], [], _, _ => rfl
  | _, [], _ :: _, hp, ⟨hx, hne, _⟩ => absurd (hx.symm.trans hp) hne
  | _, _ :: _, [], ⟨hx, hne, _⟩, hp => absurd (hx.symm.trans hp) hne
  | _, x :: l, y :: l', ⟨hx, _, hr⟩, ⟨hy, _, hr'⟩ => by
    obtain rfl := hx.symm.trans hy
    rw [hr.unique hr']

theorem Chain.tail {m : M} : ∀ {p : P} {l : List P} {x : P} {r : List P},
    Chain next null m p (l ++ x :: r) → Chain next null m (next.get m x) r
  | _, [], _, _, h => h.1 ▸ h.2.2
  | _, _ :: l, _, _, h => Chain.tail (l := l) h.2.2

theorem Chain.reach_iff {m : M} (hnull : next.get m null = null) {x : P} (hx : x ≠ null) :
    ∀ {p : P} {l : List P}, Chain next null m p l → ((∃ k, (next.get m)^[k] p = x) ↔ x ∈ l)
  | p, [], h => by
    have hp : p = null := h
    refine iff_of_false ?_ List.not_mem_nil
    rintro ⟨k, hk⟩
    rw [hp, Function.iterate_fixed hnull] at hk
    exact hx hk.symm
  | p, y :: l, ⟨hp, _, hrest⟩ => by
    subst hp
    rw [List.mem_cons, ← hrest.reach_iff hnull hx]
    constructor
    · rintro ⟨k, hk⟩
      cases k with
      | zero => exact Or.inl hk.symm
      | succ k => exact Or.inr ⟨k, by rwa [Function.iterate_succ_apply] at hk⟩
    · rintro (rfl | ⟨k, hk⟩)
      · exact ⟨0, rfl⟩
      · exact ⟨k + 1, by rwa [Function.iterate_succ_apply]⟩

/-- Dropping the successor of a node from a chain: one link changes. -/
theorem Chain.splice {m m' : M} : ∀ {p : P} {l : List P} {y x : P} {k : List P},
    Chain next null m p (l ++ y :: x :: k) → (l ++ y :: x :: k).Nodup →
    next.get m' y = next.get m x →
    (∀ a ∈ l ++ y :: x :: k, a ≠ y → next.get m' a = next.get m a) →
    Chain next null m' p (l ++ y :: k)
  | _, [], y, x, k, ⟨hp, hy, _, _, hk⟩, hnd, hy', hn => by
    refine ⟨hp, hy, ?_⟩
    rw [hy']
    refine hk.congr fun a ha => hn a (by simp [ha]) ?_
    rintro rfl
    simp [ha] at hnd
  | _, a :: l, y, x, k, ⟨hp, ha, hr⟩, hnd, hy', hn => by
    have hay : a ≠ y := by
      rintro rfl
      simp at hnd
    refine ⟨hp, ha, ?_⟩
    rw [hn a (by simp) hay]
    exact hr.splice (List.nodup_cons.mp hnd).2 hy' fun b hb => hn b (List.mem_cons_of_mem _ hb)

end Chains

end LinkedNodes
