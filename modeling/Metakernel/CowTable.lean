import Mathlib.Data.Fintype.Option
import Metakernel.PageAllocator

/-!
# The reference counts of cow_table.c

The pages that several objects share are counted in a hash table of their sources.
-/
namespace CowTable

open LinkedNodes DataStructures NodeTables GuardedRuns PhysicalPages

variable {ι ε : Type*} [DecidableEq ι] [DecidableEq ε]

structure CowEntry (ι ε : Type*) where
  page : PageSrc ι
  refs : BitVec 32
  next : Option ε

def next : NodeField (ε → CowEntry ι ε) (Option ε) (Option ε) :=
  tableField CowEntry.next fun r v => { r with next := v }

def page (m : ε → CowEntry ι ε) (p : Option ε) : PageSrc ι :=
  (p.map fun x => (m x).page).getD .null

/-- `id` is `stat.id` of the inodes. -/
def hash (id : ι → BitVec 32) : PageSrc ι → BitVec 32
  | .null | .kern => 0
  | .anon p => p
  | .inode i offset => id i * offset

/-- The offset of `a` is compared with itself. -/
def comp : PageSrc ι → PageSrc ι → Bool
  | .inode i o, .inode j _ => i = j && o = o
  | .anon p, .anon q => p = q
  | _, _ => false

def bucket (id : ι → BitVec 32) (s : PageSrc ι) : ℕ := (hash id s).toNat % 32767

/-- `used` are the blocks that `malloc` handed out and that were not freed since. -/
structure Cow (ι ε : Type*) where
  entries : ε → CowEntry ι ε
  table : ℕ → Option ε
  used : ε → Bool

variable [Fintype ε]

def cowFind (id : ι → BitVec 32) (c : Cow ι ε) (s : PageSrc ι) : Option (Option ε) :=
  hashTableLookup next none page comp (bucket id) (Fintype.card (Option ε) + 1) c.entries c.table s

def Cow.setRefs (c : Cow ι ε) (x : ε) (refs : BitVec 32) : Cow ι ε :=
  { c with entries := Function.update c.entries x { c.entries x with refs := refs } }

/-- `new` is the block that `malloc` returns, if it is called. -/
def cowInc (id : ι → BitVec 32) (c : Cow ι ε) (s : PageSrc ι) (new : ε) : Option (Cow ι ε) :=
  (cowFind id c s).bind fun
    | none =>
      if c.used new then none
      else
        let m := Function.update c.entries new { c.entries new with page := s, refs := 2 }
        let r := hashTableInsert next page (bucket id) m c.table (some new)
        some ⟨r.1, r.2, Function.update c.used new true⟩
    | some x => some (c.setRefs x ((c.entries x).refs + 1))

def cowLookup (id : ι → BitVec 32) (c : Cow ι ε) (s : PageSrc ι) : Option (BitVec 32) :=
  (cowFind id c s).map fun p => (p.map fun x => (c.entries x).refs).getD 0

def cowDec (id : ι → BitVec 32) (c : Cow ι ε) (s : PageSrc ι) : Option (Cow ι ε) :=
  (cowFind id c s).bind fun
    | none => some c
    | some x =>
      if (c.entries x).refs ≠ 1 then some (c.setRefs x ((c.entries x).refs - 1))
      else
        (hashTableDelete next none page comp (bucket id) (Fintype.card (Option ε) + 1) c.entries
          c.table s).map fun r => ⟨r.1, r.2.1, Function.update c.used x false⟩

inductive CowOp (ι ε : Type*) where
  | inc (s : PageSrc ι) (new : ε)
  | dec (s : PageSrc ι)

def CowOp.src : CowOp ι ε → PageSrc ι
  | .inc s _ => s
  | .dec s => s

structure CowHistory (ι ε : Type*) where
  cow : Cow ι ε
  ops : List (CowOp ι ε)

def cowStep (id : ι → BitVec 32) (h : CowHistory ι ε) (op : CowOp ι ε) : Option (CowHistory ι ε) :=
  (match op with
    | .inc s new => cowInc id h.cow s new
    | .dec s => cowDec id h.cow s).map fun c => ⟨c, op :: h.ops⟩

def startCow (entries : ε → CowEntry ι ε) : CowHistory ι ε :=
  ⟨⟨entries, fun _ => none, fun _ => false⟩, []⟩

/-- What an operation makes of the numbers of increments and decrements of its source since the
entry was created. -/
def CowOp.after : CowOp ι ε → Option (ℕ × ℕ) → Option (ℕ × ℕ)
  | .inc _ _, none => some (1, 0)
  | .inc _ _, some (a, b) => some (a + 1, b)
  | .dec _, none => none
  | .dec _, some (a, b) => if 1 + a - b = 1 then none else some (a, b + 1)

def life : List (CowOp ι ε) → PageSrc ι → Option (ℕ × ℕ)
  | [], _ => none
  | op :: ops, s => if op.src = s then op.after (life ops s) else life ops s

def count : Option (ℕ × ℕ) → ℕ
  | none => 0
  | some (a, b) => 1 + a - b

/-- What `cow_lookup` should return. -/
def refsOf (ops : List (CowOp ι ε)) (s : PageSrc ι) : ℕ := count (life ops s)

def Paged : PageSrc ι → Prop
  | .anon _ | .inode _ _ => True
  | .null | .kern => False

def Alone (id : ι → BitVec 32) (ops : List (CowOp ι ε)) (s : PageSrc ι) : Prop :=
  ∀ i o o', s = .inode i o → o' ≠ o → bucket id (.inode i o') = bucket id s →
    life ops (.inode i o') = none

/-- The count can be incremented, and `malloc`, where it is called, returns a block that is not in
use. -/
def Room (h : CowHistory ι ε) : CowOp ι ε → Prop
  | .inc s new => refsOf h.ops s + 1 < 2 ^ 32 ∧ (refsOf h.ops s = 0 → h.cow.used new = false)
  | .dec _ => True

structure Distinguished (id : ι → BitVec 32) (h : CowHistory ι ε) (op : CowOp ι ε) : Prop where
  paged : Paged op.src
  alone : Alone id h.ops op.src
  room : Room h op

section Counts

omit [DecidableEq ε] [Fintype ε]

variable {ops : List (CowOp ι ε)} {s : PageSrc ι} {new : ε}

def Kept (l : Option (ℕ × ℕ)) : Prop := ∀ a b, l = some (a, b) → b ≤ a

omit [DecidableEq ι] in
theorem Kept.after {l : Option (ℕ × ℕ)} (h : Kept l) (op : CowOp ι ε) : Kept (op.after l) := by
  intro a b hab
  rcases op with ⟨s, new⟩ | s <;> rcases l with _ | ⟨a', b'⟩
  · cases hab
    exact Nat.zero_le 1
  · cases hab
    exact (h a' b rfl).trans (Nat.le_succ _)
  · cases hab
  · have hle := h a' b' rfl
    simp only [CowOp.after] at hab
    split at hab <;> cases hab
    omega

theorem kept_life (ops : List (CowOp ι ε)) (s : PageSrc ι) : Kept (life ops s) := by
  induction ops with
  | nil =>
    intro a b h
    cases h
  | cons op ops ih =>
    rw [life]
    split
    · exact ih.after op
    · exact ih

theorem Kept.none_iff {l : Option (ℕ × ℕ)} (h : Kept l) : l = none ↔ count l = 0 := by
  rcases l with _ | ⟨a, b⟩
  · simp [count]
  · have hle := h a b rfl
    simp only [count, reduceCtorEq, false_iff]
    omega

omit [DecidableEq ι] in
theorem count_inc (l : Option (ℕ × ℕ)) (h : Kept l) :
    count ((CowOp.inc s new).after l) = if count l = 0 then 2 else count l + 1 := by
  rcases l with _ | ⟨a, b⟩
  · rfl
  · have hle := h a b rfl
    have hne : count (some (a, b)) ≠ 0 := by
      simp only [count]
      omega
    rw [if_neg hne]
    simp only [CowOp.after, count]
    omega

omit [DecidableEq ι] in
theorem count_dec (l : Option (ℕ × ℕ)) :
    count ((CowOp.dec s : CowOp ι ε).after l) = count l - 1 := by
  rcases l with _ | ⟨a, b⟩
  · rfl
  · simp only [CowOp.after]
    split <;> simp only [count] <;> omega

theorem life_none_iff : life ops s = none ↔ refsOf ops s = 0 := (kept_life ops s).none_iff

theorem refsOf_other {op : CowOp ι ε} (h : op.src ≠ s) : refsOf (op :: ops) s = refsOf ops s := by
  rw [refsOf, life, if_neg h, refsOf]

theorem refsOf_inc : refsOf (.inc s new :: ops) s =
    if refsOf ops s = 0 then 2 else refsOf ops s + 1 := by
  rw [refsOf, life, CowOp.src, if_pos rfl, count_inc _ (kept_life ops s), refsOf]

theorem refsOf_dec : refsOf (.dec s :: ops : List (CowOp ι ε)) s = refsOf ops s - 1 := by
  rw [refsOf, life, CowOp.src, if_pos rfl, count_dec, refsOf]

end Counts

section Table

variable {id : ι → BitVec 32} {h h' : CowHistory ι ε} {chains : ℕ → List (Option ε)}
  {s r : PageSrc ι} {x y new : ε} {c : Cow ι ε}

section

omit [DecidableEq ι] [Fintype ε]

theorem next_lawful : (next : NodeField (ε → CowEntry ι ε) _ _).Lawful isNode fun _ => True :=
  tableField_lawful (fun _ _ => rfl) _

theorem next_set_fields (m : ε → CowEntry ι ε) (p v : Option ε) (y : ε) :
    (next.set m p v y).page = (m y).page ∧ (next.set m p v y).refs = (m y).refs := by
  rcases p with _ | x
  · exact ⟨rfl, rfl⟩
  · by_cases hxy : y = x <;> simp [next, tableField, hxy]

theorem page_set (m : ε → CowEntry ι ε) (p q v : Option ε) : page (next.set m p v) q = page m q := by
  rcases q with _ | y
  · rfl
  · exact (next_set_fields m p v y).1

end

/-- The search stops at the first entry of the bucket that compares equal. -/
theorem cowFind_cases (ht : HashTable next none page (bucket id) isNode c.entries c.table chains)
    (s : PageSrc ι) :
    ((∀ x, some x ∈ chains (bucket id s) → comp (c.entries x).page s = false) ∧
        cowFind id c s = some none) ∨
      ∃ x, some x ∈ chains (bucket id s) ∧ comp (c.entries x).page s = true ∧
        cowFind id c s = some (some x) := by
  have hfind : cowFind id c s = some (((chains (bucket id s)).find? fun p =>
      comp (page c.entries p) s).getD none) :=
    ht.lookup (Nat.lt_succ_of_le (ht.nodup _).length_le_card)
  cases hl : (chains (bucket id s)).find? fun p => comp (page c.entries p) s with
  | none =>
    rw [hl] at hfind
    refine Or.inl ⟨fun x hx => ?_, hfind⟩
    simpa [page] using List.find?_eq_none.mp hl _ hx
  | some p =>
    rw [hl] at hfind
    have hmem := List.mem_of_find?_eq_some hl
    obtain ⟨x, rfl⟩ := Option.isSome_iff_exists.mp (ht.nodes _ p hmem)
    have hcomp := List.find?_some hl
    exact Or.inr ⟨x, hmem, hcomp, hfind⟩

omit [DecidableEq ι] [Fintype ε] in
theorem setRefs_fields (c : Cow ι ε) (x : ε) (refs : BitVec 32) (y : ε) :
    ((c.setRefs x refs).entries y).page = (c.entries y).page ∧
      ((c.setRefs x refs).entries y).next = (c.entries y).next := by
  by_cases hy : y = x <;> simp [Cow.setRefs, hy]

omit [DecidableEq ι] [Fintype ε] in
theorem setRefs_table (ht : HashTable next none page (bucket id) isNode c.entries c.table chains)
    (x : ε) (refs : BitVec 32) : HashTable next none page (bucket id) isNode
      (c.setRefs x refs).entries (c.setRefs x refs).table chains := by
  refine ht.congr fun j p hp => ?_
  obtain ⟨y, rfl⟩ := Option.isSome_iff_exists.mp (ht.nodes j p hp)
  exact ⟨(setRefs_fields c x refs y).2, (setRefs_fields c x refs y).1⟩

theorem cowInc_creates (ht : HashTable next none page (bucket id) isNode c.entries c.table chains)
    (hused : ∀ j x, some x ∈ chains j → c.used x = true) (hnew : c.used new = false)
    (hfind : cowFind id c s = some none) : ∃ c', cowInc id c s new = some c' ∧
      HashTable next none page (bucket id) isNode c'.entries c'.table
        (Function.update chains (bucket id s) (some new :: chains (bucket id s))) ∧
      (∀ y, c'.used y = true ↔ c.used y = true ∨ y = new) ∧
      (c'.entries new).page = s ∧ (c'.entries new).refs = 2 ∧
      ∀ j y, some y ∈ chains j → y ≠ new ∧ (c'.entries y).page = (c.entries y).page ∧
        (c'.entries y).refs = (c.entries y).refs := by
  have hout : ∀ j, some new ∉ chains j := by
    intro j hmem
    have huse := hused j new hmem
    rw [hnew] at huse
    cases huse
  have hne : ∀ {j y}, some y ∈ chains j → y ≠ new := fun hy heq => hout _ (heq ▸ hy)
  generalize hm : Function.update c.entries new
    { c.entries new with page := s, refs := 2 } = m
  have hself : (m new).page = s ∧ (m new).refs = 2 := by simp [← hm]
  have hkeep : ∀ {j y}, some y ∈ chains j → m y = c.entries y := by
    intro j y hy
    rw [← hm, Function.update_of_ne (hne hy)]
  have htable : HashTable next none page (bucket id) isNode m c.table chains := by
    refine ht.congr fun j p hp => ?_
    obtain ⟨y, rfl⟩ := Option.isSome_iff_exists.mp (ht.nodes j p hp)
    exact ⟨congrArg CowEntry.next (hkeep hp), congrArg CowEntry.page (hkeep hp)⟩
  have hinsert := htable.insert next_lawful (x := some new) rfl hout (by simp)
    fun q _ => page_set m _ q _
  have hkey : page m (some new) = s := hself.1
  have hfields := next_set_fields m (some new) (c.table (bucket id s))
  rw [hashTableInsert, hkey] at hinsert
  refine ⟨⟨next.set m (some new) (c.table (bucket id s)),
    Function.update c.table (bucket id s) (some new), Function.update c.used new true⟩, ?_,
    hinsert, fun y => ?_, (hfields new).1.trans hself.1, (hfields new).2.trans hself.2,
    fun j y hy => ⟨hne hy, ?_, ?_⟩⟩
  · rw [cowInc, hfind]
    simp only [Option.bind_some, hnew, hm, hashTableInsert, hkey]
    rfl
  · by_cases hy : y = new <;> simp [hy]
  · rw [(hfields y).1, hkeep hy]
  · rw [(hfields y).2, hkeep hy]

/-- An entry is taken out of its bucket, and no other field is written. -/
theorem cow_deletes (ht : HashTable next none page (bucket id) isNode c.entries c.table chains)
    (hx : some x ∈ chains (bucket id s)) (hcomp : comp (c.entries x).page s = true)
    (honly : ∀ y, some y ∈ chains (bucket id s) → comp (c.entries y).page s = true → y = x) :
    ∃ m table rest, hashTableDelete next none page comp (bucket id)
        (Fintype.card (Option ε) + 1) c.entries c.table s = some (m, table, some x) ∧
      HashTable next none page (bucket id) isNode m table
        (Function.update chains (bucket id s) rest) ∧
      (∀ p, p ∈ rest ↔ p ∈ chains (bucket id s) ∧ p ≠ some x) ∧
      ∀ y, (m y).page = (c.entries y).page ∧ (m y).refs = (c.entries y).refs := by
  have honly' : ∀ p ∈ chains (bucket id s), comp (page c.entries p) s = true → p = some x := by
    intro p hp hpc
    obtain ⟨y, rfl⟩ := Option.isSome_iff_exists.mp (ht.nodes _ p hp)
    exact congrArg some (honly y hp hpc)
  obtain ⟨m, table, rest, hdel, htable, hrest, hm⟩ := ht.delete next_lawful hx hcomp honly'
    (Nat.lt_succ_of_le (ht.nodup _).length_le_card) fun w q _ _ => page_set _ w q _
  refine ⟨m, table, rest, hdel, htable, hrest, fun y => ?_⟩
  obtain rfl | ⟨w, -, rfl⟩ := hm
  · exact ⟨rfl, rfl⟩
  · exact next_set_fields _ w _ y

structure Counted (id : ι → BitVec 32) (h : CowHistory ι ε) (chains : ℕ → List (Option ε)) :
    Prop where
  table : HashTable next none page (bucket id) isNode h.cow.entries h.cow.table chains
  used : ∀ j x, some x ∈ chains j → h.cow.used x = true
  once : ∀ j x y, some x ∈ chains j → some y ∈ chains j →
    (h.cow.entries x).page = (h.cow.entries y).page → x = y
  refs : ∀ j x, some x ∈ chains j → (h.cow.entries x).refs.toNat =
    refsOf h.ops (h.cow.entries x).page ∧ refsOf h.ops (h.cow.entries x).page ≠ 0
  present : ∀ s, refsOf h.ops s ≠ 0 → ∃ x, some x ∈ chains (bucket id s) ∧
    (h.cow.entries x).page = s

omit [Fintype ε] in
theorem Counted.bucket (hc : Counted id h chains) {j : ℕ} (hx : some x ∈ chains j) :
    CowTable.bucket id (h.cow.entries x).page = j := hc.table.bucket j _ hx

theorem comp_self (hs : Paged s) : comp s s = true := by
  cases s with
  | null | kern => cases hs
  | anon | inode => simp [comp]

omit [Fintype ε] in
/-- In the bucket of a page that is alone in it, only its own entry compares equal. -/
theorem Counted.comp_iff (hc : Counted id h chains) (hs : Paged s) (halone : Alone id h.ops s)
    (hx : some x ∈ chains (CowTable.bucket id s)) :
    comp (h.cow.entries x).page s = true ↔ (h.cow.entries x).page = s := by
  constructor
  · intro hcomp
    have hb := hc.bucket hx
    have hne := (hc.refs _ x hx).2
    generalize (h.cow.entries x).page = r at hcomp hb hne
    unfold comp at hcomp
    split at hcomp
    · rename_i i o j o'
      simp only [decide_true, Bool.and_true, decide_eq_true_eq] at hcomp
      subst hcomp
      by_contra ho
      have ho' : o ≠ o' := fun heq => ho (heq ▸ rfl)
      exact hne (life_none_iff.mp (halone i o' o rfl ho' hb))
    · rw [of_decide_eq_true hcomp]
    · cases hcomp
  · intro heq
    rw [heq]
    exact comp_self hs

theorem Counted.find (hc : Counted id h chains) (hs : Paged s) (halone : Alone id h.ops s) :
    (refsOf h.ops s = 0 ∧ (∀ x, some x ∈ chains (CowTable.bucket id s) →
        (h.cow.entries x).page ≠ s) ∧ cowFind id h.cow s = some none) ∨
      ∃ x, some x ∈ chains (CowTable.bucket id s) ∧ (h.cow.entries x).page = s ∧
        cowFind id h.cow s = some (some x) := by
  rcases cowFind_cases hc.table s with ⟨hfalse, hfind⟩ | ⟨x, hx, hcomp, hfind⟩
  · have hnot : ∀ x, some x ∈ chains (CowTable.bucket id s) → (h.cow.entries x).page ≠ s := by
      intro x hx heq
      have hcomp := (hc.comp_iff hs halone hx).mpr heq
      rw [hfalse x hx] at hcomp
      cases hcomp
    refine Or.inl ⟨?_, hnot, hfind⟩
    by_contra hne
    obtain ⟨x, hx, heq⟩ := hc.present s hne
    exact hnot x hx heq
  · exact Or.inr ⟨x, hx, (hc.comp_iff hs halone hx).mp hcomp, hfind⟩

omit [Fintype ε] in
/-- The operations on other sources leave the counts and the page of an entry alone. -/
theorem Counted.setRefs (hc : Counted id h chains) {op : CowOp ι ε} {refs : BitVec 32}
    (hx : some x ∈ chains (CowTable.bucket id s)) (hpage : (h.cow.entries x).page = s)
    (hop : op.src = s) (hrefs : refs.toNat = refsOf (op :: h.ops) s) (hne : refs.toNat ≠ 0) :
    Counted id ⟨h.cow.setRefs x refs, op :: h.ops⟩ chains := by
  have hsame := setRefs_fields h.cow x refs
  refine ⟨setRefs_table hc.table x refs, hc.used, fun j y z hy hz heq => ?_, fun j y hy => ?_,
    fun r hr => ?_⟩
  · rw [(hsame y).1, (hsame z).1] at heq
    exact hc.once j y z hy hz heq
  · rw [(hsame y).1]
    by_cases hyx : y = x
    · subst hyx
      have hset : ((h.cow.setRefs y refs).entries y).refs = refs := by simp [Cow.setRefs]
      rw [hset, hpage, hrefs]
      exact ⟨rfl, hrefs ▸ hne⟩
    · have hset : ((h.cow.setRefs x refs).entries y).refs = (h.cow.entries y).refs := by
        simp [Cow.setRefs, hyx]
      have hother : op.src ≠ (h.cow.entries y).page := by
        rw [hop]
        intro heq
        have hj := hc.bucket hy
        rw [← heq] at hj
        subst hj
        exact hyx (hc.once _ y x hy hx (heq.symm.trans hpage.symm))
      rw [hset, refsOf_other hother]
      exact hc.refs j y hy
  · by_cases hrs : r = s
    · subst hrs
      exact ⟨x, hx, (hsame x).1.trans hpage⟩
    · rw [refsOf_other (fun heq => hrs (heq.symm.trans hop))] at hr
      obtain ⟨y, hy, heq⟩ := hc.present r hr
      exact ⟨y, hy, (hsame y).1.trans heq⟩

theorem Counted.create (hc : Counted id h chains) (hzero : refsOf h.ops s = 0)
    (hnot : ∀ x, some x ∈ chains (CowTable.bucket id s) → (h.cow.entries x).page ≠ s)
    (hfresh : h.cow.used new = false) (hfind : cowFind id h.cow s = some none) :
    ∃ c chains', cowInc id h.cow s new = some c ∧
      Counted id ⟨c, .inc s new :: h.ops⟩ chains' := by
  obtain ⟨c, hinc, htable, hused, hpage, hrefs, hkeep⟩ :=
    cowInc_creates hc.table hc.used hfresh hfind
  have hold : ∀ {j y}, some y ∈ chains j → (h.cow.entries y).page ≠ s := by
    rintro j y hy rfl
    exact hnot y ((hc.bucket hy).symm ▸ hy) rfl
  refine ⟨c, _, hinc, htable, fun j y hy => ?_, fun j y z hy hz heq => ?_, fun j y hy => ?_,
    fun r hr => ?_⟩
  · rw [hused]
    obtain ⟨heq, -⟩ | hy := mem_update_cons.mp hy
    · exact Or.inr (Option.some_inj.mp heq)
    · exact Or.inl (hc.used j y hy)
  · rcases mem_update_cons.mp hy with ⟨hy', -⟩ | hy' <;>
      rcases mem_update_cons.mp hz with ⟨hz', -⟩ | hz'
    · exact Option.some_inj.mp (hy'.trans hz'.symm)
    · cases hy'
      rw [hpage, (hkeep _ _ hz').2.1] at heq
      exact absurd heq.symm (hold hz')
    · cases hz'
      rw [hpage, (hkeep _ _ hy').2.1] at heq
      exact absurd heq (hold hy')
    · rw [(hkeep _ _ hy').2.1, (hkeep _ _ hz').2.1] at heq
      exact hc.once j y z hy' hz' heq
  · rcases mem_update_cons.mp hy with ⟨hy', -⟩ | hy'
    · cases hy'
      rw [hpage, hrefs, refsOf_inc, if_pos hzero]
      exact ⟨rfl, two_ne_zero⟩
    · rw [(hkeep _ _ hy').2.1, (hkeep _ _ hy').2.2, refsOf_other fun heq => hold hy' heq.symm]
      exact hc.refs j y hy'
  · by_cases hrs : r = s
    · subst hrs
      exact ⟨new, mem_update_cons.mpr (Or.inl ⟨rfl, rfl⟩), hpage⟩
    · rw [refsOf_other fun heq => hrs heq.symm] at hr
      obtain ⟨y, hy, heq⟩ := hc.present r hr
      exact ⟨y, mem_update_cons.mpr (Or.inr hy), (hkeep _ _ hy).2.1.trans heq⟩

theorem Counted.remove (hc : Counted id h chains) (hs : Paged s) (halone : Alone id h.ops s)
    (hx : some x ∈ chains (CowTable.bucket id s)) (hpage : (h.cow.entries x).page = s)
    (hone : refsOf h.ops s = 1) : ∃ m table chains',
      hashTableDelete next none page comp (CowTable.bucket id) (Fintype.card (Option ε) + 1)
        h.cow.entries h.cow.table s = some (m, table, some x) ∧
      Counted id ⟨⟨m, table, Function.update h.cow.used x false⟩, .dec s :: h.ops⟩ chains' := by
  have honly : ∀ y, some y ∈ chains (CowTable.bucket id s) →
      comp (h.cow.entries y).page s = true → y = x := by
    intro y hy hcomp
    have heq := (hc.comp_iff hs halone hy).mp hcomp
    exact hc.once _ y x hy hx (heq.trans hpage.symm)
  obtain ⟨m, table, rest, hdel, htable, hrest, hfields⟩ :=
    cow_deletes hc.table hx ((hc.comp_iff hs halone hx).mpr hpage) honly
  have hsub : ∀ {j y}, some y ∈ Function.update chains (CowTable.bucket id s) rest j →
      some y ∈ chains j ∧ y ≠ x := by
    intro j y hy
    have hy' := mem_of_mem_update (fun p hp => ((hrest p).mp hp).1) hy
    refine ⟨hy', ?_⟩
    rintro rfl
    have hj : j = CowTable.bucket id s := by rw [← hpage, hc.bucket hy']
    subst hj
    rw [Function.update_self] at hy
    exact ((hrest _).mp hy).2 rfl
  have hold : ∀ {j y}, some y ∈ chains j → y ≠ x → (h.cow.entries y).page ≠ s := by
    intro j y hy hyx heq
    have hj := hc.bucket hy
    rw [heq] at hj
    subst hj
    exact hyx (hc.once _ y x hy hx (heq.trans hpage.symm))
  refine ⟨m, table, _, hdel, htable, fun j y hy => ?_, fun j y z hy hz heq => ?_, fun j y hy => ?_,
    fun r hr => ?_⟩
  · have hused := hc.used j y (hsub hy).1
    simpa [(hsub hy).2] using hused
  · rw [(hfields y).1, (hfields z).1] at heq
    exact hc.once j y z (hsub hy).1 (hsub hz).1 heq
  · obtain ⟨hy', hyx⟩ := hsub hy
    rw [(hfields y).1, (hfields y).2, refsOf_other fun heq => hold hy' hyx heq.symm]
    exact hc.refs j y hy'
  · by_cases hrs : r = s
    · subst hrs
      rw [refsOf_dec, hone] at hr
      exact absurd rfl hr
    · rw [refsOf_other fun heq => hrs heq.symm] at hr
      obtain ⟨y, hy, heq⟩ := hc.present r hr
      refine ⟨y, ?_, (hfields y).1.trans heq⟩
      have hyx : some y ≠ some x := by
        rintro hyx
        cases hyx
        exact hrs (heq.symm.trans hpage)
      by_cases hb : CowTable.bucket id r = CowTable.bucket id s
      · rw [hb] at hy ⊢
        rw [Function.update_self]
        exact (hrest _).mpr ⟨hy, hyx⟩
      · rwa [Function.update_of_ne hb]

theorem Counted.inc (hc : Counted id h chains) (hs : Paged s) (halone : Alone id h.ops s)
    (hbound : refsOf h.ops s + 1 < 2 ^ 32)
    (hfresh : refsOf h.ops s = 0 → h.cow.used new = false) :
    ∃ c chains', cowInc id h.cow s new = some c ∧
      Counted id ⟨c, .inc s new :: h.ops⟩ chains' := by
  rcases hc.find hs halone with ⟨hzero, hnot, hfind⟩ | ⟨x, hx, hpage, hfind⟩
  · exact hc.create hzero hnot (hfresh hzero) hfind
  · obtain ⟨hrefs, hne⟩ := hc.refs _ x hx
    rw [hpage] at hrefs hne
    have hadd : ((h.cow.entries x).refs + 1).toNat = refsOf h.ops s + 1 := by
      rw [BitVec.toNat_add, hrefs]
      exact Nat.mod_eq_of_lt hbound
    refine ⟨_, chains, by rw [cowInc, hfind]; rfl, hc.setRefs hx hpage rfl ?_ ?_⟩
    · rw [hadd, refsOf_inc, if_neg hne]
    · rw [hadd]
      exact Nat.succ_ne_zero _

theorem Counted.dec (hc : Counted id h chains) (hs : Paged s) (halone : Alone id h.ops s) :
    ∃ c chains', cowDec id h.cow s = some c ∧ Counted id ⟨c, .dec s :: h.ops⟩ chains' := by
  rcases hc.find hs halone with ⟨hzero, hnot, hfind⟩ | ⟨x, hx, hpage, hfind⟩
  · refine ⟨_, chains, by rw [cowDec, hfind]; rfl, hc.table, hc.used, hc.once,
      fun j y hy => ?_, fun r hr => ?_⟩
    · have hother : (CowOp.dec s : CowOp ι ε).src ≠ (h.cow.entries y).page := by
        rintro rfl
        exact hnot y ((hc.bucket hy).symm ▸ hy) rfl
      rw [refsOf_other hother]
      exact hc.refs j y hy
    · by_cases hrs : r = s
      · rw [hrs, refsOf_dec, hzero] at hr
        exact absurd rfl hr
      · rw [refsOf_other fun heq => hrs heq.symm] at hr
        exact hc.present r hr
  · obtain ⟨hrefs, hne⟩ := hc.refs _ x hx
    rw [hpage] at hrefs hne
    by_cases hone : (h.cow.entries x).refs = 1
    · have hone' : refsOf h.ops s = 1 := by
        rw [← hrefs, hone]
        rfl
      obtain ⟨m, table, chains', hdel, hc'⟩ := hc.remove hs halone hx hpage hone'
      refine ⟨_, chains', ?_, hc'⟩
      rw [cowDec, hfind]
      simp only [Option.bind_some, hone, hdel]
      rfl
    · have hsub : ((h.cow.entries x).refs - 1).toNat = refsOf h.ops s - 1 := by
        rw [BitVec.toNat_sub_of_le, hrefs]
        · rfl
        · rw [BitVec.le_def, hrefs]
          exact Nat.one_le_iff_ne_zero.mpr hne
      have htwo : refsOf h.ops s ≠ 1 := by
        intro heq
        exact hone (BitVec.eq_of_toNat_eq (hrefs.trans heq))
      refine ⟨_, chains, ?_, hc.setRefs hx hpage rfl (hsub.trans refsOf_dec.symm) ?_⟩
      · rw [cowDec, hfind]
        exact if_pos hone
      · rw [hsub]
        omega

theorem step_preserves_counted {op : CowOp ι ε} (hc : Counted id h chains)
    (hg : Distinguished id h op) :
    ∃ h' chains', cowStep id h op = some h' ∧ Counted id h' chains' := by
  rcases op with ⟨s, new⟩ | s
  · obtain ⟨hbound, hfresh⟩ := hg.room
    obtain ⟨c, chains', hinc, hc'⟩ := hc.inc hg.paged hg.alone hbound hfresh
    exact ⟨_, chains', congrArg _ hinc, hc'⟩
  · obtain ⟨c, chains', hdec, hc'⟩ := hc.dec hg.paged hg.alone
    exact ⟨_, chains', congrArg _ hdec, hc'⟩

omit [Fintype ε] in
theorem counted_start (entries : ε → CowEntry ι ε) :
    Counted id (startCow entries) fun _ => [] := by
  refine ⟨HashTable.empty _, fun j x hx => ?_, fun j x y hx => ?_, fun j x hx => ?_,
    fun s hs => absurd rfl hs⟩
  · cases hx
  · cases hx
  · cases hx

theorem Counted.lookup (hc : Counted id h chains) (hs : Paged s) (halone : Alone id h.ops s) :
    refsOf h.ops s < 2 ^ 32 ∧
      cowLookup id h.cow s = some (BitVec.ofNat 32 (refsOf h.ops s)) := by
  rcases hc.find hs halone with ⟨hzero, -, hfind⟩ | ⟨x, hx, hpage, hfind⟩
  · rw [cowLookup, hfind, hzero]
    exact ⟨by decide, rfl⟩
  · obtain ⟨hrefs, -⟩ := hc.refs _ x hx
    rw [hpage] at hrefs
    rw [cowLookup, hfind, ← hrefs, BitVec.ofNat_toNat, BitVec.setWidth_eq]
    exact ⟨BitVec.isLt _, rfl⟩

omit [DecidableEq ε] [Fintype ε] in
theorem life_own (ops : List (CowOp ι ε)) (s : PageSrc ι) :
    life ops s = life (ops.filter fun op => op.src = s) s := by
  induction ops with
  | nil => rfl
  | cons op ops ih =>
    by_cases hop : op.src = s
    · rw [List.filter_cons_of_pos (by simpa using hop), life, life, if_pos hop, if_pos hop, ih]
    · rw [List.filter_cons_of_neg (by simpa using hop), life, if_neg hop, ih]

/-- As long as no operation meets an entry of another page of its inode in its bucket, a lookup
that does not either returns the count of the operations on its own source. -/
theorem counts_independent {entries : ε → CowEntry ι ε}
    (hrun : Execution (cowStep id) (Distinguished id) (startCow entries) h) :
    (∀ s, Paged s → Alone id h.ops s →
      refsOf (h.ops.filter fun op => op.src = s) s < 2 ^ 32 ∧ cowLookup id h.cow s =
        some (BitVec.ofNat 32 (refsOf (h.ops.filter fun op => op.src = s) s))) ∧
    ∀ op, Distinguished id h op → ∃ h', cowStep id h op = some h' := by
  have hcounted : ∃ chains, Counted id h chains := by
    refine hrun.preserves (I := fun h => ∃ chains, Counted id h chains) ?_ ⟨_, counted_start entries⟩
    rintro h op h' ⟨chains, hc⟩ hg hstep
    obtain ⟨h₁, chains', hstep', hc'⟩ := step_preserves_counted hc hg
    rw [hstep] at hstep'
    cases hstep'
    exact ⟨chains', hc'⟩
  obtain ⟨chains, hc⟩ := hcounted
  refine ⟨fun s hs halone => ?_, fun op hg => ?_⟩
  · have hlookup := hc.lookup hs halone
    rwa [refsOf, life_own, ← refsOf] at hlookup
  · obtain ⟨h', -, hstep, -⟩ := step_preserves_counted hc hg
    exact ⟨h', hstep⟩

end Table

section Chained

variable {id : ι → BitVec 32} {c : Cow ι ε} {chains : ℕ → List (Option ε)} {a b s : PageSrc ι}
  {x new : ε}

theorem comp_symm (h : comp a b = true) : comp b a = true := by
  cases a <;> cases b <;> simp_all [comp]

theorem comp_trans {r : PageSrc ι} (h : comp a b = true) (h' : comp b r = true) :
    comp a r = true := by
  cases a <;> cases b <;> cases r <;> simp_all [comp]

/-- The entries of a chain are told apart by `comp`. -/
structure Chained (id : ι → BitVec 32) (c : Cow ι ε) (chains : ℕ → List (Option ε)) : Prop where
  table : HashTable next none page (bucket id) isNode c.entries c.table chains
  used : ∀ j x, some x ∈ chains j → c.used x = true
  apart : ∀ j x y, some x ∈ chains j → some y ∈ chains j →
    comp (c.entries x).page (c.entries y).page = true → x = y

omit [Fintype ε] in
theorem Chained.setRefs (hc : Chained id c chains) (x : ε) (refs : BitVec 32) :
    Chained id (c.setRefs x refs) chains := by
  refine ⟨setRefs_table hc.table x refs, hc.used, fun j y z hy hz hcomp => ?_⟩
  rw [(setRefs_fields c x refs y).1, (setRefs_fields c x refs z).1] at hcomp
  exact hc.apart j y z hy hz hcomp

theorem Chained.inc (hc : Chained id c chains) (hnew : c.used new = false) (s : PageSrc ι) :
    ∃ c' chains', cowInc id c s new = some c' ∧ Chained id c' chains' ∧
      ∀ y, c'.used y = true → c.used y = true ∨ y = new := by
  rcases cowFind_cases hc.table s with ⟨hnot, hfind⟩ | ⟨x, -, -, hfind⟩
  · obtain ⟨c', hinc, htable, hused, hpage, -, hkeep⟩ :=
      cowInc_creates hc.table hc.used hnew hfind
    refine ⟨c', _, hinc, ⟨htable, fun j y hy => ?_, fun j y z hy hz hcomp => ?_⟩,
      fun y hy => (hused y).mp hy⟩
    · rw [hused]
      obtain ⟨heq, -⟩ | hy := mem_update_cons.mp hy
      · exact Or.inr (Option.some_inj.mp heq)
      · exact Or.inl (hc.used j y hy)
    · rcases mem_update_cons.mp hy with ⟨hy', hj⟩ | hy' <;>
        rcases mem_update_cons.mp hz with ⟨hz', hj'⟩ | hz'
      · exact Option.some_inj.mp (hy'.trans hz'.symm)
      · cases hy'
        subst hj
        rw [hpage, (hkeep _ _ hz').2.1] at hcomp
        exact absurd (comp_symm hcomp) (by simp [hnot z hz'])
      · cases hz'
        subst hj'
        rw [hpage, (hkeep _ _ hy').2.1, hnot y hy'] at hcomp
        cases hcomp
      · rw [(hkeep _ _ hy').2.1, (hkeep _ _ hz').2.1] at hcomp
        exact hc.apart j y z hy' hz' hcomp
  · refine ⟨_, chains, by rw [cowInc, hfind]; rfl, hc.setRefs x _, fun y hy => Or.inl hy⟩

theorem Chained.of_inc (hc : Chained id c chains) {c' : Cow ι ε}
    (h : cowInc id c s new = some c') : ∃ chains', Chained id c' chains' := by
  by_cases hnew : c.used new = true
  · rcases cowFind_cases hc.table s with ⟨-, hfind⟩ | ⟨x, -, -, hfind⟩
    · rw [cowInc, hfind] at h
      simp [hnew] at h
    · rw [cowInc, hfind] at h
      cases h
      exact ⟨chains, hc.setRefs x _⟩
  · obtain ⟨c₁, chains', hinc, hc', -⟩ := hc.inc (by simpa using hnew) s
    rw [h] at hinc
    cases hinc
    exact ⟨chains', hc'⟩

omit [Fintype ε] in
theorem chained_empty (id : ι → BitVec 32) (entries : ε → CowEntry ι ε) (used : ε → Bool) :
    Chained id ⟨entries, fun _ => none, used⟩ fun _ => [] := by
  refine ⟨HashTable.empty _, fun j x hx => ?_, fun j x y hx => ?_⟩
  · cases hx
  · cases hx

theorem Chained.dec (hc : Chained id c chains) (s : PageSrc ι) :
    ∃ c' chains', cowDec id c s = some c' ∧ Chained id c' chains' := by
  rcases cowFind_cases hc.table s with ⟨-, hfind⟩ | ⟨x, hx, hcomp, hfind⟩
  · exact ⟨c, chains, by rw [cowDec, hfind]; rfl, hc⟩
  · by_cases hone : (c.entries x).refs = 1
    · have honly : ∀ y, some y ∈ chains (bucket id s) → comp (c.entries y).page s = true →
          y = x := by
        intro y hy hyc
        exact hc.apart _ y x hy hx (comp_trans hyc (comp_symm hcomp))
      obtain ⟨m, table, rest, hdel, htable, hrest, hfields⟩ := cow_deletes hc.table hx hcomp honly
      have hsub : ∀ {j y}, some y ∈ Function.update chains (bucket id s) rest j →
          (∃ j, some y ∈ chains j) ∧ some y ≠ some x := fun {j y} hy =>
        (hc.table.mem_deleted hx hrest).mp ⟨j, hy⟩
      have hin : ∀ {j y}, some y ∈ Function.update chains (bucket id s) rest j → some y ∈ chains j :=
        fun hy => mem_of_mem_update (fun p hp => ((hrest p).mp hp).1) hy
      refine ⟨⟨m, table, Function.update c.used x false⟩, _, ?_, htable, fun j y hy => ?_,
        fun j y z hy hz hyz => ?_⟩
      · rw [cowDec, hfind]
        simp only [Option.bind_some, hone, hdel]
        rfl
      · have hyx : y ≠ x := fun heq => (hsub hy).2 (congrArg some heq)
        simpa [hyx] using hc.used j y (hin hy)
      · rw [(hfields y).1, (hfields z).1] at hyz
        exact hc.apart j y z (hin hy) (hin hz) hyz
    · refine ⟨_, chains, ?_, hc.setRefs x ((c.entries x).refs - 1)⟩
      rw [cowDec, hfind]
      exact if_pos hone

end Chained

omit [DecidableEq ε] [Fintype ε] in
theorem alone_iff {id : ι → BitVec 32} {ops : List (CowOp ι ε)} {s : PageSrc ι} :
    Alone id ops s ↔ ∀ op ∈ ops, op.src ≠ s ∧ comp op.src s = true ∧
      bucket id op.src = bucket id s → life ops op.src = none := by
  constructor
  · rintro h op - ⟨hne, hcomp, hb⟩
    generalize op.src = r at hne hcomp hb
    unfold comp at hcomp
    split at hcomp
    · rename_i i o j o'
      simp only [decide_true, Bool.and_true, decide_eq_true_eq] at hcomp
      subst hcomp
      exact h i o' o rfl (fun heq => hne (heq ▸ rfl)) hb
    · exact absurd (congrArg PageSrc.anon (of_decide_eq_true hcomp)) hne
    · cases hcomp
  · rintro h i o o' rfl hne hb
    by_cases hmem : ∃ op ∈ ops, op.src = .inode i o'
    · obtain ⟨op, hop, hsrc⟩ := hmem
      have hnone := h op hop
      rw [hsrc] at hnone
      exact hnone ⟨by simpa using hne, by simp [comp], hb⟩
    · have hnil : (ops.filter fun op => op.src = .inode i o') = [] := by
        rw [List.filter_eq_nil_iff]
        intro op hop
        simpa using fun hsrc => hmem ⟨op, hop, hsrc⟩
      rw [life_own, hnil]
      rfl

instance (s : PageSrc ι) : Decidable (Paged s) := by
  cases s <;> unfold Paged <;> infer_instance

instance (id : ι → BitVec 32) (ops : List (CowOp ι ε)) (s : PageSrc ι) :
    Decidable (Alone id ops s) := decidable_of_iff _ alone_iff.symm

instance (h : CowHistory ι ε) (op : CowOp ι ε) : Decidable (Room h op) := by
  cases op <;> unfold Room <;> infer_instance

instance (id : ι → BitVec 32) (h : CowHistory ι ε) (op : CowOp ι ε) :
    Decidable (Distinguished id h op) :=
  decidable_of_iff (Paged op.src ∧ Alone id h.ops op.src ∧ Room h op)
    ⟨fun ⟨hp, ha, hr⟩ => ⟨hp, ha, hr⟩, fun h => ⟨h.paged, h.alone, h.room⟩⟩

/-- Two pages of one inode, an anonymous page in the bucket of one of them, and an entry that
goes. -/
theorem counts_independent_deleted : ∃ h : CowHistory Unit (Fin 3),
    Execution (cowStep fun _ => 1) (Distinguished fun _ => 1)
        (startCow fun _ => ⟨.null, 0, none⟩) h ∧
      cowLookup (fun _ => 1) h.cow (.inode () 5) = some 0 ∧
      cowLookup (fun _ => 1) h.cow (.inode () 6) = some 3 ∧
      cowLookup (fun _ => 1) h.cow (.anon 5) = some 2 := by
  have hrun : (follow (cowStep fun _ => 1) (Distinguished fun _ => 1)
      (startCow fun _ => ⟨.null, 0, none⟩) [.inc (.inode () 5) 0, .inc (.inode () 6) (1 : Fin 3),
        .inc (.anon 5) 2, .dec (.inode () 5), .inc (.inode () 6) 0, .dec (.inode () 5)]).map
      (fun h => decide ((Alone (fun _ => 1) h.ops (.inode () 5) ∧
        refsOf (h.ops.filter fun op => op.src = .inode () 5) (.inode () 5) = 0) ∧
        (Alone (fun _ => 1) h.ops (.inode () 6) ∧
        refsOf (h.ops.filter fun op => op.src = .inode () 6) (.inode () 6) = 3) ∧
        Alone (fun _ => 1) h.ops (.anon 5) ∧
        refsOf (h.ops.filter fun op => op.src = .anon 5) (.anon 5) = 2)) = some true := by
    decide +kernel
  obtain ⟨h, hh, hd⟩ := Option.map_eq_some_iff.mp hrun
  obtain ⟨⟨halone₁, hrefs₁⟩, ⟨halone₂, hrefs₂⟩, halone₃, hrefs₃⟩ := of_decide_eq_true hd
  have hexec := execution_of_follow hh
  have hlookup := (counts_independent hexec).1
  refine ⟨h, hexec, ?_, ?_, ?_⟩
  · rw [(hlookup (.inode () 5) trivial halone₁).2, hrefs₁]
    rfl
  · rw [(hlookup (.inode () 6) trivial halone₂).2, hrefs₂]
    rfl
  · rw [(hlookup (.anon 5) trivial halone₃).2, hrefs₃]
    rfl

/-- The second page of an inode with its entry in the bucket of the first counts for the first. -/
theorem other_page_counted : ∃ h : CowHistory Unit (Fin 2),
    Execution (cowStep fun _ => 1) (fun h op => Paged op.src ∧ Room h op)
        (startCow fun _ => ⟨.null, 0, none⟩) h ∧
      h.ops.map CowOp.src = [.inode () 32768, .inode () 1] ∧
      refsOf (h.ops.filter fun op => op.src = .inode () 1) (.inode () 1) = 2 ∧
      cowLookup (fun _ => 1) h.cow (.inode () 1) = some 3 := by
  have hrun : (follow (cowStep fun _ => 1) (fun h op => Paged op.src ∧ Room h op)
      (startCow fun _ => ⟨.null, 0, none⟩)
      [.inc (.inode () 1) 0, .inc (.inode () 32768) (1 : Fin 2)]).map
      (fun h => decide (h.ops.map CowOp.src = [.inode () 32768, .inode () 1] ∧
        refsOf (h.ops.filter fun op => op.src = .inode () 1) (.inode () 1) = 2 ∧
        cowLookup (fun _ => 1) h.cow (.inode () 1) = some 3)) = some true := by
    decide +kernel
  obtain ⟨h, hh, hd⟩ := Option.map_eq_some_iff.mp hrun
  exact ⟨h, execution_of_follow hh, of_decide_eq_true hd⟩

end CowTable
