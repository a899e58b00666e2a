import Mathlib.Data.Fintype.Option
import Mathlib.Data.Fintype.Prod
import Metakernel.GuardedRuns
import Metakernel.MallocWrappers
import Metakernel.NodeTables

/-!
# The inode cache

`inode_cache.c` and the calls of `inode.c` that use it. An entry is in a table of the file system's
numbers, in a table of the inodes, and, while nobody uses its inode, on the ring `queue`.

What a file system and `malloc` return comes with the call: an inode that is not in use, with the
fields that the file system has set, for a new inode a number that is not in use, and a block that is
not in use or `NULL`. A call that waits for a
lock that nobody gives back does not return.
-/
namespace InodeCache

open LinkedNodes DataStructures NodeTables GuardedRuns

variable {φ ι ε : Type} [DecidableEq φ] [DecidableEq ι] [DecidableEq ε]

structure Inode where
  id : BitVec 32
  refCount : BitVec 32
  hardRefCount : BitVec 32
  locked : Bool

structure Entry (φ ι ε : Type) where
  hashNext : Option ε
  revNext : Option ε
  listNext : Option ε
  listLast : Option ε
  filesys : φ
  filesysId : BitVec 64
  inode : Option ι

def hashNext : NodeField (ε → Entry φ ι ε) (Option ε) (Option ε) :=
  tableField Entry.hashNext fun r v => { r with hashNext := v }

def revNext : NodeField (ε → Entry φ ι ε) (Option ε) (Option ε) :=
  tableField Entry.revNext fun r v => { r with revNext := v }

def listNext : NodeField (ε → Entry φ ι ε) (Option ε) (Option ε) :=
  tableField Entry.listNext fun r v => { r with listNext := v }

def listLast : NodeField (ε → Entry φ ι ε) (Option ε) (Option ε) :=
  tableField Entry.listLast fun r v => { r with listLast := v }

def unId (m : ε → Entry φ ι ε) (p : Option ε) : Option (φ × BitVec 64) :=
  p.map fun x => ((m x).filesys, (m x).filesysId)

def revUnId (m : ε → Entry φ ι ε) (p : Option ε) : Option ι := p.bind fun x => (m x).inode

/-- `used` are the entries that `malloc` has handed out, `owned` the inodes that exist. -/
structure Cache (φ ι ε : Type) where
  entries : ε → Entry φ ι ε
  inodes : ι → Inode
  cacheTable : ℕ → Option ε
  revTable : ℕ → Option ε
  queue : Option ε
  locked : Bool
  used : ε → Bool
  owned : ι → Bool

def Cache.setInode (c : Cache φ ι ε) (i : ι) (f : Inode → Inode) : Cache φ ι ε :=
  { c with inodes := Function.update c.inodes i (f (c.inodes i)) }

variable [Fintype ε] (src : φ → ι)

/-- `hash`, with `src` for `filesys->src`. -/
def cacheIndex (inodes : ι → Inode) : Option (φ × BitVec 64) → ℕ
  | none => 0
  | some (f, n) => ((inodes (src f)).id * n.setWidth 32).toNat % 32767

/-- `rev_hash`. -/
def revIndex (inodes : ι → Inode) : Option ι → ℕ
  | none => 0
  | some i => (inodes i).id.toNat % 32767

def cacheFind (c : Cache φ ι ε) (f : φ) (n : BitVec 64) : Option (Option ε) :=
  hashTableLookup hashNext none unId (fun a b => a = b) (cacheIndex src c.inodes)
    (Fintype.card (Option ε) + 1) c.entries c.cacheTable (some (f, n))

def revFind (c : Cache φ ι ε) (table : ℕ → Option ε) (i : ι) : Option (Option ε) :=
  hashTableLookup revNext none revUnId (fun a b => a = b) (revIndex c.inodes)
    (Fintype.card (Option ε) + 1) c.entries table (some i)

/-- `mutex_init` calls `memset` with 0, which writes nothing. -/
def addEntry (c : Cache φ ι ε) (f : φ) (n : BitVec 64) (i : ι) (stat : Inode) (new : ε) :
    Cache φ ι ε :=
  let m := Function.update c.entries new { c.entries new with
    listNext := none, listLast := none, filesys := f, filesysId := n, inode := some i }
  let inodes := Function.update c.inodes i { stat with refCount := 1 }
  let r := hashTableInsert hashNext unId (cacheIndex src inodes) m c.cacheTable (some new)
  let q := hashTableInsert revNext revUnId (revIndex inodes) r.1 c.revTable (some new)
  { c with
    entries := q.1
    inodes
    cacheTable := r.2
    revTable := q.2
    used := Function.update c.used new true
    owned := Function.update c.owned i true }

/-- The entry is taken from the ring; the front is reset if it is deleted. -/
def unqueue (c : Cache φ ι ε) (x : ε) : Cache φ ι ε :=
  let r :=
    if c.queue ≠ some x then
      let m := listLast.set c.entries (listNext.get c.entries (some x))
        (listLast.get c.entries (some x))
      (listNext.set m (listLast.get m (some x)) (listNext.get m (some x)), c.queue)
    else clistDelete listNext listLast none c.entries c.queue
  { c with
    entries := listLast.set (listNext.set r.1 (some x) none) (some x) none
    queue := r.2 }

/-- `malloc` is asked for the four bytes of a pointer and returns `NULL`, or a block and its length.
The 32 bytes of an entry are written to it in any case: there is no result where `NULL` is followed or
the block overrun. -/
def newEntry (malloc : Option (ε × ℕ)) : Option ε :=
  malloc.bind fun (new, length) => if 32 ≤ length then some new else none

/-- An entry that has been deleted is found with the lock of the cache held. -/
def inodeCacheLookup (c : Cache φ ι ε) (f : φ) (n : BitVec 64) (read : Option (ι × Inode))
    (malloc : Option (ε × ℕ)) : Option (Cache φ ι ε × Option ι) :=
  if c.locked then none
  else (cacheFind src c f n).bind fun
    | some x =>
      match (c.entries x).inode with
      | some i =>
        let c := if (c.entries x).listNext ≠ none then unqueue c x else c
        if (c.inodes i).locked then none
        else some (c.setInode i fun nd => { nd with refCount := nd.refCount + 1 }, some i)
      | none => some ({ c with locked := true }, none)
    | none =>
      match read with
      | none => some (c, none)
      | some (i, stat) => (newEntry malloc).bind fun new =>
        if c.owned i ∨ c.used new then none
        else some (addEntry src c f n i stat new, some i)

def enqueue (c : Cache φ ι ε) (x : ε) : Cache φ ι ε :=
  let r := clistInsert listNext listLast none c.entries c.queue (some x)
  { c with entries := r.1, queue := r.2 }

def inodeCacheFree (c : Cache φ ι ε) (i : ι) : Option (Cache φ ι ε) :=
  if c.locked then none
  else (revFind c c.revTable i).map fun
    | some x => enqueue c x
    | none => c

def inodeCacheDelete (c : Cache φ ι ε) (i : ι) : Option (Cache φ ι ε) :=
  if c.locked then none
  else (revFind c c.cacheTable i).map fun
    | some x =>
      enqueue { c with entries := Function.update c.entries x { c.entries x with inode := none } } x
    | none => c

/-- `filesys_lookup` has found `filesys`. The identifier is assigned when the entry is in the
tables. A null pointer is followed when the file system creates no inode. -/
def inodeCreate (c : Cache φ ι ε) (filesys : Option φ) (create : Option (ι × Inode × BitVec 64))
    (malloc : Option (ε × ℕ)) (id : BitVec 32) : Option (Cache φ ι ε) :=
  match filesys with
  | none => some c
  | some f =>
    if c.locked then none
    else match create with
      | none => none
      | some (i, stat, n) => (newEntry malloc).bind fun new =>
        if c.owned i ∨ c.used new ∨ cacheFind src c f n ≠ some none then none
        else some ((addEntry src c f n i stat new).setInode i fun nd => { nd with id })

def inodeClose (c : Cache φ ι ε) (i : ι) : Option (Cache φ ι ε) :=
  if (c.inodes i).locked then none
  else
    let c := c.setInode i fun nd => { nd with refCount := nd.refCount - 1, locked := true }
    if (c.inodes i).refCount = 0 then
      if (c.inodes i).hardRefCount = 0 then inodeCacheDelete c i
      else (inodeCacheFree c i).map fun c => c.setInode i fun nd => { nd with locked := false }
    else some c

inductive Call (φ ι ε : Type) where
  | create (filesys : Option φ) (create : Option (ι × Inode × BitVec 64)) (malloc : Option (ε × ℕ))
    (id : BitVec 32)
  | lookup (f : φ) (n : BitVec 64) (read : Option (ι × Inode)) (malloc : Option (ε × ℕ))
  | close (i : ι)

def step (c : Cache φ ι ε) : Call φ ι ε → Option (Cache φ ι ε)
  | .create filesys create malloc id => inodeCreate src c filesys create malloc id
  | .lookup f n read malloc => (inodeCacheLookup src c f n read malloc).map Prod.fst
  | .close i => if c.owned i then inodeClose c i else none

def start (entries : ε → Entry φ ι ε) (inodes : ι → Inode) (owned : ι → Bool) : Cache φ ι ε where
  entries
  inodes
  cacheTable _ := none
  revTable _ := none
  queue := none
  locked := false
  used _ := false
  owned

def OnQueue (c : Cache φ ι ε) (x : ε) : Prop :=
  ∃ k, (listNext.get c.entries)^[k] c.queue = some x

structure Coherent (c : Cache φ ι ε) : Prop where
  cached : ∀ x i, c.used x = true → (c.entries x).inode = some i →
    cacheFind src c (c.entries x).filesys (c.entries x).filesysId = some (some x)
  reversed : ∀ x i, c.used x = true → (c.entries x).inode = some i →
    revFind c c.revTable i = some (some x)
  queued : ∀ x i, c.used x = true → (c.entries x).inode = some i →
    (OnQueue c x ↔ (c.inodes i).refCount = 0)

/-- A new inode gets an entry, and an identifier of the bucket that it is in already, no count wraps
around, and an inode that is to be deleted is found in the wrong table. -/
def Proper (c : Cache φ ι ε) : Call φ ι ε → Prop
  | .create filesys create malloc id => ∀ f i stat n, filesys = some f → create = some (i, stat, n) →
      newEntry malloc ≠ none ∧ id.toNat % 32767 = stat.id.toNat % 32767
  | .lookup f n read malloc =>
      (cacheFind src c f n = some none → read ≠ none → newEntry malloc ≠ none) ∧
      ∀ x i, cacheFind src c f n = some (some x) → (c.entries x).inode = some i →
        (c.inodes i).refCount + 1 ≠ 0
  | .close i => (∃ x, c.used x = true ∧ (c.entries x).inode = some i) →
      (c.inodes i).refCount ≠ 0 ∧
      ((c.inodes i).refCount = 1 → (c.inodes i).hardRefCount = 0 →
        ∃ x, revFind c c.cacheTable i = some (some x))

section Tables

variable {src} {c c' : Cache φ ι ε} {chains rchains : ℕ → List (Option ε)} {x y : ε} {i : ι}
  {f : φ} {n : BitVec 64}

structure Tables (src : φ → ι) (c : Cache φ ι ε) (chains rchains : ℕ → List (Option ε)) :
    Prop where
  table : HashTable hashNext none unId (cacheIndex src c.inodes) isNode c.entries c.cacheTable
    chains
  rev : ChainFamily revNext none isNode c.entries c.revTable rchains
  chain_used : ∀ j x, some x ∈ chains j → c.used x = true
  rev_used : ∀ j x, some x ∈ rchains j → c.used x = true
  present : ∀ x, c.used x = true → (∃ j, some x ∈ chains j) ∧ ∃ j, some x ∈ rchains j
  reversed : ∀ x i, c.used x = true → (c.entries x).inode = some i →
    some x ∈ rchains (revIndex c.inodes (some i))
  one_number : ∀ x y, c.used x = true → c.used y = true →
    unId c.entries (some x) = unId c.entries (some y) → x = y
  one_inode : ∀ x y i, c.used x = true → c.used y = true → (c.entries x).inode = some i →
    (c.entries y).inode = some i → x = y
  owned : ∀ x i, c.used x = true → (c.entries x).inode = some i → c.owned i = true
  sources : ∀ f, c.owned (src f) = true

omit [DecidableEq φ] [DecidableEq ι] in
theorem Tables.length_lt (h : Tables src c chains rchains) (j : ℕ) :
    (chains j).length < Fintype.card (Option ε) + 1 ∧
      (rchains j).length < Fintype.card (Option ε) + 1 :=
  ⟨Nat.lt_succ_of_le (h.table.nodup j).length_le_card,
    Nat.lt_succ_of_le (h.rev.nodup j).length_le_card⟩

omit [DecidableEq ι] in
theorem Tables.cacheFind_cases (h : Tables src c chains rchains) (f : φ) (n : BitVec 64) :
    (∃ x, c.used x = true ∧ unId c.entries (some x) = some (f, n) ∧
      cacheFind src c f n = some (some x)) ∨
    (∀ x, c.used x = true → unId c.entries (some x) ≠ some (f, n)) ∧
      cacheFind src c f n = some none := by
  rcases h.table.lookup_cases (some (f, n)) (h.length_lt _).1 with
    ⟨p, hp, hkey, hfind⟩ | ⟨hnone, hfind⟩
  · obtain ⟨x, rfl⟩ := Option.isSome_iff_exists.mp (h.table.nodes _ p hp)
    exact Or.inl ⟨x, h.chain_used _ x hp, hkey, hfind⟩
  · refine Or.inr ⟨fun x hx => ?_, hfind⟩
    obtain ⟨⟨j, hj⟩, -⟩ := h.present x hx
    exact hnone j _ hj

omit [DecidableEq ι] in
theorem Tables.cacheFind_entry (h : Tables src c chains rchains) (hx : c.used x = true) :
    cacheFind src c (c.entries x).filesys (c.entries x).filesysId = some (some x) := by
  rcases h.cacheFind_cases (c.entries x).filesys (c.entries x).filesysId with
    ⟨y, hy, hkey, hfind⟩ | ⟨hnone, -⟩
  · rw [hfind, h.one_number y x hy hx hkey]
  · exact absurd rfl (hnone x hx)

omit [DecidableEq φ] in
theorem Tables.revFind_entry (h : Tables src c chains rchains) (hx : c.used x = true)
    (hi : (c.entries x).inode = some i) : revFind c c.revTable i = some (some x) := by
  have hlookup : revFind c c.revTable i = some (((rchains (revIndex c.inodes (some i))).find?
      fun p => decide (revUnId c.entries p = some i)).getD none) :=
    hashTableLookupFrom_chain (h.rev.chain _) (h.length_lt _).2
  have hmem := h.reversed x i hx hi
  cases hfind : (rchains (revIndex c.inodes (some i))).find?
      fun p => decide (revUnId c.entries p = some i) with
  | none =>
    have hfalse := List.find?_eq_none.mp hfind _ hmem
    exact absurd (decide_eq_true hi) hfalse
  | some p =>
    have hp := List.mem_of_find?_eq_some hfind
    obtain ⟨y, rfl⟩ := Option.isSome_iff_exists.mp (h.rev.nodes _ p hp)
    have hdecide := List.find?_some hfind
    have hy : (c.entries y).inode = some i := of_decide_eq_true hdecide
    rw [hlookup, hfind, h.one_inode y x i (h.rev_used _ y hp) hx hy hi]
    rfl

def Entry.core (e : Entry φ ι ε) : Option ε × Option ε × φ × BitVec 64 × Option ι :=
  (e.hashNext, e.revNext, e.filesys, e.filesysId, e.inode)

omit [DecidableEq φ] [DecidableEq ι] in
theorem cacheIndex_congr {inodes inodes' : ι → Inode}
    (h : ∀ f, (inodes' (src f)).id = (inodes (src f)).id) :
    cacheIndex src inodes' = cacheIndex src inodes := by
  funext k
  rcases k with _ | ⟨f, n⟩
  · rfl
  · simp only [cacheIndex, h]

omit [Fintype ε] [DecidableEq φ] [DecidableEq ι] in
/-- The tables do not depend on the ring, nor on the counts and locks of the inodes. -/
theorem Tables.congr (h : Tables src c chains rchains) {entries : ε → Entry φ ι ε}
    {inodes : ι → Inode} {queue : Option ε} {locked : Bool}
    (hcore : ∀ x, (entries x).core = (c.entries x).core)
    (hsrc : ∀ f, (inodes (src f)).id = (c.inodes (src f)).id)
    (hindex : ∀ i, revIndex inodes (some i) = revIndex c.inodes (some i)) :
    Tables src { c with entries, inodes, queue, locked } chains rchains := by
  have hhash : ∀ x, (entries x).hashNext = (c.entries x).hashNext :=
    fun x => congrArg (fun t => t.1) (hcore x)
  have hrev : ∀ x, (entries x).revNext = (c.entries x).revNext :=
    fun x => congrArg (fun t => t.2.1) (hcore x)
  have hkey : ∀ p, unId entries p = unId c.entries p := by
    rintro (_ | x)
    · rfl
    · exact congrArg (fun t => some (t.2.2.1, t.2.2.2.1)) (hcore x)
  have hinode : ∀ x, (entries x).inode = (c.entries x).inode :=
    fun x => congrArg (fun t => t.2.2.2.2) (hcore x)
  refine ⟨?_, h.rev.congr fun j p hp => ?_, h.chain_used, h.rev_used, h.present,
    fun x i hx hi => ?_, fun x y hx hy heq => ?_, fun x y i hx hy hxi hyi => ?_,
    fun x i hx hi => ?_, h.sources⟩
  · show HashTable hashNext none unId (cacheIndex src inodes) isNode entries c.cacheTable chains
    rw [cacheIndex_congr hsrc]
    refine h.table.congr fun j p hp => ⟨?_, hkey p⟩
    obtain ⟨x, rfl⟩ := Option.isSome_iff_exists.mp (h.table.nodes j p hp)
    exact hhash x
  · obtain ⟨x, rfl⟩ := Option.isSome_iff_exists.mp (h.rev.nodes j p hp)
    exact hrev x
  · show some x ∈ rchains (revIndex inodes (some i))
    rw [hindex]
    exact h.reversed x i hx ((hinode x).symm.trans hi)
  · exact h.one_number x y hx hy ((hkey _).symm.trans (heq.trans (hkey _)))
  · exact h.one_inode x y i hx hy ((hinode x).symm.trans hxi) ((hinode y).symm.trans hyi)
  · exact h.owned x i hx ((hinode x).symm.trans hi)

section

omit [DecidableEq φ] [DecidableEq ι] [Fintype ε]

theorem tableField_set (get : Entry φ ι ε → Option ε)
    (put : Entry φ ι ε → Option ε → Entry φ ι ε) (m : ε → Entry φ ι ε) (p v : Option ε) (y : ε) :
    (tableField get put).set m p v y = m y ∨ (tableField get put).set m p v y = put (m y) v := by
  rcases p with _ | x
  · exact Or.inl rfl
  · by_cases hy : y = x
    · subst hy
      exact Or.inr (by simp [tableField])
    · exact Or.inl (by simp [tableField, hy])

theorem hashNext_set_fields (m : ε → Entry φ ι ε) (p v : Option ε) (y : ε) :
    (hashNext.set m p v y).revNext = (m y).revNext ∧
      unId (hashNext.set m p v) (some y) = unId m (some y) ∧
        (hashNext.set m p v y).inode = (m y).inode := by
  simp only [unId, Option.map_some, hashNext]
  rcases tableField_set Entry.hashNext (fun r v => { r with hashNext := v }) m p v y with
    heq | heq <;> rw [heq] <;> exact ⟨rfl, rfl, rfl⟩

theorem revNext_set_fields (m : ε → Entry φ ι ε) (p v : Option ε) (y : ε) :
    (revNext.set m p v y).hashNext = (m y).hashNext ∧
      unId (revNext.set m p v) (some y) = unId m (some y) ∧
        (revNext.set m p v y).inode = (m y).inode := by
  simp only [unId, Option.map_some, revNext]
  rcases tableField_set Entry.revNext (fun r v => { r with revNext := v }) m p v y with
    heq | heq <;> rw [heq] <;> exact ⟨rfl, rfl, rfl⟩

theorem hashNext_lawful :
    (hashNext : NodeField (ε → Entry φ ι ε) _ _).Lawful isNode fun _ => True :=
  tableField_lawful (fun _ _ => rfl) _

theorem revNext_lawful :
    (revNext : NodeField (ε → Entry φ ι ε) _ _).Lawful isNode fun _ => True :=
  tableField_lawful (fun _ _ => rfl) _

theorem insert_fields (index : Option (φ × BitVec 64) → ℕ) (rindex : Option ι → ℕ)
    (m : ε → Entry φ ι ε) (table rtable : ℕ → Option ε) (p : Option ε) (y : ε) :
    unId (hashTableInsert revNext revUnId rindex
        (hashTableInsert hashNext unId index m table p).1 rtable p).1 (some y) = unId m (some y) ∧
      ((hashTableInsert revNext revUnId rindex
        (hashTableInsert hashNext unId index m table p).1 rtable p).1 y).inode = (m y).inode := by
  have hhash := hashNext_set_fields m p (table (index (unId m p))) y
  have hrev := revNext_set_fields (hashNext.set m p (table (index (unId m p)))) p
    (rtable (rindex (revUnId (hashNext.set m p (table (index (unId m p)))) p))) y
  exact ⟨hrev.2.1.trans hhash.2.1, hrev.2.2.trans hhash.2.2⟩

end

section

omit [DecidableEq φ] [Fintype ε]

/-- What an added entry is, and that the other entries keep their fields. -/
theorem addEntry_entries (src : φ → ι) (c : Cache φ ι ε) (f : φ) (n : BitVec 64) (i : ι)
    (stat : Inode) (new x : ε) :
    unId (addEntry src c f n i stat new).entries (some x) =
        (if x = new then some (f, n) else unId c.entries (some x)) ∧
      ((addEntry src c f n i stat new).entries x).inode =
        if x = new then some i else (c.entries x).inode := by
  have hsame := insert_fields (cacheIndex src (addEntry src c f n i stat new).inodes)
    (revIndex (addEntry src c f n i stat new).inodes) (Function.update c.entries new
      { c.entries new with
        listNext := none, listLast := none, filesys := f, filesysId := n, inode := some i })
    c.cacheTable c.revTable (some new) x
  refine ⟨hsame.1.trans ?_, hsame.2.trans ?_⟩
  · by_cases hx : x = new
    · subst hx
      simp [unId]
    · simp [unId, hx]
  · by_cases hx : x = new
    · subst hx
      simp
    · simp [hx]

theorem Tables.add_chains (h : Tables src c chains rchains) {new : ε} (hsrc : ∀ f, src f ≠ i)
    (hout : ∀ j, some new ∉ chains j) (hrout : ∀ j, some new ∉ rchains j)
    (hne : ∀ x, c.used x = true → x ≠ new) (stat : Inode) :
    ∃ chains' rchains',
      HashTable hashNext none unId (cacheIndex src (addEntry src c f n i stat new).inodes) isNode
        (addEntry src c f n i stat new).entries (addEntry src c f n i stat new).cacheTable chains' ∧
      ChainFamily revNext none isNode (addEntry src c f n i stat new).entries
        (addEntry src c f n i stat new).revTable rchains' ∧
      (∀ j x, some x ∈ chains' j ↔ x = new ∧ j = cacheIndex src
        (addEntry src c f n i stat new).inodes (some (f, n)) ∨ some x ∈ chains j) ∧
      (∀ j x, some x ∈ rchains' j ↔ x = new ∧ j = revIndex
        (addEntry src c f n i stat new).inodes (some i) ∨ some x ∈ rchains j) := by
  let inodes := Function.update c.inodes i { stat with refCount := 1 }
  let m := Function.update c.entries new { c.entries new with
    listNext := none, listLast := none, filesys := f, filesysId := n, inode := some i }
  have hkey : unId m (some new) = some (f, n) := by simp [m, unId]
  have hinode : (m new).inode = some i := by simp [m]
  have hold : ∀ x, c.used x = true → m x = c.entries x := by
    intro x hx
    simp [m, hne x hx]
  have htable₀ : HashTable hashNext none unId (cacheIndex src inodes) isNode m c.cacheTable
      chains := by
    have hindex : cacheIndex src inodes = cacheIndex src c.inodes :=
      cacheIndex_congr fun g => by simp [inodes, hsrc g]
    rw [hindex]
    refine h.table.congr fun j p hp => ?_
    obtain ⟨x, rfl⟩ := Option.isSome_iff_exists.mp (h.table.nodes j p hp)
    have hx := hold x (h.chain_used j x hp)
    simp [hashNext, tableField, unId, hx]
  have htable₁ := htable₀.insert hashNext_lawful (x := some new) rfl hout (by simp) fun y hy => by
    obtain ⟨x, rfl⟩ := Option.isSome_iff_exists.mp hy
    exact (hashNext_set_fields m _ _ x).2.1
  let m₁ := hashNext.set m (some new) (c.cacheTable (cacheIndex src inodes (unId m (some new))))
  have hrev₀ : ChainFamily revNext none isNode m₁ c.revTable rchains := by
    refine h.rev.congr fun j p hp => ?_
    obtain ⟨x, rfl⟩ := Option.isSome_iff_exists.mp (h.rev.nodes j p hp)
    refine Eq.trans (hashNext_set_fields m (some new) _ x).1 ?_
    rw [hold x (h.rev_used j x hp)]
    rfl
  have hrev₁ := hrev₀.push revNext_lawful (x := some new) rfl hrout (by simp)
    (revIndex inodes (some i))
  have hentries : (addEntry src c f n i stat new).entries =
      revNext.set m₁ (some new) (c.revTable (revIndex inodes (some i))) := by
    show revNext.set m₁ (some new) (c.revTable (revIndex inodes (revUnId m₁ (some new)))) = _
    rw [show revUnId m₁ (some new) = some i from
      (hashNext_set_fields m (some new) _ new).2.2.trans hinode]
  have hrtable : (addEntry src c f n i stat new).revTable =
      Function.update c.revTable (revIndex inodes (some i)) (some new) := by
    show Function.update c.revTable (revIndex inodes (revUnId m₁ (some new))) (some new) = _
    rw [show revUnId m₁ (some new) = some i from
      (hashNext_set_fields m (some new) _ new).2.2.trans hinode]
  rw [hkey] at htable₁
  rw [← hentries, ← hrtable] at hrev₁
  have htable₂ := htable₁.congr fun j p hp => by
    obtain ⟨x, rfl⟩ := Option.isSome_iff_exists.mp (htable₁.nodes j p hp)
    have hset := revNext_set_fields m₁ (some new) (c.revTable (revIndex inodes (some i))) x
    exact ⟨hset.1, hset.2.1⟩
  rw [← hentries] at htable₂
  refine ⟨_, _, htable₂, hrev₁, fun j x => ?_, fun j x => ?_⟩
  · rw [mem_update_cons, Option.some_inj]
    rfl
  · rw [mem_update_cons, Option.some_inj]
    rfl

/-- An entry for an inode that did not exist, under a number that no entry has. -/
theorem Tables.add (h : Tables src c chains rchains) {stat : Inode} {new : ε}
    (hi : c.owned i = false) (hnew : c.used new = false)
    (hfresh : ∀ x, c.used x = true → unId c.entries (some x) ≠ some (f, n)) :
    ∃ chains' rchains', Tables src (addEntry src c f n i stat new) chains' rchains' := by
  have hsrc : ∀ f, src f ≠ i := fun f heq => by simp [← heq, h.sources f] at hi
  have hout : ∀ j, some new ∉ chains j := fun j hj => by simp [h.chain_used j new hj] at hnew
  have hrout : ∀ j, some new ∉ rchains j := fun j hj => by simp [h.rev_used j new hj] at hnew
  have hne : ∀ x, c.used x = true → x ≠ new := fun x hx heq => by simp [← heq, hx] at hnew
  have hused : ∀ x, (addEntry src c f n i stat new).used x = true → x = new ∨ c.used x = true := by
    intro x hx
    by_cases hxn : x = new
    · exact Or.inl hxn
    · exact Or.inr (by simpa [addEntry, hxn] using hx)
  have hentries := addEntry_entries src c f n i stat new
  obtain ⟨chains', rchains', htable, hrev, hmem, hrmem⟩ := h.add_chains hsrc hout hrout hne stat
  have hrest : ∀ {x k}, c.used x = true →
      ((addEntry src c f n i stat new).entries x).inode = some k →
      (c.entries x).inode = some k ∧ k ≠ i := by
    intro x k hx hk
    rw [(hentries x).2, if_neg (hne x hx)] at hk
    refine ⟨hk, fun heq => ?_⟩
    simp [← heq, h.owned x k hx hk] at hi
  have hnewest : ∀ {k}, ((addEntry src c f n i stat new).entries new).inode = some k → k = i := by
    intro k hk
    rw [(hentries new).2, if_pos rfl] at hk
    exact (Option.some.inj hk).symm
  refine ⟨chains', rchains', htable, hrev, fun j x hx => ?_, fun j x hx => ?_, fun x hx => ?_,
    fun x k hx hk => ?_, fun x y hx hy heq => ?_, fun x y k hx hy hxk hyk => ?_,
    fun x k hx hk => ?_, fun g => ?_⟩
  · rcases (hmem j x).mp hx with ⟨rfl, -⟩ | hx
    · exact Function.update_self x true c.used
    · exact (Function.update_of_ne (hne x (h.chain_used j x hx)) _ _).trans (h.chain_used j x hx)
  · rcases (hrmem j x).mp hx with ⟨rfl, -⟩ | hx
    · exact Function.update_self x true c.used
    · exact (Function.update_of_ne (hne x (h.rev_used j x hx)) _ _).trans (h.rev_used j x hx)
  · rcases hused x hx with rfl | hx
    · exact ⟨⟨_, (hmem _ x).mpr (Or.inl ⟨rfl, rfl⟩)⟩, ⟨_, (hrmem _ x).mpr (Or.inl ⟨rfl, rfl⟩)⟩⟩
    · obtain ⟨⟨j, hj⟩, k, hk⟩ := h.present x hx
      exact ⟨⟨j, (hmem j x).mpr (Or.inr hj)⟩, ⟨k, (hrmem k x).mpr (Or.inr hk)⟩⟩
  · rcases hused x hx with rfl | hx
    · rw [hnewest hk]
      exact (hrmem _ x).mpr (Or.inl ⟨rfl, rfl⟩)
    · obtain ⟨hk, hki⟩ := hrest hx hk
      have hindex : revIndex (addEntry src c f n i stat new).inodes (some k) =
          revIndex c.inodes (some k) := by simp [revIndex, addEntry, hki]
      rw [hindex]
      exact (hrmem _ x).mpr (Or.inr (h.reversed x k hx hk))
  · rw [(hentries x).1, (hentries y).1] at heq
    rcases hused x hx with hxn | hx' <;> rcases hused y hy with hyn | hy'
    · exact hxn.trans hyn.symm
    · rw [if_pos hxn, if_neg (hne y hy')] at heq
      exact absurd heq.symm (hfresh y hy')
    · rw [if_neg (hne x hx'), if_pos hyn] at heq
      exact absurd heq (hfresh x hx')
    · rw [if_neg (hne x hx'), if_neg (hne y hy')] at heq
      exact h.one_number x y hx' hy' heq
  · rcases hused x hx with hxn | hx' <;> rcases hused y hy with hyn | hy'
    · exact hxn.trans hyn.symm
    · exact absurd (hnewest (hxn ▸ hxk)) (hrest hy' hyk).2
    · exact absurd (hnewest (hyn ▸ hyk)) (hrest hx' hxk).2
    · exact h.one_inode x y k hx' hy' (hrest hx' hxk).1 (hrest hy' hyk).1
  · rcases hused x hx with rfl | hx
    · rw [hnewest hk]
      exact Function.update_self i true c.owned
    · obtain ⟨hk, hki⟩ := hrest hx hk
      exact (Function.update_of_ne hki _ _).trans (h.owned x k hx hk)
  · exact (Function.update_of_ne (hsrc g) _ _).trans (h.sources g)

end

omit [DecidableEq φ] in
/-- A walk along the links of the inodes stays among the entries in use, from either table. -/
theorem Tables.revFind_within (h : Tables src c chains rchains) {table : ℕ → Option ε}
    (htable : ∀ j y, table j = some y → c.used y = true)
    (hfind : revFind c table i = some (some x)) :
    c.used x = true ∧ (c.entries x).inode = some i := by
  have hnext : ∀ p : Option ε, (∀ y, p = some y → c.used y = true) → p ≠ none →
      ∀ y, revNext.get c.entries p = some y → c.used y = true := by
    intro p hp hne y hy
    obtain ⟨z, rfl⟩ := Option.ne_none_iff_exists'.mp hne
    obtain ⟨-, j, hj⟩ := h.present z (hp z rfl)
    obtain ⟨l, r, hl⟩ := List.append_of_mem hj
    have hchain := h.rev.chain j
    rw [hl] at hchain
    have hhead := hchain.tail.head
    rw [hy] at hhead
    cases r with
    | nil => cases hhead
    | cons q r =>
      refine h.rev_used j y ?_
      rw [hl, show some y = q from hhead]
      simp
  obtain ⟨hx, hkey⟩ := hashTableLookupFrom_within hnext (fun y hy => htable _ y hy) hfind
    (by simp)
  exact ⟨hx x rfl, of_decide_eq_true hkey⟩

section

omit [DecidableEq φ] [DecidableEq ι] [Fintype ε]

theorem Tables.cacheTable_used (h : Tables src c chains rchains) (j : ℕ) (y : ε)
    (hy : c.cacheTable j = some y) : c.used y = true := by
  have hhead := (h.table.chain j).head
  rw [hy] at hhead
  cases hl : chains j with
  | nil => simp [hl] at hhead
  | cons p l =>
    refine h.chain_used j y ?_
    rw [hl] at hhead ⊢
    rw [show some y = p from hhead]
    simp

theorem Tables.revTable_used (h : Tables src c chains rchains) (j : ℕ) (y : ε)
    (hy : c.revTable j = some y) : c.used y = true := by
  have hhead := (h.rev.chain j).head
  rw [hy] at hhead
  cases hl : rchains j with
  | nil => simp [hl] at hhead
  | cons p l =>
    refine h.rev_used j y ?_
    rw [hl] at hhead ⊢
    rw [show some y = p from hhead]
    simp

theorem Tables.forget (h : Tables src c chains rchains) (x : ε) :
    Tables src { c with
      entries := Function.update c.entries x { c.entries x with inode := none } }
      chains rchains := by
  let entries := Function.update c.entries x { c.entries x with inode := none }
  have hsame : ∀ y, (entries y).hashNext = (c.entries y).hashNext ∧
      (entries y).revNext = (c.entries y).revNext ∧
        unId entries (some y) = unId c.entries (some y) := by
    intro y
    by_cases hy : y = x
    · subst hy
      simp [entries, unId]
    · simp [entries, unId, hy]
  have hinode : ∀ {y i}, (entries y).inode = some i → (c.entries y).inode = some i := by
    intro y i hi
    by_cases hy : y = x
    · subst hy
      simp [entries] at hi
    · simpa [entries, hy] using hi
  refine ⟨h.table.congr fun j p hp => ?_, h.rev.congr fun j p hp => ?_, h.chain_used, h.rev_used,
    h.present, fun y i hy hi => h.reversed y i hy (hinode hi), fun y z hy hz heq => ?_,
    fun y z i hy hz hyi hzi => h.one_inode y z i hy hz (hinode hyi) (hinode hzi),
    fun y i hy hi => h.owned y i hy (hinode hi), h.sources⟩
  · obtain ⟨y, rfl⟩ := Option.isSome_iff_exists.mp (h.table.nodes j p hp)
    exact ⟨(hsame y).1, (hsame y).2.2⟩
  · obtain ⟨y, rfl⟩ := Option.isSome_iff_exists.mp (h.rev.nodes j p hp)
    exact (hsame y).2.1
  · exact h.one_number y z hy hz ((hsame y).2.2.symm.trans (heq.trans (hsame z).2.2))

end

omit [Fintype ε] [DecidableEq φ] in
theorem Tables.setInode (h : Tables src c chains rchains) {g : Inode → Inode}
    (hid : ∀ nd, (g nd).id = nd.id) : Tables src (c.setInode i g) chains rchains := by
  have hsame : ∀ k, ((c.setInode i g).inodes k).id = (c.inodes k).id := by
    intro k
    by_cases hk : k = i
    · subst hk
      simp [Cache.setInode, hid]
    · simp [Cache.setInode, hk]
  exact h.congr (fun _ => rfl) (fun f => hsame _)
    fun k => congrArg (fun id : BitVec 32 => id.toNat % 32767) (hsame k)

omit [Fintype ε] [DecidableEq φ] in
/-- A new identifier of the same bucket, for an inode that is not the source of a file system. -/
theorem Tables.rename (h : Tables src c chains rchains) {id : BitVec 32} (hsrc : ∀ f, src f ≠ i)
    (hid : id.toNat % 32767 = (c.inodes i).id.toNat % 32767) :
    Tables src (c.setInode i fun nd => { nd with id }) chains rchains := by
  refine h.congr (fun _ => rfl) (fun f => ?_) fun k => ?_
  · rw [Function.update_of_ne (hsrc f)]
  · by_cases hk : k = i
    · subst hk
      simpa [revIndex] using hid
    · simp [revIndex, hk]

end Tables

section Ring

variable {src} {c : Cache φ ι ε} {chains rchains : ℕ → List (Option ε)} {ring : List ε} {x y : ε}
  {i : ι}

structure Queued (c : Cache φ ι ε) (ring : List ε) : Prop where
  links : EntryRing listNext listLast c.entries c.queue ring
  used : ∀ x ∈ ring, c.used x = true
  off : ∀ x, c.used x = true → x ∉ ring → (c.entries x).listNext = none

section

omit [DecidableEq φ] [DecidableEq ι] [Fintype ε]

theorem list_fields :
    RingFields (listNext : NodeField (ε → Entry φ ι ε) _ _) listLast isNode :=
  tableField_rings (fun _ _ => rfl) (fun _ _ => rfl) (fun _ _ => rfl) fun _ _ => rfl

theorem listNext_set_core (m : ε → Entry φ ι ε) (p v : Option ε) (y : ε) :
    (listNext.set m p v y).core = (m y).core := by
  rcases tableField_set Entry.listNext (fun r v => { r with listNext := v }) m p v y with
    heq | heq
  · rw [listNext, heq]
  · rw [listNext, heq]
    rfl

theorem listLast_set_core (m : ε → Entry φ ι ε) (p v : Option ε) (y : ε) :
    (listLast.set m p v y).core = (m y).core := by
  rcases tableField_set Entry.listLast (fun r v => { r with listLast := v }) m p v y with
    heq | heq
  · rw [listLast, heq]
  · rw [listLast, heq]
    rfl

theorem enqueue_core (c : Cache φ ι ε) (x y : ε) :
    ((enqueue c x).entries y).core = (c.entries y).core :=
  clistInsert_keeps (g := fun m : ε → Entry φ ι ε => (m y).core)
    (fun m p v => listNext_set_core m p v y) (fun m p v => listLast_set_core m p v y) _ _ _

theorem enqueue_inode (c : Cache φ ι ε) (x y : ε) :
    ((enqueue c x).entries y).inode = (c.entries y).inode :=
  congrArg (fun t => t.2.2.2.2) (enqueue_core c x y)

theorem unqueue_core (c : Cache φ ι ε) (x y : ε) :
    ((unqueue c x).entries y).core = (c.entries y).core := by
  rw [unqueue, listLast_set_core, listNext_set_core]
  split
  · rw [listNext_set_core, listLast_set_core]
  · exact clistDelete_keeps (g := fun m : ε → Entry φ ι ε => (m y).core)
      (fun m p v => listNext_set_core m p v y) (fun m p v => listLast_set_core m p v y) _ _

theorem Tables.queue_add (h : Tables src c chains rchains) (x : ε) :
    Tables src (enqueue c x) chains rchains :=
  h.congr (enqueue_core c x) (fun _ => rfl) fun _ => rfl

theorem Tables.queue_remove (h : Tables src c chains rchains) (x : ε) :
    Tables src (unqueue c x) chains rchains :=
  h.congr (unqueue_core c x) (fun _ => rfl) fun _ => rfl

theorem Queued.onQueue_iff (h : Queued c ring) : OnQueue c x ↔ x ∈ ring := h.links.reach_iff rfl

theorem Queued.listNext_iff (h : Queued c ring) (hx : c.used x = true) :
    (c.entries x).listNext ≠ none ↔ x ∈ ring := by
  constructor
  · intro hne
    by_contra hout
    exact hne (h.off x hx hout)
  · intro hmem heq
    obtain ⟨y, -, hy⟩ := h.links.next_mem hmem
    rw [show listNext.get c.entries (some x) = none from heq] at hy
    cases hy

theorem Queued.congr (h : Queued c ring) {entries : ε → Entry φ ι ε} {inodes : ι → Inode}
    {locked : Bool} (hlinks : ∀ x, (entries x).listNext = (c.entries x).listNext ∧
      (entries x).listLast = (c.entries x).listLast) :
    Queued { c with entries, inodes, locked } ring :=
  ⟨h.links.congr fun u _ => hlinks u, h.used,
    fun x hx hout => (hlinks x).1.trans (h.off x hx hout)⟩

theorem Queued.add (h : Queued c ring) (hx : c.used x = true) (hout : x ∉ ring) :
    Queued (enqueue c x) (x :: ring) := by
  refine ⟨?_, fun y hy => ?_, fun y hy hn => ?_⟩
  · show EntryRing listNext listLast (clistInsert listNext listLast none c.entries c.queue _).1
      (clistInsert listNext listLast none c.entries c.queue (some x)).2 _
    rw [clistInsert_entry]
    exact h.links.insert list_fields hout
  · rcases List.mem_cons.mp hy with rfl | hy
    · exact hx
    · exact h.used y hy
  · have hkeep := (h.links.insert_other list_fields hout hn).1
    exact hkeep.trans (h.off y hy fun hmem => hn (List.mem_cons_of_mem x hmem))

/-- The links of an entry are cleared; those of the others are kept. -/
theorem clear_links (m : ε → Entry φ ι ε) (x : ε) :
    (listLast.set (listNext.set m (some x) none) (some x) none x).listNext = none ∧
      ∀ u, u ≠ x → listLast.set (listNext.set m (some x) none) (some x) none u = m u := by
  refine ⟨by simp [listLast, listNext, tableField], fun u hu => ?_⟩
  simp [listLast, listNext, tableField, hu]

theorem Queued.remove (h : Queued c ring) (hx : x ∈ ring) :
    Queued (unqueue c x) (ring.erase x) := by
  have hnodup := h.links.nodup
  -- the ring without the entry, before the links of the entry are cleared
  have hrest : ∃ m, (unqueue c x).entries = listLast.set (listNext.set m (some x) none) (some x)
      none ∧ EntryRing listNext listLast m (unqueue c x).queue (ring.erase x) ∧
      ∀ u, u ∉ ring → listNext.get m (some u) = listNext.get c.entries (some u) := by
    by_cases hq : c.queue = some x
    · cases ring with
      | nil => cases hx
      | cons y ring =>
        have hyx : y = x := Option.some_inj.mp (h.links.entry.symm.trans hq)
        subst hyx
        refine ⟨(clistDelete listNext listLast none c.entries c.queue).1, ?_, ?_, fun u hu => ?_⟩
        · simp [unqueue, hq]
        · simpa [unqueue, hq] using h.links.delete list_fields
        · exact (h.links.delete_other list_fields fun hmem => hu (List.mem_cons_of_mem y hmem)).1
    · obtain ⟨a, ha, z, hz, hnext, hlast, hring⟩ := h.links.unlink list_fields hx hq
      have hxa : x ≠ a := by
        rintro rfl
        exact hnodup.not_mem_erase ha
      have hread : listLast.get (listLast.set c.entries (some a) (some z)) (some x) = some z :=
        (list_fields.last_lawful.get_set_ne rfl rfl (by simpa using hxa)).trans hlast
      have hread' : listNext.get (listLast.set c.entries (some a) (some z)) (some x) = some a :=
        (list_fields.next_untouched rfl rfl).trans hnext
      refine ⟨listNext.set (listLast.set c.entries (some a) (some z)) (some z) (some a), ?_, ?_,
        fun u hu => ?_⟩
      · simp only [unqueue, hq, ne_eq, not_false_eq_true, if_true, hnext, hlast, hread,
          hread']
      · simpa only [unqueue, hq, ne_eq, not_false_eq_true, if_true] using hring
      · have hne : u ≠ z := fun heq => hu (List.mem_of_mem_erase (heq ▸ hz))
        rw [list_fields.next_lawful.get_set_ne rfl rfl (by simpa using hne),
          list_fields.next_untouched rfl rfl]
  obtain ⟨m, hentries, hring, hkeep⟩ := hrest
  obtain ⟨hclear, hothers⟩ := clear_links m x
  rw [← hentries] at hclear hothers
  refine ⟨hring.congr fun u hu => ?_, fun y hy => h.used y (List.mem_of_mem_erase hy),
    fun y hy hout => ?_⟩
  · have hne : u ≠ x := by
      rintro rfl
      exact hnodup.not_mem_erase hu
    simp [listNext, listLast, tableField, hothers u hne]
  · by_cases hyx : y = x
    · rw [hyx, hclear]
    · have hmem : y ∉ ring := fun hmem => hout ((List.mem_erase_of_ne hyx).mpr hmem)
      rw [hothers y hyx]
      exact (hkeep y hmem).trans (h.off y hy hmem)

end

omit [DecidableEq φ] [Fintype ε] in
theorem Queued.addEntry (h : Queued c ring) {new : ε} (hnew : c.used new = false) (src : φ → ι)
    (f : φ) (n : BitVec 64) (i : ι) (stat : Inode) :
    Queued (addEntry src c f n i stat new) ring := by
  have hne : ∀ {y}, c.used y = true → y ≠ new := fun hy heq => by simp [← heq, hy] at hnew
  have hsame : ∀ {y}, y ≠ new →
      ((InodeCache.addEntry src c f n i stat new).entries y) = c.entries y := by
    intro y hy
    simp [InodeCache.addEntry, hashTableInsert, hashNext, revNext, tableField, hy]
  refine ⟨h.links.congr fun u hu => ?_, fun y hy => ?_, fun y hy hout => ?_⟩
  · simp [listNext, listLast, tableField, hsame (hne (h.used u hu))]
  · exact (Function.update_of_ne (hne (h.used y hy)) _ _).trans (h.used y hy)
  · by_cases hyn : y = new
    · subst hyn
      simp [InodeCache.addEntry, hashTableInsert, hashNext, revNext, tableField]
    · rw [hsame hyn]
      exact h.off y (by simpa [InodeCache.addEntry, hyn] using hy) hout

end Ring

section Calls

variable {src} {c c' : Cache φ ι ε} {chains rchains : ℕ → List (Option ε)} {ring : List ε}
  {x y : ε} {i : ι} {f : φ} {n : BitVec 64} {new : ε}

def Counted (c : Cache φ ι ε) (ring : List ε) : Prop :=
  ∀ x i, c.used x = true → (c.entries x).inode = some i →
    (x ∈ ring ↔ (c.inodes i).refCount = 0)

structure Invariant (src : φ → ι) (c : Cache φ ι ε) (chains rchains : ℕ → List (Option ε))
    (ring : List ε) : Prop where
  tables : Tables src c chains rchains
  queued : Queued c ring
  counted : Counted c ring

def Consistent (src : φ → ι) (c : Cache φ ι ε) : Prop :=
  ∃ chains rchains ring, Invariant src c chains rchains ring

theorem Consistent.coherent (h : Consistent src c) : Coherent src c := by
  obtain ⟨chains, rchains, ring, h⟩ := h
  refine ⟨fun x i hx _ => h.tables.cacheFind_entry hx, fun x i hx hi => h.tables.revFind_entry hx hi,
    fun x i hx hi => ?_⟩
  rw [h.queued.onQueue_iff]
  exact h.counted x i hx hi

theorem Consistent.addEntry (h : Consistent src c) {stat : Inode} (hi : c.owned i = false)
    (hnew : c.used new = false) (hfind : cacheFind src c f n = some none) :
    Consistent src (addEntry src c f n i stat new) := by
  obtain ⟨chains, rchains, ring, h⟩ := h
  have hfresh : ∀ x, c.used x = true → unId c.entries (some x) ≠ some (f, n) := by
    rcases h.tables.cacheFind_cases f n with ⟨x, -, -, hx⟩ | ⟨hnone, -⟩
    · rw [hfind] at hx
      cases hx
    · exact hnone
  obtain ⟨chains', rchains', htables⟩ : ∃ chains' rchains', Tables src
      (InodeCache.addEntry src c f n i stat new) chains' rchains' := h.tables.add hi hnew hfresh
  refine ⟨chains', rchains', ring, htables, h.queued.addEntry hnew src f n i stat, ?_⟩
  intro x k hx hk
  rw [(addEntry_entries src c f n i stat new x).2] at hk
  by_cases hxn : x = new
  · subst hxn
    rw [if_pos rfl, Option.some_inj] at hk
    subst hk
    have hout : x ∉ ring := fun hmem => by simp [h.queued.used x hmem] at hnew
    simp [hout, InodeCache.addEntry]
  · rw [if_neg hxn] at hk
    have hused : c.used x = true := by simpa [InodeCache.addEntry, hxn] using hx
    have hki : k ≠ i := by
      rintro rfl
      simp [h.tables.owned x k hused hk] at hi
    rw [h.counted x k hused hk]
    simp [InodeCache.addEntry, hki]

omit [DecidableEq φ] [DecidableEq ε] [Fintype ε] in
theorem Counted.setInode {g : Inode → Inode}
    (hrest : ∀ y j, c.used y = true → (c.entries y).inode = some j → j ≠ i →
      (y ∈ ring ↔ (c.inodes j).refCount = 0))
    (hi : ∀ y, c.used y = true → (c.entries y).inode = some i →
      (y ∈ ring ↔ (g (c.inodes i)).refCount = 0)) : Counted (c.setInode i g) ring := by
  intro y j hy hj
  by_cases hji : j = i
  · subst hji
    simpa [Cache.setInode] using hi y hy hj
  · simpa [Cache.setInode, hji] using hrest y j hy hj hji

omit [DecidableEq φ] [DecidableEq ι] [Fintype ε] in
/-- The entry that a lookup has found is not on the ring when its inode is counted. -/
theorem Queued.taken (h : Queued c ring) (hx : c.used x = true)
    (hc' : (if (c.entries x).listNext ≠ none then unqueue c x else c) = c') :
    ∃ ring', Queued c' ring' ∧ (∀ y, y ∈ ring' ↔ y ∈ ring ∧ y ≠ x) ∧ c'.inodes = c.inodes ∧
      c'.used = c.used ∧ ∀ y, (c'.entries y).inode = (c.entries y).inode := by
  subst hc'
  split
  · rename_i hnext
    have hmem := (h.listNext_iff hx).mp hnext
    refine ⟨ring.erase x, h.remove hmem, fun y => ?_, rfl, rfl,
      fun y => congrArg (fun t => t.2.2.2.2) (unqueue_core c x y)⟩
    rw [h.links.nodup.mem_erase_iff, and_comm]
  · rename_i hnext
    have hout : x ∉ ring := fun hmem => hnext ((h.listNext_iff hx).mpr hmem)
    refine ⟨ring, h, fun y => ?_, rfl, rfl, fun y => rfl⟩
    refine ⟨fun hy => ⟨hy, ?_⟩, fun hy => hy.1⟩
    rintro rfl
    exact hout hy

omit [DecidableEq φ] [DecidableEq ι] [Fintype ε] in
theorem Invariant.taken (h : Invariant src c chains rchains ring) (hx : c.used x = true)
    (hc' : (if (c.entries x).listNext ≠ none then unqueue c x else c) = c') :
    ∃ ring', Tables src c' chains rchains ∧ Queued c' ring' ∧
      (∀ y, y ∈ ring' ↔ y ∈ ring ∧ y ≠ x) ∧ c'.inodes = c.inodes ∧ c'.used = c.used ∧
      ∀ y, (c'.entries y).inode = (c.entries y).inode := by
  obtain ⟨ring', hqueued⟩ := h.queued.taken hx hc'
  refine ⟨ring', ?_, hqueued⟩
  subst hc'
  split
  · exact h.tables.queue_remove x
  · exact h.tables

/-- A lookup returns the inode of the entry it finds, finds a deleted entry, finds nothing, or adds
an entry for what the file system has read. -/
theorem inodeCacheLookup_cases {read : Option (ι × Inode)} {malloc : Option (ε × ℕ)} {r : Option ι}
    (hstep : inodeCacheLookup src c f n read malloc = some (c', r)) :
    (∃ x i c₁, cacheFind src c f n = some (some x) ∧ (c.entries x).inode = some i ∧
      (if (c.entries x).listNext ≠ none then unqueue c x else c) = c₁ ∧
      c' = c₁.setInode i (fun nd => { nd with refCount := nd.refCount + 1 }) ∧ r = some i) ∨
    (∃ x, cacheFind src c f n = some (some x) ∧ (c.entries x).inode = none ∧
      c' = { c with locked := true } ∧ r = none) ∨
    (cacheFind src c f n = some none ∧ read = none ∧ c' = c ∧ r = none) ∨
    ∃ i stat new, cacheFind src c f n = some none ∧ read = some (i, stat) ∧ c.owned i = false ∧
      c.used new = false ∧ c' = addEntry src c f n i stat new ∧ r = some i := by
  unfold inodeCacheLookup at hstep
  split at hstep
  · cases hstep
  · obtain ⟨p, hfind, hstep⟩ := Option.bind_eq_some_iff.mp hstep
    cases p with
    | some x =>
      cases hi : (c.entries x).inode with
      | some i =>
        simp only [hi] at hstep
        generalize htaken : (if (c.entries x).listNext ≠ none then unqueue c x else c) = c₁
          at hstep
        split at hstep
        · cases hstep
        · cases hstep
          exact .inl ⟨x, i, c₁, hfind, hi, htaken, rfl, rfl⟩
      | none =>
        simp only [hi] at hstep
        cases hstep
        exact .inr (.inl ⟨x, hfind, hi, rfl, rfl⟩)
    | none =>
      rcases read with _ | ⟨i, stat⟩
      · cases hstep
        exact .inr (.inr (.inl ⟨hfind, rfl, rfl, rfl⟩))
      · obtain ⟨new, -, hstep⟩ := Option.bind_eq_some_iff.mp hstep
        split at hstep
        · cases hstep
        · rename_i hfree
          cases hstep
          rw [not_or, Bool.not_eq_true, Bool.not_eq_true] at hfree
          exact .inr (.inr (.inr ⟨i, stat, new, hfind, rfl, hfree.1, hfree.2, rfl, rfl⟩))

theorem lookup_preserves {read : Option (ι × Inode)} {malloc : Option (ε × ℕ)} {r : Option ι}
    (h : Consistent src c) (hproper : Proper src c (.lookup f n read malloc))
    (hstep : inodeCacheLookup src c f n read malloc = some (c', r)) : Consistent src c' := by
  obtain ⟨x, i, c₁, hfind, hi, htaken, rfl, -⟩ | ⟨x, hfind, -, rfl, -⟩ | ⟨-, -, rfl, -⟩ |
    ⟨i, stat, new, hfind, -, howned, hused, rfl, -⟩ := inodeCacheLookup_cases hstep
  · obtain ⟨chains, rchains, ring, h⟩ := h
    obtain ⟨y, hy, -, hyfind⟩ | ⟨-, hnone⟩ := h.tables.cacheFind_cases f n
    · have hxy : x = y := by simpa [hfind] using hyfind
      subst hxy
      obtain ⟨ring', htables, hqueued, hmem, hinodes, hused, hinode⟩ := h.taken hy htaken
      refine ⟨chains, rchains, ring', htables.setInode fun _ => rfl,
        ⟨hqueued.links, hqueued.used, hqueued.off⟩, Counted.setInode ?_ ?_⟩
      · intro z j hz hj hji
        rw [hused] at hz
        rw [hinode] at hj
        have hzx : z ≠ x := by
          rintro rfl
          exact hji (Option.some_inj.mp (hj.symm.trans hi))
        rw [hmem, hinodes, ← h.counted z j hz hj]
        exact and_iff_left hzx
      · intro z hz hj
        rw [hused] at hz
        rw [hinode] at hj
        have hzx : z = x := h.tables.one_inode z x i hz hy hj hi
        have hcount := hproper.2 x i hfind hi
        rw [hinodes]
        exact iff_of_false (fun hzring => ((hmem z).mp hzring).2 hzx) hcount
    · rw [hfind] at hnone
      cases hnone
  · obtain ⟨chains, rchains, ring, h⟩ := h
    exact ⟨chains, rchains, ring, h.tables.congr (fun _ => rfl) (fun _ => rfl) fun _ => rfl,
      ⟨h.queued.links, h.queued.used, h.queued.off⟩, h.counted⟩
  · exact h
  · exact h.addEntry howned hused hfind

theorem inodeCreate_cases {filesys : Option φ} {create : Option (ι × Inode × BitVec 64)}
    {malloc : Option (ε × ℕ)} {id : BitVec 32}
    (hstep : inodeCreate src c filesys create malloc id = some c') :
    (filesys = none ∧ c' = c) ∨
    ∃ f i stat n new, filesys = some f ∧ create = some (i, stat, n) ∧ c.owned i = false ∧
      c.used new = false ∧ cacheFind src c f n = some none ∧
      c' = (addEntry src c f n i stat new).setInode i fun nd => { nd with id } := by
  cases filesys with
  | none =>
    cases hstep
    exact .inl ⟨rfl, rfl⟩
  | some f =>
    simp only [inodeCreate] at hstep
    split at hstep
    · cases hstep
    · rcases create with _ | ⟨i, stat, n⟩
      · cases hstep
      · obtain ⟨new, -, hstep⟩ := Option.bind_eq_some_iff.mp hstep
        split at hstep
        · cases hstep
        · rename_i hfree
          cases hstep
          simp only [not_or, Bool.not_eq_true, ne_eq, not_not] at hfree
          exact .inr ⟨f, i, stat, n, new, rfl, rfl, hfree.1, hfree.2.1, hfree.2.2, rfl⟩

theorem create_preserves {filesys : Option φ} {create : Option (ι × Inode × BitVec 64)}
    {malloc : Option (ε × ℕ)} {id : BitVec 32} (h : Consistent src c)
    (hproper : Proper src c (.create filesys create malloc id))
    (hstep : inodeCreate src c filesys create malloc id = some c') : Consistent src c' := by
  obtain ⟨-, rfl⟩ | ⟨f, i, stat, n, new, rfl, rfl, hi, hnew, hfind, rfl⟩ := inodeCreate_cases hstep
  · exact h
  · have hsrc : ∀ g, src g ≠ i := by
      obtain ⟨_, _, _, h⟩ := h
      intro g heq
      simp [← heq, h.tables.sources g] at hi
    have hid := (hproper f i stat n rfl rfl).2
    obtain ⟨chains, rchains, ring, h⟩ : Consistent src (addEntry src c f n i stat new) :=
      h.addEntry hi hnew hfind
    refine ⟨chains, rchains, ring, h.tables.rename hsrc ?_,
      ⟨h.queued.links, h.queued.used, h.queued.off⟩,
      Counted.setInode (fun y j hy hj _ => h.counted y j hy hj) fun y hy hj =>
        h.counted y i hy hj⟩
    simpa [addEntry] using hid

/-- In the middle of `inode_close`: the entry of the inode is not on the ring, whatever the count of
the inode is. -/
structure Released (src : φ → ι) (c : Cache φ ι ε) (i : ι) (chains rchains : ℕ → List (Option ε))
    (ring : List ε) : Prop where
  tables : Tables src c chains rchains
  queued : Queued c ring
  others : ∀ y j, c.used y = true → (c.entries y).inode = some j → j ≠ i →
    (y ∈ ring ↔ (c.inodes j).refCount = 0)
  off : ∀ y, c.used y = true → (c.entries y).inode = some i → y ∉ ring

omit [DecidableEq φ] [Fintype ε] in
theorem Released.consistent (h : Released src c i chains rchains ring)
    (hcount : ∀ y, c.used y = true → (c.entries y).inode = some i → (c.inodes i).refCount ≠ 0) :
    Consistent src c := by
  refine ⟨chains, rchains, ring, h.tables, h.queued, fun y j hy hj => ?_⟩
  by_cases hji : j = i
  · subst hji
    exact iff_of_false (h.off y hy hj) (hcount y hy hj)
  · exact h.others y j hy hj hji

omit [DecidableEq φ] [DecidableEq ι] [Fintype ε] in
theorem Released.enqueue_others {j : ι} {x y : ε} (h : Released src c i chains rchains ring)
    (hx : c.used x = true) (hi : (c.entries x).inode = some i) (hy : c.used y = true)
    (hj : (c.entries y).inode = some j) (hyx : y ≠ x) :
    y ∈ x :: ring ↔ (c.inodes j).refCount = 0 := by
  have hji : j ≠ i := by
    rintro rfl
    exact hyx (h.tables.one_inode y x j hy hx hj hi)
  rw [List.mem_cons, or_iff_right hyx]
  exact h.others y j hy hj hji

section

omit [DecidableEq φ]

theorem inodeCacheFree_cases (hstep : inodeCacheFree c i = some c') :
    (∃ x, revFind c c.revTable i = some (some x) ∧ c' = enqueue c x) ∨
      (revFind c c.revTable i = some none ∧ c' = c) := by
  unfold inodeCacheFree at hstep
  split at hstep
  · cases hstep
  · obtain ⟨p, hfind, rfl⟩ := Option.map_eq_some_iff.mp hstep
    cases p with
    | some x => exact .inl ⟨x, hfind, rfl⟩
    | none => exact .inr ⟨hfind, rfl⟩

theorem inodeCacheDelete_cases (hstep : inodeCacheDelete c i = some c') :
    (∃ x, revFind c c.cacheTable i = some (some x) ∧ c' = enqueue { c with
      entries := Function.update c.entries x { c.entries x with inode := none } } x) ∨
      (revFind c c.cacheTable i = some none ∧ c' = c) := by
  unfold inodeCacheDelete at hstep
  split at hstep
  · cases hstep
  · obtain ⟨p, hfind, rfl⟩ := Option.map_eq_some_iff.mp hstep
    cases p with
    | some x => exact .inl ⟨x, hfind, rfl⟩
    | none => exact .inr ⟨hfind, rfl⟩

/-- The count is lowered; with the last reference the entry is deleted or put on the ring. -/
theorem inodeClose_cases (hstep : inodeClose c i = some c') : ∃ c₁,
    (c.setInode i fun nd => { nd with refCount := nd.refCount - 1, locked := true }) = c₁ ∧
    (((c₁.inodes i).refCount = 0 ∧ (c₁.inodes i).hardRefCount = 0 ∧
        inodeCacheDelete c₁ i = some c') ∨
      ((c₁.inodes i).refCount = 0 ∧ (c₁.inodes i).hardRefCount ≠ 0 ∧ ∃ c₂,
        inodeCacheFree c₁ i = some c₂ ∧
        c' = c₂.setInode i fun nd => { nd with locked := false }) ∨
      ((c₁.inodes i).refCount ≠ 0 ∧ c' = c₁)) := by
  unfold inodeClose at hstep
  split at hstep
  · cases hstep
  · refine ⟨_, rfl, ?_⟩
    simp only at hstep
    split at hstep
    · rename_i hzero
      split at hstep
      · rename_i hhard
        exact .inl ⟨hzero, hhard, hstep⟩
      · rename_i hhard
        obtain ⟨c₂, hfree, rfl⟩ := Option.map_eq_some_iff.mp hstep
        exact .inr (.inl ⟨hzero, hhard, c₂, hfree, rfl⟩)
    · rename_i hcount
      cases hstep
      exact .inr (.inr ⟨hcount, rfl⟩)

theorem Released.free (h : Released src c i chains rchains ring) (hzero : (c.inodes i).refCount = 0)
    (hstep : inodeCacheFree c i = some c') : Consistent src c' := by
  obtain ⟨x, hfind, rfl⟩ | ⟨hfind, rfl⟩ := inodeCacheFree_cases hstep
  · obtain ⟨hx, hi⟩ := h.tables.revFind_within h.tables.revTable_used hfind
    refine ⟨chains, rchains, x :: ring, h.tables.queue_add x, h.queued.add hx (h.off x hx hi), ?_⟩
    intro y j hy hj
    rw [enqueue_inode] at hj
    by_cases hyx : y = x
    · subst hyx
      have hji : j = i := Option.some_inj.mp (hj.symm.trans hi)
      subst hji
      exact iff_of_true (by simp) hzero
    · exact h.enqueue_others hx hi hy hj hyx
  · refine h.consistent fun y hy hj => ?_
    rw [h.tables.revFind_entry hy hj] at hfind
    cases hfind

theorem Released.delete (h : Released src c i chains rchains ring)
    (hfound : (∃ x, c.used x = true ∧ (c.entries x).inode = some i) →
      ∃ x, revFind c c.cacheTable i = some (some x))
    (hstep : inodeCacheDelete c i = some c') : Consistent src c' := by
  obtain ⟨x, hfind, rfl⟩ | ⟨hfind, rfl⟩ := inodeCacheDelete_cases hstep
  · obtain ⟨hx, hi⟩ := h.tables.revFind_within h.tables.cacheTable_used hfind
    have hqueued : Queued { c with
        entries := Function.update c.entries x { c.entries x with inode := none } } ring := by
      refine h.queued.congr fun y => ?_
      by_cases hyx : y = x
      · subst hyx
        simp
      · simp [hyx]
    refine ⟨chains, rchains, x :: ring, (h.tables.forget x).queue_add x,
      hqueued.add hx (h.off x hx hi), ?_⟩
    intro y j hy hj
    rw [enqueue_inode] at hj
    by_cases hyx : y = x
    · subst hyx
      simp at hj
    · simp only [Function.update_of_ne hyx] at hj
      exact h.enqueue_others hx hi hy hj hyx
  · refine h.consistent fun y hy hj => ?_
    obtain ⟨x, hx⟩ := hfound ⟨y, hy, hj⟩
    rw [hfind] at hx
    cases hx

theorem revFind_setInode (c : Cache φ ι ε) (table : ℕ → Option ε) {g : Inode → Inode}
    (hid : ∀ nd, (g nd).id = nd.id) (i : ι) : revFind (c.setInode i g) table i = revFind c table i := by
  have hindex : revIndex (c.setInode i g).inodes (some i) = revIndex c.inodes (some i) := by
    simp [revIndex, Cache.setInode, hid]
  unfold revFind hashTableLookup
  rw [hindex]
  rfl

end

omit [Fintype ε] [DecidableEq φ] in
theorem Consistent.setInode (h : Consistent src c) {g : Inode → Inode}
    (hid : ∀ nd, (g nd).id = nd.id) (hcount : ∀ nd, (g nd).refCount = nd.refCount) :
    Consistent src (c.setInode i g) := by
  obtain ⟨chains, rchains, ring, h⟩ := h
  refine ⟨chains, rchains, ring, h.tables.setInode hid,
    ⟨h.queued.links, h.queued.used, h.queued.off⟩,
    Counted.setInode (fun y j hy hj _ => h.counted y j hy hj) fun y hy hj => ?_⟩
  rw [hcount]
  exact h.counted y i hy hj

theorem close_preserves (h : Consistent src c) (hproper : Proper src c (.close i))
    (hstep : inodeClose c i = some c') : Consistent src c' := by
  obtain ⟨chains, rchains, ring, h⟩ := h
  obtain ⟨c₁, hc₁, hend⟩ := inodeClose_cases hstep
  generalize hg : (fun nd : Inode => { nd with refCount := nd.refCount - 1, locked := true }) = g
    at hc₁
  have hid : ∀ nd, (g nd).id = nd.id := fun nd => by rw [← hg]
  have hhere : (c.setInode i g).inodes i =
      { c.inodes i with refCount := (c.inodes i).refCount - 1, locked := true } := by
    simp [Cache.setInode, ← hg]
  have hreleased : Released src (c.setInode i g) i chains rchains ring := by
    refine ⟨h.tables.setInode hid, ⟨h.queued.links, h.queued.used, h.queued.off⟩, ?_, ?_⟩
    · intro y j hy hj hji
      simpa [Cache.setInode, hji] using h.counted y j hy hj
    · intro y hy hj hmem
      exact (hproper ⟨y, hy, hj⟩).1 ((h.counted y i hy hj).mp hmem)
  subst hc₁
  obtain ⟨hzero, hhard, hdelete⟩ | ⟨hzero, -, c₂, hfree, rfl⟩ | ⟨hcount, rfl⟩ := hend
  · refine hreleased.delete (fun hlive => ?_) hdelete
    rw [hhere] at hzero hhard
    have hone : (c.inodes i).refCount = 1 := by
      have hsub : (c.inodes i).refCount - 1 = 0 := hzero
      bv_omega
    obtain ⟨x, hx⟩ := (hproper hlive).2 hone hhard
    exact ⟨x, (revFind_setInode c c.cacheTable hid i).trans hx⟩
  · exact (hreleased.free hzero hfree).setInode (fun _ => rfl) fun _ => rfl
  · exact hreleased.consistent fun _ _ _ => hcount

theorem step_preserves_consistent {e : Call φ ι ε} (h : Consistent src c) (hproper : Proper src c e)
    (hstep : step src c e = some c') : Consistent src c' := by
  cases e with
  | create filesys create malloc id => exact create_preserves h hproper hstep
  | lookup f n read malloc =>
    obtain ⟨⟨c₁, r⟩, hlookup, rfl⟩ := Option.map_eq_some_iff.mp hstep
    exact lookup_preserves h hproper hlookup
  | close i =>
    simp only [step] at hstep
    split at hstep
    · exact close_preserves h hproper hstep
    · cases hstep

omit [DecidableEq φ] [DecidableEq ι] [Fintype ε] in
theorem consistent_start (entries : ε → Entry φ ι ε) (inodes : ι → Inode) (owned : ι → Bool)
    (hsrc : ∀ f, owned (src f) = true) : Consistent src (start entries inodes owned) := by
  have hnone : ∀ x : ε, (start entries inodes owned).used x ≠ true := fun x => by simp [start]
  refine ⟨fun _ => [], fun _ => [], [], ?_, ⟨⟨rfl, ring_nil _⟩, by simp, ?_⟩, ?_⟩
  · exact ⟨HashTable.empty entries, ⟨fun _ => rfl, by simp, by simp⟩, by simp, by simp,
      fun x hx => absurd hx (hnone x), fun x i hx => absurd hx (hnone x),
      fun x y hx => absurd hx (hnone x), fun x y i hx => absurd hx (hnone x),
      fun x i hx => absurd hx (hnone x), hsrc⟩
  · exact fun x hx => absurd hx (hnone x)
  · exact fun x i hx => absurd hx (hnone x)

/-- In every run whose calls are proper, every entry that is not deleted is found in both tables and
is on the ring exactly when its inode is not referred to. -/
theorem inode_cache_coherent {entries : ε → Entry φ ι ε} {inodes : ι → Inode} {owned : ι → Bool}
    (hsrc : ∀ f, owned (src f) = true)
    (hrun : Execution (step src) (Proper src) (start entries inodes owned) c) : Coherent src c := by
  have hconsistent : Consistent src c :=
    hrun.preserves (fun _ _ _ h hproper hstep => step_preserves_consistent h hproper hstep)
      (consistent_start entries inodes owned hsrc)
  exact hconsistent.coherent

end Calls

instance (c : Cache φ ι ε) : ∀ e : Call φ ι ε, Decidable (Proper src c e)
  | .create filesys create malloc id =>
    decidable_of_iff (∀ f ∈ filesys, ∀ x ∈ create,
      newEntry malloc ≠ none ∧ id.toNat % 32767 = x.2.1.id.toNat % 32767)
      ⟨fun h f i stat n hf hx => h f hf (i, stat, n) hx, fun h f hf x => h f x.1 x.2.1 x.2.2 hf⟩
  | .lookup f n read malloc =>
    decidable_of_iff ((cacheFind src c f n = some none → read ≠ none → newEntry malloc ≠ none) ∧
      ∀ x, cacheFind src c f n = some (some x) → ∀ i ∈ (c.entries x).inode,
        (c.inodes i).refCount + 1 ≠ 0)
      (and_congr_right fun _ => ⟨fun h x i hx hi => h x hx i hi, fun h x hx i hi => h x i hx hi⟩)
  | .close i =>
    inferInstanceAs (Decidable ((∃ x, c.used x = true ∧ (c.entries x).inode = some i) →
      (c.inodes i).refCount ≠ 0 ∧ ((c.inodes i).refCount = 1 → (c.inodes i).hardRefCount = 0 →
        ∃ x, revFind c c.cacheTable i = some (some x))))

def oneFileSystem : Cache Unit (Fin 3) (Fin 2) :=
  start (fun _ => ⟨none, none, none, none, (), 0, none⟩) (fun _ => ⟨3, 1, 1, false⟩) (· = 0)

/-- A file is created, closed and opened again. The new identifier is of the bucket of the old
one. -/
theorem inode_cache_coherent_reopened : ∃ c,
    Execution (step fun _ => 0) (Proper fun _ => 0) oneFileSystem c ∧
      (c.used 0 = true ∧ (c.entries 0).inode = some 1 ∧ (c.inodes 1).id = 32774 ∧
        (c.inodes 1).refCount = 1) ∧ Coherent (fun _ => 0) c := by
  have hfollow : (follow (step fun _ => 0) (Proper fun _ => 0) oneFileSystem
      [.create (some ()) (some (1, ⟨7, 0, 1, false⟩, 5)) (some (0, 32)) 32774, .close 1,
        .lookup () 5 none none]).map (fun c => decide (c.used 0 = true ∧
          (c.entries 0).inode = some 1 ∧ (c.inodes 1).id = 32774 ∧ (c.inodes 1).refCount = 1)) =
      some true := by decide +kernel
  obtain ⟨c, hc, hstate⟩ := Option.map_eq_some_iff.mp hfollow
  have hrun := execution_of_follow hc
  exact ⟨c, hrun, of_decide_eq_true hstate, inode_cache_coherent (fun _ => rfl) hrun⟩

/-- The heap has no block for an entry, and without one there is no inode. With a block the identifier
of a new inode puts it in another bucket than the one that its entry is in. -/
theorem created_inode_lost :
    (∀ h F h' q, KernelHeap.HeapRep h F → KernelHeap.malloc h 4 = some (h', q) → q = 0) ∧
    (∀ id, step (fun _ => 0) oneFileSystem
      (.create (some ()) (some (1, ⟨0, 0, 1, false⟩, 5)) none id) = none) ∧
    ∃ c, Execution (step fun _ => 0) (fun _ _ => True) oneFileSystem c ∧
      ¬ Coherent (fun _ => 0) c := by
  refine ⟨fun h F h' q hr => KernelHeap.malloc_small_null hr (by omega), fun _ => rfl, ?_⟩
  have hfollow : (follow (step fun _ => 0) (fun _ _ => True) oneFileSystem
      [.create (some ()) (some (1, ⟨0, 0, 1, false⟩, 5)) (some (0, 32)) 5]).map (fun c =>
        decide (c.used 0 = true ∧ (c.entries 0).inode = some 1 ∧
          revFind c c.revTable 1 = some none)) = some true := by decide +kernel
  obtain ⟨c, hc, hstate⟩ := Option.map_eq_some_iff.mp hfollow
  obtain ⟨hused, hinode, hlost⟩ := of_decide_eq_true hstate
  refine ⟨c, execution_of_follow hc, fun h => ?_⟩
  have hfound := h.reversed 0 1 hused hinode
  rw [hlost] at hfound
  cases hfound

end InodeCache
