import Metakernel.Identifiers
import Metakernel.InodeDeletion
import Metakernel.LockCalls

/-!
# The mutexes of inodes and file systems

The calls of inode.c, inode_cache.c and filesys.c with every `mutex_lock` and `mutex_unlock`. What a
file system and `malloc` return comes with the call, NULL included; they are taken to give back the
mutexes that they take. A null pointer that is followed ends a call, as does a chain that is not
finite.
-/
namespace IoLocks

open LinkedNodes DataStructures NodeTables LockCalls LockCalls.Call
open InodeCache (Cache Inode Entry)

variable {φ ι ε ν δ : Type} [DecidableEq φ] [DecidableEq ι] [DecidableEq ε] [DecidableEq ν]
  [Fintype φ] [Fintype ι] [Fintype ε] [Fintype ν]

/-- The statics of inode.c, inode_cache.c, filesys.c and util.c, and one mutex in each inode. -/
inductive Mutex (ι : Type) where
  | inodes
  | cache
  | mount
  | fstab
  | rand
  | inode (i : ι)
  deriving DecidableEq

structure Filesys (φ ι : Type) where
  hashNext : Option φ
  src : ι

structure FsNode (ν δ : Type) where
  hashNext : Option ν
  fs : Option δ

/-- `hashNext` and `hashTable` are those of inode.c; a name ends where its list does. -/
structure Io (φ ι ε ν δ : Type) where
  cache : Cache φ ι ε
  hashNext : ι → Option ι
  hashTable : ℕ → Option ι
  filesystems : φ → Filesys φ ι
  mountTable : ℕ → Option φ
  nodes : ν → FsNode ν δ
  fsTable : ℕ → Option ν
  name : δ → List (BitVec 16)
  randSeed : BitVec 32

section Tables

variable (s : Io φ ι ε ν δ)

def Io.src (f : φ) : ι := (s.filesystems f).src

def Io.setSrc (f : φ) (i : ι) : Io φ ι ε ν δ :=
  { s with
    filesystems := Function.update s.filesystems f { s.filesystems f with src := i } }

def inodeNext : NodeField (ι → Option ι) (Option ι) (Option ι) := tableField id fun _ v => v

def inodeId (p : Option ι) : BitVec 32 := p.elim 0 fun i => (s.cache.inodes i).id

def inodeIndex (id : BitVec 32) : ℕ := id.toNat % 131071

def inodeFind (id : BitVec 32) : Option (Option ι) :=
  hashTableLookup inodeNext none (fun _ => inodeId s) (fun a b => a = b) inodeIndex
    (Fintype.card (Option ι) + 1) s.hashNext s.hashTable id

def inodeInsert (i : ι) : Io φ ι ε ν δ :=
  let r := hashTableInsert inodeNext (fun _ => inodeId s) inodeIndex s.hashNext s.hashTable (some i)
  { s with hashNext := r.1, hashTable := r.2 }

def inodeDelete (id : BitVec 32) : Option (Io φ ι ε ν δ) :=
  (hashTableDelete inodeNext none (fun _ => inodeId s) (fun a b => a = b) inodeIndex
    (Fintype.card (Option ι) + 1) s.hashNext s.hashTable id).map fun r =>
      { s with hashNext := r.1, hashTable := r.2.1 }

def mountNext : NodeField (φ → Filesys φ ι) (Option φ) (Option φ) :=
  tableField Filesys.hashNext fun r v => { r with hashNext := v }

def mountId (m : φ → Filesys φ ι) (p : Option φ) : Option ι := p.map fun f => (m f).src

def mountIndex (p : Option ι) : ℕ := p.elim 0 fun i => (s.cache.inodes i).id.toNat % 511

def mountFind (i : ι) : Option (Option φ) :=
  hashTableLookup mountNext none mountId (fun a b => a = b) (mountIndex s)
    (Fintype.card (Option φ) + 1) s.filesystems s.mountTable (some i)

def mountInsert (f : φ) : Io φ ι ε ν δ :=
  let r := hashTableInsert mountNext mountId (mountIndex s) s.filesystems s.mountTable (some f)
  { s with filesystems := r.1, mountTable := r.2 }

def fsNext : NodeField (ν → FsNode ν δ) (Option ν) (Option ν) :=
  tableField FsNode.hashNext fun r v => { r with hashNext := v }

def fsName (m : ν → FsNode ν δ) (p : Option ν) : Option (List (BitVec 16)) :=
  (p.bind fun x => (m x).fs).map s.name

def strhash (name : List (BitVec 16)) : BitVec 32 :=
  name.foldl (fun out c => out + c.setWidth 32) 0

def fsIndex (name : Option (List (BitVec 16))) : ℕ := name.elim 0 fun a => (strhash a).toNat % 127

/-- The walk compares the name of every node that it meets, and follows a null pointer at a node
without a definition. -/
def fsFind (strcmp : List (BitVec 16) → List (BitVec 16) → BitVec 32) (name : List (BitVec 16)) :
    Option (Option ν) :=
  (hashTableLookup fsNext none (fsName s)
    (fun a b => a.elim true fun a => b.elim false fun b => strcmp a b = 0) fsIndex
    (Fintype.card (Option ν) + 1) s.nodes s.fsTable (some name)).filter
      fun p => p.all fun x => (s.nodes x).fs.isSome

end Tables

abbrev Locking (φ ι ε ν δ α : Type) : Type := Call (Mutex ι) (Io φ ι ε ν δ) α

def find {α : Type} (f : Io φ ι ε ν δ → Option α) : Locking φ ι ε ν δ α :=
  compute fun s => (f s).map fun a => (s, a)

def onCache (f : Cache φ ι ε → Cache φ ι ε) : Locking φ ι ε ν δ Unit :=
  write fun s => { s with cache := f s.cache }

def rand : Locking φ ι ε ν δ (BitVec 32) := do
  spinLock .rand
  write fun s => { s with randSeed := Identifiers.rand s.randSeed }
  let out ← read Io.randSeed
  spinUnlock .rand
  pure out

/-- The loop draws this often at most. -/
def getUniqueId : ℕ → Locking φ ι ε ν δ (BitVec 32)
  | 0 => halt
  | draws + 1 => do
    let id ← rand
    let found ← find fun s => inodeFind s id
    if found ≠ none ∧ 0 ≠ id then getUniqueId draws else pure id

def uniqueId (find : BitVec 32 → Option (Option ι)) : ℕ → BitVec 32 → Option (BitVec 32)
  | 0, _ => none
  | draws + 1, seed => (find (Identifiers.rand seed)).bind fun found =>
    if found ≠ none ∧ 0 ≠ Identifiers.rand seed then uniqueId find draws (Identifiers.rand seed)
    else some (Identifiers.rand seed)

/-- `read` is what `inode_read` of the file system returns. -/
def inodeCacheLookup (f : φ) (n : BitVec 64) (read : Option (ι × Inode)) (malloc : Option ε) :
    Locking φ ι ε ν δ (Option ι) := do
  spinLock .cache
  let entry ← find fun s => InodeCache.cacheFind s.src s.cache f n
  match entry with
  | some x => do
    let inode ← Call.read fun s => (s.cache.entries x).inode
    match inode with
    | some i => do
      onCache fun c => if (c.entries x).listNext ≠ none then InodeCache.unqueue c x else c
      spinLock (.inode i)
      onCache fun c => c.setInode i fun nd => { nd with refCount := nd.refCount + 1 }
      spinUnlock (.inode i)
      spinUnlock .cache
      pure (some i)
    | none => pure none
  | none =>
    match read with
    | some (i, stat) =>
      match malloc with
      | some new => do
        write fun s => { s with cache := InodeCache.addEntry s.src s.cache f n i stat new }
        spinUnlock .cache
        pure (some i)
      | none => halt
    | none => do
      spinUnlock .cache
      pure none

def onEntry (walk : Io φ ι ε ν δ → Option (Option ε)) (put : Cache φ ι ε → ε → Cache φ ι ε) :
    Locking φ ι ε ν δ Unit := do
  spinLock .cache
  let entry ← find walk
  match entry with
  | some x => do
    onCache fun c => put c x
    spinUnlock .cache
  | none => spinUnlock .cache

def inodeCacheFree (i : ι) : Locking φ ι ε ν δ Unit :=
  onEntry (fun s => InodeCache.revFind s.cache s.cache.revTable i) InodeCache.enqueue

/-- `create` is what `inode_create` of the file system returns. -/
def inodeCacheCreate (f : φ) (create : Option (ι × Inode × BitVec 64)) (malloc : Option ε) :
    Locking φ ι ε ν δ (Option ι) := do
  spinLock .cache
  match create with
  | some (i, stat, n) =>
    match malloc with
    | some new => do
      write fun s => { s with cache := InodeCache.addEntry s.src s.cache f n i stat new }
      spinUnlock .cache
      pure (some i)
    | none => halt
  | none => do
    spinUnlock .cache
    pure none

def inodeCacheDelete (i : ι) : Locking φ ι ε ν δ Unit :=
  onEntry (fun s => InodeCache.revFind s.cache s.cache.cacheTable i)
    fun c x => InodeCache.enqueue (InodeCache.forgotten c x) x

def filesysLookup (i : ι) : Locking φ ι ε ν δ (Option φ) := do
  spinLock .mount
  let filesys ← find fun s => mountFind s i
  spinUnlock .mount
  pure filesys

def inodeCreate (draws : ℕ) (statFilesys : BitVec 32) (create : φ → Option (ι × Inode × BitVec 64))
    (malloc : Option ε) : Locking φ ι ε ν δ (Option ι) := do
  spinLock .inodes
  let id ← getUniqueId draws
  let fsInode ← find fun s => inodeFind s statFilesys
  match fsInode with
  | some fsInode => do
    let filesys ← filesysLookup fsInode
    match filesys with
    | some f => do
      let out ← inodeCacheCreate f (create f) malloc
      match out with
      | some out => do
        onCache fun c => c.setInode out fun nd => { nd with id }
        write fun s => inodeInsert s out
        spinUnlock .inodes
        pure (some out)
      | none => halt
    | none => do
      spinUnlock .inodes
      pure none
  | none => do
    spinUnlock .inodes
    pure none

def unref (nd : Inode) : Inode := { nd with refCount := nd.refCount - 1 }

def inodeClose (i : ι) : Locking φ ι ε ν δ (BitVec 32) := do
  spinLock (.inode i)
  onCache fun c => c.setInode i unref
  let inode ← Call.read fun s => s.cache.inodes i
  if 0 = inode.refCount then do
    spinLock .inodes
    compute fun s => (inodeDelete s inode.id).map fun s => (s, ())
    spinUnlock .inodes
    if 0 = inode.hardRefCount then do
      inodeCacheDelete i
      pure 0
    else do
      inodeCacheFree i
      spinUnlock (.inode i)
      pure 0
  else pure 0

/-- `mount` is what the definition's `mount` returns. -/
def filesysMount (strcmp : List (BitVec 16) → List (BitVec 16) → BitVec 32) (mount : δ → Option φ)
    (fsname : List (BitVec 16)) (inode : ι) : Locking φ ι ε ν δ (Option φ) := do
  spinLock .fstab
  let node ← find fun s => fsFind s strcmp fsname
  match node with
  | some x => do
    let fsDef ← Call.read fun s => (s.nodes x).fs
    match fsDef with
    | some d => do
      spinUnlock .fstab
      match mount d with
      | some out => do
        write fun s => s.setSrc out inode
        spinLock .mount
        write fun s => mountInsert s out
        spinUnlock .mount
        pure (some out)
      | none => pure none
    | none => pure none
  | none => halt

section Parts

variable {held held₁ : Mutex ι → Bool} {s s₁ : Io φ ι ε ν δ} {α β : Type} {Good : α → Prop} {i : ι}
  {f : φ} {n : BitVec 64} {malloc : Option ε}

section

omit [DecidableEq φ] [DecidableEq ε] [DecidableEq ν] [Fintype φ] [Fintype ι] [Fintype ε] [Fintype ν]

theorem ends_find {g : Io φ ι ε ν δ → Option β} {b : β} (h : g s = some b) :
    Ends held (find g) s held b s := ends_compute (by simp [h])

theorem not_returns_find {g : Io φ ι ε ν δ → Option β} {k : β → Locking φ ι ε ν δ α}
    (h : g s = none) : ¬ Returns held (find g >>= k) s held₁ Good :=
  not_returns_bind (by rw [find, compute_halts (by simp [h])])

@[simp] theorem returns_onCache {g : Cache φ ι ε → Cache φ ι ε} {k : Unit → Locking φ ι ε ν δ α} :
    Returns held (onCache g >>= k) s held₁ Good ↔
      Returns held (k ()) { s with cache := g s.cache } held₁ Good := returns_write

end

def LookupFails (s : Io φ ι ε ν δ) (f : φ) (n : BitVec 64) (read : Option (ι × Inode)) : Prop :=
  (∃ x, InodeCache.cacheFind s.src s.cache f n = some (some x) ∧
    (s.cache.entries x).inode = none) ∨
  InodeCache.cacheFind s.src s.cache f n = some none ∧ read = none

/-- The number has an entry that is not deleted, or none, and memory for one if it is needed. -/
def LookupReturns (s : Io φ ι ε ν δ) (f : φ) (n : BitVec 64) (read : Option (ι × Inode))
    (malloc : Option ε) : Prop :=
  (∃ x, InodeCache.cacheFind s.src s.cache f n = some (some x) ∧
    (s.cache.entries x).inode ≠ none) ∨
  InodeCache.cacheFind s.src s.cache f n = some none ∧ (read ≠ none → malloc ≠ none)

omit [DecidableEq ν] [Fintype φ] [Fintype ι] [Fintype ν] in
theorem inodeCacheLookup_restores_iff {read : Option (ι × Inode)} (hc : held .cache = false)
    (hi : ∀ i, held (.inode i) = false) :
    Restores held (inodeCacheLookup f n read malloc) s
      (fun r => r = none ↔ LookupFails s f n read) ↔ LookupReturns s f n read malloc := by
  have hin : ∀ i, Function.update held .cache true (.inode i) = false := by simp [hi]
  unfold Restores inodeCacheLookup
  rw [returns_lock hc, LookupReturns]
  cases hfind : InodeCache.cacheFind s.src s.cache f n with
  | none => exact iff_of_false (not_returns_find hfind) (by simp)
  | some entry =>
    rw [(ends_find hfind).returns_iff]
    cases entry with
    | some x =>
      rw [returns_read]
      cases hinode : (s.cache.entries x).inode with
      | some i =>
        rw [returns_onCache, returns_lock (hin i), returns_onCache, returns_unlock (hin i),
          returns_unlock hc, returns_pure]
        simp [LookupFails, hfind, hinode]
      | none =>
        rw [returns_pure]
        simp [hinode, update_ne hc]
    | none =>
      cases read with
      | some r =>
        obtain ⟨i, stat⟩ := r
        cases malloc with
        | some new =>
          rw [returns_write, returns_unlock hc, returns_pure]
          simp [LookupFails, hfind]
        | none => simp
      | none =>
        rw [returns_unlock hc, returns_pure]
        simp [LookupFails, hfind]

omit [DecidableEq φ] [DecidableEq ε] [DecidableEq ν] [Fintype φ] [Fintype ι] [Fintype ε] [Fintype ν] in
theorem rand_ends (hr : held .rand = false) : Ends held rand s held (Identifiers.rand s.randSeed)
    { s with randSeed := Identifiers.rand s.randSeed } := by
  refine (ends_lock hr).bind ?_
  refine (ends_write _).bind ?_
  refine (ends_read Io.randSeed).bind ?_
  exact (ends_unlock hr).bind ends_pure

omit [DecidableEq φ] [DecidableEq ε] [DecidableEq ν] [Fintype φ] [Fintype ε] [Fintype ν] in
/-- The induction is on the draws; every one of them is a section of its own. -/
theorem getUniqueId_cases (hr : held .rand = false) (draws : ℕ) (s : Io φ ι ε ν δ) :
    (∃ id, uniqueId (inodeFind s) draws s.randSeed = some id ∧
      Ends held (getUniqueId draws) s held id { s with randSeed := id }) ∨
    uniqueId (inodeFind s) draws s.randSeed = none ∧ (getUniqueId draws s).result = none := by
  induction draws generalizing s with
  | zero => exact Or.inr ⟨rfl, rfl⟩
  | succ draws ih =>
    let id := Identifiers.rand s.randSeed
    have hrand : Ends held rand s held id { s with randSeed := id } := rand_ends hr
    have hmore := ih { s with randSeed := id }
    rw [uniqueId, getUniqueId]
    cases hfind : inodeFind s id with
    | none =>
      refine Or.inr ⟨rfl, ?_⟩
      have hlookup : ((find fun s => inodeFind s id : Locking φ ι ε ν δ _)
          { s with randSeed := id }).result = none := by
        rw [find, compute_halts]
        exact congrArg (Option.map _) hfind
      rw [bind_result hrand.2.1, hrand.2.2, bind_halts hlookup]
    | some found =>
      have hlookup : Ends held (find fun s => inodeFind s id : Locking φ ι ε ν δ _)
          { s with randSeed := id } held found { s with randSeed := id } := ends_find hfind
      by_cases hgo : found ≠ none ∧ 0 ≠ id
      · rw [Option.bind_some, if_pos hgo]
        rcases hmore with ⟨last, hlast, hends⟩ | ⟨hlast, hhalts⟩
        · refine Or.inl ⟨last, hlast, hrand.bind (hlookup.bind ?_)⟩
          rw [if_pos hgo]
          exact hends
        · refine Or.inr ⟨hlast, ?_⟩
          rw [bind_result hrand.2.1, hrand.2.2, bind_result hlookup.2.1, hlookup.2.2, if_pos hgo]
          exact hhalts
      · refine Or.inl ⟨id, ?_, hrand.bind (hlookup.bind ?_)⟩
        · rw [Option.bind_some, if_neg hgo]
        · rw [if_neg hgo]
          exact ends_pure

omit [DecidableEq ε] [DecidableEq ν] [Fintype ι] [Fintype ε] [Fintype ν] in
theorem filesysLookup_ends {p : Option φ} (hm : held .mount = false) (h : mountFind s i = some p) :
    Ends held (filesysLookup i) s held p s := by
  refine (ends_lock hm).bind ?_
  refine (ends_find h).bind ?_
  exact (ends_unlock hm).bind ends_pure

omit [DecidableEq ε] [DecidableEq ν] [Fintype ι] [Fintype ε] [Fintype ν] in
theorem filesysLookup_halts (h : mountFind s i = none) :
    ((filesysLookup i : Locking φ ι ε ν δ _) s).result = none := by
  have hfind : ((find fun s => mountFind s i : Locking φ ι ε ν δ _) s).result = none := by
    rw [find, compute_halts (by simp [h])]
  have hlock : ((spinLock Mutex.mount : Locking φ ι ε ν δ Unit) s).result = some () := rfl
  rw [filesysLookup, bind_result hlock]
  exact congrArg Outcome.result (bind_halts hfind)

omit [DecidableEq φ] [DecidableEq ν] [Fintype φ] [Fintype ι] [Fintype ε] [Fintype ν] in
theorem inodeCacheCreate_ends {stat : Inode} {new : ε} (hc : held .cache = false) :
    Ends held (inodeCacheCreate f (some (i, stat, n)) (some new)) s held (some i)
      { s with cache := InodeCache.addEntry s.src s.cache f n i stat new } := by
  refine (ends_lock hc).bind ?_
  refine (ends_write _).bind ?_
  exact (ends_unlock hc).bind ends_pure

omit [DecidableEq φ] [DecidableEq ν] [Fintype φ] [Fintype ι] [Fintype ε] [Fintype ν] in
theorem inodeCacheCreate_null (hc : held .cache = false) :
    Ends held (inodeCacheCreate f none malloc) s held none s :=
  (ends_lock hc).bind ((ends_unlock hc).bind ends_pure)

omit [DecidableEq φ] [DecidableEq ε] [DecidableEq ν] [Fintype φ] [Fintype ι] [Fintype ε] [Fintype ν] in
/-- The section ends with the walk, whether the walk finds an entry or none. -/
theorem onEntry_cases (walk : Io φ ι ε ν δ → Option (Option ε))
    (put : Cache φ ι ε → ε → Cache φ ι ε) (hc : held .cache = false) :
    (∃ entry s₁, walk s = some entry ∧ Ends held (onEntry walk put) s held () s₁) ∨
      walk s = none ∧ (onEntry walk put s).result = none := by
  cases hfind : walk s with
  | none =>
    have hlookup : ((find walk : Locking φ ι ε ν δ _) s).result = none := by
      rw [find, compute_halts (by simp [hfind])]
    have hlock : ((spinLock Mutex.cache : Locking φ ι ε ν δ Unit) s).result = some () := rfl
    refine Or.inr ⟨rfl, ?_⟩
    rw [onEntry, bind_result hlock]
    exact congrArg Outcome.result (bind_halts hlookup)
  | some entry =>
    cases entry with
    | some x =>
      refine Or.inl ⟨some x, { s with cache := put s.cache x }, rfl, ?_⟩
      refine (ends_lock hc).bind ((ends_find hfind).bind ?_)
      exact (ends_write _).bind (ends_unlock hc)
    | none =>
      refine Or.inl ⟨none, s, rfl, ?_⟩
      exact (ends_lock hc).bind ((ends_find hfind).bind (ends_unlock hc))

/-- Nothing is mounted for the inode, or the file system creates none. -/
def CreateFails (s : Io φ ι ε ν δ) (statFilesys : BitVec 32)
    (create : φ → Option (ι × Inode × BitVec 64)) : Prop :=
  inodeFind s statFilesys = some none ∨ ∃ i, inodeFind s statFilesys = some (some i) ∧
    (mountFind s i = some none ∨ ∃ f, mountFind s i = some (some f) ∧ create f = none)

def CreateReturns (s : Io φ ι ε ν δ) (statFilesys : BitVec 32)
    (create : φ → Option (ι × Inode × BitVec 64)) (malloc : Option ε) : Prop :=
  (∃ draws id, uniqueId (inodeFind s) draws s.randSeed = some id) ∧
    (inodeFind s statFilesys = some none ∨ ∃ i, inodeFind s statFilesys = some (some i) ∧
      (mountFind s i = some none ∨
        ∃ f, mountFind s i = some (some f) ∧ create f ≠ none ∧ malloc ≠ none))

omit [DecidableEq ν] [Fintype ε] [Fintype ν] in
theorem inodeCreate_restores_iff {draws : ℕ} {statFilesys : BitVec 32}
    {create : φ → Option (ι × Inode × BitVec 64)} (ht : held .inodes = false)
    (hr : held .rand = false) (hm : held .mount = false) (hc : held .cache = false) :
    Restores held (inodeCreate draws statFilesys create malloc) s
        (fun r => r = none ↔ CreateFails s statFilesys create) ↔
      (∃ id, uniqueId (inodeFind s) draws s.randSeed = some id) ∧
        (inodeFind s statFilesys = some none ∨ ∃ i, inodeFind s statFilesys = some (some i) ∧
          (mountFind s i = some none ∨
            ∃ f, mountFind s i = some (some f) ∧ create f ≠ none ∧ malloc ≠ none)) := by
  have hin : ∀ {m : Mutex ι}, m ≠ .inodes → held m = false →
      Function.update held .inodes true m = false := fun hne hm => by
    rw [Function.update_of_ne hne, hm]
  unfold Restores inodeCreate
  rw [returns_lock ht]
  rcases getUniqueId_cases (hin (by simp) hr) draws s with ⟨id, hid, hends⟩ | ⟨hid, hhalts⟩
  · rw [hends.returns_iff, hid]
    generalize hs₁ : { s with randSeed := id } = s₁
    have hsame : inodeFind s statFilesys = inodeFind s₁ statFilesys ∧
        ∀ i, mountFind s i = mountFind s₁ i := by
      subst hs₁
      exact ⟨rfl, fun _ => rfl⟩
    cases hfind : inodeFind s statFilesys with
    | none => exact iff_of_false (not_returns_find (hsame.1 ▸ hfind)) (by simp)
    | some fsInode =>
      rw [(ends_find (hsame.1 ▸ hfind)).returns_iff]
      cases fsInode with
      | none =>
        rw [returns_unlock ht, returns_pure]
        simp [CreateFails, hfind]
      | some i =>
        cases hmount : mountFind s i with
        | none =>
          refine iff_of_false (not_returns_bind (filesysLookup_halts ?_)) (by simp [hmount])
          rw [← hsame.2, hmount]
        | some filesys =>
          rw [(filesysLookup_ends (hin (by simp) hm) (hsame.2 i ▸ hmount)).returns_iff]
          cases filesys with
          | none =>
            rw [returns_unlock ht, returns_pure]
            simp [CreateFails, hfind, hmount]
          | some f =>
            dsimp only
            cases hcreate : create f with
            | none =>
              rw [(inodeCacheCreate_null (hin (by simp) hc)).returns_iff]
              simp [hmount, hcreate]
            | some new =>
              obtain ⟨j, stat, n⟩ := new
              cases malloc with
              | none => exact iff_of_false (not_returns_bind rfl) (by simp [hmount])
              | some x =>
                rw [(inodeCacheCreate_ends (hin (by simp) hc)).returns_iff]
                simp only [returns_onCache, returns_write]
                rw [returns_unlock ht, returns_pure]
                simp [CreateFails, hfind, hmount, hcreate]
  · refine iff_of_false (not_returns_bind hhalts) ?_
    simp [hid]

def CloseFails (s : Io φ ι ε ν δ) (i : ι) : Prop :=
  (s.cache.inodes i).refCount = 1 ∧
    ∀ x, InodeCache.revFind s.cache s.cache.revTable i ≠ some (some x)

def CloseReturns (s : Io φ ι ε ν δ) (i : ι) : Prop :=
  (s.cache.inodes i).refCount = 1 ∧ (s.cache.inodes i).hardRefCount ≠ 0 ∧
    inodeDelete s (s.cache.inodes i).id ≠ none ∧
    ∃ x, InodeCache.revFind s.cache s.cache.revTable i = some (some x)

omit [DecidableEq φ] [DecidableEq ε] [DecidableEq ν] [Fintype φ] [Fintype ε] [Fintype ν] in
theorem inodeDelete_unref (s : Io φ ι ε ν δ) (i : ι) (id : BitVec 32) :
    inodeDelete { s with cache := s.cache.setInode i unref } id =
      (inodeDelete s id).map fun s₁ => { s₁ with cache := s.cache.setInode i unref } := by
  have hsame : inodeId { s with cache := s.cache.setInode i unref } = inodeId s := by
    funext p
    cases p with
    | none => rfl
    | some j =>
      by_cases hj : j = i
      · subst hj
        simp [inodeId, Cache.setInode, unref]
      · simp [inodeId, Cache.setInode, hj]
  rw [inodeDelete, inodeDelete, hsame, Option.map_map]
  rfl

omit [DecidableEq φ] [DecidableEq ν] [Fintype φ] [Fintype ν] in
theorem inodeClose_restores_iff (hi : held (.inode i) = false) (ht : held .inodes = false)
    (hc : held .cache = false) :
    Restores held (inodeClose i) s (fun r => r ≠ 0 ↔ CloseFails s i) ↔ CloseReturns s i := by
  have hin : ∀ {m : Mutex ι}, m ≠ .inode i → held m = false →
      Function.update held (.inode i) true m = false := fun hne hm => by
    rw [Function.update_of_ne hne, hm]
  have hcount : (s.cache.setInode i unref).inodes i = unref (s.cache.inodes i) :=
    Function.update_self i _ _
  unfold Restores inodeClose CloseReturns
  rw [returns_lock hi, returns_onCache, returns_read]
  dsimp only
  rw [hcount]
  by_cases hlast : (s.cache.inodes i).refCount = 1
  · have hzero : 0 = (unref (s.cache.inodes i)).refCount := by simp [unref, hlast]
    rw [if_pos hzero, returns_lock (hin (by simp) ht)]
    have hdelete := inodeDelete_unref s i (s.cache.inodes i).id
    cases hfound : inodeDelete s (s.cache.inodes i).id with
    | none =>
      rw [hfound, Option.map_none] at hdelete
      refine iff_of_false (not_returns_bind ?_) (by simp)
      rw [compute_halts]
      exact congrArg (Option.map fun s => (s, ())) hdelete
    | some s₁ =>
      rw [hfound, Option.map_some] at hdelete
      have hsection : Ends (Function.update (Function.update held (.inode i) true) .inodes true)
          (compute fun u => (inodeDelete u (unref (s.cache.inodes i)).id).map fun u => (u, ()))
          { s with cache := s.cache.setInode i unref }
          (Function.update (Function.update held (.inode i) true) .inodes true) ()
          { s₁ with cache := s.cache.setInode i unref } :=
        ends_compute (congrArg (Option.map fun u => (u, ())) hdelete)
      have hrev : InodeCache.revFind (s.cache.setInode i unref) s.cache.revTable i =
          InodeCache.revFind s.cache s.cache.revTable i :=
        InodeCache.revFind_setInode (g := unref) s.cache _ (fun _ => rfl) i
      rw [hsection.returns_iff, returns_unlock (hin (by simp) ht), ← hrev]
      generalize hs₂ : { s₁ with cache := s.cache.setInode i unref } = s₂
      have hwalk : InodeCache.revFind s₂.cache s₂.cache.revTable i =
          InodeCache.revFind (s.cache.setInode i unref) s.cache.revTable i := by
        subst hs₂
        rfl
      by_cases hhard : 0 = (unref (s.cache.inodes i)).hardRefCount
      · -- the mutex of the inode stays locked
        refine iff_of_false ?_ fun hreturns => hreturns.2.1 hhard.symm
        rw [if_pos hhard, inodeCacheDelete]
        rcases onEntry_cases (s := s₂) (fun s => InodeCache.revFind s.cache s.cache.cacheTable i)
          (fun c x => InodeCache.enqueue (InodeCache.forgotten c x) x) (hin (by simp) hc) with
          ⟨-, s₃, -, hends⟩ | ⟨-, hhalts⟩
        · rw [hends.returns_iff, returns_pure]
          exact fun hsame => update_ne hi hsame.1
        · exact not_returns_bind hhalts
      · rw [if_neg hhard, inodeCacheFree]
        rcases onEntry_cases (s := s₂) (fun s => InodeCache.revFind s.cache s.cache.revTable i)
          InodeCache.enqueue (hin (by simp) hc) with ⟨entry, s₃, hentry, hends⟩ | ⟨hentry, hhalts⟩
        · rw [hwalk] at hentry
          rw [hends.returns_iff, returns_unlock hi, returns_pure, CloseFails, ← hrev, hentry]
          cases entry with
          | some x =>
            have hlinked : (s.cache.inodes i).hardRefCount ≠ 0 := Ne.symm hhard
            simpa [hlast] using hlinked
          | none => simp [hlast]
        · rw [hwalk] at hentry
          exact iff_of_false (not_returns_bind hhalts) (by simp [hentry])
  · have hmore : ¬ 0 = (unref (s.cache.inodes i)).refCount := by
      intro hzero
      refine hlast ?_
      simp only [unref] at hzero
      bv_omega
    rw [if_neg hmore, returns_pure]
    exact iff_of_false (fun hsame => update_ne hi hsame.1) fun hreturns => hlast hreturns.1

def Registered (s : Io φ ι ε ν δ) (strcmp : List (BitVec 16) → List (BitVec 16) → BitVec 32)
    (fsname : List (BitVec 16)) (d : δ) : Prop :=
  ∃ x, fsFind s strcmp fsname = some (some x) ∧ (s.nodes x).fs = some d

omit [DecidableEq ε] [Fintype φ] [Fintype ι] [Fintype ε] in
theorem filesysMount_restores_iff {strcmp : List (BitVec 16) → List (BitVec 16) → BitVec 32}
    {mount : δ → Option φ} {fsname : List (BitVec 16)} (hf : held .fstab = false)
    (hm : held .mount = false) :
    Restores held (filesysMount strcmp mount fsname i) s
        (fun r => r = none ↔ ¬ ∃ d, Registered s strcmp fsname d ∧ mount d ≠ none) ↔
      ∃ d, Registered s strcmp fsname d := by
  unfold Restores filesysMount Registered
  rw [returns_lock hf]
  cases hfind : fsFind s strcmp fsname with
  | none => exact iff_of_false (not_returns_find hfind) (by simp)
  | some node =>
    rw [(ends_find hfind).returns_iff]
    cases node with
    | none => simp
    | some x =>
      rw [returns_read]
      cases hdef : (s.nodes x).fs with
      | none =>
        rw [returns_pure]
        simp [hdef, update_ne hf]
      | some d =>
        rw [returns_unlock hf]
        cases hmount : mount d with
        | none =>
          rw [returns_pure]
          simp [hdef, hmount]
        | some out =>
          rw [returns_write, returns_lock hm, returns_write, returns_unlock hm, returns_pure]
          simp [hdef, hmount]

/-- Each of the four calls gives back the mutexes that it takes, and tells its caller of a failure,
exactly on the paths that its condition describes. -/
theorem io_calls_restore_iff (held : Mutex ι → Bool) (s : Io φ ι ε ν δ) :
    (∀ statFilesys create malloc, held .inodes = false → held .rand = false →
      held .mount = false → held .cache = false →
        ((∃ draws, Restores held (inodeCreate draws statFilesys create malloc) s
          fun r => r = none ↔ CreateFails s statFilesys create) ↔
            CreateReturns s statFilesys create malloc)) ∧
    (∀ i, held (.inode i) = false → held .inodes = false → held .cache = false →
      (Restores held (inodeClose i) s (fun r => r ≠ 0 ↔ CloseFails s i) ↔ CloseReturns s i)) ∧
    (∀ f n read malloc, held .cache = false → (∀ i, held (.inode i) = false) →
      (Restores held (inodeCacheLookup f n read malloc) s
        (fun r => r = none ↔ LookupFails s f n read) ↔ LookupReturns s f n read malloc)) ∧
    ∀ strcmp mount fsname i, held .fstab = false → held .mount = false →
      (Restores held (filesysMount strcmp mount fsname i) s
        (fun r => r = none ↔ ¬ ∃ d, Registered s strcmp fsname d ∧ mount d ≠ none) ↔
          ∃ d, Registered s strcmp fsname d) := by
  refine ⟨fun statFilesys create malloc ht hr hm hc => ?_,
    fun i hi ht hc => inodeClose_restores_iff hi ht hc,
    fun f n read malloc hc hi => inodeCacheLookup_restores_iff hc hi,
    fun strcmp mount fsname i hf hm => filesysMount_restores_iff hf hm⟩
  simp only [inodeCreate_restores_iff ht hr hm hc, CreateReturns, exists_and_right]

end Parts

/-- The file system is mounted on the inode `false`. The number 5 belongs to the inode `true`, to
which there are `count` references, and the number 6 has been deleted. -/
def twoNumbers (count : BitVec 32) (node : Option Unit) : Io Unit Bool Bool Unit Unit where
  cache := {
    entries := fun x => ⟨if x then some false else none, none, none, none, (), if x then 5 else 6,
      if x then some true else none⟩
    inodes := fun i => if i then ⟨1, count, 1, false⟩ else ⟨0, 1, 1, false⟩
    cacheTable := fun j => if j = 0 then some true else none
    revTable := fun j => if j = 1 then some true else none
    queue := none
    locked := false
    used := fun _ => true
    owned := fun _ => true }
  hashNext _ := none
  hashTable j := if j = 0 then some false else if j = 1 then some true else none
  filesystems _ := ⟨none, false⟩
  mountTable j := if j = 0 then some () else none
  nodes _ := ⟨none, some ()⟩
  fsTable j := if j = 0 then node else none
  name _ := []
  randSeed := 0

def sameName (a b : List (BitVec 16)) : BitVec 32 := if a = b then 0 else 1

theorem io_calls_restore_iff_twoNumbers :
    (∃ draws, Restores free (inodeCreate draws 7 (fun _ => none) none) (twoNumbers 1 (some ()))
      fun r => r = none ↔ CreateFails (twoNumbers 1 (some ())) 7 fun _ => none) ∧
    Restores free (inodeClose true) (twoNumbers 1 (some ()))
      (fun r => r ≠ 0 ↔ CloseFails (twoNumbers 1 (some ())) true) ∧
    Restores free (inodeCacheLookup () 5 none none) (twoNumbers 1 (some ()))
      (fun r => r = none ↔ LookupFails (twoNumbers 1 (some ())) () 5 none) ∧
    Restores free (filesysMount sameName (fun _ => some ()) [] true) (twoNumbers 1 (some ()))
      fun r => r = none ↔ ¬ ∃ d, Registered (twoNumbers 1 (some ())) sameName [] d ∧
        some () ≠ none := by
  obtain ⟨hcreate, hclose, hlookup, hmount⟩ := io_calls_restore_iff free (twoNumbers 1 (some ()))
  refine ⟨(hcreate 7 _ none rfl rfl rfl rfl).mpr ⟨⟨1, 0, by decide +kernel⟩, Or.inl ?_⟩,
    (hclose true rfl rfl rfl).mpr ⟨rfl, by decide, ?_, true, by decide +kernel⟩,
    (hlookup () 5 none none rfl fun _ => rfl).mpr (Or.inl ⟨true, by decide +kernel, by decide⟩),
    (hmount _ _ [] true rfl rfl).mpr ⟨(), (), by decide +kernel, rfl⟩⟩
  · decide +kernel
  · exact Option.isSome_iff_ne_none.mp (by decide +kernel)

/-- Another reference stays; the entry is deleted; no name is registered; the file system creates no
inode. -/
theorem io_mutexes_stay_locked :
    ¬ Restores free (inodeClose true) (twoNumbers 2 none)
      (fun r => r ≠ 0 ↔ CloseFails (twoNumbers 2 none) true) ∧
    ¬ Restores free (inodeCacheLookup () 6 none none) (twoNumbers 2 none)
      (fun r => r = none ↔ LookupFails (twoNumbers 2 none) () 6 none) ∧
    (¬ Restores free (filesysMount sameName (fun _ => some ()) [] true) (twoNumbers 2 none)
      fun r => r = none ↔ ¬ ∃ d, Registered (twoNumbers 2 none) sameName [] d ∧ some () ≠ none) ∧
    ¬ ∃ draws, Restores free (inodeCreate draws 0 (fun _ => none) none) (twoNumbers 2 none)
      fun r => r = none ↔ CreateFails (twoNumbers 2 none) 0 fun _ => none := by
  refine ⟨?_, ?_, ?_, ?_⟩
  · rw [inodeClose_restores_iff rfl rfl rfl]
    rintro ⟨hlast, -⟩
    cases hlast
  · have hdeleted : InodeCache.cacheFind (twoNumbers 2 none).src (twoNumbers 2 none).cache () 6 =
        some (some false) := by decide +kernel
    rw [inodeCacheLookup_restores_iff rfl fun _ => rfl, LookupReturns, hdeleted]
    rintro (⟨x, hx, hinode⟩ | ⟨hnone, -⟩)
    · cases hx
      exact hinode rfl
    · cases hnone
  · have hunknown : fsFind (twoNumbers 2 none) sameName [] = some none := by decide +kernel
    rw [filesysMount_restores_iff rfl rfl]
    rintro ⟨d, x, hx, -⟩
    rw [hunknown] at hx
    cases hx
  · have hfound : inodeFind (twoNumbers 2 none) 0 = some (some false) := by decide +kernel
    have hmounted : mountFind (twoNumbers 2 none) false = some (some ()) := by decide +kernel
    rintro ⟨draws, hrestores⟩
    rw [inodeCreate_restores_iff rfl rfl rfl rfl, hfound] at hrestores
    obtain ⟨-, hnone | ⟨i, hi, hrest⟩⟩ := hrestores
    · cases hnone
    · cases hi
      rw [hmounted] at hrest
      rcases hrest with hnone | ⟨f, -, hcreate, -⟩
      · cases hnone
      · exact hcreate rfl

end IoLocks
