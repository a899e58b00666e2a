import Metakernel.GuardedRuns
import Mathlib.Data.List.Count
import Mathlib.Logic.Function.Basic

/-!
# Directories and the inodes they name

The directory calls of inode.c, with `inode_close` and the part of `inode_cache_lookup` that counts
references. The functions of the file system are parameters, and a call that waits for a mutex that
nobody gives back does not return.
-/
namespace InodeLinks

open GuardedRuns

variable {σ ι ν : Type*} [DecidableEq ι]

structure Inode where
  filesys : BitVec 32
  refCount : BitVec 32
  hardRefCount : BitVec 32
  deriving DecidableEq, Repr

/-- The pointers of `inode_func_set_t` that may be `NULL`. -/
structure Funcs where
  dirLookup : Bool
  dirLink : Bool
  dirUnlink : Bool
  deriving DecidableEq, Repr

structure FileSystem (σ ι ν : Type*) where
  dirLookup : σ → ι → ν → Option ι
  dirLink : σ → ι → ν → ι → σ × BitVec 32
  dirUnlink : σ → ι → ν → σ × BitVec 32

/-- One more for `i`. -/
def raise (f : ι → ℕ) (i : ι) : ι → ℕ := Function.update f i (f i + 1)

@[simp] theorem raise_self (f : ι → ℕ) (i : ι) : raise f i i = f i + 1 := Function.update_self _ _ _

@[simp] theorem raise_of_ne (f : ι → ℕ) {i j : ι} (h : j ≠ i) : raise f i j = f j :=
  Function.update_of_ne h _ _

/-- `names` counts the entries that name an inode. A call that returns 0 has made or removed one, any
other result means that nothing has changed. -/
structure FileSystem.Lawful (fs : FileSystem σ ι ν) (names : σ → ι → ℕ) : Prop where
  linked : ∀ x d n i, (fs.dirLink x d n i).2 = 0 →
    names (fs.dirLink x d n i).1 = raise (names x) i
  notLinked : ∀ x d n i, (fs.dirLink x d n i).2 ≠ 0 → names (fs.dirLink x d n i).1 = names x
  unlinked : ∀ x d n, (fs.dirUnlink x d n).2 = 0 → ∃ i, fs.dirLookup x d n = some i ∧
    names x = raise (names (fs.dirUnlink x d n).1) i
  notUnlinked : ∀ x d n, (fs.dirUnlink x d n).2 ≠ 0 → names (fs.dirUnlink x d n).1 = names x

/-- `users` counts the references that callers hold, `vlinks` the virtual links, `deleted` are the
inodes that `inode_cache_delete` has taken out of their entries, and `locked` those whose mutex is
locked. -/
structure System (σ ι : Type*) where
  inodes : ι → Inode
  funcs : ι → Funcs
  dirs : σ
  users : ι → ℕ
  vlinks : ι → ℕ
  deleted : ι → Bool
  locked : ι → Bool

inductive Event (ι ν : Type*) where
  | lookup (i : ι)
  | close (i : ι) (found : Bool)
  | link (dir : ι) (name : ν) (i : ι)
  | vlink (dir : ι) (name : ν) (i : ι)
  | unlink (dir : ι) (name : ν)

section Calls

variable (fs : FileSystem σ ι ν)

def System.setInode (s : System σ ι) (i : ι) (f : Inode → Inode) : System σ ι :=
  { s with inodes := Function.update s.inodes i (f (s.inodes i)) }

def inodeCacheLookup (s : System σ ι) (i : ι) : Option (System σ ι) :=
  if s.locked i then none
  else
    let s := s.setInode i fun n => { n with refCount := n.refCount + 1 }
    some { s with users := raise s.users i }

/-- `found` says whether `inode_cache_delete` finds the entry, which it looks for in the wrong table.
The mutex is unlocked after `inode_cache_free` only. -/
def inodeClose (s : System σ ι) (i : ι) (found : Bool) : Option (System σ ι) :=
  if s.locked i then none
  else
    let s := s.setInode i fun n => { n with refCount := n.refCount - 1 }
    let s := { s with
      users := Function.update s.users i (s.users i - 1)
      locked := Function.update s.locked i true }
    if (s.inodes i).refCount = 0 then
      if (s.inodes i).hardRefCount = 0 then
        some (if found then { s with deleted := Function.update s.deleted i true } else s)
      else some { s with locked := Function.update s.locked i false }
    else some s

def inodeDirLink (s : System σ ι) (dir : ι) (name : ν) (i : ι) : System σ ι × BitVec 32 :=
  if (s.funcs dir).dirLink ∧ (s.inodes i).filesys = (s.inodes dir).filesys then
    let (dirs, out) := fs.dirLink s.dirs dir name i
    let s := { s with dirs }
    (if out = 0 then s.setInode i fun n => { n with hardRefCount := n.hardRefCount + 1 } else s, out)
  else (s, -1)

def inodeDirVlink (s : System σ ι) (dir i : ι) (out : BitVec 32) : System σ ι × BitVec 32 :=
  if (s.funcs dir).dirLink then
    let s := s.setInode i fun n => { n with refCount := n.refCount + 1 }
    ({ s with vlinks := raise s.vlinks i }, out)
  else (s, -1)

/-- There is no test of `dir_lookup`, or of the inode that it returns. -/
def inodeDirUnlink (s : System σ ι) (dir : ι) (name : ν) : Option (System σ ι × BitVec 32) :=
  if (s.funcs dir).dirUnlink then
    if (s.funcs dir).dirLookup then
      let file := fs.dirLookup s.dirs dir name
      let (dirs, out) := fs.dirUnlink s.dirs dir name
      let s := { s with dirs }
      if out = 0 then file.map fun i =>
        (s.setInode i fun n => { n with hardRefCount := n.hardRefCount - 1 }, out)
      else some (s, out)
    else none
  else some (s, -1)

def step (s : System σ ι) : Event ι ν → Option (System σ ι)
  | .lookup i => inodeCacheLookup s i
  | .close i found => inodeClose s i found
  | .link dir name i => some (inodeDirLink fs s dir name i).1
  | .vlink dir _ i => some (inodeDirVlink s dir i 0).1
  | .unlink dir name => (inodeDirUnlink fs s dir name).map Prod.fst

/-- Callers use the references that they hold, and the counters do not wrap. -/
def Guard (names : σ → ι → ℕ) (s : System σ ι) : Event ι ν → Prop
  | .lookup i => s.deleted i = false ∧ s.users i + s.vlinks i + 1 < 4294967296
  | .close i _ => 0 < s.users i
  | .link dir _ i => 0 < s.users dir ∧ 0 < s.users i ∧ names s.dirs i + 1 < 4294967296
  | .vlink dir _ i => 0 < s.users dir ∧ 0 < s.users i ∧ s.users i + s.vlinks i + 1 < 4294967296
  | .unlink dir _ => 0 < s.users dir

/-- The call locks the mutex of `i`. -/
def Event.Locks (e : Event ι ν) (i : ι) : Prop := e = .lookup i ∨ ∃ found, e = .close i found

end Calls

instance (names : σ → ι → ℕ) (s : System σ ι) (e : Event ι ν) :
    Decidable (Guard names s e) :=
  match e with
  | .lookup _ => inferInstanceAs (Decidable (_ ∧ _))
  | .close _ _ => inferInstanceAs (Decidable (_ < _))
  | .link _ _ _ => inferInstanceAs (Decidable (_ ∧ _))
  | .vlink _ _ _ => inferInstanceAs (Decidable (_ ∧ _))
  | .unlink _ _ => inferInstanceAs (Decidable (_ < _))

structure Counted (s : System σ ι) (names : ℕ) (i : ι) : Prop where
  hard : (s.inodes i).hardRefCount.toNat = names
  refs : (s.inodes i).refCount.toNat = s.users i + s.vlinks i
  gone : s.deleted i = true → names = 0 ∧ s.users i = 0 ∧ s.vlinks i = 0

variable {fs : FileSystem σ ι ν} {names : σ → ι → ℕ} {s t : System σ ι} {i dir : ι} {name : ν}
  {e : Event ι ν}

def AllCounted (names : σ → ι → ℕ) (s : System σ ι) : Prop := ∀ i, Counted s (names s.dirs i) i

omit [DecidableEq ι] in
theorem Counted.congr {n : ℕ} (h : Counted s n i) (hinode : t.inodes i = s.inodes i)
    (husers : t.users i = s.users i) (hvlinks : t.vlinks i = s.vlinks i)
    (hdeleted : t.deleted i = s.deleted i) : Counted t n i := by
  refine ⟨?_, ?_, ?_⟩
  · rw [hinode]
    exact h.hard
  · rw [hinode, husers, hvlinks]
    exact h.refs
  · rw [hdeleted, husers, hvlinks]
    exact h.gone

theorem AllCounted.lookup (h : AllCounted names s) (hin : s.deleted i = false)
    (hroom : s.users i + s.vlinks i + 1 < 4294967296) (ht : inodeCacheLookup s i = some t) :
    AllCounted names t := by
  rw [inodeCacheLookup] at ht
  split at ht
  · cases ht
  cases ht
  intro j
  by_cases hj : j = i
  · subst hj
    obtain ⟨hhard, hrefs, -⟩ := h j
    refine ⟨?_, ?_, ?_⟩
    · simpa [System.setInode] using hhard
    · simp only [System.setInode, Function.update_self, raise_self]
      bv_omega
    · simp [System.setInode, hin]
  · refine (h j).congr ?_ ?_ rfl rfl
    · simp [System.setInode, hj]
    · simp [System.setInode, hj]

omit [DecidableEq ι] in
theorem AllCounted.held (h : AllCounted names s) (hheld : 0 < s.users i) : s.deleted i = false := by
  rw [← Bool.not_eq_true]
  intro hdel
  have hnone := ((h i).gone hdel).2.1
  omega

theorem inodeClose_returns_iff {found : Bool} :
    (∃ t, inodeClose s i found = some t) ↔ s.locked i = false := by
  rw [inodeClose]
  cases s.locked i with
  | true => simp
  | false =>
    refine iff_of_true ?_ rfl
    simp only [Bool.false_eq_true, if_false]
    split
    · split
      · exact ⟨_, rfl⟩
      · exact ⟨_, rfl⟩
    · exact ⟨_, rfl⟩

/-- What a close that returns leaves of the inode and of the others. -/
structure Closed (s t : System σ ι) (names : ℕ) (i : ι) (found : Bool) : Prop where
  inode : t.inodes i = { s.inodes i with refCount := (s.inodes i).refCount - 1 }
  users : t.users i + 1 = s.users i
  vlinks : t.vlinks = s.vlinks
  dirs : t.dirs = s.dirs
  deleted : t.deleted i = true ↔
    found = true ∧ s.users i = 1 ∧ s.vlinks i = 0 ∧ names = 0
  unlocked : t.locked i = false ↔ s.users i = 1 ∧ s.vlinks i = 0 ∧ names ≠ 0
  others : ∀ j, j ≠ i → t.inodes j = s.inodes j ∧ t.users j = s.users j ∧
    t.deleted j = s.deleted j ∧ t.locked j = s.locked j

theorem AllCounted.closed {found : Bool} (h : AllCounted names s) (hheld : 0 < s.users i)
    (ht : inodeClose s i found = some t) : Closed s t (names s.dirs i) i found := by
  obtain ⟨hhard, hrefs, -⟩ := h i
  have hdel : s.deleted i = false := h.held hheld
  have hlast : (s.inodes i).refCount - 1 = 0 ↔ s.users i = 1 ∧ s.vlinks i = 0 := by
    constructor
    · intro hr
      constructor <;> bv_omega
    · rintro ⟨hu, hv⟩
      bv_omega
  have hunnamed : (s.inodes i).hardRefCount = 0 ↔ names s.dirs i = 0 := by
    rw [← hhard]
    exact ⟨fun hz => by rw [hz]; rfl, fun hz => BitVec.eq_of_toNat_eq hz⟩
  have hone : s.users i - 1 + 1 = s.users i := by omega
  rw [inodeClose] at ht
  split at ht
  · cases ht
  simp only [System.setInode, Function.update_self] at ht
  split at ht
  · rename_i hzero
    obtain ⟨hu, hv⟩ := hlast.mp hzero
    split at ht
    · rename_i hnone
      have hn := hunnamed.mp hnone
      cases ht
      refine ⟨?_, ?_, ?_, ?_, ?_, ?_, fun j hj => ?_⟩ <;> cases found <;> simp [*]
    · rename_i hsome
      have hn := mt hunnamed.mpr hsome
      cases ht
      refine ⟨?_, ?_, rfl, rfl, ?_, ?_, fun j hj => ?_⟩ <;> simp [*]
  · rename_i hmore
    have hn := mt hlast.mpr hmore
    cases ht
    refine ⟨?_, ?_, rfl, rfl, ?_, ?_, fun j hj => ?_⟩
    · simp
    · simp [hone]
    · rw [hdel]
      exact iff_of_false Bool.false_ne_true fun hall => hn ⟨hall.2.1, hall.2.2.1⟩
    · exact iff_of_false (by simp) fun hall => hn ⟨hall.1, hall.2.1⟩
    · simp [hj]

theorem AllCounted.close {found : Bool} (h : AllCounted names s) (hheld : 0 < s.users i)
    (ht : inodeClose s i found = some t) : AllCounted names t := by
  have hclosed := h.closed hheld ht
  intro j
  rw [hclosed.dirs]
  by_cases hj : j = i
  · subst hj
    obtain ⟨hhard, hrefs, -⟩ := h j
    have husers := hclosed.users
    refine ⟨?_, ?_, fun hdel => ?_⟩
    · rw [hclosed.inode]
      exact hhard
    · rw [hclosed.inode, hclosed.vlinks]
      bv_omega
    · obtain ⟨-, hu, hv, hn⟩ := hclosed.deleted.mp hdel
      rw [hclosed.vlinks]
      exact ⟨hn, by omega, hv⟩
  · obtain ⟨hinode, husers, hdeleted, -⟩ := hclosed.others j hj
    exact (h j).congr hinode husers (congrFun hclosed.vlinks j) hdeleted

/-- One more or one less entry that names `i`. -/
theorem AllCounted.rename {dirs : σ} {v : BitVec 32} (h : AllCounted names s)
    (hothers : ∀ j, j ≠ i → names dirs j = names s.dirs j) (hcount : v.toNat = names dirs i)
    (hin : s.deleted i = false) :
    AllCounted names ({ s with dirs }.setInode i fun n => { n with hardRefCount := v }) := by
  intro j
  by_cases hj : j = i
  · subst hj
    refine ⟨?_, ?_, ?_⟩
    · simpa [System.setInode] using hcount
    · simpa [System.setInode] using (h j).refs
    · simp [System.setInode, hin]
  · have hsame : Counted s (names dirs j) j := by
      rw [hothers j hj]
      exact h j
    refine hsame.congr ?_ rfl rfl rfl
    simp [System.setInode, hj]

theorem AllCounted.link (hlaw : fs.Lawful names) (h : AllCounted names s) (hheld : 0 < s.users i)
    (hroom : names s.dirs i + 1 < 4294967296) : AllCounted names (inodeDirLink fs s dir name i).1 := by
  rw [inodeDirLink]
  split
  · by_cases hout : (fs.dirLink s.dirs dir name i).2 = 0
    · have hmore := hlaw.linked _ _ _ _ hout
      simp only [hout, if_true]
      refine h.rename (fun j hj => ?_) ?_ (h.held hheld)
      · rw [hmore, raise_of_ne _ hj]
      · have hhard := (h i).hard
        rw [hmore, raise_self]
        bv_omega
    · have hsame := hlaw.notLinked _ _ _ _ hout
      simp only [if_neg hout]
      intro j
      rw [hsame]
      exact (h j).congr rfl rfl rfl rfl
  · exact h

theorem AllCounted.vlink {out : BitVec 32} (h : AllCounted names s) (hheld : 0 < s.users i)
    (hroom : s.users i + s.vlinks i + 1 < 4294967296) :
    AllCounted names (inodeDirVlink s dir i out).1 := by
  rw [inodeDirVlink]
  split
  · intro j
    by_cases hj : j = i
    · subst hj
      obtain ⟨hhard, hrefs, -⟩ := h j
      refine ⟨?_, ?_, ?_⟩
      · simpa [System.setInode] using hhard
      · simp only [System.setInode, Function.update_self, raise_self]
        bv_omega
      · simp [System.setInode, h.held hheld]
    · refine (h j).congr ?_ rfl ?_ rfl
      · simp [System.setInode, hj]
      · simp [System.setInode, hj]
  · exact h

variable (name) in
/-- With a `dir_lookup` the call returns, since `dir_unlink` removes the entry that was found. -/
theorem AllCounted.unlink (hlaw : fs.Lawful names) (h : AllCounted names s)
    (hfuncs : (s.funcs dir).dirUnlink = true → (s.funcs dir).dirLookup = true) :
    ∃ r, inodeDirUnlink fs s dir name = some r ∧ AllCounted names r.1 := by
  rw [inodeDirUnlink]
  split
  · rename_i hunlink
    rw [if_pos (hfuncs hunlink)]
    by_cases hout : (fs.dirUnlink s.dirs dir name).2 = 0
    · obtain ⟨i, hfile, hmore⟩ := hlaw.unlinked _ _ _ hout
      have hone : names s.dirs i = names (fs.dirUnlink s.dirs dir name).1 i + 1 := by
        rw [hmore, raise_self]
      simp only [hout, if_true, hfile, Option.map_some]
      refine ⟨_, rfl, h.rename (fun j hj => ?_) ?_ ?_⟩
      · rw [hmore, raise_of_ne _ hj]
      · have hhard := (h i).hard
        rw [hone] at hhard
        show _ = names (fs.dirUnlink s.dirs dir name).1 i
        bv_omega
      · rw [← Bool.not_eq_true]
        intro hdel
        have hnone := ((h i).gone hdel).1
        omega
    · have hsame := hlaw.notUnlinked _ _ _ hout
      simp only [if_neg hout]
      refine ⟨_, rfl, fun j => ?_⟩
      rw [hsame]
      exact (h j).congr rfl rfl rfl rfl
  · exact ⟨_, rfl, h⟩

structure Initial (names : σ → ι → ℕ) (s : System σ ι) : Prop where
  hard : ∀ i, (s.inodes i).hardRefCount.toNat = names s.dirs i
  refs : ∀ i, (s.inodes i).refCount = 0
  users : ∀ i, s.users i = 0
  vlinks : ∀ i, s.vlinks i = 0
  deleted : ∀ i, s.deleted i = false
  funcs : ∀ i, (s.funcs i).dirUnlink = true → (s.funcs i).dirLookup = true

theorem inodeDirUnlink_funcs {r : System σ ι × BitVec 32} (h : inodeDirUnlink fs s dir name = some r) :
    r.1.funcs = s.funcs := by
  simp only [inodeDirUnlink] at h
  split at h
  · split at h
    · split at h
      · obtain ⟨i, -, rfl⟩ := Option.map_eq_some_iff.mp h
        rfl
      · cases h
        rfl
    · cases h
  · cases h
    rfl

theorem step_counted (hlaw : fs.Lawful names) (h : AllCounted names s)
    (hfuncs : ∀ i, (s.funcs i).dirUnlink = true → (s.funcs i).dirLookup = true)
    (hg : Guard names s e) (ht : step fs s e = some t) :
    AllCounted names t ∧ t.funcs = s.funcs := by
  cases e with
  | lookup i =>
    refine ⟨h.lookup hg.1 hg.2 ht, ?_⟩
    rw [step, inodeCacheLookup] at ht
    split at ht <;> cases ht
    rfl
  | close i found =>
    refine ⟨h.close hg ht, ?_⟩
    rw [step, inodeClose] at ht
    split at ht
    · cases ht
    dsimp only at ht
    split at ht
    · split at ht <;> cases ht
      · split <;> rfl
      · rfl
    · cases ht
      rfl
  | link dir name i =>
    cases ht
    refine ⟨h.link hlaw hg.2.1 hg.2.2, ?_⟩
    simp only [inodeDirLink]
    split
    · split <;> rfl
    · rfl
  | vlink dir name i =>
    cases ht
    refine ⟨h.vlink hg.2.1 hg.2.2, ?_⟩
    simp only [inodeDirVlink]
    split <;> rfl
  | unlink dir name =>
    obtain ⟨r, hr, hcounted⟩ := h.unlink name hlaw (hfuncs dir)
    rw [step, hr, Option.map_some] at ht
    cases ht
    exact ⟨hcounted, inodeDirUnlink_funcs hr⟩

/-- A call returns unless it locks the mutex of an inode that is locked. -/
theorem step_returns_iff (hlaw : fs.Lawful names) (h : AllCounted names s)
    (hfuncs : ∀ i, (s.funcs i).dirUnlink = true → (s.funcs i).dirLookup = true) :
    (∃ t, step fs s e = some t) ↔ ∀ i, e.Locks i → s.locked i = false := by
  cases e with
  | lookup i =>
    simp only [step, inodeCacheLookup, Event.Locks, Event.lookup.injEq, reduceCtorEq, exists_false,
      or_false, forall_eq']
    cases s.locked i <;> simp
  | close i found =>
    simp only [step, inodeClose_returns_iff, Event.Locks, Event.close.injEq, reduceCtorEq, false_or,
      exists_and_left, exists_eq', and_true, forall_eq']
  | link dir name i => exact iff_of_true ⟨_, rfl⟩ fun j hj => by simp [Event.Locks] at hj
  | vlink dir name i => exact iff_of_true ⟨_, rfl⟩ fun j hj => by simp [Event.Locks] at hj
  | unlink dir name =>
    obtain ⟨r, hr, -⟩ := h.unlink name hlaw (hfuncs dir)
    exact iff_of_true ⟨r.1, by rw [step, hr, Option.map_some]⟩ fun j hj => by simp [Event.Locks] at hj

theorem step_locked (ht : step fs s e = some t) (hlocked : s.locked i = true) :
    t.locked i = true := by
  cases e with
  | lookup j =>
    rw [step, inodeCacheLookup] at ht
    split at ht <;> cases ht
    exact hlocked
  | close j found =>
    rw [step, inodeClose] at ht
    split at ht
    · cases ht
    rename_i hfree
    have hj : i ≠ j := by
      rintro rfl
      exact hfree hlocked
    dsimp only at ht
    split at ht
    · split at ht <;> cases ht
      · split <;> simpa [System.setInode, hj] using hlocked
      · simpa [System.setInode, hj] using hlocked
    · cases ht
      simpa [System.setInode, hj] using hlocked
  | link dir name j =>
    cases ht
    simp only [inodeDirLink]
    split
    · split <;> exact hlocked
    · exact hlocked
  | vlink dir name j =>
    cases ht
    simp only [inodeDirVlink]
    split <;> exact hlocked
  | unlink dir name =>
    simp only [step, inodeDirUnlink] at ht
    split at ht
    · split at ht
      · split at ht
        · obtain ⟨r, hr, rfl⟩ := Option.map_eq_some_iff.mp ht
          obtain ⟨j, -, rfl⟩ := Option.map_eq_some_iff.mp hr
          exact hlocked
        · cases ht
          exact hlocked
      · cases ht
    · cases ht
      exact hlocked

section Listed

variable [DecidableEq ν]

def entry (x : List (ι × ν × ι)) (d : ι) (n : ν) : Option (ι × ν × ι) :=
  x.find? fun e => e.1 = d ∧ e.2.1 = n

def listed : FileSystem (List (ι × ν × ι)) ι ν where
  dirLookup x d n := (entry x d n).map fun e => e.2.2
  dirLink x d n i := if (entry x d n).isSome then (x, -1) else ((d, n, i) :: x, 0)
  dirUnlink x d n := (entry x d n).elim (x, -1) fun e => (x.erase e, 0)

def listedNames (x : List (ι × ν × ι)) (i : ι) : ℕ := x.countP fun e => e.2.2 = i

omit [DecidableEq ν] in
theorem listedNames_cons (e : ι × ν × ι) (x : List (ι × ν × ι)) :
    listedNames (e :: x) = raise (listedNames x) e.2.2 := by
  funext i
  rw [listedNames, List.countP_cons]
  by_cases hi : e.2.2 = i
  · subst hi
    simp [listedNames]
  · simp [listedNames, hi, Ne.symm hi]

theorem listed_lawful : (listed : FileSystem (List (ι × ν × ι)) ι ν).Lawful listedNames := by
  refine ⟨fun x d n i h => ?_, fun x d n i h => ?_, fun x d n h => ?_, fun x d n h => ?_⟩
  · simp only [listed] at h ⊢
    split at h
    · simp at h
    · rename_i hnew
      rw [if_neg hnew]
      exact listedNames_cons (d, n, i) x
  · simp only [listed] at h ⊢
    split at h
    · rename_i hold
      rw [if_pos hold]
    · simp at h
  · simp only [listed] at h ⊢
    cases he : entry x d n with
    | none =>
      rw [he] at h
      simp at h
    | some e =>
      have hmem : e ∈ x := List.mem_of_find?_eq_some he
      refine ⟨e.2.2, rfl, ?_⟩
      rw [Option.elim_some, ← listedNames_cons]
      funext i
      exact (List.perm_cons_erase hmem).countP_eq _
  · simp only [listed] at h ⊢
    cases he : entry x d n with
    | none => rfl
    | some e =>
      rw [he] at h
      simp at h

end Listed

def emptyDirectory : System (List (Bool × ℕ × Bool)) Bool where
  inodes _ := ⟨1, 0, 0⟩
  funcs _ := ⟨true, true, true⟩
  dirs := []
  users _ := 0
  vlinks _ := 0
  deleted _ := false
  locked _ := false

theorem emptyDirectory_initial : Initial listedNames emptyDirectory :=
  ⟨fun _ => rfl, fun _ => rfl, fun _ => rfl, fun _ => rfl, fun _ => rfl, fun _ h => h⟩

end InodeLinks
