import Metakernel.KeyStacks
import Metakernel.GuardedRuns
import Mathlib.Data.Fintype.Option
import Mathlib.Data.List.Count

/-!
# File systems and where they are mounted

The two tables of filesys.c over whole runs of `filesys_register`, `filesys_mount`,
`filesys_unmount` and `filesys_lookup`. What the functions of a file system and `malloc` return comes
with the call.
-/
namespace FileSystems

open LinkedNodes DataStructures NodeTables KeyStacks GuardedRuns

abbrev Name := List (BitVec 16)

/-- Of a definition only its identity and its name matter here; both are given by `δ`. -/
structure FsNode (κ δ : Type*) where
  hashNext : Option κ
  fs : δ

structure Filesys (φ ι : Type*) where
  hashNext : Option φ
  src : Option ι

structure System (κ φ ι δ : Type*) where
  nodes : κ → FsNode κ δ
  fsTable : ℕ → Option κ
  mounts : φ → Filesys φ ι
  mountTable : ℕ → Option φ

/-- `node` and `made` are what `malloc` and the `mount` of the definition return, `out` is what the
`unmount` of the file system returns. Other code writes the records. -/
inductive Call (κ φ ι δ : Type*) where
  | register (node : Option κ) (fsDef : δ)
  | mount (fsname : Name) (inode : ι) (made : Option φ)
  | unmount (filesys : φ) (inode : ι) (out : ℤ)
  | lookup (inode : ι)
  | elsewhere (nodes : κ → FsNode κ δ) (mounts : φ → Filesys φ ι)

/-- Whose `mount` is called, and the file system that is returned. -/
abbrev Reply (φ δ : Type*) := Option δ × Option φ

section Code

variable {κ φ ι δ : Type*} [DecidableEq κ] [DecidableEq φ] [DecidableEq ι] [Fintype κ] [Fintype φ]

def nodeNext : NodeField (κ → FsNode κ δ) (Option κ) (Option κ) :=
  tableField FsNode.hashNext fun r v => { r with hashNext := v }

def mountNext : NodeField (φ → Filesys φ ι) (Option φ) (Option φ) :=
  tableField Filesys.hashNext fun r v => { r with hashNext := v }

def strhash (s : Name) : ℕ := s.foldl (fun out c => (out + c.toNat) % 4294967296) 0

-- `strcmp` is declared in util.h and defined nowhere.
variable (strcmp : Name → Name → BitVec 32) (name : δ → Name) (id : ι → ℕ)

def unId (m : κ → FsNode κ δ) (p : Option κ) : Name := p.elim [] fun x => name (m x).fs

def mntId (m : φ → Filesys φ ι) (p : Option φ) : Option ι := p.bind fun x => (m x).src

def fsIndex (key : Name) : ℕ := strhash key % 127

def unEq {K : Type*} [DecidableEq K] (a b : K) : Bool := decide (a = b)

/-- `mnt_hash` takes the identifier of the inode. -/
def mntIndex (key : Option ι) : ℕ := key.elim 0 fun i => id i % 511

def fsTableLookup (s : System κ φ ι δ) (key : Name) : Option (Option κ) :=
  hashTableLookup nodeNext none (unId name) (fun a b => decide (strcmp a b = 0)) fsIndex
    (Fintype.card (Option κ) + 1) s.nodes s.fsTable key

/-- A node of `NULL` is written to. -/
def filesysRegister (s : System κ φ ι δ) (node : Option κ) (fsDef : δ) : Option (System κ φ ι δ) :=
  node.map fun x =>
    let nodes := Function.update s.nodes x { s.nodes x with fs := fsDef }
    let r := hashTableInsert nodeNext (unId name) fsIndex nodes s.fsTable (some x)
    { s with nodes := r.1, fsTable := r.2 }

/-- What is done with the file system that the `mount` of a definition returns. -/
def enterMount (s : System κ φ ι δ) (inode : ι) (out : φ) : System κ φ ι δ :=
  let mounts := Function.update s.mounts out { s.mounts out with src := some inode }
  let r := hashTableInsert mountNext mntId (mntIndex id) mounts s.mountTable (some out)
  { s with mounts := r.1, mountTable := r.2 }

/-- A name that is not found makes the code read through `NULL`. -/
def filesysMount (s : System κ φ ι δ) (fsname : Name) (inode : ι) (made : Option φ) :
    Option (System κ φ ι δ × Reply φ δ) :=
  (fsTableLookup strcmp name s fsname).bind fun node => node.map fun x =>
    (made.elim s (enterMount id s inode), some (s.nodes x).fs, made)

def filesysUnmount (s : System κ φ ι δ) (filesys : φ) (out : ℤ) : Option (System κ φ ι δ) :=
  if out = 0 then
    (hashTableDelete mountNext none mntId unEq (mntIndex id) (Fintype.card (Option φ) + 1) s.mounts
      s.mountTable (s.mounts filesys).src).map fun r => { s with mounts := r.1, mountTable := r.2.1 }
  else some s

def filesysLookup (s : System κ φ ι δ) (inode : ι) : Option (Option φ) :=
  hashTableLookup mountNext none mntId unEq (mntIndex id) (Fintype.card (Option φ) + 1) s.mounts
    s.mountTable (some inode)

def next (s : System κ φ ι δ) : Call κ φ ι δ → Option (System κ φ ι δ × Reply φ δ)
  | .register node fsDef => (filesysRegister name s node fsDef).map fun s => (s, none, none)
  | .mount fsname inode made => filesysMount strcmp name id s fsname inode made
  | .unmount filesys _ out => (filesysUnmount id s filesys out).map fun s => (s, none, none)
  | .lookup inode => (filesysLookup id s inode).map fun p => (s, none, p)
  | .elsewhere nodes mounts => some ({ s with nodes := nodes, mounts := mounts }, none, none)

/-- The definitions that are registered, with their nodes, and the file systems that are mounted,
with their inodes; `stack` is what the table has for an inode. The latest ones come first. -/
structure Mounts (κ φ ι δ : Type*) where
  registered : List (κ × δ)
  mounted : List (φ × ι)
  stack : ι → List φ

def Mounts.find (t : Mounts κ φ ι δ) (fsname : Name) : Option (κ × δ) :=
  t.registered.find? fun p => unEq (name p.2) fsname

/-- What a call is to return; none is a fault. -/
def Mounts.reply (t : Mounts κ φ ι δ) : Call κ φ ι δ → Option (Reply φ δ)
  | .register node _ => node.map fun _ => (none, none)
  | .mount fsname _ made => (t.find name fsname).map fun p => (some p.2, made)
  | .lookup inode => some (none, (t.stack inode).head?)
  | _ => some (none, none)

/-- Unmounting takes the latest entry of the inode off the table, whichever file system is
unmounted. -/
def Mounts.after (t : Mounts κ φ ι δ) : Call κ φ ι δ → Mounts κ φ ι δ
  | .register (some x) fsDef => { t with registered := (x, fsDef) :: t.registered }
  | .mount _ inode (some f) =>
    { t with
      mounted := (f, inode) :: t.mounted
      stack := Function.update t.stack inode (f :: t.stack inode) }
  | .unmount f inode out =>
    if out = 0 then
      { t with
        mounted := t.mounted.erase (f, inode)
        stack := Function.update t.stack inode (t.stack inode).tail }
    else t
  | _ => t

/-- Nodes and file systems are new when they enter a table, only what is mounted is unmounted, and
other code leaves the links and the keys of what is in the tables alone. -/
def Allowed (s : System κ φ ι δ) (t : Mounts κ φ ι δ) : Call κ φ ι δ → Prop
  | .register node _ => ∀ x ∈ node, ∀ p ∈ t.registered, p.1 ≠ x
  | .mount _ _ made => ∀ f ∈ made, (∀ i, f ∉ t.stack i) ∧ ∀ i, (f, i) ∉ t.mounted
  | .unmount f inode _ => (f, inode) ∈ t.mounted
  | .lookup _ => True
  | .elsewhere nodes mounts =>
    (∀ p ∈ t.registered, (nodes p.1).hashNext = (s.nodes p.1).hashNext ∧
      (nodes p.1).fs = (s.nodes p.1).fs) ∧
    (∀ i, ∀ f ∈ t.stack i, (mounts f).hashNext = (s.mounts f).hashNext ∧
      (mounts f).src = (s.mounts f).src) ∧
    ∀ p ∈ t.mounted, (mounts p.1).src = (s.mounts p.1).src

/-- A call that is allowed and returns, and what has become of the mounts. -/
def Step (x : System κ φ ι δ × Mounts κ φ ι δ) (call : Call κ φ ι δ)
    (y : System κ φ ι δ × Mounts κ φ ι δ) : Prop :=
  Allowed x.1 x.2 call ∧ (next strcmp name id x.1 call).map Prod.fst = some y.1 ∧ y.2 = x.2.after call

structure Initial (x : System κ φ ι δ × Mounts κ φ ι δ) : Prop where
  fsTable : x.1.fsTable = fun _ => none
  mountTable : x.1.mountTable = fun _ => none
  registered : x.2.registered = []
  mounted : x.2.mounted = []
  stack : x.2.stack = fun _ => []

variable {strcmp name id} {s s' : System κ φ ι δ} {t : Mounts κ φ ι δ} {call : Call κ φ ι δ}

def Mounts.named (name : δ → Name) (t : Mounts κ φ ι δ) : Stacks (Option κ) Name := fun key =>
  (t.registered.filter fun p => unEq (name p.2) key).map fun p => some p.1

def Mounts.entries (t : Mounts κ φ ι δ) : Stacks (Option φ) (Option ι) := fun key =>
  key.elim [] fun i => (t.stack i).map some

abbrev FsTable (name : δ → Name) (s : System κ φ ι δ) (t : Mounts κ φ ι δ) (n : ℕ) : Prop :=
  Represents nodeNext none (unId name) unEq fsIndex isNode ⟨s.nodes, s.fsTable⟩ (t.named name) n

abbrev MountTable (id : ι → ℕ) (s : System κ φ ι δ) (t : Mounts κ φ ι δ) (n : ℕ) : Prop :=
  Represents mountNext none mntId unEq (mntIndex id) isNode ⟨s.mounts, s.mountTable⟩ t.entries n

structure Tables (name : δ → Name) (id : ι → ℕ) (s : System κ φ ι δ) (t : Mounts κ φ ι δ) : Prop where
  fs : FsTable name s t (Fintype.card (Option κ))
  mount : MountTable id s t (Fintype.card (Option φ))
  defs : ∀ p ∈ t.registered, (s.nodes p.1).fs = p.2
  src : ∀ p ∈ t.mounted, (s.mounts p.1).src = some p.2
  keys : ∀ i, ∀ f ∈ t.stack i, (s.mounts f).src = some i

omit [Fintype κ] in
theorem nodeNext_lawful : (nodeNext (κ := κ) (δ := δ)).Lawful isNode fun _ => True :=
  tableField_lawful (fun _ _ => rfl) _

omit [DecidableEq ι] [Fintype φ] in
theorem mountNext_lawful : (mountNext (φ := φ) (ι := ι)).Lawful isNode fun _ => True :=
  tableField_lawful (fun _ _ => rfl) _

omit [Fintype κ] in
theorem unId_set (m : κ → FsNode κ δ) (w v y : Option κ) :
    unId name (nodeNext.set m w v) y = unId name m y := by
  cases w with
  | none => rfl
  | some x =>
    cases y with
    | none => rfl
    | some z => by_cases hz : z = x <;> simp [unId, nodeNext, tableField, hz]

omit [DecidableEq ι] [Fintype φ] in
theorem mntId_set (m : φ → Filesys φ ι) (w v y : Option φ) :
    mntId (mountNext.set m w v) y = mntId m y := by
  cases w with
  | none => rfl
  | some x =>
    cases y with
    | none => rfl
    | some z => by_cases hz : z = x <;> simp [mntId, mountNext, tableField, hz]

theorem unEq_equivalence {K : Type*} [DecidableEq K] :
    Equivalence fun a b : K => unEq a b = true := by
  simp only [unEq, decide_eq_true_eq]
  exact eq_equivalence

theorem Represents.capped {M P K : Type*} [DecidableEq P] [Fintype P] {next : NodeField M P P}
    {null : P} {uniqueId : M → P → K} {uniqueEq : K → K → Bool} {index : K → ℕ} {N : P → Prop}
    {x : State M P} {stack : Stacks P K} {n : ℕ}
    (h : Represents next null uniqueId uniqueEq index N x stack n) :
    Represents next null uniqueId uniqueEq index N x stack (Fintype.card P) := by
  obtain ⟨chains, htab, hstack, -⟩ := h
  exact ⟨chains, htab, hstack, fun j => (htab.nodup j).length_le_card⟩

theorem Represents.kept {M P K : Type*} [DecidableEq P] {next : NodeField M P P} {null : P}
    {uniqueId : M → P → K} {uniqueEq : K → K → Bool} {index : K → ℕ} {N : P → Prop}
    {x : State M P} {stack : Stacks P K} {n : ℕ} {mem : M} (hf : next.Lawful N fun _ => True)
    (hid : ∀ m w v y, N w → N y → uniqueId (next.set m w v) y = uniqueId m y)
    (heq : Equivalence fun a b => uniqueEq a b = true)
    (hindex : ∀ a b, uniqueEq a b = true → index a = index b)
    (h : Represents next null uniqueId uniqueEq index N x stack n)
    (hmem : ∀ k, ∀ y ∈ stack k,
      next.get mem y = next.get x.mem y ∧ uniqueId mem y = uniqueId x.mem y) :
    Represents next null uniqueId uniqueEq index N ⟨mem, x.table⟩ stack (n + 1) := by
  obtain ⟨x', hrun, hrep⟩ :=
    perform_represents hf hid heq hindex h (e := .elsewhere mem) hmem (Nat.lt_succ_self n)
  rw [perform, Option.some.injEq, Prod.mk.injEq] at hrun
  exact hrun.1 ▸ hrep

omit [DecidableEq κ] [DecidableEq φ] [DecidableEq ι] [Fintype κ] [Fintype φ] in
theorem mem_entries {f : Option φ} {key : Option ι} (hf : f ∈ t.entries key) :
    ∃ i g, key = some i ∧ f = some g ∧ g ∈ t.stack i := by
  cases key with
  | none => cases hf
  | some i =>
    obtain ⟨g, hg, rfl⟩ := List.mem_map.mp hf
    exact ⟨i, g, rfl, rfl, hg⟩

omit [DecidableEq κ] [DecidableEq φ] [DecidableEq ι] [Fintype κ] [Fintype φ] in
theorem mem_named {x : Option κ} {key : Name} (hx : x ∈ t.named name key) :
    ∃ p ∈ t.registered, x = some p.1 := by
  obtain ⟨p, hp, rfl⟩ := List.mem_map.mp hx
  exact ⟨p, (List.mem_filter.mp hp).1, rfl⟩

theorem fsIndex_congr (a b : Name) (h : unEq a b = true) : fsIndex a = fsIndex b := by
  rw [of_decide_eq_true h]

theorem mntIndex_congr (a b : Option ι) (h : unEq a b = true) : mntIndex id a = mntIndex id b := by
  rw [of_decide_eq_true h]

omit [DecidableEq φ] [DecidableEq ι] [Fintype κ] [Fintype φ] in
theorem FsTable.kept {n : ℕ} (h : FsTable name s t n) (nodes : κ → FsNode κ δ)
    (hmem : ∀ p ∈ t.registered, (nodes p.1).hashNext = (s.nodes p.1).hashNext ∧
      (nodes p.1).fs = (s.nodes p.1).fs) : FsTable name { s with nodes := nodes } t (n + 1) := by
  refine Represents.kept nodeNext_lawful (fun m w v y _ _ => unId_set m w v y) unEq_equivalence
    fsIndex_congr h ?_
  intro key y hy
  obtain ⟨p, hp, rfl⟩ := mem_named hy
  obtain ⟨hnext, hfs⟩ := hmem p hp
  exact ⟨hnext, congrArg name hfs⟩

omit [DecidableEq κ] [Fintype κ] [Fintype φ] in
theorem MountTable.kept {n : ℕ} (h : MountTable id s t n) (mounts : φ → Filesys φ ι)
    (hmem : ∀ i, ∀ f ∈ t.stack i, (mounts f).hashNext = (s.mounts f).hashNext ∧
      (mounts f).src = (s.mounts f).src) : MountTable id { s with mounts := mounts } t (n + 1) := by
  refine Represents.kept mountNext_lawful (fun m w v y _ _ => mntId_set m w v y) unEq_equivalence
    mntIndex_congr h ?_
  intro key y hy
  obtain ⟨i, f, -, rfl, hf⟩ := mem_entries hy
  exact hmem i f hf

omit [DecidableEq φ] [DecidableEq ι] [Fintype φ] in
theorem FsTable.insert {n : ℕ} {x : κ} (h : FsTable name s t n)
    (hnew : ∀ p ∈ t.registered, p.1 ≠ x) :
    Represents nodeNext none (unId name) unEq fsIndex isNode
      ⟨(hashTableInsert nodeNext (unId name) fsIndex s.nodes s.fsTable (some x)).1,
        (hashTableInsert nodeNext (unId name) fsIndex s.nodes s.fsTable (some x)).2⟩
      (push unEq (t.named name) (name (s.nodes x).fs) (some x)) (Fintype.card (Option κ)) := by
  refine Represents.capped (Represents.insert nodeNext_lawful
    (fun m w v y _ _ => unId_set m w v y) unEq_equivalence fsIndex_congr h
    (show isNode (some x) from rfl)
    (Option.some_ne_none x) ?_)
  intro key hin
  obtain ⟨p, hp, hpx⟩ := mem_named hin
  exact hnew p hp (Option.some.inj hpx).symm

omit [DecidableEq κ] [Fintype κ] in
theorem MountTable.insert {n : ℕ} {f : φ} (h : MountTable id s t n) (hout : ∀ i, f ∉ t.stack i) :
    Represents mountNext none mntId unEq (mntIndex id) isNode
      ⟨(hashTableInsert mountNext mntId (mntIndex id) s.mounts s.mountTable (some f)).1,
        (hashTableInsert mountNext mntId (mntIndex id) s.mounts s.mountTable (some f)).2⟩
      (push unEq t.entries (s.mounts f).src (some f)) (Fintype.card (Option φ)) := by
  refine Represents.capped (Represents.insert mountNext_lawful
    (fun m w v y _ _ => mntId_set m w v y) unEq_equivalence mntIndex_congr h
    (show isNode (some f) from rfl)
    (Option.some_ne_none f) ?_)
  intro key hin
  obtain ⟨i, g, -, hgf, hg⟩ := mem_entries hin
  exact hout i (Option.some.inj hgf ▸ hg)

omit [DecidableEq κ] [Fintype κ] [Fintype φ] in
theorem MountTable.delete {n : ℕ} (h : MountTable id s t n) (i : ι) : ∃ m' table',
    hashTableDelete mountNext none mntId unEq (mntIndex id) (n + 1) s.mounts s.mountTable
      (some i) = some (m', table', top none t.entries (some i)) ∧
    Represents mountNext none mntId unEq (mntIndex id) isNode ⟨m', table'⟩
      (pop unEq t.entries (some i)) n :=
  Represents.delete mountNext_lawful (fun m w v y _ _ => mntId_set m w v y) unEq_equivalence
    mntIndex_congr h (Nat.lt_succ_self n)

theorem Tables.lookup (h : Tables name id s t) (i : ι) :
    filesysLookup id s i = some (t.stack i).head? := by
  rw [filesysLookup, h.mount.lookup (Nat.lt_succ_self _), top, Mounts.entries, Option.elim_some,
    List.head?_map]
  cases (t.stack i).head? <;> rfl

theorem Tables.find (h : Tables name id s t) (hstrcmp : ∀ a b, strcmp a b = 0 ↔ a = b)
    (fsname : Name) :
    fsTableLookup strcmp name s fsname = some ((t.find name fsname).map Prod.fst) := by
  have hsame : (fun a b => decide (strcmp a b = 0)) = unEq := by
    funext a b
    exact decide_eq_decide.mpr (hstrcmp a b)
  rw [fsTableLookup, hsame, h.fs.lookup (Nat.lt_succ_self _), top, Mounts.named, List.head?_map,
    List.head?_filter, Mounts.find]
  cases t.registered.find? fun p => unEq (name p.2) fsname <;> rfl

theorem Tables.register {x : κ} (h : Tables name id s t) (hnew : ∀ p ∈ t.registered, p.1 ≠ x)
    (fsDef : δ) : ∃ s', filesysRegister name s (some x) fsDef = some s' ∧
      Tables name id s' (t.after (.register (some x) fsDef)) := by
  have hkept := FsTable.kept h.fs (Function.update s.nodes x { s.nodes x with fs := fsDef })
    fun p hp => by simp [hnew p hp]
  have hinsert := FsTable.insert hkept hnew
  refine ⟨_, rfl, ?_, h.mount, fun p hp => ?_, h.src, h.keys⟩
  · have hstack : Mounts.named name (t.after (.register (some x) fsDef)) =
        push unEq (t.named name) (name fsDef) (some x) := by
      funext key
      simp only [Mounts.named, Mounts.after, push, List.filter_cons]
      by_cases hsame : unEq (name fsDef) key = true
      · simp only [if_pos hsame, List.map_cons]
      · simp only [if_neg hsame]
    simp only [Function.update_self] at hinsert
    rw [FsTable, hstack]
    exact hinsert
  · simp only [Mounts.after, List.mem_cons] at hp
    simp only [hashTableInsert, nodeNext, tableField]
    rcases hp with rfl | hp
    · simp
    · simpa [hnew p hp] using h.defs p hp

theorem Tables.mount_none {fsname : Name} {i : ι} (h : Tables name id s t)
    (hstrcmp : ∀ a b, strcmp a b = 0 ↔ a = b) {p : κ × δ}
    (hfind : t.find name fsname = some p) :
    filesysMount strcmp name id s fsname i none = some (s, some p.2, none) := by
  have hdef := h.defs p (List.mem_of_find?_eq_some hfind)
  rw [filesysMount, h.find hstrcmp, hfind]
  simp [hdef]

theorem Tables.mount_some {fsname : Name} {i : ι} {f : φ} (h : Tables name id s t)
    (hstrcmp : ∀ a b, strcmp a b = 0 ↔ a = b) {p : κ × δ}
    (hfind : t.find name fsname = some p) (hout : ∀ i, f ∉ t.stack i)
    (hfree : ∀ i, (f, i) ∉ t.mounted) :
    ∃ s', filesysMount strcmp name id s fsname i (some f) = some (s', some p.2, some f) ∧
      Tables name id s' (t.after (.mount fsname i (some f))) := by
  have hdef := h.defs p (List.mem_of_find?_eq_some hfind)
  have hne : ∀ {g : φ} {j : ι}, g ∈ t.stack j → g ≠ f := fun hg hgf => hout _ (hgf ▸ hg)
  have hkept := MountTable.kept h.mount
    (Function.update s.mounts f { s.mounts f with src := some i }) fun j g hg => by simp [hne hg]
  have hinsert := MountTable.insert hkept hout
  refine ⟨enterMount id s i f, ?_, h.fs, ?_, h.defs, fun q hq => ?_, fun j g hg => ?_⟩
  · rw [filesysMount, h.find hstrcmp, hfind]
    simp only [Option.map_some, Option.bind_some, Option.elim_some, hdef]
  · have hstack : (t.after (.mount fsname i (some f))).entries =
        push unEq t.entries (some i) (some f) := by
      funext key
      cases key with
      | none => simp [Mounts.entries, push, unEq]
      | some j =>
        by_cases hj : i = j
        · simp [Mounts.entries, Mounts.after, push, unEq, hj]
        · simp [Mounts.entries, Mounts.after, push, unEq, hj, Function.update_of_ne (Ne.symm hj)]
    simp only [Function.update_self] at hinsert
    rw [MountTable, hstack]
    exact hinsert
  · simp only [Mounts.after, List.mem_cons] at hq
    simp only [enterMount, hashTableInsert, mountNext, tableField]
    rcases hq with rfl | hq
    · simp
    · have hqf : q.1 ≠ f := fun hqf => hfree q.2 (by rw [← hqf]; exact hq)
      simpa [hqf] using h.src q hq
  · simp only [Mounts.after] at hg
    simp only [enterMount, hashTableInsert, mountNext, tableField]
    by_cases hj : j = i
    · subst hj
      rw [Function.update_self] at hg
      rcases List.mem_cons.mp hg with rfl | hg
      · simp
      · simpa [hne hg] using h.keys j g hg
    · rw [Function.update_of_ne hj] at hg
      simpa [hne hg] using h.keys j g hg

omit [DecidableEq ι] [Fintype φ] in
theorem mountNext_set_src (m : φ → Filesys φ ι) (w v : Option φ) (y : φ) :
    (mountNext.set m w v y).src = (m y).src := by
  cases w with
  | none => rfl
  | some x => by_cases hy : y = x <;> simp [mountNext, tableField, hy]

theorem Tables.unmount {f : φ} {i : ι} (h : Tables name id s t) (hf : (f, i) ∈ t.mounted) {out : ℤ}
    (hout : out = 0) :
    ∃ s', filesysUnmount id s f out = some s' ∧ Tables name id s' (t.after (.unmount f i out)) := by
  have hafter : t.after (.unmount f i out) =
      { t with
        mounted := t.mounted.erase (f, i)
        stack := Function.update t.stack i (t.stack i).tail } := by
    simp only [Mounts.after, if_pos hout]
  obtain ⟨m', table', hdel, hrep⟩ := MountTable.delete h.mount i
  have hsame : ∀ y, (m' y).src = (s.mounts y).src := fun y =>
    hashTableDelete_keeps (g := fun m => (m y).src) (fun m p v => mountNext_set_src m p v y) hdel
  rw [hafter]
  refine ⟨{ s with mounts := m', mountTable := table' }, ?_, h.fs, ?_, h.defs, fun q hq => ?_,
    fun j g hg => ?_⟩
  · rw [filesysUnmount, if_pos hout, h.src _ hf, hdel]
    rfl
  · have hstack : Mounts.entries { t with
        mounted := t.mounted.erase (f, i)
        stack := Function.update t.stack i (t.stack i).tail } = pop unEq t.entries (some i) := by
      funext key
      cases key with
      | none => simp [Mounts.entries, pop, unEq]
      | some j =>
        by_cases hj : i = j
        · simp [Mounts.entries, pop, unEq, hj]
        · simp [Mounts.entries, pop, unEq, hj, Function.update_of_ne (Ne.symm hj)]
    rw [MountTable, hstack]
    exact hrep
  · exact (hsame q.1).trans (h.src q (List.mem_of_mem_erase hq))
  · refine (hsame g).trans (h.keys j g ?_)
    by_cases hj : j = i
    · subst hj
      simp only [Function.update_self] at hg
      exact List.mem_of_mem_tail hg
    · simpa only [Function.update_of_ne hj] using hg

theorem Tables.elsewhere {nodes : κ → FsNode κ δ} {mounts : φ → Filesys φ ι} (h : Tables name id s t)
    (ha : Allowed s t (.elsewhere nodes mounts)) :
    Tables name id { s with nodes := nodes, mounts := mounts } t := by
  obtain ⟨hnodes, hmounts, hsrc⟩ := ha
  refine ⟨Represents.capped (FsTable.kept h.fs nodes hnodes),
    Represents.capped (MountTable.kept h.mount mounts hmounts),
    fun p hp => (hnodes p hp).2.trans (h.defs p hp), fun p hp => (hsrc p hp).trans (h.src p hp),
    fun i f hf => (hmounts i f hf).2.trans (h.keys i f hf)⟩

/-- A call does what it is to do: it faults where it has no reply, and otherwise it gives this reply
and the tables hold what is registered and mounted then. -/
theorem Tables.answers (h : Tables name id s t) (hstrcmp : ∀ a b, strcmp a b = 0 ↔ a = b)
    (ha : Allowed s t call) :
    (t.reply name call = none ∧ next strcmp name id s call = none) ∨
      ∃ s' r, t.reply name call = some r ∧ next strcmp name id s call = some (s', r) ∧
        Tables name id s' (t.after call) := by
  cases call with
  | register node fsDef =>
    cases node with
    | none => exact Or.inl ⟨rfl, rfl⟩
    | some x =>
      obtain ⟨s', hrun, htab⟩ := h.register (ha x rfl) fsDef
      exact Or.inr ⟨s', _, rfl, by rw [next, hrun]; rfl, htab⟩
  | mount fsname inode made =>
    cases hfind : t.find name fsname with
    | none =>
      refine Or.inl ⟨by rw [Mounts.reply, hfind]; rfl, ?_⟩
      rw [next, filesysMount, h.find hstrcmp, hfind]
      rfl
    | some p =>
      refine Or.inr ?_
      cases made with
      | none => exact ⟨s, _, by rw [Mounts.reply, hfind]; rfl, h.mount_none hstrcmp hfind, h⟩
      | some f =>
        obtain ⟨hout, hfree⟩ := ha f rfl
        obtain ⟨s', hrun, htab⟩ := h.mount_some (i := inode) hstrcmp hfind hout hfree
        exact ⟨s', _, by rw [Mounts.reply, hfind]; rfl, hrun, htab⟩
  | unmount f inode out =>
    by_cases hout : out = 0
    · obtain ⟨s', hrun, htab⟩ := h.unmount ha hout
      exact Or.inr ⟨s', _, rfl, by rw [next, hrun]; rfl, htab⟩
    · refine Or.inr ⟨s, _, rfl, ?_, ?_⟩
      · rw [next, filesysUnmount, if_neg hout]
        rfl
      · simpa only [Mounts.after, if_neg hout] using h
  | lookup inode => exact Or.inr ⟨s, _, rfl, by rw [next, h.lookup]; rfl, h⟩
  | elsewhere nodes mounts => exact Or.inr ⟨_, _, rfl, rfl, h.elsewhere ha⟩

section Runs

variable {x y : System κ φ ι δ × Mounts κ φ ι δ} {calls : List (Call κ φ ι δ)}

theorem Initial.tables (h : Initial x) : Tables name id x.1 x.2 := by
  obtain ⟨s, t⟩ := x
  obtain ⟨hfs, hmount, hregistered, hmounted, hstack⟩ := h
  simp only at hfs hmount hregistered hmounted hstack
  have hnamed : t.named name = fun _ => [] := by
    funext key
    simp [Mounts.named, hregistered]
  have hentries : t.entries = fun _ => [] := by
    funext key
    cases key <;> simp [Mounts.entries, hstack]
  refine ⟨?_, ?_, by simp [hregistered], by simp [hmounted], by simp [hstack]⟩
  · rw [FsTable, hnamed, hfs]
    exact Represents.capped (represents_empty s.nodes)
  · rw [MountTable, hentries, hmount]
    exact Represents.capped (represents_empty s.mounts)

theorem step_tables (h : Tables name id x.1 x.2) (hstrcmp : ∀ a b, strcmp a b = 0 ↔ a = b)
    {call : Call κ φ ι δ} (hs : Step strcmp name id x call y) : Tables name id y.1 y.2 := by
  obtain ⟨ha, hnext, hafter⟩ := hs
  rw [hafter]
  rcases Tables.answers h hstrcmp ha with ⟨-, hnone⟩ | ⟨s', r, -, hsome, htab⟩
  · rw [hnone] at hnext
    cases hnext
  · rw [hsome, Option.map_some, Option.some.injEq] at hnext
    exact hnext ▸ htab

def Mounts.count (t : Mounts κ φ ι δ) (i : ι) : ℕ := t.mounted.countP fun p => decide (p.2 = i)

/-- An inode has as many entries as file systems are mounted on it. -/
theorem step_counts (hlen : ∀ i, (x.2.stack i).length = x.2.count i) {call : Call κ φ ι δ}
    (hs : Step strcmp name id x call y) : ∀ i, (y.2.stack i).length = y.2.count i := by
  obtain ⟨ha, -, hafter⟩ := hs
  intro i
  have hi := hlen i
  rw [hafter]
  cases call with
  | register node fsDef => cases node <;> exact hi
  | lookup inode => exact hi
  | elsewhere nodes mounts => exact hi
  | mount fsname inode made =>
    cases made with
    | none => exact hi
    | some f =>
      simp only [Mounts.after, Mounts.count, List.countP_cons]
      by_cases hin : i = inode
      · subst hin
        simpa [Mounts.count] using hi
      · simpa [Function.update_of_ne hin, Ne.symm hin, Mounts.count] using hi
  | unmount f inode out =>
    by_cases hout : out = 0
    · simp only [Mounts.after, if_pos hout]
      rw [Mounts.count, List.countP_erase]
      by_cases hin : i = inode
      · subst hin
        rw [Function.update_self, List.length_tail, hi, if_pos ⟨ha, by simp⟩]
        rfl
      · rw [Function.update_of_ne hin, hi, if_neg (by simp [Ne.symm hin])]
        rfl
    · simpa only [Mounts.after, if_neg hout] using hi

theorem trace_tables (hstrcmp : ∀ a b, strcmp a b = 0 ↔ a = b) (hx : Initial x)
    (h : Trace (Step strcmp name id) x calls y) :
    Tables name id y.1 y.2 ∧ ∀ i, (y.2.stack i).length = y.2.count i := by
  refine h.preserves (I := fun x => Tables name id x.1 x.2 ∧
    ∀ i, (x.2.stack i).length = x.2.count i) (fun x e y hI hs => ?_) ⟨hx.tables, fun i => ?_⟩
  · exact ⟨step_tables hI.1 hstrcmp hs, step_counts hI.2 hs⟩
  · simp [hx.stack, Mounts.count, hx.mounted]

/-- In every run every call does what it is to do, and a lookup finds nothing exactly when nothing is
mounted on the inode. -/
theorem filesys_calls_answered (hstrcmp : ∀ a b, strcmp a b = 0 ↔ a = b) (hx : Initial x)
    (h : Trace (Step strcmp name id) x calls y) :
    (∀ call, Allowed y.1 y.2 call →
      (next strcmp name id y.1 call).map Prod.snd = y.2.reply name call) ∧
    ∀ i, filesysLookup id y.1 i = some none ↔ ∀ f, (f, i) ∉ y.2.mounted := by
  obtain ⟨htab, hcount⟩ := trace_tables hstrcmp hx h
  refine ⟨fun call ha => ?_, fun i => ?_⟩
  · rcases htab.answers hstrcmp ha with ⟨hreply, hnone⟩ | ⟨s', r, hreply, hsome, -⟩
    · rw [hreply, hnone]
      rfl
    · rw [hreply, hsome]
      rfl
  · rw [htab.lookup, Option.some.injEq, List.head?_eq_none_iff, ← List.length_eq_zero_iff, hcount,
      Mounts.count, List.countP_eq_zero]
    constructor
    · intro hnone f hf
      simpa using hnone (f, i) hf
    · rintro hnone ⟨f, j⟩ hf
      simp only [decide_eq_true_eq]
      rintro rfl
      exact hnone f hf

def Nested (t : Mounts κ φ ι δ) : Call κ φ ι δ → Prop
  | .unmount f inode _ => (t.stack inode).head? = some f
  | _ => True

def Exact (t : Mounts κ φ ι δ) : Prop :=
  ∀ i, t.stack i = (t.mounted.filter fun p => decide (p.2 = i)).map Prod.fst

theorem step_exact (hexact : Exact x.2) {call : Call κ φ ι δ} (hs : Step strcmp name id x call y)
    (hnested : Nested x.2 call) : Exact y.2 := by
  obtain ⟨ha, -, hafter⟩ := hs
  intro i
  have hi := hexact i
  rw [hafter]
  cases call with
  | register node fsDef => cases node <;> exact hi
  | lookup inode => exact hi
  | elsewhere nodes mounts => exact hi
  | mount fsname inode made =>
    cases made with
    | none => exact hi
    | some f =>
      simp only [Mounts.after, List.filter_cons]
      by_cases hin : i = inode
      · subst hin
        simpa using hi
      · simpa [Function.update_of_ne hin, Ne.symm hin] using hi
  | unmount f inode out =>
    by_cases hout : out = 0
    · simp only [Mounts.after, if_pos hout]
      rw [← List.erase_filter]
      by_cases hin : i = inode
      · subst hin
        have hhead : (x.2.stack i).head? = some f := hnested
        rw [Function.update_self]
        rw [hi] at hhead ⊢
        cases hl : x.2.mounted.filter fun p => decide (p.2 = i) with
        | nil => simp [hl] at hhead
        | cons p l =>
          have hp : decide (p.2 = i) = true := by
            have hmem : p ∈ x.2.mounted.filter fun p => decide (p.2 = i) := by simp [hl]
            exact (List.mem_filter.mp hmem).2
          rw [hl] at hhead
          simp only [List.map_cons, List.head?_cons, Option.some.injEq] at hhead
          have hfirst : p = (f, i) := Prod.ext hhead (of_decide_eq_true hp)
          rw [hfirst, List.erase_cons_head]
          rfl
      · rw [Function.update_of_ne hin, hi, List.erase_of_not_mem]
        simp [Ne.symm hin]
    · simpa only [Mounts.after, if_neg hout] using hi

/-- In every run in which of the file systems on one inode the latest is unmounted first, a lookup
finds the one that was mounted last and is still mounted. -/
theorem filesys_lookup_latest (hstrcmp : ∀ a b, strcmp a b = 0 ↔ a = b) (hx : Initial x)
    (h : Trace (fun x call y => Step strcmp name id x call y ∧ Nested x.2 call) x calls y) (i : ι) :
    filesysLookup id y.1 i =
      some ((y.2.mounted.find? fun p => decide (p.2 = i)).map Prod.fst) := by
  obtain ⟨htab, hexact⟩ : Tables name id y.1 y.2 ∧ Exact y.2 := by
    refine h.preserves (I := fun x => Tables name id x.1 x.2 ∧ Exact x.2) (fun x e y hI hs => ?_)
      ⟨hx.tables, fun i => ?_⟩
    · exact ⟨step_tables hI.1 hstrcmp hs.1, step_exact hI.2 hs.1 hs.2⟩
    · simp [hx.stack, hx.mounted]
  rw [htab.lookup, hexact i, List.head?_map, List.head?_filter]

end Runs

end Code

/-- One definition, named `f`; everything is on the inode `()`. -/
def fresh : System Unit Bool Unit Unit × Mounts Unit Bool Unit Unit :=
  (⟨fun _ => ⟨none, ()⟩, fun _ => none, fun _ => ⟨none, none⟩, fun _ => none⟩,
    ⟨[], [], fun _ => []⟩)

def sameName (a b : Name) : BitVec 32 := if a = b then 0 else 1

theorem sameName_zero (a b : Name) : sameName a b = 0 ↔ a = b := by
  unfold sameName
  split <;> simp [*]

theorem fresh_initial : Initial fresh := ⟨rfl, rfl, rfl, rfl, rfl⟩

def overlay : List (Call Unit Bool Unit Unit) :=
  [.register (some ()) (), .mount [0x66] () (some false), .mount [0x66] () (some true),
    .unmount true () 0]

theorem overlay_nested : ∃ y, Trace (fun x call y =>
    Step sameName (fun _ => [0x66]) (fun _ => 7) x call y ∧
      Nested x.2 call) fresh overlay y ∧ y.2.mounted = [(false, ())] := by
  refine ⟨_, .cons (t := (_, _)) ⟨⟨?_, rfl, rfl⟩, trivial⟩
    (.cons (t := (_, _)) ⟨⟨?_, rfl, rfl⟩, trivial⟩
      (.cons (t := (_, _)) ⟨⟨?_, rfl, rfl⟩, trivial⟩
        (.cons (t := (_, _)) ⟨⟨?_, rfl, rfl⟩, rfl⟩ (.nil _)))), rfl⟩
  · intro x _ p hp
    cases hp
  · intro f hf
    obtain rfl := Option.some.inj hf
    exact ⟨fun i => List.not_mem_nil, fun i => List.not_mem_nil⟩
  · intro f hf
    obtain rfl := Option.some.inj hf
    exact ⟨fun i => (by decide : true ∉ [false]), fun i => (by decide : (true, ()) ∉ [(false, ())])⟩
  · exact List.mem_cons_self

theorem filesys_lookup_latest_overlay : ∃ y : System Unit Bool Unit Unit × Mounts Unit Bool Unit Unit,
    filesysLookup (fun _ => 7) y.1 () = some (some false) := by
  obtain ⟨y, hrun, hmounted⟩ := overlay_nested
  refine ⟨y, ?_⟩
  rw [filesys_lookup_latest sameName_zero fresh_initial hrun (), hmounted]
  rfl

theorem filesys_calls_answered_overlay : ∃ y : System Unit Bool Unit Unit × Mounts Unit Bool Unit Unit,
    filesysLookup (fun _ => 7) y.1 () ≠ some none := by
  obtain ⟨y, hrun, hmounted⟩ := overlay_nested
  have hsteps : Trace (Step sameName (fun _ => [0x66]) fun _ => 7) fresh overlay y := by
    obtain ⟨z, hz, rfl⟩ := hrun.simulates (R := Eq) (fun x y call x' hxy hs => ⟨x', hxy ▸ hs.1, rfl⟩)
      rfl
    exact hz
  refine ⟨y, fun hnone => ?_⟩
  have hempty := ((filesys_calls_answered sameName_zero fresh_initial hsteps).2 ()).mp hnone false
  simp [hmounted] at hempty

end FileSystems
