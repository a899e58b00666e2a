import Metakernel.HeapLocks
import Metakernel.ObjectCreation
import Metakernel.Registration

/-!
# The mutexes of memory management

`vmobj_create` and `vmobj_destroy` of virt_mem.c and `anon_page_free` of phys_mem.c with every
`mutex_lock` and `mutex_unlock`, beside `kern_realloc`. What `malloc` returns comes with the call,
NULL included; `malloc`, `free` and `swap_free` are taken to give back the mutexes that they take. A
null pointer that is followed ends a call.
-/
namespace MemoryLocks

open LinkedNodes DataStructures NodeTables PhysicalPages VirtualMemory CopyOnWrite LockCalls
  LockCalls.Call
open CowTable (Cow cowFind)
open ObjectCreation (VMOBJ_INODE VMOBJ_ANON VMOBJ_HASH_TABLE_SIZE)

/-- The statics of virt_mem.c and cow_table.c, and one mutex in each object. -/
inductive Mutex (ο : Type) where
  | object (o : ο)
  | vmCount
  | vmTab
  | cow
  deriving DecidableEq

section Creation

variable {σ ο ι ε : Type} [DecidableEq ο] [DecidableEq ι] [DecidableEq ε] [Fintype ε]

def VMOBJ_COPY : BitVec 32 := 3

/-- `hashNext` and `objTab` are the links and the heads of `vm_obj_tab`. -/
structure Objects (σ ο ι ε : Type) where
  objs : ο → VmObj σ ο ι
  size : ο → BitVec 32
  hashNext : ο → Option ο
  objTab : ℕ → Option ο
  idCount : BitVec 32
  cow : Cow ι ε

def Objects.setObj (s : Objects σ ο ι ε) (o : ο) (obj : VmObj σ ο ι) : Objects σ ο ι ε :=
  { s with objs := Function.update s.objs o obj }

def Objects.setSize (s : Objects σ ο ι ε) (o : ο) (size : BitVec 32) : Objects σ ο ι ε :=
  { s with size := Function.update s.size o size }

def objNext : NodeField (ο → Option ο) (Option ο) (Option ο) := tableField id fun _ v => v

def objId (s : Objects σ ο ι ε) (p : Option ο) : BitVec 32 := p.elim 0 fun o => (s.objs o).id

def objIndex (id : BitVec 32) : ℕ := id.toNat % VMOBJ_HASH_TABLE_SIZE

def objInsert (s : Objects σ ο ι ε) (o : ο) : Objects σ ο ι ε :=
  let r := hashTableInsert objNext (fun _ => objId s) objIndex s.hashNext s.objTab (some o)
  { s with hashNext := r.1, objTab := r.2 }

/-- What the inode and the anonymous objects have in common. The calls of `memset` for the mutex, the
mappers and the anonymous pages write nothing, as their value is 0. -/
def newObject (old : VmObj σ ο ι) (id perm : BitVec 32) (srcType : SrcType) : VmObj σ ο ι :=
  { old with
    id := id
    flags := perm
    numMappers := 0
    srcType := srcType
    cowNext := none
    cowPrev := none
    cowCount := 0 }

/-- An entry of the count table; where it needs a new one and `malloc` returns NULL, the null pointer
is followed. -/
def countPage (id : ι → BitVec 32) (c : Cow ι ε) (page : PageSrc ι) (block : Option ε) :
    Option (Cow ι ε) :=
  (cowFind id c page).bind fun
    | none => block.bind fun x => CowTable.cowInc id c page x
    | some x => some (c.setRefs x ((c.entries x).refs + 1))

abbrev Locking (σ ο ι ε α : Type) : Type := Call (Mutex ο) (Objects σ ο ι ε) α

def nextId : Locking σ ο ι ε (BitVec 32) := do
  spinLock .vmCount
  let id ← read Objects.idCount
  write fun s => { s with idCount := s.idCount + 1 }
  spinUnlock .vmCount
  pure id

def register (new : ο) : Locking σ ο ι ε Unit := do
  spinLock .vmTab
  write fun s => objInsert s new
  spinUnlock .vmTab

def cowInc (id : ι → BitVec 32) (page : PageSrc ι) (block : Option ε) :
    Locking σ ο ι ε Unit := do
  spinLock .cow
  change fun s => (countPage id s.cow page block).map fun cow => { s with cow := cow }
  spinUnlock .cow

def countLoop (id : ι → BitVec 32) (t : Untyped ι) (blocks : ℕ → Option ε) (copy new : ο) :
    ℕ → Locking σ ο ι ε Unit
  | 0 => pure ()
  | n + 1 => do
    countLoop id t blocks copy new n
    let page ← read fun s => countedPage t (s.objs copy) n
    write fun s => s.setObj new
      { s.objs new with anonPages := Function.update (s.objs new).anonPages n 0 }
    cowInc id page (blocks n)

def createInode (perm size : BitVec 32) (inode : ι) (offset : BitVec 32) (new : Option ο) :
    Locking σ ο ι ε (Option ο) :=
  match new with
  | none => pure none
  | some new => do
    let id ← nextId
    write fun s => (s.setSize new size).setObj new
      { newObject (s.objs new) id perm .inode with inode := inode, offset := offset }
    register new
    pure (some new)

def createAnon (perm size : BitVec 32) (new : Option ο) : Locking σ ο ι ε (Option ο) :=
  match new with
  | none => pure none
  | some new => do
    let id ← nextId
    write fun s => (s.setSize new size).setObj new (newObject (s.objs new) id perm .anon)
    register new
    pure (some new)

/-- The mutex of the object is locked before its pointer is compared with NULL, and no other exit
than the last one unlocks it. -/
def createCopy (id : ι → BitVec 32) (perm size : BitVec 32) (copy new : Option ο) (t : Untyped ι)
    (blocks : ℕ → Option ε) : Locking σ ο ι ε (Option ο) :=
  match copy with
  | none => halt
  | some copy => do
    spinLock (.object copy)
    if perm &&& VMOBJ_WRITE = 0 then pure none
    else match new with
      | none => pure none
      | some new => do
        let newId ← nextId
        write fun s => (s.setSize new (s.size copy)).setObj new
          (newCopy (s.objs new) newId perm (s.size copy / 4096) copy new 0)
        write fun s => s.setObj copy (markSource (s.objs copy) (s.size copy / 4096))
        spinUnlock (.object copy)
        countLoop id t blocks copy new (size / 4096).toNat
        register new
        pure (some new)

def vmobjCreate (id : ι → BitVec 32) (type perm size : BitVec 32) (inode : ι) (copy : Option ο)
    (offset : BitVec 32) (new : Option ο) (t : Untyped ι)
    (blocks : ℕ → Option ε) : Locking σ ο ι ε (Option ο) :=
  if type = VMOBJ_INODE then createInode perm size inode offset new
  else if type = VMOBJ_ANON then createAnon perm size new
  else if type = VMOBJ_COPY then createCopy id perm size copy new t blocks
  else pure none

/-! The loop without the mutex. -/

def countAll (id : ι → BitVec 32) (pages : ℕ → PageSrc ι) (blocks : ℕ → Option ε) (c : Cow ι ε) :
    ℕ → Option (Cow ι ε)
  | 0 => some c
  | n + 1 => (countAll id pages blocks c n).bind fun c => countPage id c (pages n) (blocks n)

def Objects.copied (s : Objects σ ο ι ε) (perm : BitVec 32) (copy new : ο) (n : ℕ)
    (cow : Cow ι ε) : Objects σ ο ι ε :=
  { s with
    objs := Function.update (Function.update s.objs copy
      (markSource (s.objs copy) (s.size copy / 4096))) new
        (newCopy (s.objs new) s.idCount perm (s.size copy / 4096) copy new n)
    size := Function.update s.size new (s.size copy)
    idCount := s.idCount + 1
    cow := cow }

variable {held : Mutex ο → Bool} {s : Objects σ ο ι ε} {perm size : BitVec 32} {id : ι → BitVec 32}
  {t : Untyped ι} {blocks : ℕ → Option ε} {copy new : ο}

omit [DecidableEq ι] [DecidableEq ε] [Fintype ε] in
theorem nextId_ends (hc : held .vmCount = false) :
    Ends held (nextId : Locking σ ο ι ε _) s held s.idCount { s with idCount := s.idCount + 1 } :=
  (ends_lock hc).bind ((ends_read _).bind ((ends_write _).bind ((ends_unlock hc).bind ends_pure)))

omit [DecidableEq ι] [DecidableEq ε] [Fintype ε] in
theorem register_ends (ht : held .vmTab = false) :
    Ends held (register new) s held () (objInsert s new) :=
  (ends_lock ht).bind ((ends_write _).bind (ends_unlock ht))

theorem cowInc_runs {page : PageSrc ι} {block : Option ε} (hw : held .cow = false) :
    Runs held (cowInc id page block) s held
      (((countPage id s.cow page block).map fun cow => { s with cow := cow }).map
        fun s => (s, ())) := runs_section_unit hw runs_compute

omit [DecidableEq ι] [DecidableEq ε] [Fintype ε] in
theorem Objects.copied_clear {n : ℕ} {cow : Cow ι ε} :
    (s.copied perm copy new n cow).setObj new
      { (s.copied perm copy new n cow).objs new with
        anonPages := Function.update ((s.copied perm copy new n cow).objs new).anonPages n 0 } =
      s.copied perm copy new (n + 1) cow := by
  have hpages : Function.update (newCopy (s.objs new) s.idCount perm (s.size copy / 4096) copy
      new n).anonPages n 0 = (newCopy (s.objs new) s.idCount perm (s.size copy / 4096) copy new
        (n + 1)).anonPages := by
    funext i
    by_cases hi : i = n
    · simp [newCopy, hi]
    · rw [Function.update_of_ne hi]
      simp only [newCopy, show (i < n + 1) = (i < n) from propext (by omega)]
  simp only [Objects.setObj, Objects.copied, Function.update_self, Function.update_idem, hpages]
  rfl

/-- After `n` pages the entries of the copy below `n` are 0. -/
theorem countLoop_runs (hw : held .cow = false) (hne : new ≠ copy) (n : ℕ) :
    Runs held (countLoop id t blocks copy new n) (s.copied perm copy new 0 s.cow) held
      (((countAll id (countedPage t (s.objs copy)) blocks s.cow n).map fun cow =>
        s.copied perm copy new n cow).map fun s => (s, ())) := by
  induction n with
  | zero => exact runs_pure
  | succ n ih =>
    rw [countLoop, countAll]
    cases hcow : countAll id (countedPage t (s.objs copy)) blocks s.cow n with
    | none =>
      rw [hcow] at ih
      exact runs_none (congrArg Outcome.result (bind_halts (ih.halts rfl)))
    | some cow =>
      rw [hcow] at ih
      have hpage : countedPage t ((s.copied perm copy new n cow).objs copy) n =
          countedPage t (s.objs copy) n := by
        simp [Objects.copied, Function.update_of_ne hne.symm, markSource, countedPage]
      refine (ih.ends _ rfl).runs_bind ((ends_read _).runs_bind ((ends_write _).runs_bind ?_))
      rw [Objects.copied_clear, hpage]
      have hlast : Runs held (cowInc id (countedPage t (s.objs copy) n) (blocks n))
        (s.copied perm copy new (n + 1) cow) held _ := cowInc_runs hw
      simp only [Option.map_map] at hlast ⊢
      exact hlast

/-- What the locking model leaves is what `vmobjCopy` computes for a copy that fits in its block. -/
theorem createCopy_runs (ho : held (.object copy) = false) (hc : held .vmCount = false)
    (ht : held .vmTab = false) (hw : held .cow = false) (hne : new ≠ copy)
    (hperm : perm &&& VMOBJ_WRITE ≠ 0) :
    Runs held (createCopy id perm size (some copy) (some new) t blocks) s held
      ((countAll id (countedPage t (s.objs copy)) blocks s.cow (size / 4096).toNat).map fun cow =>
        (objInsert (s.copied perm copy new (size / 4096).toNat cow) new, some new)) := by
  have hcount : Function.update held (.object copy) true .vmCount = false := hc
  have hrest : Runs held (do
      countLoop id t blocks copy new (size / 4096).toNat
      register new
      pure (some new)) (s.copied perm copy new 0 s.cow) held
      ((countAll id (countedPage t (s.objs copy)) blocks s.cow (size / 4096).toNat).map fun cow =>
        (objInsert (s.copied perm copy new (size / 4096).toNat cow) new, some new)) := by
    have hloop : Runs held (countLoop id t blocks copy new (size / 4096).toNat)
      (s.copied perm copy new 0 s.cow) held _ := countLoop_runs hw hne _
    cases hcow : countAll id (countedPage t (s.objs copy)) blocks s.cow (size / 4096).toNat with
    | none =>
      rw [hcow] at hloop
      exact runs_none (congrArg Outcome.result (bind_halts (hloop.halts rfl)))
    | some cow =>
      rw [hcow] at hloop
      exact (hloop.ends _ rfl).runs_bind ((register_ends ht).runs_bind runs_pure)
  rw [createCopy]
  refine (ends_lock ho).runs_bind ?_
  rw [if_neg hperm]
  refine (nextId_ends hcount).runs_bind ((ends_write _).runs_bind ((ends_write _).runs_bind ?_))
  refine (ends_unlock ho).runs_bind ?_
  simpa only [Objects.setSize, Objects.setObj, Objects.copied, Function.update_of_ne hne.symm,
    Function.update_comm hne] using hrest

omit [DecidableEq ι] [DecidableEq ε] [Fintype ε] in
theorem createInode_restores {inode : ι} {offset : BitVec 32} {new : Option ο}
    (hc : held .vmCount = false) (ht : held .vmTab = false) :
    Restores held (createInode perm size inode offset new : Locking σ ο ι ε _) s
      (fun _ => True) := by
  cases new with
  | none => exact ends_pure.returns trivial
  | some x =>
    refine (nextId_ends hc).returns_iff.mpr ((ends_write _).returns_iff.mpr ?_)
    exact (register_ends ht).returns_iff.mpr (ends_pure.returns trivial)

omit [DecidableEq ι] [DecidableEq ε] [Fintype ε] in
theorem createAnon_restores {new : Option ο} (hc : held .vmCount = false)
    (ht : held .vmTab = false) :
    Restores held (createAnon perm size new : Locking σ ο ι ε _) s (fun _ => True) := by
  cases new with
  | none => exact ends_pure.returns trivial
  | some x =>
    refine (nextId_ends hc).returns_iff.mpr ((ends_write _).returns_iff.mpr ?_)
    exact (register_ends ht).returns_iff.mpr (ends_pure.returns trivial)

/-- A copy is created: the object is there and may be written, there is memory for the copy, and
the counts of its pages can be raised. -/
def Copies (id : ι → BitVec 32) (s : Objects σ ο ι ε) (perm size : BitVec 32) (copy new : Option ο)
    (t : Untyped ι) (blocks : ℕ → Option ε) : Prop :=
  perm &&& VMOBJ_WRITE ≠ 0 ∧ new ≠ none ∧ ∃ o, copy = some o ∧
    countAll id (countedPage t (s.objs o)) blocks s.cow (size / 4096).toNat ≠ none

theorem vmobjCreate_restores_iff {type offset : BitVec 32} {inode : ι} {copy new : Option ο}
    (ho : ∀ o, copy = some o → held (.object o) = false ∧ new ≠ some o)
    (hc : held .vmCount = false) (ht : held .vmTab = false) (hw : held .cow = false) :
    Restores held (vmobjCreate id type perm size inode copy offset new t blocks) s
      (fun _ => True) ↔ type ≠ VMOBJ_COPY ∨ Copies id s perm size copy new t blocks := by
  by_cases hcopy : type = VMOBJ_COPY
  · rw [vmobjCreate, if_neg (by rw [hcopy]; decide), if_neg (by rw [hcopy]; decide), if_pos hcopy]
    simp only [hcopy, ne_eq, not_true_eq_false, false_or]
    cases copy with
    | none => exact iff_of_false returns_halt (by simp [Copies])
    | some o =>
      obtain ⟨hheld, hnew⟩ := ho o rfl
      by_cases hperm : perm &&& VMOBJ_WRITE = 0
      · unfold Restores createCopy
        rw [returns_lock hheld, if_pos hperm, returns_pure]
        exact iff_of_false (fun h => update_ne hheld h.1) fun h => h.1 hperm
      · cases new with
        | none =>
          unfold Restores createCopy
          rw [returns_lock hheld, if_neg hperm, returns_pure]
          exact iff_of_false (fun h => update_ne hheld h.1) fun h => h.2.1 rfl
        | some x =>
          rw [(createCopy_runs hheld hc ht hw (fun heq => hnew (heq ▸ rfl)) hperm).restores_iff]
          simp only [Copies, hperm, Option.some_inj, exists_eq_left', ne_eq, not_false_eq_true,
            reduceCtorEq, true_and, Option.map_eq_none_iff]
  · refine iff_of_true ?_ (Or.inl hcopy)
    rw [vmobjCreate, if_neg hcopy]
    split
    · exact createInode_restores hc ht
    · split
      · exact createAnon_restores hc ht
      · exact ends_pure.returns trivial

end Creation

section Destruction

open AddressSpaces (Vm Block objTableDelete cowDelete readNumMappers InRing)
open AddressLookup (loopBound)

def vmobjDestroy (obj : ℕ) : Call (Mutex ℕ) Vm ℤ :=
  if obj = 0 then halt
  else do
    spinLock (.object obj)
    spinLock .vmTab
    let target ← compute fun vm => objTableDelete vm (vm.objs obj).id
    spinUnlock .vmTab
    let destroys ← inspect fun vm => if target ≠ 0 then some true
      else (readNumMappers vm target).map fun n => decide (n ≠ 0)
    if destroys then do
      change fun vm => cowDelete vm target
      write fun vm => vm.free (.vmObj target)
      pure 0
    else pure (-1)

def FindsItself (vm : Vm) (obj : ℕ) : Prop :=
  hashTableLookup AddressSpaces.objNext 0 AddressSpaces.objId (fun a b => a = b)
    AddressSpaces.objIndex (loopBound + 1) vm vm.vmObjTab (vm.objs obj).id = some obj

def RestoresOthers (held : Mutex ℕ → Bool) (x : Call (Mutex ℕ) Vm ℤ) (vm : Vm) : Prop :=
  ∃ held₁ r vm₁ freed, Ends held x vm held₁ r vm₁ ∧ vm₁.freed = freed ++ vm.freed ∧
    ∀ m, (∀ p, m = .object p → .vmObj p ∉ freed) → held₁ m = held m

variable {held : Mutex ℕ → Bool} {vm vm₁ : Vm} {obj target : ℕ}

theorem vmobjDestroy_runs (ho : held (.object obj) = false) (ht : held .vmTab = false) :
    Runs held (vmobjDestroy obj) vm (Function.update held (.object obj) true)
      (AddressSpaces.vmobjDestroy vm obj) := by
  have htab : Function.update held (.object obj) true .vmTab = false := ht
  rw [vmobjDestroy, AddressSpaces.vmobjDestroy]
  by_cases hnull : obj = 0
  · rw [if_pos hnull, if_pos hnull]
    exact runs_none rfl
  · rw [if_neg hnull, if_neg hnull]
    refine (ends_lock ho).runs_bind ((ends_lock htab).runs_bind ?_)
    refine Runs.bind runs_compute fun target vm₁ _ => ?_
    refine (ends_unlock htab).runs_bind ?_
    have hrest : ∀ destroys : Bool, Runs (Function.update held (.object obj) true)
        (if destroys then do
          change fun vm => cowDelete vm target
          write fun vm => vm.free (.vmObj target)
          pure 0
        else pure (-1)) vm₁ (Function.update held (.object obj) true)
        (if destroys then (cowDelete vm₁ target).bind fun vm => some (vm.free (.vmObj target), 0)
        else some (vm₁, -1)) := by
      intro destroys
      cases destroys with
      | true => exact Runs.bind_change runs_compute fun vm₂ _ => (ends_write _).runs_bind runs_pure
      | false => exact runs_pure
    by_cases hzero : target ≠ 0
    · simp only [if_pos hzero]
      exact Runs.bind_inspect (o := some true) runs_compute fun destroys _ => hrest destroys
    · simp only [if_neg hzero]
      exact Runs.bind_inspect runs_compute fun destroys _ => hrest destroys

theorem objTableDelete_keeps {key : ℕ} (h : objTableDelete vm key = some (vm₁, target)) :
    vm₁.freed = vm.freed ∧ (InRing vm₁ target ↔ InRing vm target) := by
  obtain ⟨⟨vm₂, tab, found⟩, hdel, heq⟩ := Option.bind_eq_some_iff.mp h
  cases heq
  have hfreed := hashTableDelete_keeps (g := Vm.freed) (fun _ _ _ => rfl) hdel
  have hnext := hashTableDelete_keeps (g := fun v => (v.objs target).cowNext)
    (fun m p v => (AddressSpaces.objNext_set m p v target).2.1) hdel
  have hprev := hashTableDelete_keeps (g := fun v => (v.objs target).cowPrev)
    (fun m p v => (AddressSpaces.objNext_set m p v target).2.2) hdel
  dsimp only at hfreed hnext hprev
  exact ⟨hfreed, by simp only [InRing, hnext, hprev]⟩

theorem cowDelete_freed (h : cowDelete vm target = some vm₁) : vm₁.freed = vm.freed := by
  rw [cowDelete] at h
  split_ifs at h
  cases h
  exact clistDelete_keeps (fun _ _ _ => rfl) (fun _ _ _ => rfl) vm target

/-- What is found is freed; the call does not return where nothing is found. -/
theorem vmobjDestroy_eq_some {r : Vm × ℤ} (h : AddressSpaces.vmobjDestroy vm obj = some r) :
    ∃ vm₁ target, obj ≠ 0 ∧ target ≠ 0 ∧ objTableDelete vm (vm.objs obj).id = some (vm₁, target) ∧
      InRing vm target ∧ r.1.freed = .vmObj target :: vm.freed := by
  rw [AddressSpaces.vmobjDestroy] at h
  split at h
  · cases h
  · rename_i hnull
    obtain ⟨⟨vm₁, target⟩, hdel, h⟩ := Option.bind_eq_some_iff.mp h
    obtain ⟨hfreed, hring⟩ := objTableDelete_keeps hdel
    by_cases hzero : target = 0
    · simp [hzero, readNumMappers] at h
    · simp only [hzero, ne_eq, not_false_eq_true, if_true, Option.bind_eq_bind,
        Option.bind_some] at h
      obtain ⟨vm₂, hcut, heq⟩ := Option.bind_eq_some_iff.mp h
      cases heq
      refine ⟨vm₁, target, hnull, hzero, hdel, hring.mp ?_, ?_⟩
      · rw [← AddressSpaces.cowDelete_isSome_iff hzero, hcut]
        rfl
      · rw [Vm.free, cowDelete_freed hcut, hfreed]

theorem vmobjDestroy_returns (hnull : obj ≠ 0) (hfound : FindsItself vm obj) (hring : InRing vm obj) :
    ∃ r, AddressSpaces.vmobjDestroy vm obj = some r ∧ r.1.freed = .vmObj obj :: vm.freed := by
  rw [FindsItself, ← hashTableDelete_finds] at hfound
  obtain ⟨⟨vm₁, tab, found⟩, hdel, heq⟩ := Option.map_eq_some_iff.mp hfound
  obtain rfl : obj = found := heq.symm
  have htab : objTableDelete vm (vm.objs obj).id = some ({ vm₁ with vmObjTab := tab }, obj) := by
    rw [objTableDelete, hdel]
    rfl
  obtain ⟨hfreed, hkept⟩ := objTableDelete_keeps htab
  obtain ⟨vm₂, hcut⟩ := Option.isSome_iff_exists.mp
    ((AddressSpaces.cowDelete_isSome_iff hnull).mpr (hkept.mpr hring))
  refine ⟨(vm₂.free (.vmObj obj), 0), ?_, ?_⟩
  · rw [AddressSpaces.vmobjDestroy, if_neg hnull, htab]
    simp [hnull, hcut]
  · rw [Vm.free, cowDelete_freed hcut, hfreed]

theorem vmobjDestroy_restores_iff (ho : held (.object obj) = false) (ht : held .vmTab = false) :
    RestoresOthers held (vmobjDestroy obj) vm ↔ obj ≠ 0 ∧ FindsItself vm obj ∧ InRing vm obj := by
  have hruns : Runs held (vmobjDestroy obj) vm _ _ := vmobjDestroy_runs ho ht
  constructor
  · rintro ⟨held₁, r, vm₁, freed, ⟨hlog, hres, rfl⟩, hfreed, hothers⟩
    cases hcall : AddressSpaces.vmobjDestroy vm obj with
    | none =>
      rw [hruns.halts hcall] at hres
      cases hres
    | some p =>
      obtain ⟨hlog', -, hstate⟩ := hruns.ends p hcall
      obtain ⟨vm₂, target, hnull, -, hdel, hring, hp⟩ := vmobjDestroy_eq_some hcall
      rw [hstate, hp, ← List.singleton_append] at hfreed
      obtain rfl := List.append_cancel_right hfreed
      have hself : target = obj := by
        by_contra hne
        have hkept := hothers (.object obj) fun q hq hmem => by
          cases hq
          exact hne (Block.vmObj.inj (List.mem_singleton.mp hmem)).symm
        rw [hlog'] at hlog
        cases hlog
        rw [Function.update_self, ho] at hkept
        cases hkept
      subst hself
      obtain ⟨⟨vm₃, tab, found⟩, hwalk, heq⟩ := Option.bind_eq_some_iff.mp hdel
      cases heq
      refine ⟨hnull, ?_, hring⟩
      rw [FindsItself, ← hashTableDelete_finds, hwalk]
      rfl
  · rintro ⟨hnull, hfound, hring⟩
    obtain ⟨r, hcall, hfreed⟩ := vmobjDestroy_returns hnull hfound hring
    refine ⟨_, r.2, r.1, [.vmObj obj], hruns.ends r hcall, hfreed, fun m hm => ?_⟩
    refine Function.update_of_ne (fun heq => ?_) _ _
    exact hm obj heq (List.mem_singleton_self _)

end Destruction

section Pages

open PhysicalMemory (Setup Memory anonNext anonId anonBucket)

variable {ι ν C : Type} [DecidableEq ν] [Fintype ν]

/-- The mutexes of phys_mem.c and page_alloc.c, and one in each entry of the inverse page table. -/
inductive PageMutex where
  | anon
  | alloc
  | page (p : ℕ)
  deriving DecidableEq

def ANON_SWAPPED : BitVec 32 := 0
def ANON_PRESENT : BitVec 32 := 1

structure Pages (ν C : Type) where
  mem : Memory ν C
  status : ν → BitVec 32

abbrev Freeing (ν C α : Type) : Type := Call PageMutex (Pages ν C) α

def onMemory (f : Memory ν C → Memory ν C) : Freeing ν C Unit :=
  write fun s => { s with mem := f s.mem }

def Pages.setAlloc (s : Pages ν C) (a : Allocator) : Pages ν C :=
  { s with mem := { s.mem with alloc := a } }

def insertPage (colors : ℕ) (addr : BitVec 32) : Freeing ν C Unit := do
  spinLock .alloc
  change fun s => (putPage colors s.mem.alloc addr).map s.setAlloc
  spinUnlock .alloc

def physPageInsert (colors : ℕ) : List (BitVec 32) → Freeing ν C Unit
  | [] => pure ()
  | addr :: addrs => do
    insertPage colors addr
    physPageInsert colors addrs

def freePage (x : ν) : Freeing ν C Unit :=
  onMemory fun m => { m with used := Function.update m.used x false }

/-- The node that the deletion finds, which is taken out of the table. -/
def deletePage (id : BitVec 32) (s : Pages ν C) : Option (Pages ν C × Option ν) :=
  (hashTableDelete anonNext none anonId (fun x y => x = y) anonBucket (Fintype.card (Option ν) + 1)
    s.mem.anon s.mem.anonTable id).map fun r =>
      ({ s with mem := { s.mem with anon := r.1, anonTable := r.2.1 } }, r.2.2)

def unused (a : Allocator) (addr : BitVec 32) : Allocator :=
  { a with
    inv := Function.update a.inv (invPageLookup addr)
      { a.inv (invPageLookup addr) with type := .unused } }

def freePresent (S : Setup ι C) (x : ν) : Freeing ν C Unit := do
  let addr ← read fun s => (s.mem.anon x).addr
  spinLock (.page (invPageLookup addr))
  onMemory fun m => { m with alloc := unused m.alloc addr }
  spinUnlock (.page (invPageLookup addr))
  physPageInsert S.colors [addr]
  freePage x

def anonPageFree (S : Setup ι C) (id : BitVec 32) : Freeing ν C Unit := do
  spinLock .anon
  let page ← compute (deletePage id)
  match page with
  | none => pure ()
  | some x => do
    spinUnlock .anon
    let status ← read fun s => s.status x
    if status = ANON_SWAPPED then freePage x
    else if status = ANON_PRESENT then freePresent S x
    else pure ()

def Known (s : Pages ν C) (id : BitVec 32) (x : ν) : Prop :=
  hashTableLookup anonNext none anonId (fun x y => x = y) anonBucket
    (Fintype.card (Option ν) + 1 + 1) s.mem.anon s.mem.anonTable id = some (some x)

variable {held : PageMutex → Bool} {S : Setup ι C} {s : Pages ν C} {id : BitVec 32}

omit [DecidableEq ν] [Fintype ν] in
theorem physPageInsert_runs (ha : held .alloc = false) (colors : ℕ) (addrs : List (BitVec 32)) :
    ∀ s : Pages ν C, Runs held (physPageInsert colors addrs) s held
      (((PhysicalPages.physPageInsert colors s.mem.alloc addrs).map s.setAlloc).map
        fun s => (s, ())) := by
  induction addrs with
  | nil => exact fun _ => runs_pure
  | cons addr addrs ih =>
    intro s
    have hpage : Runs held (insertPage colors addr) s held
        (((putPage colors s.mem.alloc addr).map s.setAlloc).map fun s => (s, ())) :=
      runs_section_unit ha runs_compute
    rw [physPageInsert, PhysicalPages.physPageInsert]
    cases hput : putPage colors s.mem.alloc addr with
    | none =>
      rw [hput] at hpage
      exact runs_none (congrArg Outcome.result (bind_halts (hpage.halts rfl)))
    | some a =>
      rw [hput] at hpage
      exact (hpage.ends _ rfl).runs_bind (ih (s.setAlloc a))

theorem known_iff {x : ν} : Known s id x ↔ ∃ s₁, deletePage id s = some (s₁, some x) := by
  rw [Known, ← hashTableDelete_finds]
  constructor
  · intro h
    obtain ⟨⟨m, tab, found⟩, hdel, heq⟩ := Option.map_eq_some_iff.mp h
    obtain rfl : some x = found := heq.symm
    exact ⟨_, by rw [deletePage, hdel]; rfl⟩
  · rintro ⟨s₁, h⟩
    obtain ⟨⟨m, tab, found⟩, hdel, heq⟩ := Option.map_eq_some_iff.mp h
    cases heq
    rw [hdel]
    rfl

theorem deletePage_status {r : Pages ν C × Option ν} (h : deletePage id s = some r) :
    r.1.status = s.status := by
  obtain ⟨q, -, rfl⟩ := Option.map_eq_some_iff.mp h
  rfl

theorem putPage_eq_none {colors : ℕ} {a : Allocator} {addr : BitVec 32} :
    putPage colors a addr = none ↔ colors = 0 := by
  rw [putPage]
  split <;> simp_all

omit [Fintype ν] in
theorem freePresent_runs {x : ν} (ha : held .alloc = false) (hp : ∀ p, held (.page p) = false) :
    Runs held (freePresent S x) s held
      ((PhysicalPages.physPageInsert S.colors (unused s.mem.alloc (s.mem.anon x).addr)
        [(s.mem.anon x).addr]).map fun a =>
          ({ s with mem := { s.mem with
              alloc := a, used := Function.update s.mem.used x false } }, ())) := by
  rw [freePresent]
  refine (ends_read _).runs_bind ((ends_lock (hp _)).runs_bind ((ends_write _).runs_bind ?_))
  refine (ends_unlock (hp _)).runs_bind ?_
  have hinsert := physPageInsert_runs ha S.colors [(s.mem.anon x).addr]
    (s.setAlloc (unused s.mem.alloc (s.mem.anon x).addr))
  cases hput : PhysicalPages.physPageInsert S.colors (unused s.mem.alloc (s.mem.anon x).addr)
      [(s.mem.anon x).addr] with
  | none =>
    simp only [Pages.setAlloc, hput] at hinsert
    exact runs_none (congrArg Outcome.result (bind_halts (hinsert.halts rfl)))
  | some a =>
    simp only [Pages.setAlloc, hput] at hinsert
    exact (hinsert.ends _ rfl).runs_bind (ends_write _).runs

omit [Fintype ν] in
theorem freePresent_restores_iff {x : ν} (ha : held .alloc = false)
    (hp : ∀ p, held (.page p) = false) :
    Restores held (freePresent S x) s (fun _ => True) ↔ S.colors ≠ 0 := by
  rw [(freePresent_runs ha hp).restores_iff]
  simp [PhysicalPages.physPageInsert, putPage_eq_none]

theorem anonPageFree_restores_iff (hm : held .anon = false) (ha : held .alloc = false)
    (hp : ∀ p, held (.page p) = false) : Restores held (anonPageFree S id) s (fun _ => True) ↔
      ∃ x, Known s id x ∧ (s.status x = ANON_PRESENT → S.colors ≠ 0) := by
  unfold Restores anonPageFree
  rw [returns_lock hm]
  simp only [known_iff]
  cases hdel : deletePage id s with
  | none => exact iff_of_false (not_returns_bind (by rw [compute_halts hdel])) (by simp)
  | some r =>
    obtain ⟨s₁, page⟩ := r
    have hstatus : s₁.status = s.status := deletePage_status hdel
    rw [returns_compute hdel]
    cases page with
    | none =>
      rw [returns_pure]
      exact iff_of_false (fun h => update_ne hm h.1) (by simp)
    | some x =>
      have honly : (∃ y, (∃ s₂, some (s₁, some x) = some (s₂, some y)) ∧
          (s.status y = ANON_PRESENT → S.colors ≠ 0)) ↔
          (s.status x = ANON_PRESENT → S.colors ≠ 0) := by simp
      simp only [returns_unlock hm, returns_read, hstatus]
      rw [honly]
      by_cases hswapped : s.status x = ANON_SWAPPED
      · rw [if_pos hswapped, hswapped]
        exact iff_of_true ((ends_write _).returns trivial) fun h => absurd h (by decide)
      · rw [if_neg hswapped]
        by_cases hpresent : s.status x = ANON_PRESENT
        · rw [if_pos hpresent]
          exact (freePresent_restores_iff ha hp).trans (by simp [hpresent])
        · rw [if_neg hpresent]
          exact iff_of_true (ends_pure.returns trivial) fun h => absurd h hpresent

end Pages

/-- The object `false` is one anonymous page long, and `true` is the memory for a copy of it. -/
def oneSource : Objects Unit Bool Unit Unit where
  objs _ := ⟨1, 2, 0, fun _ => [], .anon, none, none, none, 0, (), 0, fun _ => 7⟩
  size _ := 4096
  hashNext _ := none
  objTab _ := none
  idCount := 2
  cow := ⟨fun _ => ⟨.null, 0, none⟩, fun _ => none, fun _ => false⟩

def onePage : Pages Unit Unit where
  mem := {
    alloc := ⟨fun _ => ⟨.used, 0, 0, none, none, none⟩, fun _ => none, fun _ => 0⟩
    cache := fun _ => none
    anon := fun _ => ⟨7, none, 4096⟩
    anonTable := fun j => if j = 7 then some () else none
    used := fun _ => true
    locked := false
    contents := fun _ => () }
  status _ := ANON_PRESENT

def oneColor : PhysicalMemory.Setup Unit Unit := ⟨1, fun _ => 0, fun _ _ => (), ()⟩

def typed : Untyped Unit := ⟨fun i offset => .inode i offset, .anon⟩

end MemoryLocks
