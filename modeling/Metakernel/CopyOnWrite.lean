import Metakernel.CowTable
import Metakernel.PageContents
import Metakernel.VirtualMemory

/-!
# Copies of virtual memory objects

The creation of copies and the write faults of virt_mem.c, over the pages of phys_mem.c and the
counts of cow_table.c. A reference in which a copy gets all pages at once runs beside them.
-/
namespace CopyOnWrite

open GuardedRuns NodeTables PhysicalPages PageTables VirtualMemory PageContents
open PhysicalMemory (Setup Memory Colors Available anonPageCreate physPageFetch anonFind)
open CowTable (Cow Chained cowInc)

variable {σ ο ι ν ε C : Type*} [DecidableEq σ] [DecidableEq ο] [DecidableEq ι] [DecidableEq ν]
  [DecidableEq ε] [Fintype ο] [Fintype ν] [Fintype ε]

structure Pages (σ ο ι ν ε C : Type*) where
  mem : Memory ν C
  spcColors : σ → ColorTable
  objColors : ο → ColorTable
  cow : Cow ι ε
  lost : Bool

def Pages.colors (w : Pages σ ο ι ν ε C) (spc : σ) (o : ο) (shared : Bool) : Colors :=
  ⟨w.spcColors spc, w.objColors o, shared⟩

def Pages.put (w : Pages σ ο ι ν ε C) (spc : σ) (o : ο) (mem : Memory ν C) (ct : Colors) :
    Pages σ ο ι ν ε C :=
  { w with
    mem := mem
    spcColors := Function.update w.spcColors spc ct.spc
    objColors := Function.update w.objColors o ct.obj }

/-- The values that `rand` and `malloc` return, and what `out` holds before it is assigned. -/
structure Outside (ν C : Type*) where
  rand : Memory ν C → BitVec 32
  malloc : Memory ν C → ν
  out : BitVec 32

def physMem (S : Setup ι C) (e : Outside ν C) : PhysMem σ ο ι (Pages σ ο ι ν ε C) where
  anonPageCreate w src spc o shared :=
    (anonPageCreate S w.mem src (w.colors spc o shared) (e.rand w.mem) (e.malloc w.mem)).elim
      ({ w with lost := true }, 0) fun r => (w.put spc o r.1 r.2.1, r.2.2)
  physPageFetch w src spc o shared :=
    (physPageFetch S w.mem src (w.colors spc o shared) e.out).elim
      ({ w with lost := true }, 0) fun r => (w.put spc o r.1 r.2.1, r.2.2)
  cowLookup w src := (CowTable.cowLookup S.id w.cow src).getD 0
  cowDec w src := (CowTable.cowDec S.id w.cow src).elim { w with lost := true } fun cow =>
    { w with cow := cow }

/-- `live` are the objects that were created, `locked` those whose mutex was left locked, `idCount`
is `vm_id_count`. -/
structure State (σ ο ι ν ε C : Type*) where
  vm : VmState σ ο ι (Pages σ ο ι ν ε C)
  size : ο → BitVec 32
  live : ο → Bool
  locked : ο → Bool
  idCount : BitVec 32

def State.pageCount (s : State σ ο ι ν ε C) (o : ο) : ℕ := (s.size o / 4096).toNat

/-- What `page` is after the assignments to its members, as its type is never assigned. -/
structure Untyped (ι : Type*) where
  inode : ι → BitVec 32 → PageSrc ι
  anon : BitVec 32 → PageSrc ι

def countedPage (t : Untyped ι) (src : VmObj σ ο ι) (i : ℕ) : PageSrc ι :=
  match src.srcType with
  | .inode => t.inode src.inode src.offset
  | .anon => t.anon (src.anonPages i)

/-- The loop over the pages; `blocks` are what `malloc` returns. -/
def countPages (id : ι → BitVec 32) (pages : ℕ → PageSrc ι) (blocks : ℕ → ε) (c : Cow ι ε) :
    ℕ → Option (Cow ι ε)
  | 0 => some c
  | n + 1 => (countPages id pages blocks c n).bind fun c => cowInc id c (pages n) (blocks n)

/-- What is not assigned stays as it was in the block, and so do the mutex and the mappers, which
`memset` is to clear: with 0 it writes nothing. -/
def newCopy (old : VmObj σ ο ι) (id perm count : BitVec 32) (copy new : ο) (n : ℕ) : VmObj σ ο ι :=
  { old with
    id := id
    flags := perm ||| VMOBJ_COW
    numMappers := 0
    srcType := .anon
    cowSrc := some copy
    cowNext := some new
    cowPrev := some new
    cowCount := count
    anonPages := fun i => if i < n then 0 else old.anonPages i }

/-- What is requested for a copy: the size of a pointer, and eight bytes for every page. -/
def copyRequest (size : BitVec 32) : ℕ := 4 + (size / 4096).toNat * 8

/-- What a copy takes: 240 bytes before `anon_pages`, and an entry of four for every page that is
cleared and every page of the source. -/
def copyBytes (size sourceSize : BitVec 32) : ℕ :=
  240 + 4 * max (size / 4096).toNat ((sourceSize.toNat + 4095) / 4096)

/-- The copy lies in the block that is returned for it, with `spare` bytes more than requested. -/
def Fits (size sourceSize : BitVec 32) (spare : ℕ) : Prop :=
  copyBytes size sourceSize ≤ copyRequest size + spare

instance (size sourceSize : BitVec 32) (spare : ℕ) : Decidable (Fits size sourceSize spare) :=
  inferInstanceAs (Decidable (_ ≤ _))

def markSource (src : VmObj σ ο ι) (count : BitVec 32) : VmObj σ ο ι :=
  { src with flags := src.flags &&& VMOBJ_COW_SRC, cowCount := count }

/-- `new` is what `malloc` returns, `spare` bytes longer than requested. Where no object is created
the mutex of the source stays locked. A copy that does not lie in its block is written over what lies
behind: such a call has no result. -/
def vmobjCopy (S : Setup ι C) (s : State σ ο ι ν ε C) (copy : ο) (perm size : BitVec 32)
    (new : Option ο) (spare : ℕ) (t : Untyped ι) (blocks : ℕ → ε) : Option (State σ ο ι ν ε C) :=
  if s.live copy = false ∨ s.locked copy then none
  else if perm &&& VMOBJ_WRITE = 0 ∨ new = none then
    some { s with locked := Function.update s.locked copy true }
  else new.bind fun new =>
    if s.live new ∨ ¬ Fits size (s.size copy) spare then none
    else
      let src := s.vm.objs copy
      let n := (size / 4096).toNat
      let count := s.size copy / 4096
      (countPages S.id (countedPage t src) blocks s.vm.phys.cow n).map fun cow =>
        { vm :=
            { s.vm with
              objs := Function.update (Function.update s.vm.objs copy (markSource src count)) new
                (newCopy (s.vm.objs new) s.idCount perm count copy new n)
              phys := { s.vm.phys with cow := cow } }
          size := Function.update s.size new (s.size copy)
          live := Function.update s.live new true
          locked := s.locked
          idCount := s.idCount + 1 }

/-- A store in an address space changes the physical page that the entry of the address names. -/
def store (s : State σ ο ι ν ε C) (spc : σ) (addr : BitVec 32) (f : C → C) :
    Option (State σ ο ι ν ε C) :=
  let entry := (s.vm.tables spc).get addr
  let mem := s.vm.phys.mem
  if present entry ∧ entry &&& 2 ≠ 0 then
    some { s with
      vm := { s.vm with
        phys := { s.vm.phys with
          mem := mem.setContents entry (f (mem.contents (invPageLookup entry))) } } }
  else none

/-- A write fault and the store after it. `m` is the mapping that the fault finds, one of the
mappers of its object. -/
def writeFault (S : Setup ι C) (s : State σ ο ι ν ε C) (m : Vmap σ ο) (addr : BitVec 32)
    (st : Stack ι) (e : Outside ν C) (f : C → C) : Option (State σ ο ι ν ε C) :=
  if s.live m.obj ∧ m ∈ (s.vm.objs m.obj).mapperList then
    (vmProtectFault (physMem S e) s.vm st m.spc addr VMOBJ_WRITE (some m)).bind fun vm =>
      if vm.phys.lost then none else store { s with vm := vm } m.spc addr f
  else none

def resolve (S : Setup ι C) (e : Outside ν C) (s : State σ ο ι ν ε C) (spc : σ) (o : ο)
    (k : BitVec 32) : Option C :=
  (getPageSrc (physMem S e) (Fintype.card ο + 1) s.vm spc o k).bind fun r =>
    let w := (physMem S e).physPageFetch r.1.phys r.2 spc o (isShared r.1 o)
    if w.1.lost then none else some (w.1.mem.contents (invPageLookup w.2))

/-- Between the copies and the writes the objects are mapped and unmapped in address spaces. -/
inductive Event (σ ο ι ν ε C : Type*) where
  | copy (copy : ο) (perm size : BitVec 32) (new : Option ο) (spare : ℕ) (t : Untyped ι)
    (blocks : ℕ → ε)
  | write (m : Vmap σ ο) (addr : BitVec 32) (st : Stack ι) (e : Outside ν C) (f : C → C)
  | remap (tables : σ → Entries) (inv : ℕ → InvEntry ο) (mappers : ο → ℕ → List (Vmap σ ο))
    (numMappers : ο → BitVec 32)

def codeStep (S : Setup ι C) (s : State σ ο ι ν ε C) :
    Event σ ο ι ν ε C → Option (State σ ο ι ν ε C)
  | .copy copy perm size new spare t blocks =>
    vmobjCopy S s copy perm size new spare t blocks
  | .write m addr st e f => writeFault S s m addr st e f
  | .remap tables inv mappers numMappers => some { s with
      vm := { s.vm with
        objs := fun o => { s.vm.objs o with mappers := mappers o, numMappers := numMappers o }
        tables := tables
        inv := inv } }

/-- The pages of the objects where a copy gets all pages at once. -/
def eagerStep (pages : ο → BitVec 32 → C) : Event σ ο ι ν ε C → ο → BitVec 32 → C
  | .copy copy perm _ new _ _ _ =>
    if perm &&& VMOBJ_WRITE = 0 then pages
    else new.elim pages fun new => Function.update pages new (pages copy)
  | .write m addr _ _ f =>
    let k := pageOffset m addr
    Function.update pages m.obj (Function.update (pages m.obj) k (f (pages m.obj k)))
  | .remap _ _ _ _ => pages

structure Both (σ ο ι ν ε C : Type*) where
  state : State σ ο ι ν ε C
  pages : ο → BitVec 32 → C

def bothStep (S : Setup ι C) (b : Both σ ο ι ν ε C) (e : Event σ ο ι ν ε C) :
    Option (Both σ ο ι ν ε C) :=
  (codeStep S b.state e).map fun s => ⟨s, eagerStep b.pages e⟩

def Stocked (S : Setup ι C) (s : State σ ο ι ν ε C) (spc : σ) (o : ο) : Prop :=
  Available S s.vm.phys.mem (s.vm.phys.colors spc o (isShared s.vm o))

/-- `malloc` returns a block that is not in use, and `rand` a number that is in no use and not 0. -/
structure Usable (e : Outside ν C) (mem : Memory ν C) : Prop where
  block : mem.used (e.malloc mem) = false
  unknown : anonFind mem (e.rand mem) = some none
  nonzero : e.rand mem ≠ 0

def Unwritten (s : State σ ο ι ν ε C) (o : ο) (k : ℕ) : Prop :=
  (s.vm.objs o).flags &&& VMOBJ_COW ≠ 0 ∧ (s.vm.objs o).anonPages k = 0

instance (s : State σ ο ι ν ε C) (o : ο) (k : ℕ) : Decidable (Unwritten s o k) :=
  inferInstanceAs (Decidable (_ ∧ _))

/-- The object in which page `k` of `o` is looked for. -/
def lookedIn (s : State σ ο ι ν ε C) (o : ο) (k : ℕ) : ο :=
  if Unwritten s o k then (s.vm.objs o).cowSrc.getD o else o

/-- An anonymous object that is no copy does not have the page yet. -/
def Unmade (s : State σ ο ι ν ε C) (o : ο) (k : ℕ) : Prop :=
  (s.vm.objs o).srcType = .anon ∧ (s.vm.objs o).flags &&& VMOBJ_COW = 0 ∧
    (s.vm.objs o).anonPages k = 0

instance (s : State σ ο ι ν ε C) (o : ο) (k : ℕ) : Decidable (Unmade s o k) :=
  inferInstanceAs (Decidable (_ ∧ _))

/-- Where the page has to be made, one that holds zeros is taken for it. -/
def MadeOfZeros (S : Setup ι C) (s : State σ ο ι ν ε C) (spc : σ) (o : ο) (k : ℕ) : Prop :=
  Unmade s (lookedIn s o k) k → NextHolds S s.vm.phys.mem
    (s.vm.phys.colors spc (lookedIn s o k) (isShared s.vm (lookedIn s o k))) S.zero

structure FirstWrite (s : State σ ο ι ν ε C) (o : ο) (k : BitVec 32) : Prop where
  unwritten : Unwritten s o k.toNat
  notSource : (s.vm.objs o).flags &&& VMOBJ_COW_SRC = 0
  inside : k.toNat < s.pageCount o
  inode : ∀ src, (s.vm.objs o).cowSrc = some src → (s.vm.objs src).srcType = .inode

/-- What the code does right: copies that fit in their blocks, of objects all of whose pages are
there, and first writes to pages of copies of inode objects while physical pages are left. -/
def Handled (S : Setup ι C) (b : Both σ ο ι ν ε C) : Event σ ο ι ν ε C → Prop
  | .copy copy perm size new spare _ _ => perm &&& VMOBJ_WRITE ≠ 0 → new ≠ none →
      (∀ k < b.state.pageCount copy, ¬ Unwritten b.state copy k) ∧
        b.state.pageCount copy ≤ (size / 4096).toNat ∧ Fits size (b.state.size copy) spare
  | .write m addr _ e _ => FirstWrite b.state m.obj (pageOffset m addr) ∧
      Stocked S b.state m.spc m.obj ∧ Usable e b.state.vm.phys.mem
  | .remap _ _ _ _ => True

/-- The objects are there and `malloc` returns new blocks. -/
def Possible (b : Both σ ο ι ν ε C) : Event σ ο ι ν ε C → Prop
  | .copy copy _ size new _ _ blocks => b.state.live copy = true ∧ b.state.locked copy = false ∧
      (∀ x, new = some x → b.state.live x = false) ∧
      (∀ i < (size / 4096).toNat, b.state.vm.phys.cow.used (blocks i) = false) ∧
      ∀ i < (size / 4096).toNat, ∀ j < (size / 4096).toNat, blocks i = blocks j → i = j
  | .write m _ _ _ _ => b.state.live m.obj = true ∧ m ∈ (b.state.vm.objs m.obj).mapperList
  | .remap _ _ _ _ => True

/-- The contents of a page of an object that looks at no source for it. -/
def shown (S : Setup ι C) (mem : Memory ν C) (obj : VmObj σ ο ι) (k : BitVec 32) : Option C :=
  match obj.srcType with
  | .inode => srcContents S mem (.inode obj.inode (k + obj.offset))
  | .anon =>
    if obj.anonPages k.toNat = 0 then some S.zero
    else srcContents S mem (.anon (obj.anonPages k.toNat))

/-- No object is a copy yet, and the reference has what the objects show: the inode page, the
anonymous page, or zeros where there is none. -/
structure Uncopied (S : Setup ι C) (pages : ℕ) (b : Both σ ο ι ν ε C) : Prop where
  sound : Sound S pages b.state.vm.phys.mem
  chained : ∃ chains, Chained S.id b.state.vm.phys.cow chains
  kept : b.state.vm.phys.lost = false
  plain : ∀ o, b.state.live o = true → (b.state.vm.objs o).flags &&& VMOBJ_COW = 0
  shows : ∀ o k, b.state.live o = true → k.toNat < b.state.pageCount o →
    shown S b.state.vm.phys.mem (b.state.vm.objs o) k = some (b.pages o k)

end CopyOnWrite
