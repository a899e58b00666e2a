import Mathlib.Data.Fintype.Card
import Mathlib.Tactic.IntervalCases
import Metakernel.PageAllocator
import Metakernel.PageTables

/-!
# Faults and invalidation in virt_mem.c

Objects are mapped by any number of address spaces. `σ` are the address spaces, `ο` the objects, `ι`
the inodes and `W` the state of physical memory. The chains of hash tables are lists.
-/
namespace VirtualMemory

open LinkedNodes DataStructures NodeTables GuardedRuns PhysicalPages PageTables

variable {σ ο ι W : Type*} [DecidableEq σ] [DecidableEq ο]

structure Vmap (σ ο : Type*) where
  addr : BitVec 32
  obj : ο
  spc : σ
  deriving DecidableEq, Repr

inductive SrcType where
  | inode | anon
  deriving DecidableEq, Repr

/-- `inode` and `offset` are `src`. -/
structure VmObj (σ ο ι : Type*) where
  id : BitVec 32
  flags : BitVec 32
  numMappers : BitVec 32
  mappers : ℕ → List (Vmap σ ο)
  srcType : SrcType
  cowSrc : Option ο
  cowNext : Option ο
  cowPrev : Option ο
  cowCount : BitVec 32
  inode : ι
  offset : BitVec 32
  anonPages : ℕ → BitVec 32

/-- The mappers in the order in which the table is walked. -/
def VmObj.mapperList (o : VmObj σ ο ι) : List (Vmap σ ο) := (List.range 31).flatMap o.mappers

structure InvMap (ο : Type*) where
  obj : ο
  offset : BitVec 32
  deriving DecidableEq, Repr

structure InvEntry (ο : Type*) where
  type : PageType
  numMappers : BitVec 32
  mappers : ℕ → List (InvMap ο)

def InvEntry.mapList (e : InvEntry ο) : List (InvMap ο) := (List.range 29).flatMap e.mappers

structure VmState (σ ο ι W : Type*) where
  objs : ο → VmObj σ ο ι
  tables : σ → Entries
  inv : ℕ → InvEntry ο
  phys : W

/-- What the fault handler uses of phys_mem.c and cow_table.c. The color tables are those of the
address space and of the object; `Bool` is `shared`. -/
structure PhysMem (σ ο ι W : Type*) where
  anonPageCreate : W → PageSrc ι → σ → ο → Bool → W × BitVec 32
  physPageFetch : W → PageSrc ι → σ → ο → Bool → W × BitVec 32
  cowLookup : W → PageSrc ι → BitVec 32
  cowDec : W → PageSrc ι → W

def VMOBJ_PERM : BitVec 32 := 0xf
def VMOBJ_WRITE : BitVec 32 := 0x2
def VMOBJ_COW : BitVec 32 := 0x20
def VMOBJ_COW_SRC : BitVec 32 := 0x40

theorem mask_of_flag {flags mask flag : BitVec 32} (hflag : mask &&& flag = flag)
    (h : flags &&& flag ≠ 0) : flags &&& mask ≠ 0 := by
  intro heq
  refine h ?_
  rw [← hflag, ← BitVec.and_assoc, heq]
  exact BitVec.zero_and

def pageAddr (addr : BitVec 32) : BitVec 32 := addr &&& ~~~0xfff

def VmState.setObj (s : VmState σ ο ι W) (o : ο) (f : VmObj σ ο ι → VmObj σ ο ι) :
    VmState σ ο ι W :=
  { s with objs := Function.update s.objs o (f (s.objs o)) }

def VmState.setInv (s : VmState σ ο ι W) (p : ℕ) (f : InvEntry ο → InvEntry ο) :
    VmState σ ο ι W :=
  { s with inv := Function.update s.inv p (f (s.inv p)) }

omit [DecidableEq σ] in
theorem VmState.setObj_self (s : VmState σ ο ι W) (o : ο) (f : VmObj σ ο ι → VmObj σ ο ι) :
    (s.setObj o f).objs o = f (s.objs o) := Function.update_self _ _ _

omit [DecidableEq σ] in
theorem VmState.setObj_ne (s : VmState σ ο ι W) {o p : ο} (f : VmObj σ ο ι → VmObj σ ο ι)
    (h : p ≠ o) : (s.setObj o f).objs p = s.objs p := Function.update_of_ne h _ _

def invMapInsert (id : BitVec 32) (m : InvMap ο) (e : InvEntry ο) : InvEntry ο :=
  { e with mappers := Function.update e.mappers (id.toNat % 29) (m :: e.mappers (id.toNat % 29)) }

/-- One page is mapped in one address space, and the inverse entry says so. -/
def mapOne (s : VmState σ ο ι W) (spc : σ) (addr perm phys : BitVec 32) (o : ο)
    (offset : BitVec 32) : VmState σ ο ι W :=
  VmState.setInv
    { s with tables := Function.update s.tables spc (pageMap (s.tables spc) addr perm phys) }
    (invPageLookup phys) fun e =>
      invMapInsert (s.objs o).id ⟨o, offset⟩
        { e with type := .used, numMappers := e.numMappers + 1 }

def updatePageTables (s : VmState σ ο ι W) (o : ο) (offset phys addr : BitVec 32) :
    VmState σ ο ι W :=
  (s.objs o).mapperList.foldl
    (fun s m => mapOne s m.spc (pageAddr addr) ((s.objs o).flags &&& VMOBJ_PERM) phys o offset)
    (s.setInv (invPageLookup phys) fun e => { e with type := .used })

def vmObjPageUnmap (s : VmState σ ο ι W) (o : ο) (offset : BitVec 32) : VmState σ ο ι W :=
  (s.objs o).mapperList.foldl
    (fun s m => { s with
      tables := Function.update s.tables m.spc (pageUnmap (s.tables m.spc) (m.addr + offset)) }) s

def vmInvalidatePage (s : VmState σ ο ι W) (physAddr : BitVec 32) : VmState σ ο ι W :=
  let p := invPageLookup physAddr
  let s := s.setInv p fun e => { e with type := .unused, numMappers := 0 }
  (s.inv p).mapList.foldl (fun s m => vmObjPageUnmap s m.obj m.offset) s

section Faults

variable [Fintype ο] (M : PhysMem σ ο ι W)

def isShared (s : VmState σ ο ι W) (o : ο) : Bool := (s.objs o).numMappers ≠ 1

/-- The first argument bounds the recursion through `cow_src`, which does not end in a ring. -/
def getPageSrc : ℕ → VmState σ ο ι W → σ → ο → BitVec 32 →
    Option (VmState σ ο ι W × PageSrc ι)
  | 0, _, _, _, _ => none
  | fuel + 1, s, spc, o, offset =>
    let obj := s.objs o
    match obj.srcType with
    | .inode => some (s, .inode obj.inode (offset + obj.offset))
    | .anon =>
      let anon := obj.anonPages offset.toNat
      if obj.flags &&& VMOBJ_COW = 0 then
        if anon ≠ 0 then some (s, .anon anon)
        else
          let r := M.anonPageCreate s.phys .null spc o (isShared s o)
          some (VmState.setObj { s with phys := r.1 } o fun obj =>
            { obj with anonPages := Function.update obj.anonPages offset.toNat r.2 }, .anon r.2)
      else if anon ≠ 0 then some (s, .anon anon)
      else obj.cowSrc.bind fun src => getPageSrc fuel s spc src offset

def cowNext : NodeField (ο → VmObj σ ο ι) (Option ο) (Option ο) :=
  tableField VmObj.cowNext fun r v => { r with cowNext := v }

def cowPrev : NodeField (ο → VmObj σ ο ι) (Option ο) (Option ο) :=
  tableField VmObj.cowPrev fun r v => { r with cowPrev := v }

/-- The object leaves the ring of copies when its count is 0; a null link is followed to nowhere. -/
def retire (s : VmState σ ο ι W) (o : ο) : Option (VmState σ ο ι W) :=
  if (s.objs o).cowCount = 0 then
    let s := s.setObj o fun obj =>
      { obj with flags := obj.flags &&& ~~~(VMOBJ_COW ||| VMOBJ_COW_SRC) }
    if (s.objs o).cowNext = none ∨ (s.objs o).cowPrev = none then none
    else some { s with objs := (clistDelete cowNext cowPrev none s.objs (some o)).1 }
  else some s

def decCount (s : VmState σ ο ι W) (o : ο) : VmState σ ο ι W :=
  s.setObj o fun obj => { obj with cowCount := obj.cowCount - 1 }

/-- What the stack holds where `anon` and `anon_src` are read before they are written. -/
structure Stack (ι : Type*) where
  anon : BitVec 32
  anonSrc : PageSrc ι

/-- A clone of the page, or the page itself where `keep` holds: the new value of `anon` and
`anon_src`, and the physical page. -/
def cloneOrKeep (s : VmState σ ο ι W) (st : Stack ι) (spc : σ) (o : ο) (orig : PageSrc ι)
    (keep : Bool) : VmState σ ο ι W × Stack ι × BitVec 32 :=
  if keep then
    let r := M.physPageFetch s.phys orig spc o (isShared s o)
    ({ s with phys := r.1 }, st, r.2)
  else
    let r := M.anonPageCreate s.phys orig spc o (isShared s o)
    let r' := M.physPageFetch r.1 (.anon r.2) spc o (isShared s o)
    ({ s with phys := r'.1 }, ⟨r.2, .anon r.2⟩, r'.2)

def isInode : PageSrc ι → Bool
  | .inode _ _ => true
  | _ => false

def installCopy (s : VmState σ ο ι W) (st : Stack ι) (spc : σ) (addr : BitVec 32) (o : ο)
    (offset : BitVec 32) (orig : PageSrc ι) : VmState σ ο ι W × Stack ι :=
  let r := cloneOrKeep M s st spc o orig (M.cowLookup s.phys orig = 1 ∧ ¬ isInode orig)
  let s := r.1.setObj o fun obj =>
    { obj with anonPages := Function.update obj.anonPages offset.toNat r.2.1.anon }
  let s := updatePageTables s o offset r.2.2 addr
  (decCount { s with phys := M.cowDec s.phys orig } o, r.2.1)

/-- The walk over the ring of copies. Where an object does not share the page the loop goes on
without going forward, so it does not end. -/
def giveCopies (o : ο) (offset phys addr anon : BitVec 32) :
    ℕ → VmState σ ο ι W → Option ο → Option (VmState σ ο ι W)
  | 0, _, _ => none
  | _ + 1, _, none => none
  | fuel + 1, s, some l =>
    if l = o then some s
    else if (s.objs l).srcType ≠ .anon ∨ (s.objs l).cowSrc ≠ some o ∨
        (s.objs l).anonPages offset.toNat ≠ 0 then none
    else
      let s := s.setObj l fun obj =>
        { obj with anonPages := Function.update obj.anonPages offset.toNat anon }
      let s := updatePageTables s l offset phys addr
      giveCopies o offset phys addr anon fuel s (s.objs l).cowNext

/-- A source that is itself a copy first gets a page of its own, which the others share then. -/
def monkeyInTheMiddle (s : VmState σ ο ι W) (st : Stack ι) (curr : σ) (addr : BitVec 32) (o : ο)
    (offset : BitVec 32) (orig : PageSrc ι) : VmState σ ο ι W × Stack ι × PageSrc ι :=
  if (s.objs o).flags &&& VMOBJ_COW ≠ 0 ∧ (s.objs o).anonPages offset.toNat = 0 then
    let r := installCopy M s st curr addr o offset orig
    (r.1, r.2, r.2.anonSrc)
  else (s, st, orig)

def doProtectFault (s : VmState σ ο ι W) (st : Stack ι) (curr : σ) (addr : BitVec 32) (o : ο)
    (access offset : BitVec 32) (orig : PageSrc ι) : Option (VmState σ ο ι W) :=
  let obj := s.objs o
  if obj.flags &&& (VMOBJ_COW ||| VMOBJ_WRITE ||| VMOBJ_COW_SRC) ≠ 0 ∧
      access &&& VMOBJ_WRITE ≠ 0 then
    if obj.flags &&& VMOBJ_COW_SRC = 0 ∨ obj.srcType = .anon ∧ obj.cowSrc = none then
      retire (installCopy M s st curr addr o offset orig).1 o
    else
      let r := monkeyInTheMiddle M s st curr addr o offset orig
      let c := cloneOrKeep M r.1 r.2.1 curr o r.2.2 (M.cowLookup r.1.phys r.2.2 = 1)
      let s := updatePageTables c.1 o offset c.2.2 addr
      (giveCopies o offset c.2.2 addr c.2.1.anon (Fintype.card ο + 1) s (s.objs o).cowNext).bind
        fun s => retire (decCount s o) o
  else none

def pageOffset (m : Vmap σ ο) (addr : BitVec 32) : BitVec 32 :=
  (pageAddr addr - m.addr).sshiftRight 12

def faultPerm (s : VmState σ ο ι W) (o : ο) (src : PageSrc ι) : BitVec 32 :=
  let flags := (s.objs o).flags
  if flags &&& (VMOBJ_COW ||| VMOBJ_COW_SRC) = 0 ∨ M.cowLookup s.phys src = 0 then
    flags &&& VMOBJ_PERM
  else flags &&& VMOBJ_PERM &&& ~~~VMOBJ_WRITE

/-- The mapping is the outcome of `get_mapping_obj`. -/
def vmPageFault (s : VmState σ ο ι W) (st : Stack ι) (curr : σ) (addr access : BitVec 32)
    (map : Option (Vmap σ ο)) : Option (VmState σ ο ι W) :=
  map.bind fun m =>
    let o := m.obj
    let offset := pageOffset m addr
    (getPageSrc M (Fintype.card ο + 1) s curr o offset).bind fun (s, src) =>
      let r := M.physPageFetch s.phys src curr o (isShared s o)
      let s := { s with phys := r.1 }
      let perm := faultPerm M s o src
      let s := mapOne s curr (pageAddr addr) perm r.2 o offset
      if perm = perm ||| access then doProtectFault M s st curr addr o access offset src else some s

def vmProtectFault (s : VmState σ ο ι W) (st : Stack ι) (curr : σ) (addr access : BitVec 32)
    (map : Option (Vmap σ ο)) : Option (VmState σ ο ι W) :=
  map.bind fun m =>
    (getPageSrc M (Fintype.card ο + 1) s curr m.obj (pageOffset m addr)).bind fun (s, src) =>
      doProtectFault M s st curr addr m.obj access (pageOffset m addr) src

inductive Fault (σ ι : Type*) where
  | page (curr : σ) (addr access : BitVec 32) (st : Stack ι)
  | protect (curr : σ) (addr access : BitVec 32) (st : Stack ι)

/-- `mapping` is `get_mapping_obj`, on the mappings that the faults find. -/
def faultStep (mapping : σ → BitVec 32 → Option (Vmap σ ο)) (s : VmState σ ο ι W) :
    Fault σ ι → Option (VmState σ ο ι W)
  | .page curr addr access st => vmPageFault M s st curr addr access (mapping curr addr)
  | .protect curr addr access st => vmProtectFault M s st curr addr access (mapping curr addr)

end Faults

section Writes

variable {s : VmState σ ο ι W} {o : ο} {offset phys addr a : BitVec 32} {spc : σ}

def writeAll (e : BitVec 32) (t : σ → Entries) (l : List (σ × BitVec 32)) : σ → Entries :=
  l.foldl (fun t w => Function.update t w.1 ((t w.1).set w.2 e)) t

theorem writeAll_get (e : BitVec 32) (t : σ → Entries) (l : List (σ × BitVec 32)) (spc : σ)
    (a : BitVec 32) :
    (writeAll e t l spc).get a =
      if ∃ w ∈ l, w.1 = spc ∧ pageNum w.2 = pageNum a then e else (t spc).get a := by
  induction l generalizing t with
  | nil => simp [writeAll]
  | cons w l ih =>
    have hcons : writeAll e t (w :: l) =
        writeAll e (Function.update t w.1 ((t w.1).set w.2 e)) l := rfl
    rw [hcons, ih]
    by_cases hl : ∃ w ∈ l, w.1 = spc ∧ pageNum w.2 = pageNum a
    · obtain ⟨w', hw', hspc, hpage⟩ := hl
      rw [if_pos ⟨w', hw', hspc, hpage⟩, if_pos ⟨w', List.mem_cons_of_mem w hw', hspc, hpage⟩]
    · rw [if_neg hl]
      by_cases hspc : w.1 = spc
      · subst hspc
        rw [Function.update_self]
        by_cases hpage : pageNum w.2 = pageNum a
        · rw [if_pos ⟨w, List.mem_cons_self, rfl, hpage⟩, ← Entries.get_page _ hpage,
            Entries.get_set]
        · have hno : ¬ ∃ v ∈ w :: l, v.1 = w.1 ∧ pageNum v.2 = pageNum a := by
            rintro ⟨v, hv, hv₁, hv₂⟩
            rcases List.mem_cons.mp hv with rfl | hv
            · exact hpage hv₂
            · exact hl ⟨v, hv, hv₁, hv₂⟩
          rw [if_neg hno, Entries.get_set_ne _ _ fun heq => hpage heq.symm]
      · have hno : ¬ ∃ v ∈ w :: l, v.1 = spc ∧ pageNum v.2 = pageNum a := by
          rintro ⟨v, hv, hv₁, hv₂⟩
          rcases List.mem_cons.mp hv with rfl | hv
          · exact hspc hv₁
          · exact hl ⟨v, hv, hv₁, hv₂⟩
        rw [if_neg hno, Function.update_of_ne fun heq => hspc heq.symm]

theorem pageNum_pageAddr (addr : BitVec 32) : pageNum (pageAddr addr) = pageNum addr := by
  apply BitVec.eq_of_getLsbD_eq
  intro i hi
  interval_cases i <;> simp [pageNum, pageAddr]

/-- The entry that is installed for an object. -/
def newEntry (s : VmState σ ο ι W) (o : ο) (phys : BitVec 32) : BitVec 32 :=
  mapEntry ((s.objs o).flags &&& VMOBJ_PERM) phys

section

omit [DecidableEq ο]

theorem mapAll_tables (l : List (Vmap σ ο)) (s : VmState σ ο ι W) (o : ο)
    (offset phys addr : BitVec 32) :
    let s' := l.foldl (fun s m => mapOne s m.spc addr ((s.objs o).flags &&& VMOBJ_PERM) phys o
      offset) s
    s'.objs = s.objs ∧
      s'.tables = writeAll (newEntry s o phys) s.tables (l.map fun m => (m.spc, addr)) := by
  induction l generalizing s with
  | nil => exact ⟨rfl, rfl⟩
  | cons m l ih =>
    obtain ⟨hobjs, htables⟩ := ih (mapOne s m.spc addr ((s.objs o).flags &&& VMOBJ_PERM) phys o
      offset)
    exact ⟨hobjs, htables⟩

theorem updatePageTables_kept (s : VmState σ ο ι W) (o : ο) (offset phys addr : BitVec 32) :
    (updatePageTables s o offset phys addr).objs = s.objs ∧
      (updatePageTables s o offset phys addr).phys = s.phys := by
  rw [updatePageTables]
  have hfold : ∀ (l : List (Vmap σ ο)) (s' : VmState σ ο ι W),
      (l.foldl (fun s m => mapOne s m.spc (pageAddr addr) ((s.objs o).flags &&& VMOBJ_PERM) phys o
        offset) s').objs = s'.objs ∧
      (l.foldl (fun s m => mapOne s m.spc (pageAddr addr) ((s.objs o).flags &&& VMOBJ_PERM) phys o
        offset) s').phys = s'.phys := by
    intro l
    induction l with
    | nil => exact fun _ => ⟨rfl, rfl⟩
    | cons m l ih => exact fun s' => ih _
  exact hfold _ _

theorem updatePageTables_get (s : VmState σ ο ι W) (o : ο) (offset phys addr : BitVec 32) (spc : σ)
    (a : BitVec 32) :
    ((updatePageTables s o offset phys addr).tables spc).get a =
      if (∃ m ∈ (s.objs o).mapperList, m.spc = spc) ∧ pageNum a = pageNum addr then
        newEntry s o phys
      else (s.tables spc).get a := by
  have htables : (updatePageTables s o offset phys addr).tables =
      writeAll (newEntry s o phys) s.tables
        ((s.objs o).mapperList.map fun m => (m.spc, pageAddr addr)) :=
    (mapAll_tables (s.objs o).mapperList
      (s.setInv (invPageLookup phys) fun e => { e with type := .used }) o offset phys
      (pageAddr addr)).2
  have hiff : (∃ w ∈ (s.objs o).mapperList.map fun m => (m.spc, pageAddr addr),
      w.1 = spc ∧ pageNum w.2 = pageNum a) ↔
      (∃ m ∈ (s.objs o).mapperList, m.spc = spc) ∧ pageNum a = pageNum addr := by
    constructor
    · rintro ⟨w, hw, hspc, hpage⟩
      obtain ⟨m, hm, rfl⟩ := List.mem_map.mp hw
      rw [pageNum_pageAddr] at hpage
      exact ⟨⟨m, hm, hspc⟩, hpage.symm⟩
    · rintro ⟨⟨m, hm, hspc⟩, hpage⟩
      refine ⟨_, List.mem_map_of_mem hm, hspc, ?_⟩
      rw [pageNum_pageAddr, hpage]
  rw [htables, writeAll_get, if_congr hiff rfl rfl]

def Vmap.place (m : Vmap σ ο) (k : BitVec 32) : BitVec 32 := m.addr + k * 4096

def InstalledEverywhere (s s' : VmState σ ο ι W) (o : ο) (k phys : BitVec 32) : Prop :=
  (∀ m ∈ (s.objs o).mapperList, (s'.tables m.spc).get (m.place k) = newEntry s o phys) ∧
    ∀ spc a, (∀ m ∈ (s.objs o).mapperList, m.spc = spc → pageNum a ≠ pageNum (m.place k)) →
      (s'.tables spc).get a = (s.tables spc).get a

/-- The page of the faulting address is the place of the object's page in the address spaces of all
mappers, as far as they do not have the new entry anyway. -/
def SamePlace (s : VmState σ ο ι W) (o : ο) (k phys addr : BitVec 32) : Prop :=
  ∀ m ∈ (s.objs o).mapperList,
    (pageNum (m.place k) = pageNum addr ∨
      (s.tables m.spc).get (m.place k) = newEntry s o phys) ∧
    ((∃ m' ∈ (s.objs o).mapperList, m'.spc = m.spc ∧ pageNum (m'.place k) = pageNum addr) ∨
      (s.tables m.spc).get addr = newEntry s o phys)

/-- A page is installed at the right places exactly when these are all the same. -/
theorem installed_iff_same_place (s : VmState σ ο ι W) (o : ο) (k phys addr : BitVec 32) :
    InstalledEverywhere s (updatePageTables s o k phys addr) o k phys ↔
      SamePlace s o k phys addr := by
  constructor
  · rintro ⟨hplace, hframe⟩ m hm
    constructor
    · by_cases hpage : pageNum (m.place k) = pageNum addr
      · exact Or.inl hpage
      · have hnew := hplace m hm
        rw [updatePageTables_get, if_neg fun h => hpage h.2] at hnew
        exact Or.inr hnew
    · by_cases hex : ∃ m' ∈ (s.objs o).mapperList, m'.spc = m.spc ∧
          pageNum (m'.place k) = pageNum addr
      · exact Or.inl hex
      · have hkeep := hframe m.spc addr fun m' hm' hspc hpage => hex ⟨m', hm', hspc, hpage.symm⟩
        rw [updatePageTables_get, if_pos ⟨⟨m, hm, rfl⟩, rfl⟩] at hkeep
        exact Or.inr hkeep.symm
  · intro hsame
    constructor
    · intro m hm
      rw [updatePageTables_get]
      rcases (hsame m hm).1 with hpage | hentry
      · rw [if_pos ⟨⟨m, hm, rfl⟩, hpage⟩]
      · rw [hentry, ite_self]
    · intro spc a hout
      rw [updatePageTables_get]
      split
      · rename_i h
        obtain ⟨⟨m, hm, rfl⟩, hpage⟩ := h
        rcases (hsame m hm).2 with ⟨m', hm', hspc, hpage'⟩ | hentry
        · exact absurd (hpage.trans hpage'.symm) (hout m' hm' hspc)
        · rw [Entries.get_page _ hpage, hentry]
      · rfl

end

end Writes

/-- An object with one page, mapped at `0x1000` in one address space and at `0x5000` in the
other. -/
def sharedObj : VmObj Bool Unit Unit where
  id := 1
  flags := 3
  numMappers := 2
  mappers i := if i = 1 then [⟨0x1000, (), false⟩] else if i = 2 then [⟨0x5000, (), true⟩] else []
  srcType := .anon
  cowSrc := none
  cowNext := none
  cowPrev := none
  cowCount := 0
  inode := ()
  offset := 0
  anonPages _ := 0

def sharedState : VmState Bool Unit Unit Unit where
  objs _ := sharedObj
  tables _ _ _ := 0
  inv _ := ⟨.unused, 0, fun _ => []⟩
  phys := ()

/-- A fault at `0x1000` in the first address space installs the page at `0x1000` in the second. -/
theorem installed_elsewhere :
    ((updatePageTables sharedState () 0 0x7000 0x1000).tables true).get 0x1000 = 0x7007 ∧
    ((updatePageTables sharedState () 0 0x7000 0x1000).tables true).get 0x5000 = 0 ∧
    ¬ InstalledEverywhere sharedState (updatePageTables sharedState () 0 0x7000 0x1000) () 0
      0x7000 := by
  have hbad : ((updatePageTables sharedState () 0 0x7000 0x1000).tables true).get 0x5000 = 0 := by
    decide +kernel
  have hnew : newEntry sharedState () 0x7000 = 0x7007 := by decide +kernel
  refine ⟨by decide +kernel, hbad, fun h => ?_⟩
  have hplace := h.1 ⟨0x5000, (), true⟩ (by decide)
  have haddr : (⟨0x5000, (), true⟩ : Vmap Bool Unit).place 0 = 0x5000 := by decide
  rw [haddr, hnew] at hplace
  exact absurd (hplace.symm.trans hbad) (by decide)

section Listed

variable {s s' : VmState σ ο ι W} {o : ο} {offset phys addr a p perm : BitVec 32} {spc : σ}

/-- The entry translates to the physical page of `p`. -/
def Translates (e p : BitVec 32) : Prop := present e ∧ pageNum e = pageNum p

def Listed (s : VmState σ ο ι W) : Prop :=
  ∀ spc a p, Translates ((s.tables spc).get a) p → (s.inv (invPageLookup p)).mapList ≠ []

theorem invPageLookup_pageNum (p : BitVec 32) : invPageLookup p = (pageNum p).toNat := by
  simp [invPageLookup, pageNum, Nat.shiftRight_eq_div_pow]

theorem pageNum_mapEntry (perm phys : BitVec 32) : pageNum (mapEntry perm phys) = pageNum phys := by
  apply BitVec.eq_of_getLsbD_eq
  intro i hi
  interval_cases i <;> simp [pageNum, mapEntry]

omit [DecidableEq σ] [DecidableEq ο] in
theorem Listed.congr (h : Listed s) (htables : s'.tables = s.tables) (hinv : s'.inv = s.inv) :
    Listed s' := by
  intro spc a p ht
  rw [htables] at ht
  rw [hinv]
  exact h spc a p ht

omit [DecidableEq ο] in
theorem mapList_invMapInsert (id : BitVec 32) (m : InvMap ο) (e : InvEntry ο) :
    (invMapInsert id m e).mapList ≠ [] := by
  have hmem : m ∈ (invMapInsert id m e).mapList := by
    refine List.mem_flatMap.mpr ⟨id.toNat % 29, List.mem_range.mpr (Nat.mod_lt _ (by decide)), ?_⟩
    simp [invMapInsert]
  exact List.ne_nil_of_mem hmem

omit [DecidableEq σ] [DecidableEq ο] in
theorem Listed.setInv (h : Listed s) {q : ℕ} {f : InvEntry ο → InvEntry ο}
    (hf : ∀ e, e.mapList ≠ [] → (f e).mapList ≠ []) : Listed (s.setInv q f) := by
  intro spc a p ht
  have hlist := h spc a p ht
  rw [VmState.setInv]
  by_cases hq : invPageLookup p = q
  · subst hq
    simpa using hf _ hlist
  · simpa [hq] using hlist

section

omit [DecidableEq ο]

theorem Listed.mapOne (h : Listed s) : Listed (mapOne s spc addr perm phys o offset) := by
  intro spc' a p ht
  rw [VirtualMemory.mapOne, VmState.setInv]
  by_cases hp : invPageLookup p = invPageLookup phys
  · rw [hp]
    simpa using mapList_invMapInsert _ _ _
  · have hold : Translates ((s.tables spc').get a) p := by
      by_cases hspc : spc' = spc
      · subst hspc
        by_cases hpage : pageNum a = pageNum addr
        · have hnew : (((VirtualMemory.mapOne s spc' addr perm phys o offset).tables spc').get a) =
              mapEntry perm phys := by
            simp [VirtualMemory.mapOne, VmState.setInv, pageMap, PteOp.entry,
              Entries.get_page _ hpage, Entries.get_set]
          rw [hnew] at ht
          refine absurd ?_ hp
          rw [invPageLookup_pageNum, invPageLookup_pageNum, ← ht.2, pageNum_mapEntry]
        · have hkeep : (((VirtualMemory.mapOne s spc' addr perm phys o offset).tables spc').get a) =
              (s.tables spc').get a := by
            simp [VirtualMemory.mapOne, VmState.setInv, pageMap, Entries.get_set_ne _ _ hpage]
          rwa [hkeep] at ht
      · have hkeep : (VirtualMemory.mapOne s spc addr perm phys o offset).tables spc' =
            s.tables spc' := by
          simp [VirtualMemory.mapOne, VmState.setInv, hspc]
        rwa [hkeep] at ht
    simpa [hp] using h spc' a p hold

theorem Listed.mapAll (h : Listed s) (l : List (Vmap σ ο)) (addr phys : BitVec 32) (o : ο)
    (offset : BitVec 32) : Listed (l.foldl (fun s m =>
      VirtualMemory.mapOne s m.spc addr ((s.objs o).flags &&& VMOBJ_PERM) phys o offset) s) := by
  induction l generalizing s with
  | nil => exact h
  | cons m l ih => exact ih h.mapOne

theorem Listed.updatePageTables (h : Listed s) :
    Listed (updatePageTables s o offset phys addr) :=
  (h.setInv (f := fun e => { e with type := .used }) fun _ he => he).mapAll _ _ _ _ _

end

omit [DecidableEq σ] in
theorem Listed.setObj (h : Listed s) (f : VmObj σ ο ι → VmObj σ ο ι) : Listed (s.setObj o f) :=
  h.congr rfl rfl

section Faults

variable [Fintype ο] {M : PhysMem σ ο ι W} {st : Stack ι} {src : PageSrc ι} {access : BitVec 32}

omit [Fintype ο] [DecidableEq σ] in
theorem Listed.getPageSrc {fuel : ℕ} (h : Listed s) {o : ο}
    (hr : getPageSrc M fuel s spc o offset = some (s', src)) : Listed s' := by
  induction fuel generalizing o with
  | zero => cases hr
  | succ fuel ih =>
    simp only [VirtualMemory.getPageSrc] at hr
    split at hr
    · cases hr
      exact h
    · split at hr
      · split at hr
        · cases hr
          exact h
        · cases hr
          exact h.congr rfl rfl
      · split at hr
        · cases hr
          exact h
        · obtain ⟨o', -, hr⟩ := Option.bind_eq_some_iff.mp hr
          exact ih hr

omit [Fintype ο] [DecidableEq σ] in
theorem Listed.retire (h : Listed s) (hr : retire s o = some s') : Listed s' := by
  simp only [VirtualMemory.retire] at hr
  split at hr
  · split at hr
    · cases hr
    · cases hr
      exact h.congr rfl rfl
  · cases hr
    exact h

omit [Fintype ο] [DecidableEq σ] [DecidableEq ο] in
theorem Listed.cloneOrKeep (h : Listed s) (M : PhysMem σ ο ι W) (st : Stack ι) (spc : σ) (o : ο)
    (src : PageSrc ι) (keep : Bool) : Listed (cloneOrKeep M s st spc o src keep).1 := by
  rw [VirtualMemory.cloneOrKeep]
  split <;> exact h.congr rfl rfl

section

omit [Fintype ο]

theorem Listed.installCopy (h : Listed s) :
    Listed (installCopy M s st spc addr o offset src).1 := by
  have hclone := h.cloneOrKeep M st spc o src (M.cowLookup s.phys src = 1 ∧ ¬ isInode src)
  exact Listed.congr (hclone.setObj _).updatePageTables rfl rfl

theorem Listed.monkeyInTheMiddle (h : Listed s) :
    Listed (monkeyInTheMiddle M s st spc addr o offset src).1 := by
  rw [VirtualMemory.monkeyInTheMiddle]
  split
  · exact h.installCopy
  · exact h

theorem Listed.giveCopies {fuel : ℕ} {anon : BitVec 32} {list : Option ο} (h : Listed s)
    (hr : giveCopies o offset phys addr anon fuel s list = some s') : Listed s' := by
  induction fuel generalizing s list with
  | zero => cases hr
  | succ fuel ih =>
    cases list with
    | none => cases hr
    | some l =>
      simp only [VirtualMemory.giveCopies] at hr
      split at hr
      · cases hr
        exact h
      · split at hr
        · cases hr
        · exact ih (h.setObj _).updatePageTables hr

end

theorem Listed.doProtectFault (h : Listed s)
    (hr : doProtectFault M s st spc addr o access offset src = some s') : Listed s' := by
  simp only [VirtualMemory.doProtectFault] at hr
  split at hr
  · split at hr
    · exact h.installCopy.retire hr
    · obtain ⟨s₁, h₁, hr⟩ := Option.bind_eq_some_iff.mp hr
      have hshared := (h.monkeyInTheMiddle.cloneOrKeep M _ _ _ _ _).updatePageTables.giveCopies h₁
      exact hshared.setObj _ |>.retire hr
  · cases hr

theorem step_preserves_listed {mapping : σ → BitVec 32 → Option (Vmap σ ο)} {f : Fault σ ι}
    (h : Listed s) (hstep : faultStep M mapping s f = some s') : Listed s' := by
  cases f with
  | page curr addr access st =>
    obtain ⟨m, -, hr⟩ := Option.bind_eq_some_iff.mp hstep
    obtain ⟨⟨s₁, src⟩, h₁, hr⟩ := Option.bind_eq_some_iff.mp hr
    have hlisted := h.getPageSrc h₁
    dsimp only at hr
    split at hr
    · refine Listed.doProtectFault ?_ hr
      exact Listed.mapOne (hlisted.congr rfl rfl)
    · cases hr
      exact Listed.mapOne (hlisted.congr rfl rfl)
  | protect curr addr access st =>
    obtain ⟨m, -, hr⟩ := Option.bind_eq_some_iff.mp hstep
    obtain ⟨⟨s₁, src⟩, h₁, hr⟩ := Option.bind_eq_some_iff.mp hr
    exact (h.getPageSrc h₁).doProtectFault hr

end Faults

section

omit [DecidableEq ο]

theorem vmObjPageUnmap_kept (s : VmState σ ο ι W) (o : ο) (offset : BitVec 32) :
    (vmObjPageUnmap s o offset).inv = s.inv := by
  rw [vmObjPageUnmap]
  generalize (s.objs o).mapperList = l
  induction l generalizing s with
  | nil => rfl
  | cons m l ih => exact ih _

theorem vmInvalidatePage_inv (s : VmState σ ο ι W) (p : BitVec 32) :
    (vmInvalidatePage s p).inv = Function.update s.inv (invPageLookup p)
      { s.inv (invPageLookup p) with type := .unused, numMappers := 0 } := by
  have hfold : ∀ (l : List (InvMap ο)) (s : VmState σ ο ι W),
      (l.foldl (fun s m => vmObjPageUnmap s m.obj m.offset) s).inv = s.inv := by
    intro l
    induction l with
    | nil => exact fun _ => rfl
    | cons m l ih =>
      intro s
      rw [List.foldl_cons, ih, vmObjPageUnmap_kept]
  exact hfold _ _

structure Invalidated (s s' : VmState σ ο ι W) (p : BitVec 32) : Prop where
  gone : ∀ spc a, ¬ Translates ((s'.tables spc).get a) p
  kept : ∀ spc a, ¬ Translates ((s.tables spc).get a) p →
    (s'.tables spc).get a = (s.tables spc).get a
  unlisted : (s'.inv (invPageLookup p)).numMappers = 0 ∧ (s'.inv (invPageLookup p)).mapList = []

theorem Listed.invalidated_iff (h : Listed s) (p : BitVec 32) :
    Invalidated s (vmInvalidatePage s p) p ↔ (s.inv (invPageLookup p)).mapList = [] := by
  have hinv : (vmInvalidatePage s p).inv (invPageLookup p) =
      { s.inv (invPageLookup p) with type := .unused, numMappers := 0 } := by
    rw [vmInvalidatePage_inv, Function.update_self]
  constructor
  · intro hinvalid
    have hlist := hinvalid.unlisted.2
    rwa [hinv] at hlist
  · intro hempty
    have htables : (vmInvalidatePage s p).tables = s.tables := by
      have hlist : ((s.setInv (invPageLookup p) fun e =>
          { e with type := .unused, numMappers := 0 }).inv (invPageLookup p)).mapList = [] := by
        simp only [VmState.setInv, Function.update_self]
        exact hempty
      simp only [vmInvalidatePage, hlist]
      rfl
    refine ⟨fun spc a ht => ?_, fun spc a _ => ?_, ?_, ?_⟩
    · rw [htables] at ht
      exact h spc a p ht hempty
    · rw [htables]
    · rw [hinv]
    · rw [hinv]
      exact hempty

end

/-- After any faults, an invalidation does its work exactly on the pages that have no mappers. -/
theorem invalidated_iff_unlisted [Fintype ο] {M : PhysMem σ ο ι W}
    {mapping : σ → BitVec 32 → Option (Vmap σ ο)} {start : VmState σ ο ι W}
    (hstart : ∀ spc a, ¬ present ((start.tables spc).get a))
    (hrun : Execution (faultStep M mapping) (fun _ _ => True) start s) (p : BitVec 32) :
    Invalidated s (vmInvalidatePage s p) p ↔ (s.inv (invPageLookup p)).mapList = [] := by
  have hlisted : Listed s := by
    refine hrun.preserves (I := Listed) (fun _ _ _ h _ hstep => step_preserves_listed h hstep) ?_
    intro spc a p ht
    exact absurd ht.1 (hstart spc a)
  exact hlisted.invalidated_iff p

end Listed

def fileObj : VmObj Unit Unit Unit where
  id := 1
  flags := 1
  numMappers := 1
  mappers i := if i = 1 then [⟨0x400000, (), ()⟩] else []
  srcType := .inode
  cowSrc := none
  cowNext := none
  cowPrev := none
  cowCount := 0
  inode := ()
  offset := 0
  anonPages _ := 0

def fileState : VmState Unit Unit Unit Unit where
  objs _ := fileObj
  tables _ _ _ := 0
  inv _ := ⟨.unused, 0, fun _ => []⟩
  phys := ()

def filePages : PhysMem Unit Unit Unit Unit where
  anonPageCreate w _ _ _ _ := (w, 0)
  physPageFetch w src _ _ _ := (w, match src with
    | .inode _ offset => 0x7000 + offset * 0x1000
    | _ => 0)
  cowLookup _ _ := 0
  cowDec w _ := w

def fileMapping (_ : Unit) (addr : BitVec 32) : Option (Vmap Unit Unit) :=
  if 0x400000 ≤ addr ∧ addr < 0x402000 then some ⟨0x400000, (), ()⟩ else none

def fileFaults : List (Fault Unit Unit) :=
  [.page () 0x400000 2 ⟨0, .null⟩, .page () 0x401004 2 ⟨0, .null⟩]

theorem invalidated_iff_unlisted_unused : ∃ s : VmState Unit Unit Unit Unit,
    Execution (faultStep filePages fileMapping) (fun _ _ => True) fileState s ∧
      (s.tables ()).get 0x401000 = 0x8005 ∧ Invalidated s (vmInvalidatePage s 0x9000) 0x9000 := by
  have hrun : (follow (faultStep filePages fileMapping) (fun _ _ => True) fileState
      fileFaults).map (fun s => decide ((s.tables ()).get 0x401000 = 0x8005 ∧
        (s.inv (invPageLookup 0x9000)).mapList = [])) = some true := by
    decide +kernel
  obtain ⟨s, hs, hd⟩ := Option.map_eq_some_iff.mp hrun
  obtain ⟨hentry, hlist⟩ := of_decide_eq_true hd
  have hexec := execution_of_follow hs
  have hstart : ∀ spc a, ¬ present ((fileState.tables spc).get a) := by
    intro spc a
    have hzero : (fileState.tables spc).get a = 0 := rfl
    rw [hzero]
    decide
  exact ⟨s, hexec, hentry, (invalidated_iff_unlisted hstart hexec 0x9000).mpr hlist⟩

/-- The second page is invalidated: the first page loses its translation, the second keeps it. -/
theorem wrong_page_unmapped : ∃ s : VmState Unit Unit Unit Unit,
    Execution (faultStep filePages fileMapping) (fun _ _ => True) fileState s ∧
      (s.tables ()).get 0x400000 = 0x7005 ∧
      ((vmInvalidatePage s 0x8000).tables ()).get 0x400000 = 0 ∧
      ((vmInvalidatePage s 0x8000).tables ()).get 0x401000 = 0x8005 ∧
      ¬ Invalidated s (vmInvalidatePage s 0x8000) 0x8000 := by
  have hrun : (follow (faultStep filePages fileMapping) (fun _ _ => True) fileState
      fileFaults).map (fun s => decide ((s.tables ()).get 0x400000 = 0x7005 ∧
        ((vmInvalidatePage s 0x8000).tables ()).get 0x400000 = 0 ∧
        ((vmInvalidatePage s 0x8000).tables ()).get 0x401000 = 0x8005)) = some true := by
    decide +kernel
  obtain ⟨s, hs, hd⟩ := Option.map_eq_some_iff.mp hrun
  obtain ⟨hfirst, hgone, hstays⟩ := of_decide_eq_true hd
  refine ⟨s, execution_of_follow hs, hfirst, hgone, hstays, fun h => ?_⟩
  have hnot := h.gone () 0x401000
  rw [hstays] at hnot
  exact hnot ⟨by decide, by decide⟩

end VirtualMemory
