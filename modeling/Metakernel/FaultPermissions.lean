import Metakernel.VirtualMemory

/-!
# Permissions in the fault handlers

The handlers of virt_mem.c as lists of what they do after `get_page_src`: what they report, which
pages they create, which entries they set and which translations they install.
-/
namespace FaultPermissions

open LinkedNodes DataStructures NodeTables PhysicalPages PageTables VirtualMemory

variable {σ ο ι W : Type*} [DecidableEq σ] [DecidableEq ο]

/-- `copyOnWrite` is the first branch of `do_protect_fault`, `own` an assignment to `anon_pages` and
`map` a call of `page_map`. -/
inductive Action (σ ο ι : Type*) where
  | illegalAccess (addr perm access : BitVec 32)
  | copyOnWrite (o : ο)
  | create (src : PageSrc ι) (id : BitVec 32)
  | own (o : ο) (offset : ℕ) (id : BitVec 32)
  | map (spc : σ) (addr perm phys : BitVec 32)
  deriving DecidableEq

structure Seen (σ ο : Type*) where
  tables : σ → Entries
  anonPages : ο → ℕ → BitVec 32

def seen (s : VmState σ ο ι W) : Seen σ ο := ⟨s.tables, fun o => (s.objs o).anonPages⟩

def Seen.after (v : Seen σ ο) : Action σ ο ι → Seen σ ο
  | .own o offset id =>
    { v with
      anonPages := Function.update v.anonPages o (Function.update (v.anonPages o) offset id) }
  | .map spc addr perm phys =>
    { v with tables := Function.update v.tables spc (pageMap (v.tables spc) addr perm phys) }
  | _ => v

def replay (v : Seen σ ο) (as : List (Action σ ο ι)) : Seen σ ο := as.foldl Seen.after v

def mapActions (s : VmState σ ο ι W) (o : ο) (phys addr : BitVec 32) : List (Action σ ο ι) :=
  (s.objs o).mapperList.map fun m =>
    .map m.spc (pageAddr addr) ((s.objs o).flags &&& VMOBJ_PERM) phys

section Handlers

variable [Fintype ο] (M : PhysMem σ ο ι W)

def cloneActions (s : VmState σ ο ι W) (spc : σ) (o : ο) (orig : PageSrc ι) (keep : Bool) :
    List (Action σ ο ι) :=
  if keep then [] else [.create orig (M.anonPageCreate s.phys orig spc o (isShared s o)).2]

def installActions (s : VmState σ ο ι W) (st : Stack ι) (spc : σ) (addr : BitVec 32) (o : ο)
    (offset : BitVec 32) (orig : PageSrc ι) : List (Action σ ο ι) :=
  let keep : Bool := M.cowLookup s.phys orig = 1 ∧ ¬ isInode orig
  let r := cloneOrKeep M s st spc o orig keep
  cloneActions M s spc o orig keep ++ .own o offset.toNat r.2.1.anon :: mapActions s o r.2.2 addr

def giveActions (o : ο) (offset phys addr anon : BitVec 32) :
    ℕ → VmState σ ο ι W → Option ο → List (Action σ ο ι)
  | 0, _, _ => []
  | _ + 1, _, none => []
  | fuel + 1, s, some l =>
    if l = o then []
    else if (s.objs l).srcType ≠ .anon ∨ (s.objs l).cowSrc ≠ some o ∨
        (s.objs l).anonPages offset.toNat ≠ 0 then []
    else
      let s' := s.setObj l fun obj =>
        { obj with anonPages := Function.update obj.anonPages offset.toNat anon }
      let s' := updatePageTables s' l offset phys addr
      .own l offset.toNat anon :: mapActions s l phys addr ++
        giveActions o offset phys addr anon fuel s' (s'.objs l).cowNext

def monkeyActions (s : VmState σ ο ι W) (st : Stack ι) (curr : σ) (addr : BitVec 32) (o : ο)
    (offset : BitVec 32) (orig : PageSrc ι) : List (Action σ ο ι) :=
  if (s.objs o).flags &&& VMOBJ_COW ≠ 0 ∧ (s.objs o).anonPages offset.toNat = 0 then
    installActions M s st curr addr o offset orig
  else []

def shareActions (s : VmState σ ο ι W) (st : Stack ι) (curr : σ) (addr : BitVec 32) (o : ο)
    (offset : BitVec 32) (orig : PageSrc ι) : List (Action σ ο ι) :=
  let keep : Bool := M.cowLookup s.phys orig = 1
  let c := cloneOrKeep M s st curr o orig keep
  let s' := updatePageTables c.1 o offset c.2.2 addr
  cloneActions M s curr o orig keep ++ (mapActions s o c.2.2 addr ++
    giveActions o offset c.2.2 addr c.2.1.anon (Fintype.card ο + 1) s' (s'.objs o).cowNext)

def protectActions (s : VmState σ ο ι W) (st : Stack ι) (curr : σ) (addr : BitVec 32) (o : ο)
    (access offset : BitVec 32) (orig : PageSrc ι) : List (Action σ ο ι) :=
  let obj := s.objs o
  if obj.flags &&& (VMOBJ_COW ||| VMOBJ_WRITE ||| VMOBJ_COW_SRC) ≠ 0 ∧
      access &&& VMOBJ_WRITE ≠ 0 then
    .copyOnWrite o ::
      if obj.flags &&& VMOBJ_COW_SRC = 0 ∨ obj.srcType = .anon ∧ obj.cowSrc = none then
        installActions M s st curr addr o offset orig
      else
        let r := monkeyInTheMiddle M s st curr addr o offset orig
        monkeyActions M s st curr addr o offset orig ++
          shareActions M r.1 r.2.1 curr addr o offset r.2.2
  else [.illegalAccess addr (obj.flags &&& VMOBJ_PERM) access]

/-- The state in which `vm_page_fault` looks at the permissions. -/
def fetched (s : VmState σ ο ι W) (curr : σ) (o : ο) (src : PageSrc ι) : VmState σ ο ι W :=
  { s with phys := (M.physPageFetch s.phys src curr o (isShared s o)).1 }

def pageActions (s : VmState σ ο ι W) (st : Stack ι) (curr : σ) (addr : BitVec 32) (o : ο)
    (access offset : BitVec 32) (src : PageSrc ι) : List (Action σ ο ι) :=
  let phys := (M.physPageFetch s.phys src curr o (isShared s o)).2
  let s := fetched M s curr o src
  let perm := faultPerm M s o src
  .map curr (pageAddr addr) perm phys ::
    if perm = perm ||| access then
      protectActions M (mapOne s curr (pageAddr addr) perm phys o offset) st curr addr o access
        offset src
    else []

/-- The mapping is the outcome of `get_mapping_obj`. -/
def vmPageFaultActions (s : VmState σ ο ι W) (st : Stack ι) (curr : σ) (addr access : BitVec 32)
    (map : Option (Vmap σ ο)) : Option (List (Action σ ο ι)) :=
  map.bind fun m => (getPageSrc M (Fintype.card ο + 1) s curr m.obj (pageOffset m addr)).map
    fun r => pageActions M r.1 st curr addr m.obj access (pageOffset m addr) r.2

def vmProtectFaultActions (s : VmState σ ο ι W) (st : Stack ι) (curr : σ) (addr access : BitVec 32)
    (map : Option (Vmap σ ο)) : Option (List (Action σ ο ι)) :=
  map.bind fun m => (getPageSrc M (Fintype.card ο + 1) s curr m.obj (pageOffset m addr)).map
    fun r => protectActions M r.1 st curr addr m.obj access (pageOffset m addr) r.2

end Handlers

section Replay

variable [Fintype ο] {M : PhysMem σ ο ι W} {s s' : VmState σ ο ι W} {st : Stack ι} {spc : σ}
  {o : ο} {addr offset access phys anon : BitVec 32} {orig src : PageSrc ι}

omit [Fintype ο] in
theorem replay_append (v : Seen σ ο) (as bs : List (Action σ ο ι)) :
    replay v (as ++ bs) = replay (replay v as) bs := List.foldl_append

omit [Fintype ο] in
theorem replay_cons (v : Seen σ ο) (a : Action σ ο ι) (as : List (Action σ ο ι)) :
    replay v (a :: as) = replay (v.after a) as := rfl

omit [DecidableEq σ] [DecidableEq ο] [Fintype ο] in
theorem seen_congr (htables : s'.tables = s.tables)
    (hpages : ∀ o, (s'.objs o).anonPages = (s.objs o).anonPages) : seen s' = seen s := by
  rw [seen, htables, seen]
  exact congrArg _ (funext hpages)

omit [DecidableEq σ] [Fintype ο] in
theorem seen_setObj (s : VmState σ ο ι W) (o : ο) (f : VmObj σ ο ι → VmObj σ ο ι)
    (hf : (f (s.objs o)).anonPages = (s.objs o).anonPages) : seen (s.setObj o f) = seen s := by
  refine seen_congr rfl fun p => ?_
  by_cases hp : p = o
  · subst hp
    rw [VmState.setObj_self, hf]
  · rw [VmState.setObj_ne _ _ hp]

section

omit [Fintype ο]

theorem seen_own (s : VmState σ ο ι W) (o : ο) (k : ℕ) (id : BitVec 32) :
    seen (s.setObj o fun obj => { obj with anonPages := Function.update obj.anonPages k id }) =
      (seen s).after (.own o k id : Action σ ο ι) := by
  refine congrArg (Seen.mk s.tables) (funext fun p => ?_)
  by_cases hp : p = o
  · subst hp
    rw [VmState.setObj_self, Function.update_self]
    rfl
  · rw [VmState.setObj_ne _ _ hp, Function.update_of_ne hp]
    rfl

theorem mapAll_replay (l : List (Vmap σ ο)) (s : VmState σ ο ι W) :
    seen (l.foldl (fun s m => mapOne s m.spc addr ((s.objs o).flags &&& VMOBJ_PERM) phys o offset)
      s) = replay (seen s) (l.map fun m =>
        (.map m.spc addr ((s.objs o).flags &&& VMOBJ_PERM) phys : Action σ ο ι)) := by
  induction l generalizing s with
  | nil => rfl
  | cons m l ih => exact ih (mapOne s m.spc addr ((s.objs o).flags &&& VMOBJ_PERM) phys o offset)

theorem updatePageTables_replay (s : VmState σ ο ι W) (o : ο) (offset phys addr : BitVec 32) :
    seen (updatePageTables s o offset phys addr) =
      replay (seen s) (mapActions s o phys addr) :=
  mapAll_replay (s.objs o).mapperList
    (s.setInv (invPageLookup phys) fun e => { e with type := .used })

theorem cloneActions_replay (v : Seen σ ο) (keep : Bool) :
    replay v (cloneActions M s spc o orig keep) = v := by
  rw [cloneActions]
  split <;> rfl

end

omit [DecidableEq σ] [DecidableEq ο] [Fintype ο] in
theorem cloneOrKeep_kept (M : PhysMem σ ο ι W) (s : VmState σ ο ι W) (st : Stack ι) (spc : σ) (o : ο)
    (orig : PageSrc ι) (keep : Bool) :
    (cloneOrKeep M s st spc o orig keep).1.objs = s.objs ∧
      (cloneOrKeep M s st spc o orig keep).1.tables = s.tables := by
  rw [cloneOrKeep]
  split <;> exact ⟨rfl, rfl⟩

omit [DecidableEq σ] [DecidableEq ο] [Fintype ο] in
theorem mapActions_congr (hflags : (s'.objs o).flags = (s.objs o).flags)
    (hmappers : (s'.objs o).mappers = (s.objs o).mappers) :
    mapActions s' o phys addr = mapActions s o phys addr := by
  rw [mapActions, mapActions, VmObj.mapperList, VmObj.mapperList, hflags, hmappers]

omit [Fintype ο] in
theorem installCopy_replay : seen (installCopy M s st spc addr o offset orig).1 =
    replay (seen s) (installActions M s st spc addr o offset orig) := by
  rw [installCopy, installActions]
  generalize hkeep : decide (M.cowLookup s.phys orig = 1 ∧ ¬ isInode orig) = keep
  obtain ⟨hobjs, htables⟩ := cloneOrKeep_kept M s st spc o orig keep
  generalize cloneOrKeep M s st spc o orig keep = r at *
  have hseen : seen r.1 = seen s := seen_congr htables fun p => by rw [hobjs]
  have hmaps : mapActions (r.1.setObj o fun obj =>
      { obj with anonPages := Function.update obj.anonPages offset.toNat r.2.1.anon }) o r.2.2 addr =
      (mapActions s o r.2.2 addr : List (Action σ ο ι)) := by
    apply mapActions_congr <;> rw [VmState.setObj_self, hobjs]
  rw [replay_append, cloneActions_replay, replay_cons, decCount, seen_setObj _ _ _ rfl]
  rw [← hseen, ← seen_own, ← hmaps, ← updatePageTables_replay]
  rfl

omit [Fintype ο] in
theorem giveCopies_replay {fuel : ℕ} {list : Option ο}
    (h : giveCopies o offset phys addr anon fuel s list = some s') :
    seen s' = replay (seen s) (giveActions o offset phys addr anon fuel s list) := by
  induction fuel generalizing s list with
  | zero => cases h
  | succ fuel ih =>
    cases list with
    | none => cases h
    | some l =>
      rw [giveCopies] at h
      rw [giveActions]
      split at h
      · rename_i hl
        cases h
        rw [if_pos hl]
        rfl
      · rename_i hl
        split at h
        · cases h
        · rename_i hshares
          rw [if_neg hl, if_neg hshares]
          have hmaps : mapActions (s.setObj l fun obj =>
              { obj with anonPages := Function.update obj.anonPages offset.toNat anon }) l phys addr =
              (mapActions s l phys addr : List (Action σ ο ι)) := by
            apply mapActions_congr <;> rw [VmState.setObj_self]
          rw [ih h, List.cons_append, replay_cons, replay_append, ← seen_own, ← hmaps,
            ← updatePageTables_replay]

omit [DecidableEq σ] [Fintype ο] in
theorem clistDelete_pages (objs : ο → VmObj σ ο ι) (x : Option ο) (p : ο) :
    ((clistDelete cowNext cowPrev none objs x).1 p).anonPages = (objs p).anonPages := by
  refine clistDelete_keeps (g := fun objs : ο → VmObj σ ο ι => (objs p).anonPages) ?_ ?_ objs x
  all_goals
    intro objs q v
    rcases q with _ | q
    · rfl
    · by_cases hp : p = q <;> simp [cowNext, cowPrev, tableField, hp]

omit [DecidableEq σ] [Fintype ο] in
theorem retire_replay (h : retire s o = some s') : seen s' = seen s := by
  rw [retire] at h
  split at h
  · dsimp only at h
    split at h
    · cases h
    · cases h
      rw [← seen_setObj s o (fun obj => { obj with
        flags := obj.flags &&& ~~~(VMOBJ_COW ||| VMOBJ_COW_SRC) }) rfl]
      exact seen_congr rfl (clistDelete_pages _ _)
  · cases h
    rfl

omit [Fintype ο] in
theorem monkeyInTheMiddle_replay : seen (monkeyInTheMiddle M s st spc addr o offset orig).1 =
    replay (seen s) (monkeyActions M s st spc addr o offset orig) := by
  rw [monkeyInTheMiddle, monkeyActions]
  split
  · exact installCopy_replay
  · rfl

theorem shareActions_replay {c : VmState σ ο ι W × Stack ι × BitVec 32}
    (hc : cloneOrKeep M s st spc o orig (M.cowLookup s.phys orig = 1) = c)
    (h : giveCopies o offset c.2.2 addr c.2.1.anon (Fintype.card ο + 1)
      (updatePageTables c.1 o offset c.2.2 addr)
      ((updatePageTables c.1 o offset c.2.2 addr).objs o).cowNext = some s') :
    seen s' = replay (seen s) (shareActions M s st spc addr o offset orig) := by
  obtain ⟨hobjs, htables⟩ := cloneOrKeep_kept M s st spc o orig (M.cowLookup s.phys orig = 1)
  rw [hc] at hobjs htables
  have hseen : seen c.1 = seen s := seen_congr htables fun p => by rw [hobjs]
  have hmaps : mapActions c.1 o c.2.2 addr = (mapActions s o c.2.2 addr : List (Action σ ο ι)) := by
    apply mapActions_congr <;> rw [hobjs]
  simp only [shareActions, hc]
  rw [replay_append, cloneActions_replay, replay_append, giveCopies_replay h,
    updatePageTables_replay, hseen, hmaps]

/-- Where `do_protect_fault` returns its actions have done what it did. -/
theorem doProtectFault_replay
    (h : doProtectFault M s st spc addr o access offset orig = some s') :
    seen s' = replay (seen s) (protectActions M s st spc addr o access offset orig) := by
  rw [doProtectFault] at h
  rw [protectActions]
  split at h
  · rename_i hwrite
    rw [if_pos hwrite, replay_cons]
    split at h
    · rename_i hown
      rw [if_pos hown, retire_replay h, installCopy_replay]
      rfl
    · rename_i hsource
      obtain ⟨s₁, hgive, hretire⟩ := Option.bind_eq_some_iff.mp h
      have hshare := shareActions_replay rfl hgive
      rw [if_neg hsource, retire_replay hretire, decCount, seen_setObj _ _ _ rfl, hshare,
        monkeyInTheMiddle_replay, replay_append]
      rfl
  · cases h

theorem vmProtectFault_replay {m : Vmap σ ο} {s₁ : VmState σ ο ι W}
    (hget : getPageSrc M (Fintype.card ο + 1) s spc m.obj (pageOffset m addr) = some (s₁, src))
    (h : vmProtectFault M s st spc addr access (some m) = some s') :
    ∃ as, vmProtectFaultActions M s st spc addr access (some m) = some as ∧
      seen s' = replay (seen s₁) as := by
  rw [vmProtectFault, Option.bind_some, hget, Option.bind_some] at h
  rw [vmProtectFaultActions, Option.bind_some, hget, Option.map_some]
  exact ⟨_, rfl, doProtectFault_replay h⟩

theorem vmPageFault_replay {m : Vmap σ ο} {s₁ : VmState σ ο ι W}
    (hget : getPageSrc M (Fintype.card ο + 1) s spc m.obj (pageOffset m addr) = some (s₁, src))
    (h : vmPageFault M s st spc addr access (some m) = some s') :
    ∃ as, vmPageFaultActions M s st spc addr access (some m) = some as ∧
      seen s' = replay (seen s₁) as := by
  rw [vmPageFault, Option.bind_some] at h
  dsimp only at h
  rw [hget, Option.bind_some] at h
  rw [vmPageFaultActions, Option.bind_some, hget, Option.map_some]
  refine ⟨_, rfl, ?_⟩
  rw [pageActions, replay_cons]
  split at h
  · rename_i haccess
    rw [fetched, if_pos haccess, doProtectFault_replay h]
    rfl
  · rename_i haccess
    cases h
    rw [fetched, if_neg haccess]
    rfl

end Replay

section Permissions

variable [Fintype ο] (M : PhysMem σ ο ι W)

def Permitted (s : VmState σ ο ι W) (o : ο) (access : BitVec 32) : Prop :=
  access &&& ~~~((s.objs o).flags &&& VMOBJ_PERM) = 0

def Shared (s : VmState σ ο ι W) (o : ο) (src : PageSrc ι) : Prop :=
  (s.objs o).flags &&& (VMOBJ_COW ||| VMOBJ_COW_SRC) ≠ 0 ∧ M.cowLookup s.phys src ≠ 0

def Action.Writable : Action σ ο ι → Prop
  | .map _ _ perm _ => perm &&& VMOBJ_WRITE ≠ 0
  | _ => False

def OnlyOwner (s : VmState σ ο ι W) (src : PageSrc ι) (id : BitVec 32) : Prop :=
  src = .anon id ∧ M.cowLookup s.phys src = 1

/-- Before anything writable is installed the object gets a page of its own, which is new or which
only it shares, and no other object is given a page after that. -/
def PrivateFirst (s : VmState σ ο ι W) (o : ο) (offset : BitVec 32) (src : PageSrc ι)
    (as : List (Action σ ο ι)) : Prop :=
  ∃ pre id post, as = pre ++ .own o offset.toNat id :: post ∧ (∀ a ∈ pre, ¬ a.Writable) ∧
    ((∃ orig, .create orig id ∈ pre) ∨ OnlyOwner M s src id) ∧
    ∀ p k i, Action.own p k i ∈ post → p = o

/-- What a handler has to do. Where `now` holds a page that is shared and written has to be private
when the handler returns, even if it installs nothing writable. -/
structure Enforces (now : Prop) (s : VmState σ ο ι W) (o : ο) (access offset : BitVec 32)
    (src : PageSrc ι) (as : List (Action σ ο ι)) : Prop where
  reported : (∃ addr perm acc, .illegalAccess addr perm acc ∈ as) ↔ ¬ Permitted s o access
  apart : Permitted s o access → access &&& VMOBJ_WRITE ≠ 0 → Shared M s o src →
    (now ∨ ∃ a ∈ as, a.Writable) → PrivateFirst M s o offset src as
  unshared : Permitted s o access → ¬ Shared M s o src → .copyOnWrite o ∉ as

def SharesPage (s : VmState σ ο ι W) (o l : ο) (offset : BitVec 32) : Prop :=
  (s.objs l).srcType = .anon ∧ (s.objs l).cowSrc = some o ∧ (s.objs l).anonPages offset.toNat = 0

/-- The page is cloned, for an object that is no source, or for one that waits for the page itself
and that no copy follows in the ring. -/
structure GetsOwnPage (s : VmState σ ο ι W) (o : ο) (offset : BitVec 32) (src : PageSrc ι) :
    Prop where
  cloned : ¬ (M.cowLookup s.phys src = 1 ∧ ¬ isInode src)
  alone : ((s.objs o).flags &&& VMOBJ_COW_SRC = 0 ∨
      (s.objs o).srcType = .anon ∧ (s.objs o).cowSrc = none) ∨
    ((s.objs o).flags &&& VMOBJ_COW ≠ 0 ∧ (s.objs o).anonPages offset.toNat = 0) ∧
      ∀ l, (s.objs o).cowNext = some l → l ≠ o → ¬ SharesPage s o l offset

/-- The protection faults that are handled: what is not permitted is reported unless it is a write
that the flags send to the copies, and a write to a shared page gives a page of its own. -/
def Handled (s : VmState σ ο ι W) (o : ο) (access offset : BitVec 32) (src : PageSrc ι) : Prop :=
  ¬ Permitted s o access ∧ (access &&& VMOBJ_WRITE = 0 ∨
      (s.objs o).flags &&& (VMOBJ_COW ||| VMOBJ_WRITE ||| VMOBJ_COW_SRC) = 0) ∨
  Permitted s o access ∧ access &&& VMOBJ_WRITE ≠ 0 ∧ Shared M s o src ∧
    GetsOwnPage M s o offset src

variable {M} {s s' : VmState σ ο ι W} {st : Stack ι} {spc : σ} {o : ο}
  {addr offset access phys anon perm : BitVec 32} {orig src : PageSrc ι} {a : Action σ ο ι}

theorem write_iff (x : BitVec 32) : x &&& VMOBJ_WRITE ≠ 0 ↔ x.getLsbD 1 = true := by
  have hbit : x &&& VMOBJ_WRITE = if x.getLsbD 1 then VMOBJ_WRITE else 0 := BitVec.and_twoPow x 1
  have hne : VMOBJ_WRITE ≠ 0 := by decide
  rw [hbit]
  cases x.getLsbD 1 with
  | true => exact iff_of_true hne rfl
  | false => simp

/-- `check_access` is right about its arguments. -/
theorem check_access_iff (perm access : BitVec 32) :
    perm = perm ||| access ↔ access &&& ~~~perm = 0 := by
  constructor
  · intro h
    rw [h, BitVec.not_or, ← BitVec.and_assoc, BitVec.and_assoc, BitVec.and_comm (~~~perm),
      ← BitVec.and_assoc, BitVec.and_not_self]
    exact BitVec.zero_and
  · intro h
    apply BitVec.eq_of_getLsbD_eq
    intro i hi
    have hbit : (access &&& ~~~perm).getLsbD i = false := by
      rw [h]
      exact BitVec.getLsbD_zero
    rw [BitVec.getLsbD_and, BitVec.getLsbD_not, decide_eq_true hi, Bool.true_and] at hbit
    rw [BitVec.getLsbD_or]
    cases hp : perm.getLsbD i with
    | true => rfl
    | false =>
      rw [hp, Bool.not_false, Bool.and_true] at hbit
      rw [hbit, Bool.or_false]

section

omit [DecidableEq σ] [DecidableEq ο] [Fintype ο]

theorem Permitted.writable (h : Permitted s o access) (hw : access &&& VMOBJ_WRITE ≠ 0) :
    (s.objs o).flags &&& VMOBJ_PERM &&& VMOBJ_WRITE ≠ 0 := by
  rw [Permitted, ← check_access_iff] at h
  rw [write_iff] at hw ⊢
  rw [h, BitVec.getLsbD_or, hw, Bool.or_true]

theorem faults_of_writable (h : (s.objs o).flags &&& VMOBJ_PERM &&& VMOBJ_WRITE ≠ 0) :
    (s.objs o).flags &&& (VMOBJ_COW ||| VMOBJ_WRITE ||| VMOBJ_COW_SRC) ≠ 0 := by
  have hperm : VMOBJ_PERM &&& VMOBJ_WRITE = VMOBJ_WRITE := by decide
  rw [BitVec.and_assoc, hperm] at h
  exact mask_of_flag (by decide) h

/-- Neither a report nor the first branch of `do_protect_fault`. -/
def Action.Inner : Action σ ο ι → Prop
  | .illegalAccess _ _ _ => False
  | .copyOnWrite _ => False
  | _ => True

/-- An inner action that sets no entry of `o`. -/
def Action.Spares (a : Action σ ο ι) (o : ο) : Prop := a.Inner ∧ ∀ p k i, a = .own p k i → p ≠ o

theorem mem_mapActions (h : a ∈ mapActions s o phys addr) :
    ∃ spc perm, a = .map spc (pageAddr addr) perm phys := by
  obtain ⟨m, -, rfl⟩ := List.mem_map.mp h
  exact ⟨_, _, rfl⟩

theorem mem_cloneActions {keep : Bool} (h : a ∈ cloneActions M s spc o orig keep) :
    ∃ id, a = .create orig id := by
  rw [cloneActions] at h
  split at h
  · cases h
  · exact ⟨_, List.mem_singleton.mp h⟩

theorem mapActions_own {p : ο} {k : ℕ} {id : BitVec 32} :
    Action.own p k id ∉ (mapActions s o phys addr : List (Action σ ο ι)) := by
  intro h
  obtain ⟨spc, perm, heq⟩ := mem_mapActions h
  cases heq

theorem cloneActions_own {keep : Bool} {p : ο} {k : ℕ} {id : BitVec 32} :
    Action.own p k id ∉ cloneActions M s spc o orig keep := by
  intro h
  obtain ⟨i, heq⟩ := mem_cloneActions h
  cases heq

theorem mapActions_spares {p : ο} (h : a ∈ mapActions s o phys addr) : a.Spares p := by
  obtain ⟨spc, perm, rfl⟩ := mem_mapActions h
  exact ⟨trivial, fun _ _ _ heq => by cases heq⟩

theorem cloneActions_spares {keep : Bool} {p : ο} (h : a ∈ cloneActions M s spc o orig keep) :
    a.Spares p := by
  obtain ⟨id, rfl⟩ := mem_cloneActions h
  exact ⟨trivial, fun _ _ _ heq => by cases heq⟩

theorem mapActions_writable {m : Vmap σ ο} (phys addr : BitVec 32) (hm : m ∈ (s.objs o).mapperList)
    (hperm : (s.objs o).flags &&& VMOBJ_PERM &&& VMOBJ_WRITE ≠ 0) :
    ∃ a ∈ (mapActions s o phys addr : List (Action σ ο ι)), a.Writable :=
  ⟨_, List.mem_map_of_mem hm, hperm⟩

theorem installActions_inner (h : a ∈ installActions M s st spc addr o offset orig) :
    a.Inner := by
  rw [installActions] at h
  rcases List.mem_append.mp h with h | h
  · exact (cloneActions_spares (p := o) h).1
  · rcases List.mem_cons.mp h with rfl | h
    · exact trivial
    · exact (mapActions_spares (p := o) h).1

theorem monkeyActions_inner (h : a ∈ monkeyActions M s st spc addr o offset orig) : a.Inner := by
  rw [monkeyActions] at h
  split at h
  · exact installActions_inner h
  · cases h

end

omit [Fintype ο] in
theorem giveActions_spares {fuel : ℕ} {list : Option ο}
    (h : a ∈ giveActions o offset phys addr anon fuel s list) : a.Spares o := by
  induction fuel generalizing s list with
  | zero => cases h
  | succ fuel ih =>
    cases list with
    | none => cases h
    | some l =>
      rw [giveActions] at h
      split at h
      · cases h
      · rename_i hl
        split at h
        · cases h
        · rcases List.mem_append.mp h with h | h
          · rcases List.mem_cons.mp h with rfl | h
            · refine ⟨trivial, fun p k i heq => ?_⟩
              cases heq
              exact hl
            · exact mapActions_spares h
          · exact ih h

theorem shareActions_spares (h : a ∈ shareActions M s st spc addr o offset orig) :
    a.Spares o := by
  rw [shareActions] at h
  rcases List.mem_append.mp h with h | h
  · exact cloneActions_spares h
  · rcases List.mem_append.mp h with h | h
    · exact mapActions_spares h
    · exact giveActions_spares h

section

omit [Fintype ο]

/-- Pages are given to other objects exactly when the next one in the ring shares the page. -/
theorem giveActions_own (s : VmState σ ο ι W) (o : ο) (offset phys addr anon : BitVec 32) (fuel : ℕ)
    (list : Option ο) :
    (∃ p k i, Action.own p k i ∈ giveActions o offset phys addr anon (fuel + 1) s list) ↔
      ∃ l, list = some l ∧ l ≠ o ∧ SharesPage s o l offset := by
  cases list with
  | none => simp [giveActions]
  | some l =>
    rw [giveActions]
    by_cases hl : l = o
    · simp [hl]
    · by_cases hshares : SharesPage s o l offset
      · obtain ⟨htype, hsrc, hzero⟩ := hshares
        rw [if_neg hl, if_neg (by simp [htype, hsrc, hzero])]
        exact iff_of_true ⟨l, _, _, List.mem_cons_self⟩ ⟨l, rfl, hl, htype, hsrc, hzero⟩
      · have hstop : (s.objs l).srcType ≠ .anon ∨ (s.objs l).cowSrc ≠ some o ∨
            (s.objs l).anonPages offset.toNat ≠ 0 := by
          by_contra hno
          push Not at hno
          exact hshares hno
        rw [if_neg hl, if_pos hstop]
        refine iff_of_false (by simp) ?_
        rintro ⟨l', hl', -, hshares'⟩
        cases hl'
        exact hshares hshares'

theorem installCopy_other {p : ο} (hp : p ≠ o) :
    (installCopy M s st spc addr o offset orig).1.objs p = s.objs p := by
  rw [installCopy, decCount, VmState.setObj_ne _ _ hp]
  simp only [(updatePageTables_kept _ _ _ _ _).1]
  rw [VmState.setObj_ne _ _ hp, (cloneOrKeep_kept _ _ _ _ _ _ _).1]

theorem installCopy_next :
    ((installCopy M s st spc addr o offset orig).1.objs o).cowNext = (s.objs o).cowNext := by
  rw [installCopy, decCount, VmState.setObj_self]
  simp only [(updatePageTables_kept _ _ _ _ _).1]
  rw [VmState.setObj_self, (cloneOrKeep_kept _ _ _ _ _ _ _).1]

/-- What the copies of the ring look like after the object has got its own page. -/
theorem monkeyInTheMiddle_ring (M : PhysMem σ ο ι W) (s : VmState σ ο ι W) (st : Stack ι) (spc : σ)
    (addr : BitVec 32) (o : ο) (offset : BitVec 32) (orig : PageSrc ι) :
    (∀ p, p ≠ o → (monkeyInTheMiddle M s st spc addr o offset orig).1.objs p = s.objs p) ∧
      ((monkeyInTheMiddle M s st spc addr o offset orig).1.objs o).cowNext =
        (s.objs o).cowNext := by
  rw [monkeyInTheMiddle]
  split
  · exact ⟨fun p hp => installCopy_other hp, installCopy_next⟩
  · exact ⟨fun _ _ => rfl, rfl⟩

end

omit [DecidableEq σ] [DecidableEq ο] [Fintype ο] in
theorem SharesPage.congr {l : ο} (h : s'.objs l = s.objs l) :
    SharesPage s' o l offset ↔ SharesPage s o l offset := by
  rw [SharesPage, h, SharesPage]

theorem shareActions_own (M : PhysMem σ ο ι W) (s : VmState σ ο ι W) (st : Stack ι) (spc : σ)
    (addr : BitVec 32) (o : ο) (offset : BitVec 32) (orig : PageSrc ι) :
    (∃ p k i, Action.own p k i ∈ shareActions M s st spc addr o offset orig) ↔
      ∃ l, (s.objs o).cowNext = some l ∧ l ≠ o ∧ SharesPage s o l offset := by
  simp only [shareActions, List.mem_append, cloneActions_own, mapActions_own, false_or]
  have hclone := (cloneOrKeep_kept M s st spc o orig (M.cowLookup s.phys orig = 1)).1
  generalize cloneOrKeep M s st spc o orig (M.cowLookup s.phys orig = 1) = c at *
  have hobjs : (updatePageTables c.1 o offset c.2.2 addr).objs = s.objs :=
    (updatePageTables_kept _ _ _ _ _).1.trans hclone
  have hshares : ∀ l, SharesPage (updatePageTables c.1 o offset c.2.2 addr) o l offset ↔
      SharesPage s o l offset := fun l => SharesPage.congr (congrFun hobjs l)
  have hgive := giveActions_own (updatePageTables c.1 o offset c.2.2 addr) o offset c.2.2 addr
    c.2.1.anon (Fintype.card ο) ((updatePageTables c.1 o offset c.2.2 addr).objs o).cowNext
  simp only [hshares, hobjs] at hgive
  rwa [hobjs]

omit [DecidableEq σ] [DecidableEq ο] [Fintype ο] in
/-- Where the entry of the object is assigned once, that assignment is the one to look at. -/
theorem privateFirst_iff {as bs : List (Action σ ο ι)} {id : BitVec 32}
    (ha : ∀ k i, Action.own o k i ∉ as) (hb : ∀ k i, Action.own o k i ∉ bs) :
    PrivateFirst M s o offset src (as ++ .own o offset.toNat id :: bs) ↔
      (∀ a ∈ as, ¬ a.Writable) ∧ ((∃ orig, .create orig id ∈ as) ∨ OnlyOwner M s src id) ∧
        ∀ p k i, Action.own p k i ∈ bs → p = o := by
  constructor
  · rintro ⟨pre, id', post, heq, hpre, hpage, hpost⟩
    obtain ⟨rfl, hown, rfl⟩ := (List.append_cons_inj_of_notMem (ha _ _) (hb _ _)).mp heq
    cases hown
    exact ⟨hpre, hpage, hpost⟩
  · rintro ⟨hpre, hpage, hpost⟩
    exact ⟨as, id, bs, rfl, hpre, hpage, hpost⟩

omit [DecidableEq σ] [DecidableEq ο] [Fintype ο] in
theorem privateFirst_none {as : List (Action σ ο ι)} (h : ∀ k i, Action.own o k i ∉ as) :
    ¬ PrivateFirst M s o offset src as := by
  rintro ⟨pre, id, post, rfl, -⟩
  exact h _ _ (List.mem_append_right pre List.mem_cons_self)

theorem exists_other_page (src : PageSrc ι) : ∃ id, src ≠ .anon id := by
  cases src with
  | anon page =>
    refine ⟨page + 1, fun heq => ?_⟩
    have hpage : page = page + 1 := PageSrc.anon.inj heq
    have hnat := congrArg BitVec.toNat hpage
    rw [BitVec.toNat_add] at hnat
    have hone : (1 : BitVec 32).toNat = 1 := rfl
    omega
  | null => exact ⟨0, fun heq => by cases heq⟩
  | kern => exact ⟨0, fun heq => by cases heq⟩
  | inode => exact ⟨0, fun heq => by cases heq⟩

omit [DecidableEq σ] [DecidableEq ο] [Fintype ο] in
/-- A clone is private until it is given away. A page that is kept is entered under whatever
identifier the stack holds. -/
theorem installActions_private (M : PhysMem σ ο ι W) (s : VmState σ ο ι W) (spc : σ)
    (addr : BitVec 32) (o : ο) (offset : BitVec 32) (src : PageSrc ι)
    {bs : Stack ι → List (Action σ ο ι)}
    (hb : ∀ st k i, Action.own o k i ∉ bs st) :
    (∀ st, PrivateFirst M s o offset src
      (.copyOnWrite o :: (installActions M s st spc addr o offset src ++ bs st))) ↔
    ¬ (M.cowLookup s.phys src = 1 ∧ ¬ isInode src) ∧ ∀ st p k i, Action.own p k i ∈ bs st → p = o := by
  have hrest : ∀ st phys k i, Action.own o k i ∉ mapActions s o phys addr ++ bs st := by
    intro st phys k i h
    rcases List.mem_append.mp h with h | h
    · exact mapActions_own h
    · exact hb st k i h
  by_cases hkeep : M.cowLookup s.phys src = 1 ∧ ¬ isInode src
  · have hacts : ∀ st, ∃ phys, (.copyOnWrite o ::
        (installActions M s st spc addr o offset src ++ bs st) : List (Action σ ο ι)) =
        [.copyOnWrite o] ++ .own o offset.toNat st.anon :: (mapActions s o phys addr ++ bs st) := by
      intro st
      simp only [installActions, cloneActions, cloneOrKeep, decide_eq_true hkeep, if_true]
      exact ⟨_, rfl⟩
    refine iff_of_false (fun h => ?_) fun h => h.1 hkeep
    obtain ⟨id, hid⟩ := exists_other_page src
    obtain ⟨phys, hact⟩ := hacts ⟨id, .null⟩
    have hfirst := h ⟨id, .null⟩
    rw [hact, privateFirst_iff (by simp) (hrest _ _)] at hfirst
    rcases hfirst.2.1 with ⟨orig, hcreate⟩ | howner
    · simp at hcreate
    · exact hid howner.1
  · have hacts : ∀ st, ∃ id phys, (.copyOnWrite o ::
        (installActions M s st spc addr o offset src ++ bs st) : List (Action σ ο ι)) =
        [.copyOnWrite o, .create src id] ++
          .own o offset.toNat id :: (mapActions s o phys addr ++ bs st) := by
      intro st
      simp only [installActions, cloneActions, cloneOrKeep, decide_eq_false hkeep,
        Bool.false_eq_true, if_false]
      exact ⟨_, _, rfl⟩
    have hfirst : ∀ st, PrivateFirst M s o offset src
        (.copyOnWrite o :: (installActions M s st spc addr o offset src ++ bs st)) ↔
        ∀ p k i, Action.own p k i ∈ bs st → p = o := by
      intro st
      obtain ⟨id, phys, hact⟩ := hacts st
      rw [hact, privateFirst_iff (by simp) (hrest _ _)]
      constructor
      · rintro ⟨-, -, hpost⟩ p k i hown
        exact hpost p k i (List.mem_append_right _ hown)
      · intro hpost
        refine ⟨?_, Or.inl ⟨src, by simp⟩, fun p k i hown => ?_⟩
        · intro a ha
          rcases List.mem_pair.mp ha with rfl | rfl <;> exact fun hw => hw
        · rcases List.mem_append.mp hown with hown | hown
          · exact absurd hown mapActions_own
          · exact hpost p k i hown
    rw [and_iff_right hkeep]
    exact forall_congr' hfirst

/-- A write makes a page private exactly when it gets its own page. -/
theorem protectActions_private (spc : σ) (addr : BitVec 32)
    (hmask : (s.objs o).flags &&& (VMOBJ_COW ||| VMOBJ_WRITE ||| VMOBJ_COW_SRC) ≠ 0)
    (hwrite : access &&& VMOBJ_WRITE ≠ 0) :
    (∀ st, PrivateFirst M s o offset src (protectActions M s st spc addr o access offset src)) ↔
      GetsOwnPage M s o offset src := by
  simp only [protectActions, if_pos (And.intro hmask hwrite)]
  by_cases hown : (s.objs o).flags &&& VMOBJ_COW_SRC = 0 ∨
      (s.objs o).srcType = .anon ∧ (s.objs o).cowSrc = none
  · have hnone : ∀ (st : Stack ι) k i, Action.own o k i ∉ ([] : List (Action σ ο ι)) := by simp
    have hprivate := installActions_private M s spc addr o offset src hnone
    simp only [List.append_nil] at hprivate
    simp only [if_pos hown]
    rw [hprivate]
    exact ⟨fun h => ⟨h.1, Or.inl hown⟩, fun h => ⟨h.cloned, by simp⟩⟩
  · simp only [if_neg hown]
    by_cases hmonkey : (s.objs o).flags &&& VMOBJ_COW ≠ 0 ∧
        (s.objs o).anonPages offset.toNat = 0
    · simp only [monkeyActions, if_pos hmonkey]
      rw [installActions_private _ _ _ _ _ _ _ fun st k i h => (shareActions_spares h).2 o k i rfl rfl]
      have hgiven : ∀ st : Stack ι, (∀ p k i, Action.own p k i ∈ shareActions M
          (monkeyInTheMiddle M s st spc addr o offset src).1
          (monkeyInTheMiddle M s st spc addr o offset src).2.1 spc addr o offset
          (monkeyInTheMiddle M s st spc addr o offset src).2.2 → p = o) ↔
          ∀ l, (s.objs o).cowNext = some l → l ≠ o → ¬ SharesPage s o l offset := by
        intro st
        obtain ⟨hother, hnext⟩ := monkeyInTheMiddle_ring M s st spc addr o offset src
        generalize monkeyInTheMiddle M s st spc addr o offset src = r at *
        have hshare := shareActions_own M r.1 r.2.1 spc addr o offset r.2.2
        constructor
        · intro hnone l hl hne hshares
          obtain ⟨p, k, i, h⟩ := hshare.mpr ⟨l, hnext.trans hl, hne,
            (SharesPage.congr (hother l hne)).mpr hshares⟩
          exact (shareActions_spares h).2 p k i rfl (hnone p k i h)
        · intro hnone p k i h
          obtain ⟨l, hl, hne, hshares⟩ := hshare.mp ⟨p, k, i, h⟩
          exact absurd ((SharesPage.congr (hother l hne)).mp hshares)
            (hnone l (hnext.symm.trans hl) hne)
      simp only [hgiven]
      constructor
      · rintro ⟨hclone, hnone⟩
        exact ⟨hclone, Or.inr ⟨hmonkey, hnone ⟨0, .null⟩⟩⟩
      · intro h
        exact ⟨h.cloned, fun _ => (h.alone.resolve_left hown).2⟩
    · simp only [monkeyActions, if_neg hmonkey, List.nil_append]
      refine iff_of_false (fun h => ?_) fun h => hmonkey (h.alone.resolve_left hown).1
      refine privateFirst_none (fun k i hmem => ?_) (h ⟨0, .null⟩)
      rcases List.mem_cons.mp hmem with heq | hmem
      · cases heq
      · exact (shareActions_spares hmem).2 o k i rfl rfl

theorem protectActions_reports (h : ¬ ((s.objs o).flags &&&
      (VMOBJ_COW ||| VMOBJ_WRITE ||| VMOBJ_COW_SRC) ≠ 0 ∧ access &&& VMOBJ_WRITE ≠ 0)) :
    protectActions M s st spc addr o access offset src =
      [.illegalAccess addr ((s.objs o).flags &&& VMOBJ_PERM) access] := if_neg h

section Writes

variable (h : (s.objs o).flags &&& (VMOBJ_COW ||| VMOBJ_WRITE ||| VMOBJ_COW_SRC) ≠ 0 ∧
  access &&& VMOBJ_WRITE ≠ 0)

include h

theorem protectActions_copies :
    .copyOnWrite o ∈ protectActions M s st spc addr o access offset src := by
  rw [protectActions, if_pos h]
  exact List.mem_cons_self

theorem protectActions_silent {x y z : BitVec 32} :
    .illegalAccess x y z ∉ protectActions M s st spc addr o access offset src := by
  have hinner : ¬ (Action.illegalAccess x y z : Action σ ο ι).Inner := fun hno => hno
  rw [protectActions, if_pos h]
  intro hmem
  rcases List.mem_cons.mp hmem with heq | hmem
  · cases heq
  · split at hmem
    · exact hinner (installActions_inner hmem)
    · rcases List.mem_append.mp hmem with hmem | hmem
      · exact hinner (monkeyActions_inner hmem)
      · exact hinner (shareActions_spares hmem).1

theorem protectActions_writable {m : Vmap σ ο} (hm : m ∈ (s.objs o).mapperList)
    (hperm : (s.objs o).flags &&& VMOBJ_PERM &&& VMOBJ_WRITE ≠ 0) :
    ∃ a ∈ protectActions M s st spc addr o access offset src, a.Writable := by
  have hinstall : ∃ a ∈ installActions M s st spc addr o offset src, a.Writable := by
    obtain ⟨a, ha, hw⟩ := mapActions_writable
      (cloneOrKeep M s st spc o src (M.cowLookup s.phys src = 1 ∧ ¬ isInode src)).2.2 addr hm hperm
    exact ⟨a, List.mem_append_right _ (List.mem_cons_of_mem _ ha), hw⟩
  rw [protectActions, if_pos h]
  dsimp only
  split
  · obtain ⟨a, ha, hw⟩ := hinstall
    exact ⟨a, List.mem_cons_of_mem _ ha, hw⟩
  · by_cases hmonkey : (s.objs o).flags &&& VMOBJ_COW ≠ 0 ∧ (s.objs o).anonPages offset.toNat = 0
    · obtain ⟨a, ha, hw⟩ := hinstall
      rw [monkeyActions, if_pos hmonkey]
      exact ⟨a, List.mem_cons_of_mem _ (List.mem_append_left _ ha), hw⟩
    · rw [monkeyActions, if_neg hmonkey, monkeyInTheMiddle, if_neg hmonkey]
      obtain ⟨a, ha, hw⟩ := mapActions_writable
        (cloneOrKeep M s st spc o src (M.cowLookup s.phys src = 1)).2.2 addr hm hperm
      have hshare : a ∈ shareActions M s st spc addr o offset src :=
        List.mem_append_right _ (List.mem_append_left _ ha)
      exact ⟨a, List.mem_cons_of_mem _ hshare, hw⟩

end Writes

theorem protectActions_enforces {m : Vmap σ ο} (hm : m ∈ (s.objs o).mapperList) (now : Prop) :
    (∀ st, Enforces M now s o access offset src
      (protectActions M s st spc addr o access offset src)) ↔
      Handled M s o access offset src := by
  by_cases hwrite : (s.objs o).flags &&& (VMOBJ_COW ||| VMOBJ_WRITE ||| VMOBJ_COW_SRC) ≠ 0 ∧
      access &&& VMOBJ_WRITE ≠ 0
  · constructor
    · intro h
      have hfirst := h ⟨0, .null⟩
      have hpermitted : Permitted s o access := by
        by_contra hno
        obtain ⟨x, y, z, hmem⟩ := hfirst.reported.mpr hno
        exact protectActions_silent hwrite hmem
      have hshared : Shared M s o src := by
        by_contra hno
        exact hfirst.unshared hpermitted hno (protectActions_copies hwrite)
      refine Or.inr ⟨hpermitted, hwrite.2, hshared, ?_⟩
      refine (protectActions_private spc addr hwrite.1 hwrite.2).mp fun st => ?_
      exact (h st).apart hpermitted hwrite.2 hshared
        (Or.inr (protectActions_writable hwrite hm (hpermitted.writable hwrite.2)))
    · rintro (⟨-, hread | hflags⟩ | ⟨hpermitted, -, hshared, hpage⟩) st
      · exact absurd hread hwrite.2
      · exact absurd hflags hwrite.1
      · refine ⟨⟨?_, fun hno => absurd hpermitted hno⟩, fun _ _ _ _ => ?_,
          fun _ hno => absurd hshared hno⟩
        · rintro ⟨x, y, z, hmem⟩
          exact absurd hmem (protectActions_silent hwrite)
        · exact (protectActions_private spc addr hwrite.1 hwrite.2).mpr hpage st
  · have hread : access &&& VMOBJ_WRITE = 0 ∨
        (s.objs o).flags &&& (VMOBJ_COW ||| VMOBJ_WRITE ||| VMOBJ_COW_SRC) = 0 := by
      by_contra hno
      exact hwrite ⟨fun hflags => hno (Or.inr hflags), fun hread => hno (Or.inl hread)⟩
    simp only [protectActions_reports hwrite]
    constructor
    · intro h
      exact Or.inl ⟨(h ⟨0, .null⟩).reported.mp ⟨_, _, _, List.mem_cons_self⟩, hread⟩
    · rintro (⟨hno, -⟩ | ⟨hpermitted, haccess, -, -⟩) st
      · exact ⟨iff_of_true ⟨_, _, _, List.mem_cons_self⟩ hno, fun h => absurd h hno,
          fun h => absurd h hno⟩
      · exact absurd ⟨faults_of_writable (hpermitted.writable haccess), haccess⟩ hwrite

omit [DecidableEq σ] [DecidableEq ο] [Fintype ο] in
/-- The test of `vm_page_fault`. -/
theorem faultPerm_check : faultPerm M s o src = faultPerm M s o src ||| access ↔
    Permitted s o access ∧ (Shared M s o src → access &&& VMOBJ_WRITE = 0) := by
  rw [check_access_iff, faultPerm, Permitted]
  split
  · rename_i hshared
    have hno : ¬ Shared M s o src := fun h => hshared.elim h.1 h.2
    exact (and_iff_left fun h => absurd h hno).symm
  · rename_i hshared
    have hyes : Shared M s o src := not_or.mp hshared
    rw [BitVec.not_and, BitVec.not_not, BitVec.and_or_distrib_left]
    exact BitVec.or_eq_zero_iff.trans
      (and_congr_right fun _ => ⟨fun h _ => h, fun h => h hyes⟩)

omit [DecidableEq σ] [DecidableEq ο] [Fintype ο] in
theorem faultPerm_shared (h : Shared M s o src) : faultPerm M s o src &&& VMOBJ_WRITE = 0 := by
  have hmask : ~~~VMOBJ_WRITE &&& VMOBJ_WRITE = 0 := by decide
  rw [faultPerm, if_neg (not_or.mpr h), BitVec.and_assoc, hmask]
  exact BitVec.and_zero

/-- A page fault ends in `do_protect_fault` where its access is permitted, the other way round, so
it is right at most about writes to shared pages, of which it makes none private. -/
theorem pageActions_enforces (now : Prop) :
    (∀ st, Enforces M now (fetched M s spc o src) o access offset src
      (pageActions M s st spc addr o access offset src)) ↔
      ¬ now ∧ Permitted s o access ∧ access &&& VMOBJ_WRITE ≠ 0 ∧
        Shared M (fetched M s spc o src) o src := by
  simp only [pageActions]
  generalize (M.physPageFetch s.phys src spc o (isShared s o)).2 = phys
  have hobjs : (fetched M s spc o src).objs = s.objs := rfl
  have hpermitted : Permitted s o access ↔ Permitted (fetched M s spc o src) o access := by
    rw [Permitted, Permitted, hobjs]
  rw [hpermitted]
  generalize fetched M s spc o src = s at *
  by_cases hcheck : faultPerm M s o src = faultPerm M s o src ||| access
  · obtain ⟨hallowed, hread⟩ := faultPerm_check.mp hcheck
    simp only [if_pos hcheck]
    refine iff_of_false (fun h => ?_) fun h => h.2.2.1 (hread h.2.2.2)
    have hfirst := h ⟨0, .null⟩
    generalize hmap : mapOne s spc (pageAddr addr) (faultPerm M s o src) phys o offset = s' at hfirst
    by_cases hwrite : (s'.objs o).flags &&& (VMOBJ_COW ||| VMOBJ_WRITE ||| VMOBJ_COW_SRC) ≠ 0 ∧
        access &&& VMOBJ_WRITE ≠ 0
    · have hshared : ¬ Shared M s o src := fun hshared => hwrite.2 (hread hshared)
      exact hfirst.unshared hallowed hshared
        (List.mem_cons_of_mem _ (protectActions_copies hwrite))
    · rw [protectActions_reports hwrite] at hfirst
      exact hfirst.reported.mp ⟨_, _, _, List.mem_cons_of_mem _ List.mem_cons_self⟩ hallowed
  · simp only [if_neg hcheck]
    constructor
    · intro h
      have hfirst := h ⟨0, .null⟩
      have hallowed : Permitted s o access := by
        by_contra hno
        obtain ⟨x, y, z, hmem⟩ := hfirst.reported.mpr hno
        cases List.mem_singleton.mp hmem
      have hwrite : Shared M s o src ∧ access &&& VMOBJ_WRITE ≠ 0 := by
        by_contra hno
        refine hcheck (faultPerm_check.mpr ⟨hallowed, fun hshared => ?_⟩)
        by_contra hne
        exact hno ⟨hshared, hne⟩
      refine ⟨fun hnow => ?_, hallowed, hwrite.2, hwrite.1⟩
      refine privateFirst_none (fun k i hmem => ?_)
        (hfirst.apart hallowed hwrite.2 hwrite.1 (Or.inl hnow))
      cases List.mem_singleton.mp hmem
    · rintro ⟨hnow, hallowed, hwrite, hshared⟩ st
      refine ⟨⟨?_, fun hno => absurd hallowed hno⟩, ?_, fun _ hno => absurd hshared hno⟩
      · rintro ⟨x, y, z, hmem⟩
        cases List.mem_singleton.mp hmem
      · rintro - - - (hyes | ⟨a, ha, hw⟩)
        · exact absurd hyes hnow
        · rw [List.mem_singleton.mp ha] at hw
          exact absurd (faultPerm_shared hshared) hw

omit [DecidableEq σ] [Fintype ο] in
theorem getPageSrc_mappers {fuel : ℕ} {p : ο}
    (h : getPageSrc M fuel s spc o offset = some (s', src)) :
    (s'.objs p).mapperList = (s.objs p).mapperList := by
  induction fuel generalizing o with
  | zero => cases h
  | succ fuel ih =>
    simp only [getPageSrc] at h
    split at h
    · cases h
      rfl
    · split at h
      · split at h
        · cases h
          rfl
        · cases h
          by_cases hp : p = o
          · subst hp
            rw [VmState.setObj_self]
            rfl
          · rw [VmState.setObj_ne _ _ hp]
      · split at h
        · cases h
          rfl
        · obtain ⟨o', -, h⟩ := Option.bind_eq_some_iff.mp h
          exact ih h

end Permissions

def copiedState : VmState Unit Bool Unit Unit where
  objs o := match o with
    | false => ⟨1, 0x40, 0, fun _ => [], .inode, none, none, none, 1, (), 0, fun _ => 0⟩
    | true => ⟨2, 0x23, 1, fun i => if i = 1 then [⟨0x400000, true, ()⟩] else [], .anon, some false,
        some true, some true, 1, (), 0, fun _ => 0⟩
  tables _ _ _ := 0
  inv _ := ⟨.unused, 0, fun _ => []⟩
  phys := ()

/-- The page of the file is at `0x7000`, and a clone is at `0x9000`. -/
def copiedPages : PhysMem Unit Bool Unit Unit where
  anonPageCreate w _ _ _ _ := (w, 9)
  physPageFetch w src _ _ _ := (w, if src = .anon 9 then 0x9000 else 0x7000)
  cowLookup _ _ := 1
  cowDec w _ := w

end FaultPermissions
