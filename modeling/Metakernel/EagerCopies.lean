import Metakernel.CopyOnWrite

/-!
# Copies on write and eager copies

While only copies with all their pages are copied, and only the first writes to pages of copies of
inode objects fault, the objects show what they would show if every copy got its pages at once.
-/
namespace EagerCopies

open GuardedRuns NodeTables PhysicalPages PageTables VirtualMemory PageContents CopyOnWrite
open PhysicalMemory (Setup Memory Colors Available anonPageCreate physPageFetch anonFind)
open CowTable (Cow Chained cowInc)

variable {σ ο ι ν ε C : Type*} [DecidableEq σ] [DecidableEq ο] [DecidableEq ι] [DecidableEq ν]
  [DecidableEq ε] [Fintype ο] [Fintype ν] [Fintype ε]

def shows (S : Setup ι C) (s : State σ ο ι ν ε C) (o : ο) (k : BitVec 32) : Option C :=
  if Unwritten s o k.toNat then
    (s.vm.objs o).cowSrc.bind fun src => shown S s.vm.phys.mem (s.vm.objs src) k
  else shown S s.vm.phys.mem (s.vm.objs o) k

/-- A copy is alone in its ring, its source is no copy that waits for pages itself, and `cow_count`
is the number of pages that it has not written. -/
structure IsCopy (s : State σ ο ι ν ε C) (o src : ο) : Prop where
  anon : (s.vm.objs o).srcType = .anon
  source : (s.vm.objs o).cowSrc = some src
  live : s.live src = true
  plain : (s.vm.objs src).flags &&& VMOBJ_COW = 0
  next : (s.vm.objs o).cowNext = some o
  prev : (s.vm.objs o).cowPrev = some o
  writable : (s.vm.objs o).flags &&& VMOBJ_WRITE ≠ 0
  left : (s.vm.objs o).cowCount.toNat =
    ((Finset.range (s.pageCount o)).filter fun k => (s.vm.objs o).anonPages k = 0).card

structure Coherent (S : Setup ι C) (pages : ℕ) (s : State σ ο ι ν ε C) (ref : ο → BitVec 32 → C) :
    Prop where
  sound : Sound S pages s.vm.phys.mem
  chained : ∃ chains, Chained S.id s.vm.phys.cow chains
  kept : s.vm.phys.lost = false
  copies : ∀ o, s.live o = true → (s.vm.objs o).flags &&& VMOBJ_COW ≠ 0 → ∃ src, IsCopy s o src
  shows : ∀ o k, s.live o = true → k.toNat < s.pageCount o → shows S s o k = some (ref o k)

section Resolve

variable {S : Setup ι C} {pages : ℕ} {ref : ο → BitVec 32 → C} {s : State σ ο ι ν ε C} {o : ο}
  {k : BitVec 32} {c : C} {spc : σ} {e : Outside ν C}

section

omit [Fintype ο]

theorem physMem_create {w : Pages σ ο ι ν ε C} {src : PageSrc ι} {shared : Bool} {mem : Memory ν C}
    {ct : Colors} {id : BitVec 32}
    (h : anonPageCreate S w.mem src (w.colors spc o shared) (e.rand w.mem) (e.malloc w.mem) =
      some (mem, ct, id)) :
    (physMem S e).anonPageCreate w src spc o shared = (w.put spc o mem ct, id) := by
  simp only [physMem, h, Option.elim_some]

theorem physMem_fetch {w : Pages σ ο ι ν ε C} {src : PageSrc ι} {shared : Bool} {mem : Memory ν C}
    {ct : Colors} {addr : BitVec 32}
    (h : physPageFetch S w.mem src (w.colors spc o shared) e.out = some (mem, ct, addr)) :
    (physMem S e).physPageFetch w src spc o shared = (w.put spc o mem ct, addr) := by
  simp only [physMem, h, Option.elim_some]

/-- What an object that looks at no source is found to have: a page that is made for it holds what
it held before. -/
def Found (S : Setup ι C) (s : State σ ο ι ν ε C) (spc : σ) (o : ο) (k : BitVec 32) (c : C) : Prop :=
  if Unmade s o k.toNat then
    NextHolds S s.vm.phys.mem (s.vm.phys.colors spc o (isShared s.vm o)) c
  else shown S s.vm.phys.mem (s.vm.objs o) k = some c

theorem getPageSrc_own (hsound : Sound S pages s.vm.phys.mem) (hkept : s.vm.phys.lost = false)
    (hplain : ¬ Unwritten s o k.toNat) (hst : Stocked S s spc o) (he : Usable e s.vm.phys.mem)
    (hc : Found S s spc o k c) (fuel : ℕ) :
    ∃ vm r, getPageSrc (physMem S e) (fuel + 1) s.vm spc o k = some (vm, r) ∧
      Sound S pages vm.phys.mem ∧ vm.phys.lost = false ∧ srcContents S vm.phys.mem r = some c ∧
      ((∃ id, r = .anon id) ∨ (∃ i offset, r = .inode i offset) ∧ vm = s.vm) := by
  obtain htype | htype : (s.vm.objs o).srcType = .inode ∨ (s.vm.objs o).srcType = .anon := by
    cases (s.vm.objs o).srcType <;> simp
  · rw [Found, if_neg fun hmake => by simp [hmake.1] at htype] at hc
    simp only [shown, htype] at hc
    simp only [getPageSrc, htype]
    exact ⟨_, _, rfl, hsound, hkept, hc, Or.inr ⟨⟨_, _, rfl⟩, rfl⟩⟩
  · simp only [getPageSrc, htype]
    by_cases hanon : (s.vm.objs o).anonPages k.toNat = 0
    · have hcow : (s.vm.objs o).flags &&& VMOBJ_COW = 0 := by
        by_contra hne
        exact hplain ⟨hne, hanon⟩
      rw [Found, if_pos ⟨htype, hcow, hanon⟩] at hc
      obtain ⟨mem, ct, hcreate, hentered⟩ := hsound.create (r := .null) hst he.block he.unknown
        (Or.inl ⟨rfl, hc⟩)
      rw [if_pos hcow, if_neg (by simpa using hanon), physMem_create hcreate]
      exact ⟨_, _, rfl, hentered.sound, hkept, hentered.shows, Or.inl ⟨_, rfl⟩⟩
    · rw [Found, if_neg fun hmake => hanon hmake.2.2] at hc
      simp only [shown, htype, if_neg hanon] at hc
      rw [if_pos hanon, if_pos hanon, ite_self]
      exact ⟨_, _, rfl, hsound, hkept, hc, Or.inl ⟨_, rfl⟩⟩

end

omit [DecidableEq σ] [DecidableEq ι] [DecidableEq ν] [DecidableEq ε] [Fintype ν] [Fintype ε] in
/-- A page that a copy has not written is looked for in its source. -/
theorem getPageSrc_source {src : ο} (hcopy : IsCopy s o src) (hun : Unwritten s o k.toNat)
    (M : PhysMem σ ο ι (Pages σ ο ι ν ε C)) : ∃ fuel,
    getPageSrc M (Fintype.card ο + 1) s.vm spc o k = getPageSrc M (fuel + 1) s.vm spc src k := by
  obtain ⟨n, hn⟩ : ∃ n, Fintype.card ο = n + 1 :=
    Nat.exists_eq_succ_of_ne_zero (Fintype.card_pos_iff.mpr ⟨o⟩).ne'
  refine ⟨n, ?_⟩
  rw [getPageSrc]
  simp only [hcopy.anon, hun.1, hun.2, hcopy.source, hn, if_false, ne_eq, not_true_eq_false,
    Option.bind_some]

/-- The fault of an object resolves a page with what is found in the object that is looked in. -/
theorem Coherent.resolve_found (h : Coherent S pages s ref) (ho : s.live o = true)
    (hst : ∀ o, Stocked S s spc o) (he : Usable e s.vm.phys.mem)
    (hc : Found S s spc (lookedIn s o k.toNat) k c) : resolve S e s spc o k = some c := by
  obtain ⟨vm, r, hsrc, hsound, hkept, hcontents, hr⟩ : ∃ vm r,
      getPageSrc (physMem S e) (Fintype.card ο + 1) s.vm spc o k = some (vm, r) ∧
      Sound S pages vm.phys.mem ∧ vm.phys.lost = false ∧
      srcContents S vm.phys.mem r = some c ∧
      ((∃ id, r = .anon id) ∨ (∃ i offset, r = .inode i offset) ∧ vm = s.vm) := by
    by_cases hun : Unwritten s o k.toNat
    · obtain ⟨src, hcopy⟩ := h.copies o ho hun.1
      rw [lookedIn, if_pos hun, hcopy.source, Option.getD_some] at hc
      have hplain : ¬ Unwritten s src k.toNat := fun hsrc => hsrc.1 hcopy.plain
      obtain ⟨fuel, hsource⟩ := getPageSrc_source hcopy hun (physMem S e)
      rw [hsource]
      exact getPageSrc_own h.sound h.kept hplain (hst src) he hc fuel
    · rw [lookedIn, if_neg hun] at hc
      exact getPageSrc_own h.sound h.kept hun (hst o) he hc _
  rw [CopyOnWrite.resolve, hsrc, Option.bind_some]
  rcases hr with ⟨id, rfl⟩ | ⟨⟨i, offset, rfl⟩, rfl⟩
  · obtain ⟨p, hp, hpc⟩ := Option.map_eq_some_iff.mp hcontents
    obtain ⟨ct, hfetch, haddr⟩ := hsound.fetch_anon (hst o).colors hp
      (vm.phys.colors spc o (isShared vm o)) e.out
    simp only [physMem_fetch hfetch, Pages.put, hkept, haddr, hpc]
    rfl
  · obtain ⟨mem, ct, addr, hfetch, haddr⟩ := hsound.fetch_inode (hst o) hcontents e.out
    simp only [physMem_fetch hfetch, Pages.put, hkept, haddr]
    rfl

omit [DecidableEq σ] [DecidableEq ο] [Fintype ο] [Fintype ε] in
theorem Coherent.lookedIn_shown (h : Coherent S pages s ref) (ho : s.live o = true)
    (hk : k.toNat < s.pageCount o) :
    shown S s.vm.phys.mem (s.vm.objs (lookedIn s o k.toNat)) k = some (ref o k) := by
  have hshow := h.shows o k ho hk
  by_cases hun : Unwritten s o k.toNat
  · obtain ⟨src, hcopy⟩ := h.copies o ho hun.1
    rw [EagerCopies.shows, if_pos hun, hcopy.source, Option.bind_some] at hshow
    rw [lookedIn, if_pos hun, hcopy.source, Option.getD_some, hshow]
  · rw [EagerCopies.shows, if_neg hun] at hshow
    rw [lookedIn, if_neg hun, hshow]

/-- The fault of an object resolves the page of the reference, unless a page that is not zero is
taken for one that has to be made. -/
theorem Coherent.resolve_iff (h : Coherent S pages s ref) (ho : s.live o = true)
    (hk : k.toNat < s.pageCount o) (hst : ∀ o, Stocked S s spc o) (he : Usable e s.vm.phys.mem) :
    resolve S e s spc o k = some (ref o k) ↔ MadeOfZeros S s spc o k.toNat := by
  have hshow := h.lookedIn_shown ho hk
  by_cases hmake : Unmade s (lookedIn s o k.toNat) k.toNat
  · simp only [shown, hmake.1, hmake.2.2, if_true, Option.some_inj] at hshow
    rw [MadeOfZeros, ← hshow]
    constructor
    · intro hres _ r hr
      have hfound : Found S s spc (lookedIn s o k.toNat) k
          (s.vm.phys.mem.contents (invPageLookup r.2)) := by
        rw [Found, if_pos hmake]
        intro r' hr'
        rw [Option.mem_unique hr' hr]
      rw [h.resolve_found ho hst he hfound] at hres
      exact Option.some_inj.mp hres
    · intro hzero
      refine h.resolve_found ho hst he ?_
      rw [Found, if_pos hmake]
      exact hzero hmake
  · refine ⟨fun _ hno => absurd hno hmake, fun _ => h.resolve_found ho hst he ?_⟩
    rw [Found, if_neg hmake]
    exact hshow

end Resolve

theorem source_not_cow (flags : BitVec 32) : flags &&& VMOBJ_COW_SRC &&& VMOBJ_COW = 0 := by
  rw [BitVec.and_assoc]
  simp [VMOBJ_COW, VMOBJ_COW_SRC]

theorem retired_not_cow (flags : BitVec 32) :
    flags &&& ~~~(VMOBJ_COW ||| VMOBJ_COW_SRC) &&& VMOBJ_COW = 0 := by
  rw [BitVec.and_assoc]
  simp [VMOBJ_COW, VMOBJ_COW_SRC]

theorem copy_flag (perm : BitVec 32) : (perm ||| VMOBJ_COW) &&& VMOBJ_COW ≠ 0 := by
  intro heq
  have hbit := congrArg (BitVec.getLsbD · 5) heq
  simp [VMOBJ_COW] at hbit

theorem copy_writable {perm : BitVec 32} (h : perm &&& VMOBJ_WRITE ≠ 0) :
    (perm ||| VMOBJ_COW) &&& VMOBJ_WRITE ≠ 0 := by
  have hsame : (perm ||| VMOBJ_COW) &&& VMOBJ_WRITE = perm &&& VMOBJ_WRITE := by
    rw [BitVec.and_comm, BitVec.and_or_distrib_left]
    simp [VMOBJ_COW, VMOBJ_WRITE, BitVec.and_comm]
  rwa [hsame]

theorem cow_faults {flags : BitVec 32} (h : flags &&& VMOBJ_COW ≠ 0) :
    flags &&& (VMOBJ_COW ||| VMOBJ_WRITE ||| VMOBJ_COW_SRC) ≠ 0 := mask_of_flag (by decide) h

section Objects

variable {S : Setup ι C} {s s' : State σ ο ι ν ε C} {mem : Memory ν C} {a b : VmObj σ ο ι}
  {o src : ο} {k : BitVec 32} {c : C}

def SameObj (a b : VmObj σ ο ι) : Prop :=
  a = { b with mappers := a.mappers, numMappers := a.numMappers }

section

omit [DecidableEq σ] [DecidableEq ο] [DecidableEq ι] [Fintype ο]

theorem SameObj.of_eq (h : a = b) : SameObj a b := by
  subst h
  rfl

theorem SameObj.shown (h : SameObj a b) : shown S mem a k = shown S mem b k := by
  rw [h]
  rfl

theorem SameObj.field {V : Type*} (f : VmObj σ ο ι → V)
    (hf : ∀ obj mappers num, f { obj with mappers := mappers, numMappers := num } = f obj)
    (h : SameObj a b) : f a = f b := by
  rw [h, hf]

end

omit [DecidableEq ν] [DecidableEq ε] [Fintype ν] [Fintype ε] [DecidableEq σ] [DecidableEq ο] [DecidableEq ι] [Fintype ο] in
theorem SameObj.unwritten (h : SameObj (s'.vm.objs o) (s.vm.objs o)) (k : ℕ) :
    Unwritten s' o k ↔ Unwritten s o k := by
  have hflags := h.field VmObj.flags fun _ _ _ => rfl
  have hanon := h.field VmObj.anonPages fun _ _ _ => rfl
  rw [Unwritten, hflags, hanon, Unwritten]

omit [DecidableEq ν] [DecidableEq ε] [Fintype ν] [Fintype ε] [DecidableEq σ] [DecidableEq ο] [DecidableEq ι] [Fintype ο] in
theorem IsCopy.congr (h : IsCopy s o src) (ho : SameObj (s'.vm.objs o) (s.vm.objs o))
    (hplain : (s'.vm.objs src).flags &&& VMOBJ_COW = 0) (hlive : s'.live src = true)
    (hcount : s'.pageCount o = s.pageCount o) : IsCopy s' o src where
  anon := (ho.field VmObj.srcType fun _ _ _ => rfl).trans h.anon
  source := (ho.field VmObj.cowSrc fun _ _ _ => rfl).trans h.source
  live := hlive
  plain := hplain
  next := (ho.field VmObj.cowNext fun _ _ _ => rfl).trans h.next
  prev := (ho.field VmObj.cowPrev fun _ _ _ => rfl).trans h.prev
  writable := by
    rw [ho.field VmObj.flags fun _ _ _ => rfl]
    exact h.writable
  left := by
    rw [ho.field VmObj.cowCount fun _ _ _ => rfl, ho.field VmObj.anonPages fun _ _ _ => rfl, hcount]
    exact h.left

omit [DecidableEq ε] [Fintype ε] [DecidableEq σ] [DecidableEq ο] [DecidableEq ι] [Fintype ο] in
/-- An object shows what it showed when its own pages and those of its source do. -/
theorem shows_keep (ho : SameObj (s'.vm.objs o) (s.vm.objs o))
    (hkeep : ∀ obj : VmObj σ ο ι, shown S s.vm.phys.mem obj k = some c →
      shown S s'.vm.phys.mem obj k = some c)
    (hsrc : ∀ src, Unwritten s o k.toNat → (s.vm.objs o).cowSrc = some src →
      shown S s'.vm.phys.mem (s'.vm.objs src) k = shown S s'.vm.phys.mem (s.vm.objs src) k)
    (hc : shows S s o k = some c) : shows S s' o k = some c := by
  have hsource := ho.field VmObj.cowSrc fun _ _ _ => rfl
  by_cases hun : Unwritten s o k.toNat
  · rw [shows, if_pos hun] at hc
    obtain ⟨src, hcow, hshown⟩ := Option.bind_eq_some_iff.mp hc
    rw [shows, if_pos ((ho.unwritten _).mpr hun), hsource, hcow, Option.bind_some,
      hsrc src hun hcow]
    exact hkeep _ hshown
  · rw [shows, if_neg hun] at hc
    rw [shows, if_neg (mt (ho.unwritten _).mp hun), ho.shown]
    exact hkeep _ hc

end Objects

section Copies

variable {S : Setup ι C} {pages : ℕ} {ref : ο → BitVec 32 → C} {s s' : State σ ο ι ν ε C}
  {o copy x : ο} {k perm : BitVec 32} {n : ℕ}

structure Copied (S : Setup ι C) (s s' : State σ ο ι ν ε C) (copy x : ο) (perm : BitVec 32)
    (n : ℕ) : Prop where
  fresh : s.live x = false
  counted : ∃ pages blocks, countPages S.id pages blocks s.vm.phys.cow n = some s'.vm.phys.cow
  mem : s'.vm.phys.mem = s.vm.phys.mem
  lost : s'.vm.phys.lost = s.vm.phys.lost
  objs : s'.vm.objs = Function.update (Function.update s.vm.objs copy
    (markSource (s.vm.objs copy) (s.size copy / 4096))) x
    (newCopy (s.vm.objs x) s.idCount perm (s.size copy / 4096) copy x n)
  size : s'.size = Function.update s.size x (s.size copy)
  live : s'.live = Function.update s.live x true

omit [DecidableEq σ] [DecidableEq ν] [Fintype ο] [Fintype ν] in
theorem vmobjCopy_cases {copy : ο} {perm size : BitVec 32} {new : Option ο} {spare : ℕ}
    {t : Untyped ι} {blocks : ℕ → ε}
    (h : vmobjCopy S s copy perm size new spare t blocks = some s') :
    s.live copy = true ∧
      ((perm &&& VMOBJ_WRITE = 0 ∨ new = none) ∧
          s' = { s with locked := Function.update s.locked copy true } ∨
        perm &&& VMOBJ_WRITE ≠ 0 ∧ Fits size (s.size copy) spare ∧ ∃ x, new = some x ∧
          Copied S s s' copy x perm (size / 4096).toNat) := by
  rw [vmobjCopy] at h
  split at h
  · cases h
  rename_i hlive
  refine ⟨by simpa using (not_or.mp hlive).1, ?_⟩
  split at h
  · rename_i hfail
    exact Or.inl ⟨hfail, (Option.some_inj.mp h).symm⟩
  rename_i hfail
  obtain ⟨x, hnew, hcreate⟩ := Option.bind_eq_some_iff.mp h
  split at hcreate
  · cases hcreate
  rename_i hx
  obtain ⟨cow, hcow, rfl⟩ := Option.map_eq_some_iff.mp hcreate
  obtain ⟨hfresh, hfits⟩ := not_or.mp hx
  exact Or.inr ⟨(not_or.mp hfail).1, not_not.mp hfits, x, hnew, by simpa using hfresh,
    ⟨_, _, hcow⟩, rfl, rfl, rfl, rfl, rfl⟩

theorem countPages_chained {id : ι → BitVec 32} {cow cow' : Cow ι ε} {pages : ℕ → PageSrc ι}
    {blocks : ℕ → ε} {n : ℕ} {chains : ℕ → List (Option ε)} (hc : Chained id cow chains)
    (h : countPages id pages blocks cow n = some cow') : ∃ chains', Chained id cow' chains' := by
  induction n generalizing cow' with
  | zero =>
    cases h
    exact ⟨chains, hc⟩
  | succ n ih =>
    obtain ⟨cow₁, h₁, h⟩ := Option.bind_eq_some_iff.mp h
    obtain ⟨chains₁, hc₁⟩ := ih h₁
    exact hc₁.of_inc h

/-- The loop ends when `malloc` returns new blocks. -/
theorem countPages_ends {id : ι → BitVec 32} {cow : Cow ι ε} {blocks : ℕ → ε}
    {chains : ℕ → List (Option ε)} (hc : Chained id cow chains) (pages : ℕ → PageSrc ι) {n : ℕ}
    (hfree : ∀ i < n, cow.used (blocks i) = false)
    (hapart : ∀ i < n, ∀ j < n, blocks i = blocks j → i = j) :
    ∃ cow' chains', countPages id pages blocks cow n = some cow' ∧ Chained id cow' chains' ∧
      ∀ y, cow'.used y = true → cow.used y = true ∨ ∃ i < n, y = blocks i := by
  induction n with
  | zero => exact ⟨cow, chains, rfl, hc, fun y hy => Or.inl hy⟩
  | succ n ih =>
    obtain ⟨cow₁, chains₁, h₁, hc₁, hused⟩ := ih (fun i hi => hfree i (by omega))
      fun i hi j hj => hapart i (by omega) j (by omega)
    have hnew : cow₁.used (blocks n) = false := by
      by_contra hne
      rcases hused (blocks n) (by simpa using hne) with hold | ⟨i, hi, heq⟩
      · rw [hfree n (by omega)] at hold
        cases hold
      · have hin := hapart n (by omega) i (by omega) heq
        omega
    obtain ⟨cow₂, chains₂, h₂, hc₂, hused₂⟩ := hc₁.inc hnew (pages n)
    refine ⟨cow₂, chains₂, ?_, hc₂, fun y hy => ?_⟩
    · rw [countPages, h₁, Option.bind_some, h₂]
    · rcases hused₂ y hy with hy | rfl
      · rcases hused y hy with hold | ⟨i, hi, heq⟩
        · exact Or.inl hold
        · exact Or.inr ⟨i, by omega, heq⟩
      · exact Or.inr ⟨n, by omega, rfl⟩

omit [DecidableEq σ] [DecidableEq ν] [Fintype ο] [Fintype ν] in
/-- A copy that fits in its block is made when the loop over its pages ends. -/
theorem vmobjCopy_made {size : BitVec 32} {spare : ℕ} {t : Untyped ι} {blocks : ℕ → ε}
    {cow : Cow ι ε} (hcopy : s.live copy = true) (hlock : s.locked copy = false)
    (hperm : perm &&& VMOBJ_WRITE ≠ 0) (hx : s.live x = false)
    (hfits : Fits size (s.size copy) spare)
    (hcount : countPages S.id (countedPage t (s.vm.objs copy)) blocks s.vm.phys.cow
      (size / 4096).toNat = some cow) :
    ∃ s', vmobjCopy S s copy perm size (some x) spare t blocks = some s' := by
  refine Option.isSome_iff_exists.mp ?_
  rw [vmobjCopy, if_neg (by simp [hcopy, hlock]),
    if_neg (not_or.mpr ⟨hperm, Option.some_ne_none x⟩)]
  simp only [Option.bind_some, hx, hfits, hcount, Bool.false_eq_true, not_true_eq_false, or_self,
    if_false, Option.map_some, Option.isSome_some]

omit [Fintype ε] [DecidableEq σ] [DecidableEq ο] [Fintype ο] in
theorem Coherent.frame (h : Coherent S pages s ref) (hphys : s'.vm.phys = s.vm.phys)
    (hsize : s'.size = s.size) (hlive : s'.live = s.live)
    (hobjs : ∀ o, SameObj (s'.vm.objs o) (s.vm.objs o)) : Coherent S pages s' ref := by
  have hcount : ∀ o, s'.pageCount o = s.pageCount o := by
    intro o
    rw [State.pageCount, hsize, State.pageCount]
  have hflags : ∀ o, (s'.vm.objs o).flags = (s.vm.objs o).flags :=
    fun o => (hobjs o).field VmObj.flags fun _ _ _ => rfl
  refine ⟨hphys ▸ h.sound, hphys ▸ h.chained, hphys ▸ h.kept, fun o ho hflag => ?_,
    fun o k ho hk => ?_⟩
  · rw [hlive] at ho
    rw [hflags] at hflag
    obtain ⟨src, hcopy⟩ := h.copies o ho hflag
    exact ⟨src, hcopy.congr (hobjs o) (by rw [hflags, hcopy.plain]) (by rw [hlive, hcopy.live])
      (hcount o)⟩
  · rw [hlive] at ho
    rw [hcount] at hk
    refine shows_keep (hobjs o) (fun obj hc => ?_) (fun src _ _ => (hobjs src).shown)
      (h.shows o k ho hk)
    rw [hphys, hc]

omit [DecidableEq σ] [DecidableEq ο] [DecidableEq ι] [Fintype ο] in
theorem shown_markSource (mem : Memory ν C) (obj : VmObj σ ο ι) (count : BitVec 32) :
    shown S mem (markSource obj count) k = shown S mem obj k := rfl

section Copied

variable (hc : Copied S s s' copy x perm n) (hcopy : s.live copy = true)

include hc

section

omit [DecidableEq σ] [DecidableEq ν] [Fintype ο] [Fintype ν]

theorem Copied.ne (ho : s.live o = true) : o ≠ x := by
  rintro rfl
  rw [hc.fresh] at ho
  cases ho

theorem Copied.other (hox : o ≠ x) (hoc : o ≠ copy) : s'.vm.objs o = s.vm.objs o := by
  rw [hc.objs, Function.update_of_ne hox, Function.update_of_ne hoc]

theorem Copied.live_other (hox : o ≠ x) : s'.live o = s.live o := by
  rw [hc.live, Function.update_of_ne hox]

theorem Copied.count_other (hox : o ≠ x) : s'.pageCount o = s.pageCount o := by
  rw [State.pageCount, hc.size, Function.update_of_ne hox, State.pageCount]

theorem Copied.count_new : s'.pageCount x = s.pageCount copy := by
  rw [State.pageCount, hc.size, Function.update_self, State.pageCount]

end

include hcopy

omit [DecidableEq σ] [DecidableEq ν] [Fintype ο] [Fintype ν] in
theorem Copied.source : s'.vm.objs copy = markSource (s.vm.objs copy) (s.size copy / 4096) := by
  rw [hc.objs, Function.update_of_ne (hc.ne hcopy), Function.update_self]

omit [DecidableEq σ] [DecidableEq ν] [Fintype ο] [Fintype ν] in
theorem Copied.plain : (s'.vm.objs copy).flags &&& VMOBJ_COW = 0 := by
  rw [hc.source hcopy]
  exact source_not_cow _

omit [DecidableEq σ] [Fintype ο] in
theorem Copied.shown (hox : o ≠ x) (k : BitVec 32) :
    shown S s'.vm.phys.mem (s'.vm.objs o) k = shown S s.vm.phys.mem (s.vm.objs o) k := by
  rw [hc.mem]
  by_cases hoc : o = copy
  · rw [hoc, hc.source hcopy, shown_markSource]
  · rw [hc.other hox hoc]

omit [DecidableEq σ] [DecidableEq ν] [Fintype ο] [Fintype ν] in
theorem Copied.isCopy_new (hperm : perm &&& VMOBJ_WRITE ≠ 0) (hn : s.pageCount copy ≤ n) :
    IsCopy s' x copy ∧ ∀ k < s.pageCount copy, Unwritten s' x k := by
  have hnew : s'.vm.objs x =
      newCopy (s.vm.objs x) s.idCount perm (s.size copy / 4096) copy x n := by
    rw [hc.objs, Function.update_self]
  have hzero : ∀ k < s.pageCount copy, (s'.vm.objs x).anonPages k = 0 := by
    intro k hk
    rw [hnew, newCopy]
    exact if_pos (hk.trans_le hn)
  refine ⟨⟨?_, ?_, ?_, hc.plain hcopy, ?_, ?_, ?_, ?_⟩, fun k hk => ⟨?_, hzero k hk⟩⟩
  · rw [hnew, newCopy]
  · rw [hnew, newCopy]
  · rw [hc.live_other (hc.ne hcopy), hcopy]
  · rw [hnew, newCopy]
  · rw [hnew, newCopy]
  · rw [hnew]
    exact copy_writable hperm
  · rw [hc.count_new, Finset.filter_true_of_mem fun k hk => hzero k (Finset.mem_range.mp hk),
      Finset.card_range, hnew]
    rfl
  · rw [hnew]
    exact copy_flag perm

end Copied

omit [DecidableEq σ] [Fintype ο] in
theorem Coherent.copied (h : Coherent S pages s ref) (hc : Copied S s s' copy x perm n)
    (hcopy : s.live copy = true) (hperm : perm &&& VMOBJ_WRITE ≠ 0) (hn : s.pageCount copy ≤ n)
    (hall : ∀ k < s.pageCount copy, ¬ Unwritten s copy k) :
    Coherent S pages s' (Function.update ref x (ref copy)) := by
  obtain ⟨hnew, hun⟩ := hc.isCopy_new hcopy hperm hn
  obtain ⟨chains, hchained⟩ := h.chained
  obtain ⟨counted, blocks, hcounted⟩ := hc.counted
  have hplain : ∀ k : BitVec 32, k.toNat < s.pageCount copy →
      shown S s'.vm.phys.mem (s'.vm.objs copy) k = some (ref copy k) := by
    intro k hk
    have hshow := h.shows copy k hcopy hk
    rwa [EagerCopies.shows, if_neg (hall k.toNat hk), ← hc.shown hcopy (hc.ne hcopy)] at hshow
  refine ⟨hc.mem ▸ h.sound, countPages_chained hchained hcounted, hc.lost.trans h.kept,
    fun o ho hflag => ?_, fun o k ho hk => ?_⟩
  · by_cases hox : o = x
    · subst hox
      exact ⟨copy, hnew⟩
    · have hoc : o ≠ copy := by
        rintro rfl
        exact hflag (hc.plain hcopy)
      rw [hc.live_other hox] at ho
      rw [hc.other hox hoc] at hflag
      obtain ⟨src, hsrc⟩ := h.copies o ho hflag
      have hsx := hc.ne hsrc.live
      refine ⟨src, hsrc.congr (.of_eq (hc.other hox hoc)) ?_ ?_ (hc.count_other hox)⟩
      · by_cases hsc : src = copy
        · rw [hsc]
          exact hc.plain hcopy
        · rw [hc.other hsx hsc, hsrc.plain]
      · rw [hc.live_other hsx, hsrc.live]
  · by_cases hox : o = x
    · subst hox
      rw [hc.count_new] at hk
      rw [Function.update_self, EagerCopies.shows, if_pos (hun _ hk), hnew.source, Option.bind_some,
        hplain k hk]
    · rw [hc.live_other hox] at ho
      rw [hc.count_other hox] at hk
      rw [Function.update_of_ne hox]
      by_cases hoc : o = copy
      · subst hoc
        rw [EagerCopies.shows, if_neg fun hun => hun.1 (hc.plain hcopy), hplain k hk]
      · refine shows_keep (.of_eq (hc.other hox hoc)) (fun obj hobj => hc.mem ▸ hobj)
          (fun src hun hsource => ?_) (h.shows o k ho hk)
        obtain ⟨src', hsrc⟩ := h.copies o ho hun.1
        cases hsource.symm.trans hsrc.source
        rw [hc.shown hcopy (hc.ne hsrc.live), hc.mem]

omit [DecidableEq σ] [Fintype ο] in
theorem Coherent.copy_step {size : BitVec 32} {new : Option ο} {spare : ℕ} {t : Untyped ι}
    {blocks : ℕ → ε} (h : Coherent S pages s ref)
    (hg : Handled S ⟨s, ref⟩ (.copy copy perm size new spare t blocks))
    (hstep : vmobjCopy S s copy perm size new spare t blocks = some s') :
    Coherent S pages s' (eagerStep ref
      (.copy copy perm size new spare t blocks : Event σ ο ι ν ε C)) := by
  rw [eagerStep]
  obtain ⟨hcopy, ⟨hfail, rfl⟩ | ⟨hperm, -, x, rfl, hc⟩⟩ := vmobjCopy_cases hstep
  · have hpages : (if perm &&& VMOBJ_WRITE = 0 then ref
        else new.elim ref fun new => Function.update ref new (ref copy)) = ref := by
      rcases hfail with hperm | rfl
      · rw [if_pos hperm]
      · rw [Option.elim_none, ite_self]
    rw [hpages]
    exact h.frame rfl rfl rfl fun o => .of_eq rfl
  · obtain ⟨hall, hsize, -⟩ := hg hperm (by simp)
    rw [if_neg hperm, Option.elim_some]
    exact h.copied hc hcopy hperm hsize hall

end Copies

section Writes

variable {S : Setup ι C} {pages : ℕ} {ref : ο → BitVec 32 → C} {s s' : State σ ο ι ν ε C}
  {o src : ο} {k id : BitVec 32} {c : C}

def written (obj : VmObj σ ο ι) (k : ℕ) (id : BitVec 32) : VmObj σ ο ι :=
  { obj with
    anonPages := Function.update obj.anonPages k id
    cowCount := obj.cowCount - 1
    flags := if obj.cowCount - 1 = 0 then obj.flags &&& ~~~(VMOBJ_COW ||| VMOBJ_COW_SRC)
      else obj.flags }

omit [DecidableEq σ] [DecidableEq ο] [DecidableEq ι] [Fintype ο] in
/-- The flags stay, or no page is left and the object is no copy any more. -/
theorem written_flags (obj : VmObj σ ο ι) (k : ℕ) (id : BitVec 32) :
    (written obj k id).flags = obj.flags ∨
      (written obj k id).cowCount = 0 ∧ (written obj k id).flags &&& VMOBJ_COW = 0 := by
  by_cases hzero : obj.cowCount - 1 = 0
  · refine Or.inr ⟨hzero, ?_⟩
    rw [written, if_pos hzero]
    exact retired_not_cow _
  · exact Or.inl (if_neg hzero)

omit [DecidableEq σ] [DecidableEq ι] [Fintype ο] in
theorem retire_alone {W : Type*} (vm : VmState σ ο ι W) (o : ο)
    (hnext : (vm.objs o).cowNext = some o) (hprev : (vm.objs o).cowPrev = some o) :
    retire vm o = some (if (vm.objs o).cowCount = 0 then
      vm.setObj o fun obj => { obj with flags := obj.flags &&& ~~~(VMOBJ_COW ||| VMOBJ_COW_SRC) }
      else vm) := by
  rw [retire]
  split
  · simp [VmState.setObj, hnext, hprev, DataStructures.clistDelete, cowNext, tableField]
  · rfl

omit [DecidableEq σ] [DecidableEq ι] [Fintype ο] in
/-- The end of the fault, where the pages of the object were replaced and counted. -/
theorem retire_written {W : Type*} {vm vm₀ : VmState σ ο ι W} {k : ℕ}
    (hobjs : vm.objs = Function.update vm₀.objs o { vm₀.objs o with
      anonPages := Function.update (vm₀.objs o).anonPages k id
      cowCount := (vm₀.objs o).cowCount - 1 })
    (hnext : (vm₀.objs o).cowNext = some o) (hprev : (vm₀.objs o).cowPrev = some o) :
    ∃ vm', retire vm o = some vm' ∧
      vm'.objs = Function.update vm₀.objs o (written (vm₀.objs o) k id) ∧
      vm'.phys = vm.phys ∧ vm'.tables = vm.tables := by
  have hrec : vm.objs o = { vm₀.objs o with
      anonPages := Function.update (vm₀.objs o).anonPages k id
      cowCount := (vm₀.objs o).cowCount - 1 } := by
    rw [hobjs, Function.update_self]
  have hretire := retire_alone vm o (by rw [hrec, hnext]) (by rw [hrec, hprev])
  by_cases hzero : (vm₀.objs o).cowCount - 1 = 0
  · rw [if_pos (by rw [hrec, hzero])] at hretire
    refine ⟨_, hretire, ?_, rfl, rfl⟩
    rw [VmState.setObj, hobjs, Function.update_self, Function.update_idem, written, if_pos hzero]
  · rw [if_neg (by rw [hrec]; exact hzero)] at hretire
    exact ⟨_, hretire, by rw [hobjs, written, if_neg hzero], rfl, rfl⟩

omit [DecidableEq ι] [Fintype ο] in
theorem installCopy_clone {W : Type*} {M : PhysMem σ ο ι W} {vm : VmState σ ο ι W} {st : Stack ι}
    {spc : σ} {addr offset id phys : BitVec 32} {orig : PageSrc ι} {w w' : W}
    (hclone : isInode orig = true)
    (hcreate : M.anonPageCreate vm.phys orig spc o (isShared vm o) = (w, id))
    (hfetch : M.physPageFetch w (.anon id) spc o (isShared vm o) = (w', phys)) :
    (installCopy M vm st spc addr o offset orig).1.objs =
        Function.update vm.objs o { vm.objs o with
          anonPages := Function.update (vm.objs o).anonPages offset.toNat id
          cowCount := (vm.objs o).cowCount - 1 } ∧
      (installCopy M vm st spc addr o offset orig).1.phys = M.cowDec w' orig ∧
      ∀ m ∈ (vm.objs o).mapperList, m.spc = spc →
        ((installCopy M vm st spc addr o offset orig).1.tables spc).get addr =
          newEntry vm o phys := by
  have hkeep : cloneOrKeep M vm st spc o orig (M.cowLookup vm.phys orig = 1 ∧ ¬ isInode orig) =
      ({ vm with phys := w' }, ⟨id, .anon id⟩, phys) := by
    rw [cloneOrKeep]
    simp only [hclone, not_true_eq_false, and_false, decide_false, Bool.false_eq_true, if_false,
      hcreate, hfetch]
  rw [installCopy]
  simp only [hkeep]
  generalize hset : ({ vm with phys := w' } : VmState σ ο ι W).setObj o (fun obj =>
    { obj with anonPages := Function.update obj.anonPages offset.toNat id }) = vm'
  obtain ⟨hobjs, hphys⟩ := updatePageTables_kept vm' o offset phys addr
  have hrec : vm'.objs = Function.update vm.objs o { vm.objs o with
      anonPages := Function.update (vm.objs o).anonPages offset.toNat id } := by
    rw [← hset, VmState.setObj]
  have hw : vm'.phys = w' := by rw [← hset, VmState.setObj]
  refine ⟨?_, ?_, fun m hm hspc => ?_⟩
  · simp only [decCount, VmState.setObj, hobjs, hrec, Function.update_self, Function.update_idem]
  · simp only [decCount, VmState.setObj, hphys, hw]
  · have hmem : m ∈ (vm'.objs o).mapperList := by
      rw [hrec, Function.update_self]
      exact hm
    have hentry : newEntry vm' o phys = newEntry vm o phys := by
      rw [newEntry, hrec, Function.update_self, newEntry]
    simp only [decCount, VmState.setObj]
    rw [updatePageTables_get, if_pos ⟨⟨m, hmem, hspc⟩, rfl⟩, hentry]

omit [Fintype ο] in
theorem physMem_cowDec {w : Pages σ ο ι ν ε C} {chains : ℕ → List (Option ε)}
    (hc : Chained S.id w.cow chains) (src : PageSrc ι) (e : Outside ν C) :
    ∃ cow chains', (physMem S e : PhysMem σ ο ι _).cowDec w src = { w with cow := cow } ∧
      Chained S.id cow chains' := by
  obtain ⟨cow, chains', hdec, hc'⟩ := hc.dec src
  exact ⟨cow, chains', by simp only [physMem, hdec, Option.elim_some], hc'⟩

theorem protectFault_first {m : Vmap σ ο} {addr : BitVec 32} {e : Outside ν C}
    {chains : ℕ → List (Option ε)} (hsound : Sound S pages s.vm.phys.mem)
    (hchained : Chained S.id s.vm.phys.cow chains) (hcopy : IsCopy s m.obj src)
    (hfirst : FirstWrite s m.obj (pageOffset m addr)) (hst : Stocked S s m.spc m.obj)
    (he : Usable e s.vm.phys.mem) (hm : m ∈ (s.vm.objs m.obj).mapperList)
    (hc : shown S s.vm.phys.mem (s.vm.objs src) (pageOffset m addr) = some c) (st : Stack ι) :
    ∃ vm phys, vmProtectFault (physMem S e) s.vm st m.spc addr VMOBJ_WRITE (some m) = some vm ∧
      vm.objs = Function.update s.vm.objs m.obj
        (written (s.vm.objs m.obj) (pageOffset m addr).toNat (e.rand s.vm.phys.mem)) ∧
      vm.phys.lost = s.vm.phys.lost ∧ (∃ chains', Chained S.id vm.phys.cow chains') ∧
      Entered S pages s.vm.phys.mem vm.phys.mem (e.rand s.vm.phys.mem) c ∧
      (vm.tables m.spc).get addr = newEntry s.vm m.obj phys ∧
      anonPage vm.phys.mem (e.rand s.vm.phys.mem) = some (invPageLookup phys) := by
  generalize hk : pageOffset m addr = k at *
  generalize ho : m.obj = o at *
  have htype := hfirst.inode src hcopy.source
  simp only [shown, htype] at hc
  generalize horig : (PageSrc.inode (s.vm.objs src).inode (k + (s.vm.objs src).offset) :
    PageSrc ι) = orig at hc
  have hget : getPageSrc (physMem S e) (Fintype.card ο + 1) s.vm m.spc o k = some (s.vm, orig) := by
    obtain ⟨fuel, hsource⟩ := getPageSrc_source hcopy hfirst.unwritten (physMem S e)
    rw [hsource, getPageSrc]
    simp only [htype, horig]
  obtain ⟨mem, ct, hcreate, hentered⟩ := hsound.create hst he.block he.unknown
    (Or.inr ⟨⟨_, _, horig.symm⟩, hc⟩)
  obtain ⟨p, hown⟩ := hentered.own
  obtain ⟨ct', hfetch, hphys⟩ := hentered.sound.fetch_anon hst.colors hown.page
    ((s.vm.phys.put m.spc o mem ct).colors m.spc o (isShared s.vm o)) e.out
  have hinode : isInode orig = true := by rw [← horig, isInode]
  obtain ⟨hobjs, hphysW, hentry⟩ := installCopy_clone hinode
    (physMem_create hcreate) (physMem_fetch hfetch)
  generalize hvm : (installCopy (physMem S e) s.vm st m.spc addr o k orig).1 = vm at *
  have hput : Chained S.id ((s.vm.phys.put m.spc o mem ct).put m.spc o mem ct').cow chains :=
    hchained
  obtain ⟨cow, chains', hdec, hchained'⟩ := physMem_cowDec hput orig e
  rw [hdec] at hphysW
  obtain ⟨vm', hretire, hobjs', hphys', htables⟩ := retire_written hobjs hcopy.next hcopy.prev
  have hfault : vmProtectFault (physMem S e) s.vm st m.spc addr VMOBJ_WRITE (some m) =
      some vm' := by
    have haccess : VMOBJ_WRITE &&& VMOBJ_WRITE ≠ 0 := by decide
    simp only [vmProtectFault, Option.bind_some, ho, hk, hget, doProtectFault]
    rw [if_pos ⟨cow_faults hfirst.unwritten.1, haccess⟩, if_pos (Or.inl hfirst.notSource), hvm,
      hretire]
  rw [hphysW] at hphys'
  refine ⟨vm', invPageAddr p, hfault, hobjs', ?_, ⟨chains', ?_⟩, ?_, ?_, ?_⟩
  · rw [hphys']
    rfl
  · rw [hphys']
    exact hchained'
  · rw [hphys']
    exact hentered
  · rw [htables]
    exact hentry m hm rfl
  · rw [hphys', hphys]
    exact hown.page

structure FirstWritten (S : Setup ι C) (pages : ℕ) (s s' : State σ ο ι ν ε C) (o : ο)
    (k id : BitVec 32) (c : C) : Prop where
  sound : Sound S pages s'.vm.phys.mem
  chained : ∃ chains, Chained S.id s'.vm.phys.cow chains
  kept : s'.vm.phys.lost = false
  size : s'.size = s.size
  live : s'.live = s.live
  nonzero : id ≠ 0
  objs : s'.vm.objs = Function.update s.vm.objs o (written (s.vm.objs o) k.toNat id)
  unknown : srcContents S s.vm.phys.mem (.anon id) = none
  page : srcContents S s'.vm.phys.mem (.anon id) = some c
  others : ∀ r, r ≠ .anon id → srcContents S s'.vm.phys.mem r = srcContents S s.vm.phys.mem r

section

omit [DecidableEq σ] [DecidableEq ο] [DecidableEq ι] [Fintype ο]

theorem invPageLookup_newEntry {W : Type*} (vm : VmState σ ο ι W) (o : ο) (phys : BitVec 32) :
    invPageLookup (newEntry vm o phys) = invPageLookup phys := by
  rw [invPageLookup_pageNum, newEntry, pageNum_mapEntry, ← invPageLookup_pageNum]

theorem newEntry_present {W : Type*} (vm : VmState σ ο ι W) (o : ο) (phys : BitVec 32) :
    present (newEntry vm o phys) := by
  simp [present, newEntry, mapEntry]

theorem newEntry_writable {W : Type*} (vm : VmState σ ο ι W) (o : ο) (phys : BitVec 32) :
    newEntry vm o phys &&& 2 = (vm.objs o).flags &&& VMOBJ_WRITE := by
  apply BitVec.eq_of_getLsbD_eq
  intro i hi
  interval_cases i <;> simp [newEntry, mapEntry, VMOBJ_PERM, VMOBJ_WRITE]

end

theorem writeFault_first {m : Vmap σ ο} {addr : BitVec 32} {st : Stack ι}
    {e : Outside ν C} {f : C → C} {chains : ℕ → List (Option ε)}
    (hsound : Sound S pages s.vm.phys.mem) (hchained : Chained S.id s.vm.phys.cow chains)
    (hkept : s.vm.phys.lost = false) (hcopy : IsCopy s m.obj src)
    (hfirst : FirstWrite s m.obj (pageOffset m addr)) (hst : Stocked S s m.spc m.obj)
    (he : Usable e s.vm.phys.mem) (hlive : s.live m.obj = true)
    (hm : m ∈ (s.vm.objs m.obj).mapperList)
    (hc : shown S s.vm.phys.mem (s.vm.objs src) (pageOffset m addr) = some c) :
    ∃ s', writeFault S s m addr st e f = some s' ∧
      FirstWritten S pages s s' m.obj (pageOffset m addr) (e.rand s.vm.phys.mem) (f c) := by
  obtain ⟨vm, phys, hfault, hobjs, hlost, hchained', hentered, hentry, hpage⟩ :=
    protectFault_first hsound hchained hcopy hfirst hst he hm hc st
  have hlost' : ¬ vm.phys.lost = true := by simp [hlost, hkept]
  have hnone : srcContents S s.vm.phys.mem (.anon (e.rand s.vm.phys.mem)) = none := by
    simp [srcContents, anonPage, he.unknown]
  obtain ⟨p, hown⟩ := hentered.own
  have hp : invPageLookup phys = p := Option.some_inj.mp (hpage.symm.trans hown.page)
  have hcontents : vm.phys.mem.contents p = c := by
    have hshows := hentered.shows
    rwa [srcContents, hown.page, Option.map_some, Option.some_inj] at hshows
  have hentryPage : invPageLookup (newEntry s.vm m.obj phys) = p := by
    rw [invPageLookup_newEntry, hp]
  obtain ⟨hself, hothers⟩ := hown.store hentryPage (f c) S
  have hstore : store { s with vm := vm } m.spc addr f = some { s with
      vm := { vm with
        phys := { vm.phys with
          mem := vm.phys.mem.setContents (newEntry s.vm m.obj phys) (f c) } } } := by
    simp only [store, hentry]
    rw [newEntry_writable, if_pos ⟨newEntry_present _ _ _, hcopy.writable⟩, hentryPage, hcontents]
  rw [writeFault, if_pos ⟨hlive, hm⟩, hfault, Option.bind_some, if_neg hlost', hstore]
  exact ⟨_, rfl, hentered.sound.setContents _ _, hchained', hlost.trans hkept, rfl, rfl, he.nonzero,
    hobjs, hnone, hself, fun r hr => (hothers r hr).trans (hentered.others r hr)⟩

omit [DecidableEq σ] [DecidableEq ο] [DecidableEq ι] [Fintype ο] in
theorem left_written {obj : VmObj σ ο ι} {n k : ℕ} {id : BitVec 32} (hid : id ≠ 0) (hk : k < n)
    (hzero : obj.anonPages k = 0)
    (hleft : obj.cowCount.toNat = ((Finset.range n).filter fun k => obj.anonPages k = 0).card) :
    (written obj k id).cowCount.toNat =
      ((Finset.range n).filter fun i => (written obj k id).anonPages i = 0).card := by
  have hmem : k ∈ (Finset.range n).filter fun k => obj.anonPages k = 0 :=
    Finset.mem_filter.mpr ⟨Finset.mem_range.mpr hk, hzero⟩
  have herase : ((Finset.range n).filter fun i => (written obj k id).anonPages i = 0) =
      ((Finset.range n).filter fun k => obj.anonPages k = 0).erase k := by
    ext i
    rw [Finset.mem_filter, Finset.mem_erase, Finset.mem_filter]
    by_cases hik : i = k
    · subst hik
      simpa [written] using fun _ => hid
    · simp [written, hik]
  have hpos := Finset.card_pos.mpr ⟨k, hmem⟩
  rw [herase, Finset.card_erase_of_mem hmem, ← hleft, written]
  rw [← hleft] at hpos
  rw [BitVec.toNat_sub_of_le]
  · rfl
  · rw [BitVec.le_def]
    exact hpos

section Written

variable (hw : FirstWritten S pages s s' o k id c)

include hw

section

omit [DecidableEq σ] [Fintype ο] [Fintype ε]

theorem FirstWritten.self : s'.vm.objs o = written (s.vm.objs o) k.toNat id := by
  rw [hw.objs, Function.update_self]

theorem FirstWritten.other {o' : ο} (ho' : o' ≠ o) : s'.vm.objs o' = s.vm.objs o' := by
  rw [hw.objs, Function.update_of_ne ho']

theorem FirstWritten.count (o' : ο) : s'.pageCount o' = s.pageCount o' := by
  rw [State.pageCount, hw.size, State.pageCount]

theorem FirstWritten.shown {k' : BitVec 32} {c' : C} {obj : VmObj σ ο ι}
    (hc : shown S s.vm.phys.mem obj k' = some c') :
    shown S s'.vm.phys.mem obj k' = some c' := by
  rw [CopyOnWrite.shown] at hc ⊢
  split at hc
  · rw [hw.others _ (by simp), hc]
  · by_cases hzero : obj.anonPages k'.toNat = 0
    · rwa [if_pos hzero] at hc ⊢
    · rw [if_neg hzero] at hc ⊢
      rw [hw.others, hc]
      rintro heq
      rw [heq, hw.unknown] at hc
      cases hc

theorem FirstWritten.isCopy_self (hcopy : IsCopy s o src) (hfirst : FirstWrite s o k)
    (hsrc : src ≠ o) (hflag : (s'.vm.objs o).flags &&& VMOBJ_COW ≠ 0) : IsCopy s' o src := by
  have hleft := left_written hw.nonzero hfirst.inside hfirst.unwritten.2 hcopy.left
  rw [hw.self] at hflag
  have hflags := (written_flags (s.vm.objs o) k.toNat id).resolve_right fun hret => hflag hret.2
  constructor <;> try rw [hw.self]
  · exact hcopy.anon
  · exact hcopy.source
  · rw [hw.live, hcopy.live]
  · rw [hw.other hsrc, hcopy.plain]
  · exact hcopy.next
  · exact hcopy.prev
  · rw [hflags]
    exact hcopy.writable
  · rw [hw.count, hleft]

theorem FirstWritten.shows_page (hcopy : IsCopy s o src) : shows S s' o k = some c := by
  have hpage : (written (s.vm.objs o) k.toNat id).anonPages k.toNat = id :=
    Function.update_self _ _ _
  have htype : (written (s.vm.objs o) k.toNat id).srcType = .anon := hcopy.anon
  have hun : ¬ Unwritten s' o k.toNat := by
    rintro ⟨-, heq⟩
    rw [hw.self, hpage] at heq
    exact hw.nonzero heq
  rw [shows, if_neg hun, hw.self, CopyOnWrite.shown]
  simp only [htype, hpage, if_neg hw.nonzero, hw.page]

theorem FirstWritten.shows_self {k' : BitVec 32} {c' : C} (hcopy : IsCopy s o src)
    (hfirst : FirstWrite s o k) (hsrc : src ≠ o) (hkk : k' ≠ k) (hk' : k'.toNat < s.pageCount o)
    (hc : shows S s o k' = some c') : shows S s' o k' = some c' := by
  have hne : k'.toNat ≠ k.toNat := fun heq => hkk (BitVec.eq_of_toNat_eq heq)
  have hpage : (written (s.vm.objs o) k.toNat id).anonPages k'.toNat =
      (s.vm.objs o).anonPages k'.toNat := Function.update_of_ne hne _ _
  by_cases hun : Unwritten s o k'.toNat
  · have hleft := left_written hw.nonzero hfirst.inside hfirst.unwritten.2 hcopy.left
    have hmem : k'.toNat ∈ (Finset.range (s.pageCount o)).filter fun i =>
        (written (s.vm.objs o) k.toNat id).anonPages i = 0 :=
      Finset.mem_filter.mpr ⟨Finset.mem_range.mpr hk', hpage.trans hun.2⟩
    have hflags := (written_flags (s.vm.objs o) k.toNat id).resolve_right fun hret => by
      rw [hret.1] at hleft
      exact absurd hleft (Finset.card_pos.mpr ⟨_, hmem⟩).ne
    have hun' : Unwritten s' o k'.toNat := by
      rw [Unwritten, hw.self, hflags, hpage]
      exact hun
    have hsource : (s'.vm.objs o).cowSrc = some src := by
      rw [hw.self]
      exact hcopy.source
    rw [shows, if_pos hun, hcopy.source, Option.bind_some] at hc
    rw [shows, if_pos hun', hsource, Option.bind_some, hw.other hsrc]
    exact hw.shown hc
  · have hun' : ¬ Unwritten s' o k'.toNat := by
      rintro ⟨-, heq⟩
      rw [hw.self, hpage] at heq
      exact hun ⟨hfirst.unwritten.1, heq⟩
    have hsame : CopyOnWrite.shown S s'.vm.phys.mem (written (s.vm.objs o) k.toNat id) k' =
        CopyOnWrite.shown S s'.vm.phys.mem (s.vm.objs o) k' := by
      have htype : (written (s.vm.objs o) k.toNat id).srcType = (s.vm.objs o).srcType := rfl
      rw [CopyOnWrite.shown, CopyOnWrite.shown, htype, hcopy.anon, hpage]
    rw [shows, if_neg hun] at hc
    rw [shows, if_neg hun', hw.self, hsame]
    exact hw.shown hc

end

end Written

omit [Fintype ε] [DecidableEq σ] [Fintype ο] in
theorem Coherent.written (h : Coherent S pages s ref) (hcopy : IsCopy s o src)
    (hfirst : FirstWrite s o k) (hw : FirstWritten S pages s s' o k id c) :
    Coherent S pages s' (Function.update ref o (Function.update (ref o) k c)) := by
  have hcow := hfirst.unwritten.1
  -- no copy has the writer as its source, since the writer is a copy itself
  have hsource : ∀ {o' src'}, IsCopy s o' src' → src' ≠ o := by
    rintro o' src' hcopy' rfl
    exact hcow hcopy'.plain
  refine ⟨hw.sound, hw.chained, hw.kept, fun o' ho' hflag => ?_, fun o' k' ho' hk' => ?_⟩
  · by_cases hoo : o' = o
    · subst hoo
      exact ⟨src, hw.isCopy_self hcopy hfirst (hsource hcopy) hflag⟩
    · rw [hw.live] at ho'
      rw [hw.other hoo] at hflag
      obtain ⟨src', hcopy'⟩ := h.copies o' ho' hflag
      exact ⟨src', hcopy'.congr (.of_eq (hw.other hoo))
        (by rw [hw.other (hsource hcopy'), hcopy'.plain]) (by rw [hw.live, hcopy'.live])
        (hw.count o')⟩
  · rw [hw.live] at ho'
    rw [hw.count] at hk'
    have hshow := h.shows o' k' ho' hk'
    by_cases hoo : o' = o
    · subst hoo
      rw [Function.update_self]
      by_cases hkk : k' = k
      · subst hkk
        rw [Function.update_self, hw.shows_page hcopy]
      · rw [Function.update_of_ne hkk, hw.shows_self hcopy hfirst (hsource hcopy) hkk hk' hshow]
    · rw [Function.update_of_ne hoo]
      refine shows_keep (.of_eq (hw.other hoo)) (fun obj hc => hw.shown hc)
        (fun src' hun hcowSrc => ?_) hshow
      obtain ⟨src₁, hcopy'⟩ := h.copies o' ho' hun.1
      cases hcowSrc.symm.trans hcopy'.source
      rw [hw.other (hsource hcopy')]

theorem writeFault_cases {m : Vmap σ ο} {addr : BitVec 32} {st : Stack ι} {e : Outside ν C}
    {f : C → C} (h : writeFault S s m addr st e f = some s') :
    s.live m.obj = true ∧ m ∈ (s.vm.objs m.obj).mapperList := by
  rw [writeFault] at h
  split at h
  · rename_i hm
    exact hm
  · cases h

theorem Coherent.write_step {m : Vmap σ ο} {addr : BitVec 32} {st : Stack ι} {e : Outside ν C}
    {f : C → C} (h : Coherent S pages s ref)
    (hg : Handled S ⟨s, ref⟩ (.write m addr st e f)) (hlive : s.live m.obj = true)
    (hm : m ∈ (s.vm.objs m.obj).mapperList) :
    ∃ s', writeFault S s m addr st e f = some s' ∧
      Coherent S pages s' (eagerStep ref (.write m addr st e f : Event σ ο ι ν ε C)) := by
  obtain ⟨hfirst, hst, he⟩ := hg
  obtain ⟨chains, hchained⟩ := h.chained
  obtain ⟨src, hcopy⟩ := h.copies m.obj hlive hfirst.unwritten.1
  have hshow := h.shows m.obj _ hlive hfirst.inside
  rw [EagerCopies.shows, if_pos hfirst.unwritten, hcopy.source, Option.bind_some] at hshow
  obtain ⟨s', hwrite, hw⟩ := writeFault_first h.sound hchained h.kept hcopy hfirst hst he hlive hm
    hshow
  exact ⟨s', hwrite, h.written hcopy hfirst hw⟩

end Writes

section Runs

variable {S : Setup ι C} {pages : ℕ}

omit [DecidableEq σ] [DecidableEq ο] [Fintype ο] [Fintype ε] in
theorem coherent_start {b : Both σ ο ι ν ε C} (h : Uncopied S pages b) :
    Coherent S pages b.state b.pages := by
  refine ⟨h.sound, h.chained, h.kept, fun o ho hflag => absurd (h.plain o ho) hflag,
    fun o k ho hk => ?_⟩
  rw [EagerCopies.shows, if_neg fun hun => hun.1 (h.plain o ho), h.shows o k ho hk]

theorem step_preserves_coherent {b b' : Both σ ο ι ν ε C} {e : Event σ ο ι ν ε C}
    (h : Coherent S pages b.state b.pages) (hg : Handled S b e) (hstep : bothStep S b e = some b') :
    Coherent S pages b'.state b'.pages := by
  obtain ⟨s', hs', rfl⟩ := Option.map_eq_some_iff.mp hstep
  cases e with
  | copy copy perm size new spare t blocks => exact h.copy_step hg hs'
  | write m addr st e f =>
    obtain ⟨hlive, hm⟩ := writeFault_cases hs'
    obtain ⟨s₁, hs₁, hc⟩ := h.write_step hg hlive hm
    rw [codeStep, hs₁] at hs'
    cases hs'
    exact hc
  | remap tables inv mappers numMappers =>
    cases hs'
    exact h.frame rfl rfl rfl fun o => rfl

theorem Coherent.possible {b : Both σ ο ι ν ε C} {e : Event σ ο ι ν ε C}
    (h : Coherent S pages b.state b.pages) (hg : Handled S b e) (hp : Possible b e) :
    ∃ b', bothStep S b e = some b' := by
  rw [bothStep]
  refine Option.isSome_iff_exists.mp ?_
  rw [Option.isSome_map]
  cases e with
  | copy copy perm size new spare t blocks =>
    obtain ⟨hlive, hlock, hnew, hfree, hapart⟩ := hp
    obtain ⟨chains, hchained⟩ := h.chained
    rw [codeStep]
    by_cases hfail : perm &&& VMOBJ_WRITE = 0 ∨ new = none
    · rw [vmobjCopy, if_neg (by simp [hlive, hlock]), if_pos hfail]
      rfl
    · obtain ⟨hperm, hnone⟩ := not_or.mp hfail
      obtain ⟨x, rfl⟩ := Option.ne_none_iff_exists'.mp hnone
      obtain ⟨-, -, hfits⟩ := hg hperm hnone
      obtain ⟨cow, -, hcount, -⟩ := countPages_ends hchained
        (countedPage t (b.state.vm.objs copy)) hfree hapart
      obtain ⟨s', hs'⟩ := vmobjCopy_made hlive hlock hperm (hnew x rfl) hfits hcount
      rw [hs']
      rfl
  | write m addr st e f =>
    obtain ⟨s', hs', -⟩ := h.write_step hg hp.1 hp.2
    rw [codeStep, hs']
    rfl
  | remap tables inv mappers numMappers => rfl

end Runs

instance (S : Setup ι C) (s : State σ ο ι ν ε C) (spc : σ) (o : ο) :
    Decidable (Stocked S s spc o) :=
  inferInstanceAs (Decidable (Available _ _ _))

instance (e : Outside ν C) (mem : Memory ν C) : Decidable (Usable e mem) :=
  decidable_of_iff (mem.used (e.malloc mem) = false ∧ anonFind mem (e.rand mem) = some none ∧
    e.rand mem ≠ 0) ⟨fun ⟨hb, hu, hn⟩ => ⟨hb, hu, hn⟩, fun h => ⟨h.block, h.unknown, h.nonzero⟩⟩

instance (s : State σ ο ι ν ε C) (o : ο) (k : BitVec 32) : Decidable (FirstWrite s o k) :=
  decidable_of_iff (Unwritten s o k.toNat ∧ (s.vm.objs o).flags &&& VMOBJ_COW_SRC = 0 ∧
    k.toNat < s.pageCount o ∧ ∀ src, (s.vm.objs o).cowSrc = some src →
      (s.vm.objs src).srcType = .inode)
    ⟨fun ⟨hu, hn, hk, hi⟩ => ⟨hu, hn, hk, hi⟩,
      fun h => ⟨h.unwritten, h.notSource, h.inside, h.inode⟩⟩

instance (S : Setup ι C) (b : Both σ ο ι ν ε C) (e : Event σ ο ι ν ε C) :
    Decidable (Handled S b e) := by
  cases e <;> unfold Handled <;> infer_instance

instance [DecidableEq C] (S : Setup ι C) (s : State σ ο ι ν ε C) (spc : σ) (o : ο) (k : ℕ) :
    Decidable (MadeOfZeros S s spc o k) :=
  inferInstanceAs (Decidable (_ → _))

/-- The page at offset `k` of the file holds `k + 10`. -/
def numbered : Setup Unit ℕ where
  colors := 1
  id _ := 1
  file _ k := k.toNat + 10
  zero := 0

def fourPages : List (BitVec 32) := [0x1000, 0x2000, 0x3000, 0x4000]

def numberedMem : Memory (Fin 4) ℕ where
  alloc := PhysicalMemory.stockedAlloc fourPages
  cache _ := none
  anon _ := ⟨0, none, 0⟩
  anonTable _ := none
  used _ := false
  locked := false
  contents _ := 0

def blankTable : ColorTable := ⟨fun _ => 0, fun _ => 0, fun _ => 0⟩

def fileObject : VmObj Unit (Fin 3) Unit where
  id := 1
  flags := 3
  numMappers := 0
  mappers _ := []
  srcType := .inode
  cowSrc := none
  cowNext := none
  cowPrev := none
  cowCount := 0
  inode := ()
  offset := 5
  anonPages _ := 0

def fileStart : Both Unit (Fin 3) Unit (Fin 4) (Fin 2) ℕ where
  state :=
    { vm :=
        { objs := fun _ => fileObject
          tables := fun _ _ _ => 0
          inv := fun _ => ⟨.unused, 0, fun _ => []⟩
          phys :=
            { mem := numberedMem
              spcColors := fun _ => blankTable
              objColors := fun _ => blankTable
              cow := ⟨fun _ => ⟨.null, 0, none⟩, fun _ => none, fun _ => false⟩
              lost := false } }
      size := fun _ => 0x40000
      live := fun o => o = 0
      locked := fun _ => false
      idCount := 2 }
  pages _ k := k.toNat + 15

theorem uncopied_fileStart : Uncopied numbered 16 fileStart := by
  have hreturn : Returnable 16 (startHistory fun _ => blankPage) fourPages := by decide +kernel
  have hins : physPageInsert 1 (noPages fun _ => blankPage) fourPages =
      some (PhysicalMemory.stockedAlloc fourPages) := rfl
  obtain ⟨ring, hb⟩ := (booked_start fun _ => blankPage).insert hreturn hins
  have hfresh : PhysicalMemory.Fresh numbered 16 ⟨numberedMem, []⟩ ring :=
    ⟨hb.lists, rfl, rfl, fun _ => rfl, rfl⟩
  obtain ⟨ring', chains, nodes, hcons, -⟩ := PhysicalMemory.recorded_fresh hfresh
  have hcached : ∀ i o, cachedPage numberedMem i o = none := fun _ _ => rfl
  have hflags : (3 : BitVec 32) &&& VMOBJ_COW = 0 := by decide
  refine ⟨⟨⟨ring', chains, nodes, hcons⟩, rfl⟩, ⟨_, CowTable.chained_empty _ _ _⟩, rfl,
    fun _ _ => hflags, fun o k _ hk => ?_⟩
  have hcount : ((0x40000 : BitVec 32) / 4096).toNat = 64 := by decide
  have hlt : k.toNat < 64 := hcount ▸ hk
  have hfive : (5 : BitVec 32).toNat = 5 := rfl
  have hoffset : (k + 5).toNat = k.toNat + 5 := by
    rw [BitVec.toNat_add, hfive]
    omega
  have hshown : shown numbered numberedMem fileObject k = some ((k + 5).toNat + 10) := by
    simp only [shown, fileObject, srcContents, hcached, Option.elim_none, numbered]
  rw [hoffset] at hshown
  exact hshown

def typed : Untyped Unit := ⟨.inode, .anon⟩

def nextBlock (mem : Memory (Fin 4) ℕ) : Fin 4 :=
  if mem.used 0 then if mem.used 1 then if mem.used 2 then 3 else 2 else 1 else 0

def inTurn : Outside (Fin 4) ℕ where
  rand mem := BitVec.ofNat 32 (nextBlock mem + 7)
  malloc := nextBlock
  out := 0

def copyOf (copy new : Fin 3) (block : Fin 2) : Event Unit (Fin 3) Unit (Fin 4) (Fin 2) ℕ :=
  .copy copy 3 0x40000 (some new) 0 typed fun _ => block

def place : Fin 3 → Vmap Unit (Fin 3)
  | 2 => ⟨0x500000, 2, ()⟩
  | o => ⟨0x400000, o, ()⟩

def mapCopies : Event Unit (Fin 3) Unit (Fin 4) (Fin 2) ℕ :=
  .remap (fun _ _ _ => 0) (fun _ => ⟨.unused, 0, fun _ => []⟩)
    (fun o i => if i = 1 then [place o] else []) fun _ => 1

def writeTo (o : Fin 3) (addr : BitVec 32) (c : ℕ) : Event Unit (Fin 3) Unit (Fin 4) (Fin 2) ℕ :=
  .write (place o) addr ⟨0, .null⟩ inTurn fun _ => c

end EagerCopies
