import Metakernel.EagerCopies

/-!
# What a copy leaves of its source

VMOBJ_COPY masks the flags of the source. A page is looked for along the sources of copies, which
the flags steer, so the source itself can lose what it showed.
-/
namespace CopiedSources

open GuardedRuns PhysicalPages VirtualMemory CopyOnWrite EagerCopies
open PhysicalMemory (Setup)
open CowTable (Cow)

variable {σ ο ι ν ε C : Type*} [DecidableEq σ] [DecidableEq ο] [DecidableEq ι] [DecidableEq ν]
  [DecidableEq ε] [Fintype ο] [Fintype ν] [Fintype ε]

def VMOBJ_REF_COUNT : BitVec 32 := 0x10

def keptFlags : BitVec 32 := VMOBJ_PERM ||| VMOBJ_REF_COUNT ||| VMOBJ_COW

section Sources

variable {W : Type*} {M : PhysMem σ ο ι W} {vm : VmState σ ο ι W} {spc : σ} {o p : ο}
  {k : BitVec 32} {r r' : PageSrc ι}

/-- Page `k` of an object that is defined already: the page of a file, a page of the object's own,
or that of its source, at any depth. -/
inductive Resolves (vm : VmState σ ο ι W) (k : BitVec 32) : ο → PageSrc ι → Prop
  | inode {o : ο} : (vm.objs o).srcType = .inode →
      Resolves vm k o (.inode (vm.objs o).inode (k + (vm.objs o).offset))
  | own {o : ο} : (vm.objs o).srcType = .anon → (vm.objs o).anonPages k.toNat ≠ 0 →
      Resolves vm k o (.anon ((vm.objs o).anonPages k.toNat))
  | source {o p : ο} {r : PageSrc ι} : (vm.objs o).srcType = .anon → (vm.objs o).anonPages k.toNat = 0 →
      (vm.objs o).flags &&& VMOBJ_COW ≠ 0 → (vm.objs o).cowSrc = some p → Resolves vm k p r →
      Resolves vm k o r

/-- `get_page_src` returns `r`. -/
def Finds (M : PhysMem σ ο ι W) (vm : VmState σ ο ι W) (spc : σ) (o : ο) (k : BitVec 32)
    (r : PageSrc ι) : Prop :=
  ∃ fuel vm', getPageSrc M fuel vm spc o k = some (vm', r)

section

omit [DecidableEq σ] [DecidableEq ι] [Fintype ο]

theorem finds_inode (htype : (vm.objs o).srcType = .inode) :
    Finds M vm spc o k r ↔ r = .inode (vm.objs o).inode (k + (vm.objs o).offset) := by
  constructor
  · rintro ⟨fuel, vm', hget⟩
    cases fuel with
    | zero => cases hget
    | succ fuel =>
      simp only [getPageSrc, htype, Option.some_inj, Prod.mk.injEq] at hget
      exact hget.2.symm
  · rintro rfl
    exact ⟨1, vm, by simp only [getPageSrc, htype]⟩

theorem finds_own (htype : (vm.objs o).srcType = .anon)
    (hown : (vm.objs o).anonPages k.toNat ≠ 0) :
    Finds M vm spc o k r ↔ r = .anon ((vm.objs o).anonPages k.toNat) := by
  constructor
  · rintro ⟨fuel, vm', hget⟩
    cases fuel with
    | zero => cases hget
    | succ fuel =>
      simp only [getPageSrc, htype, hown, ne_eq, not_false_eq_true, if_true, ite_self,
        Option.some_inj, Prod.mk.injEq] at hget
      exact hget.2.symm
  · rintro rfl
    exact ⟨1, vm, by simp only [getPageSrc, htype, hown, ne_eq, not_false_eq_true, if_true,
      ite_self]⟩

theorem finds_source (htype : (vm.objs o).srcType = .anon)
    (hzero : (vm.objs o).anonPages k.toNat = 0) (hcow : (vm.objs o).flags &&& VMOBJ_COW ≠ 0)
    (hsrc : (vm.objs o).cowSrc = some p) :
    Finds M vm spc o k r ↔ Finds M vm spc p k r := by
  have hnext : ∀ fuel, getPageSrc M (fuel + 1) vm spc o k = getPageSrc M fuel vm spc p k := by
    intro fuel
    simp only [getPageSrc, htype, hzero, hcow, hsrc, ne_eq, not_true_eq_false, if_false,
      Option.bind_some]
  constructor
  · rintro ⟨fuel, vm', hget⟩
    cases fuel with
    | zero => cases hget
    | succ fuel => exact ⟨fuel, vm', (hnext fuel).symm.trans hget⟩
  · rintro ⟨fuel, vm', hget⟩
    exact ⟨fuel + 1, vm', (hnext fuel).trans hget⟩

/-- `get_page_src` finds the pages that are defined. -/
theorem Resolves.finds_iff (h : Resolves vm k o r) : Finds M vm spc o k r' ↔ r' = r := by
  induction h with
  | inode htype => exact finds_inode htype
  | own htype hown => exact finds_own htype hown
  | source htype hzero hcow hsrc _ ih => exact (finds_source htype hzero hcow hsrc).trans ih

theorem getPageSrc_unique {a b : VmState σ ο ι W × PageSrc ι} {fuel fuel' : ℕ}
    (ha : getPageSrc M fuel vm spc o k = some a) (hb : getPageSrc M fuel' vm spc o k = some b) :
    a = b := by
  induction fuel generalizing fuel' o with
  | zero => cases ha
  | succ fuel ih =>
    cases fuel' with
    | zero => cases hb
    | succ fuel' =>
      rw [getPageSrc] at ha hb
      by_cases hchain : (vm.objs o).srcType = .anon ∧ (vm.objs o).flags &&& VMOBJ_COW ≠ 0 ∧
          (vm.objs o).anonPages k.toNat = 0
      · obtain ⟨htype, hcow, hzero⟩ := hchain
        simp only [htype, hcow, hzero, ne_eq, not_true_eq_false, if_false] at ha hb
        obtain ⟨p, hp, ha⟩ := Option.bind_eq_some_iff.mp ha
        rw [hp, Option.bind_some] at hb
        exact ih ha hb
      · cases htype : (vm.objs o).srcType with
        | inode =>
          simp only [htype] at ha hb
          exact Option.some_inj.mp (ha.symm.trans hb)
        | anon =>
          simp only [htype, true_and, not_and] at ha hb hchain
          split at ha
          · rename_i hplain
            rw [if_pos hplain] at hb
            exact Option.some_inj.mp (ha.symm.trans hb)
          · rename_i hcow
            rw [if_pos (hchain hcow)] at ha
            rw [if_neg hcow, if_pos (hchain hcow)] at hb
            exact Option.some_inj.mp (ha.symm.trans hb)

theorem Finds.unique (h : Finds M vm spc o k r) (h' : Finds M vm spc o k r') : r = r' := by
  obtain ⟨fuel, vm', hget⟩ := h
  obtain ⟨fuel', vm'', hget'⟩ := h'
  exact (Prod.mk.inj (getPageSrc_unique hget hget')).2

end

omit [DecidableEq σ] [DecidableEq ο] [DecidableEq ι] [Fintype ο] in
theorem resolves_plain (hplain : (vm.objs o).flags &&& VMOBJ_COW = 0) : Resolves vm k o r ↔
    (vm.objs o).srcType = .inode ∧ r = .inode (vm.objs o).inode (k + (vm.objs o).offset) ∨
    (vm.objs o).srcType = .anon ∧ (vm.objs o).anonPages k.toNat ≠ 0 ∧
      r = .anon ((vm.objs o).anonPages k.toNat) := by
  constructor
  · intro h
    cases h with
    | inode htype => exact Or.inl ⟨htype, rfl⟩
    | own htype hown => exact Or.inr ⟨htype, hown, rfl⟩
    | source _ _ hcow _ _ => exact absurd hplain hcow
  · rintro (⟨htype, rfl⟩ | ⟨htype, hown, rfl⟩)
    · exact .inode htype
    · exact .own htype hown

end Sources

section AfterCopy

variable {S : Setup ι C} {s s' : State σ ο ι ν ε C} {copy x : ο} {perm size : BitVec 32} {spare : ℕ}
  {t : Untyped ι} {blocks : ℕ → ε} {k : BitVec 32}

/-- The flags of the source are what they were but for `VMOBJ_COW_SRC`, and its pages are found
where they were, from the source as from the copy. -/
structure Undisturbed (M : PhysMem σ ο ι (Pages σ ο ι ν ε C)) (spc : σ) (s s' : State σ ο ι ν ε C)
    (copy x : ο) : Prop where
  flags : (s'.vm.objs copy).flags &&& keptFlags = (s.vm.objs copy).flags &&& keptFlags
  marked : (s'.vm.objs copy).flags &&& VMOBJ_COW_SRC ≠ 0
  pages : ∀ (k : BitVec 32) r, k.toNat * 4096 < (s.size copy).toNat → Resolves s.vm k copy r →
    Finds M s'.vm spc x k r ∧ Finds M s'.vm spc copy k r

/-- The source has no flag but `VMOBJ_COW_SRC` of those that have a meaning. -/
def OnlyMarked (s : State σ ο ι ν ε C) (copy : ο) : Prop :=
  (s.vm.objs copy).flags &&& (keptFlags ||| VMOBJ_COW_SRC) = VMOBJ_COW_SRC

/-- The block of the new object has a 0 for the pages that are not cleared, or by chance the page of
the source, as far as the source has one. -/
def StaleFits (s : State σ ο ι ν ε C) (copy x : ο) (size : BitVec 32) : Prop :=
  ∀ k : BitVec 32, (size / 4096).toNat ≤ k.toNat → k.toNat * 4096 < (s.size copy).toNat →
    (s.vm.objs x).anonPages k.toNat = 0 ∨
      (s.vm.objs copy).srcType = .anon ∧
        ((s.vm.objs copy).anonPages k.toNat = 0 ∨
          (s.vm.objs copy).anonPages k.toNat = (s.vm.objs x).anonPages k.toNat)

theorem kept_or_source {a : BitVec 32} (ha : a &&& keptFlags = a) :
    a ||| VMOBJ_COW_SRC = VMOBJ_COW_SRC ↔ a = 0 := by
  constructor
  · intro heq
    have hmask := congrArg (· &&& keptFlags) heq
    have hapart : VMOBJ_COW_SRC &&& keptFlags = 0 := by decide
    simp only [BitVec.and_comm _ keptFlags, BitVec.and_or_distrib_left] at hmask
    rw [BitVec.and_comm keptFlags a, ha, BitVec.and_comm keptFlags, hapart] at hmask
    simpa using hmask
  · rintro rfl
    exact BitVec.zero_or

theorem marked_flags_iff (flags : BitVec 32) :
    (flags &&& VMOBJ_COW_SRC &&& keptFlags = flags &&& keptFlags ∧
      flags &&& VMOBJ_COW_SRC &&& VMOBJ_COW_SRC ≠ 0) ↔
    flags &&& (keptFlags ||| VMOBJ_COW_SRC) = VMOBJ_COW_SRC := by
  have hapart : VMOBJ_COW_SRC &&& keptFlags = 0 := by decide
  have hkept : flags &&& keptFlags &&& keptFlags = flags &&& keptFlags := by
    rw [BitVec.and_assoc, BitVec.and_self]
  have hbit : flags &&& VMOBJ_COW_SRC = if flags.getLsbD 6 then VMOBJ_COW_SRC else 0 :=
    BitVec.and_twoPow flags 6
  rw [BitVec.and_or_distrib_left, BitVec.and_assoc, hapart, BitVec.and_assoc, BitVec.and_self,
    hbit]
  cases flags.getLsbD 6 with
  | true =>
    have hne : VMOBJ_COW_SRC ≠ 0 := by decide
    have hzero : flags &&& 0 = 0 := BitVec.and_zero
    simp only [if_true, kept_or_source hkept, hne, ne_eq, not_false_eq_true, and_true, hzero]
    exact eq_comm
  | false =>
    have hno : flags &&& keptFlags ≠ VMOBJ_COW_SRC := by
      intro heq
      rw [heq, hapart] at hkept
      exact absurd hkept (by decide)
    simpa using hno

variable {M : PhysMem σ ο ι (Pages σ ο ι ν ε C)} {spc : σ} {r : PageSrc ι}

omit [DecidableEq ν] [Fintype ν] [DecidableEq σ] [Fintype ο] in
/-- The copy has nothing but what is left in its block from page `n` on. -/
theorem copy_finds_iff {n : ℕ} (h : Copied S s s' copy x perm n) : Finds M s'.vm spc x k r ↔
    if n ≤ k.toNat ∧ (s.vm.objs x).anonPages k.toNat ≠ 0 then
      r = .anon ((s.vm.objs x).anonPages k.toNat)
    else Finds M s'.vm spc copy k r := by
  have hx : s'.vm.objs x = newCopy (s.vm.objs x) s.idCount perm (s.size copy / 4096) copy x n := by
    rw [h.objs, Function.update_self]
  have htype : (s'.vm.objs x).srcType = .anon := by rw [hx, newCopy]
  have hanon : (s'.vm.objs x).anonPages k.toNat =
      if k.toNat < n then 0 else (s.vm.objs x).anonPages k.toNat := by rw [hx, newCopy]
  split
  · rename_i hstale
    rw [if_neg (by omega)] at hanon
    rw [finds_own htype (by rw [hanon]; exact hstale.2), hanon]
  · rename_i hstale
    have hzero : (s'.vm.objs x).anonPages k.toNat = 0 := by
      rw [hanon]
      split
      · rfl
      · by_contra hne
        exact hstale ⟨by omega, hne⟩
    have hcow : (s'.vm.objs x).flags &&& VMOBJ_COW ≠ 0 := by
      rw [hx, newCopy]
      exact copy_flag perm
    exact finds_source htype hzero hcow (by rw [hx, newCopy])

omit [DecidableEq ν] [Fintype ν] [DecidableEq σ] [Fintype ο] in
theorem source_resolves_iff {n : ℕ} (h : Copied S s s' copy x perm n) (hlive : s.live copy = true)
    (hplain : (s.vm.objs copy).flags &&& VMOBJ_COW = 0) :
    Resolves s'.vm k copy r ↔ Resolves s.vm k copy r := by
  have hplain' : (s'.vm.objs copy).flags &&& VMOBJ_COW = 0 := h.plain hlive
  rw [resolves_plain hplain, resolves_plain hplain', h.source hlive, markSource]

omit [DecidableEq σ] [DecidableEq ο] [DecidableEq ι] [DecidableEq ν] [DecidableEq ε] [Fintype ο] [Fintype ν] [Fintype ε] in
theorem OnlyMarked.plain (h : OnlyMarked s copy) : (s.vm.objs copy).flags &&& VMOBJ_COW = 0 := by
  have hmask : VMOBJ_COW = (keptFlags ||| VMOBJ_COW_SRC) &&& VMOBJ_COW := by decide
  rw [hmask, ← BitVec.and_assoc, h]
  decide

section

omit [DecidableEq ν] [Fintype ν] [DecidableEq σ] [Fintype ο]

/-- Where the source is no copy its pages are found from both objects unless the block of the new
one has another entry. -/
theorem pages_found_iff {n : ℕ} (h : Copied S s s' copy x perm n) (hlive : s.live copy = true)
    (hplain : (s.vm.objs copy).flags &&& VMOBJ_COW = 0) (hr : Resolves s.vm k copy r) :
    (Finds M s'.vm spc x k r ∧ Finds M s'.vm spc copy k r) ↔
      (n ≤ k.toNat → (s.vm.objs x).anonPages k.toNat = 0 ∨
        r = .anon ((s.vm.objs x).anonPages k.toNat)) := by
  have hsource : Finds M s'.vm spc copy k r :=
    ((source_resolves_iff h hlive hplain).mpr hr).finds_iff.mpr rfl
  rw [copy_finds_iff h]
  constructor
  · rintro ⟨hnew, -⟩ hk
    by_cases hzero : (s.vm.objs x).anonPages k.toNat = 0
    · exact Or.inl hzero
    · rw [if_pos ⟨hk, hzero⟩] at hnew
      exact Or.inr hnew
  · intro hfits
    refine ⟨?_, hsource⟩
    split
    · rename_i hstale
      exact (hfits hstale.1).resolve_left hstale.2
    · exact hsource

/-- The source keeps its flags and pages exactly when it has no permission, is neither counted nor a
copy, is marked as a source already, and what is left in the block of the copy fits. -/
theorem Copied.undisturbed_iff (h : Copied S s s' copy x perm (size / 4096).toNat)
    (hlive : s.live copy = true) :
    Undisturbed M spc s s' copy x ↔ OnlyMarked s copy ∧ StaleFits s copy x size := by
  have hflags : (s'.vm.objs copy).flags = (s.vm.objs copy).flags &&& VMOBJ_COW_SRC := by
    rw [h.source hlive, markSource]
  have hmarked := marked_flags_iff (s.vm.objs copy).flags
  rw [← hflags] at hmarked
  constructor
  · intro hkept
    have honly : OnlyMarked s copy := hmarked.mp ⟨hkept.flags, hkept.marked⟩
    refine ⟨honly, fun k hn hk => ?_⟩
    have hfits : ∀ r, Resolves s.vm k copy r → (s.vm.objs x).anonPages k.toNat = 0 ∨
        r = .anon ((s.vm.objs x).anonPages k.toNat) := fun r hr =>
      (pages_found_iff h hlive honly.plain hr).mp (hkept.pages k r hk hr) hn
    cases htype : (s.vm.objs copy).srcType with
    | inode =>
      rcases hfits _ (.inode htype) with hzero | heq
      · exact Or.inl hzero
      · cases heq
    | anon =>
      by_cases hown : (s.vm.objs copy).anonPages k.toNat = 0
      · exact Or.inr ⟨rfl, Or.inl hown⟩
      · rcases hfits _ (.own htype hown) with hzero | heq
        · exact Or.inl hzero
        · exact Or.inr ⟨rfl, Or.inr (PageSrc.anon.inj heq)⟩
  · rintro ⟨honly, hstale⟩
    obtain ⟨hkept, hset⟩ := hmarked.mpr honly
    refine ⟨hkept, hset, fun k r hk hr => ?_⟩
    refine (pages_found_iff h hlive honly.plain hr).mpr fun hn => ?_
    rcases hstale k hn hk with hzero | ⟨htype, hzero | heq⟩
    · exact Or.inl hzero
    · rcases (resolves_plain honly.plain).mp hr with ⟨hinode, -⟩ | ⟨-, hown, -⟩
      · rw [htype] at hinode
        cases hinode
      · exact absurd hzero hown
    · rcases (resolves_plain honly.plain).mp hr with ⟨hinode, -⟩ | ⟨-, -, rfl⟩
      · rw [htype] at hinode
        cases hinode
      · rw [heq]
        exact Or.inr rfl

/-- A copy is made within its block and leaves its source as it was exactly when it fits in the block,
the source has no permission, is neither counted nor a copy and is marked as a source already, and what
is left in the block fits. -/
theorem source_undisturbed_iff {cow : Cow ι ε} (hcopy : s.live copy = true)
    (hlock : s.locked copy = false) (hperm : perm &&& VMOBJ_WRITE ≠ 0) (hx : s.live x = false)
    (hcount : countPages S.id (countedPage t (s.vm.objs copy)) blocks s.vm.phys.cow
      (size / 4096).toNat = some cow) :
    (∃ s', vmobjCopy S s copy perm size (some x) spare t blocks = some s' ∧
      Undisturbed M spc s s' copy x) ↔
    Fits size (s.size copy) spare ∧ OnlyMarked s copy ∧ StaleFits s copy x size := by
  constructor
  · rintro ⟨s', hrun, hkept⟩
    obtain ⟨-, ⟨hfail | hfail, -⟩ | ⟨-, hfits, y, hy, h⟩⟩ := vmobjCopy_cases hrun
    · exact absurd hfail hperm
    · cases hfail
    cases hy
    exact ⟨hfits, (Copied.undisturbed_iff h hcopy).mp hkept⟩
  · rintro ⟨hfits, hkept⟩
    obtain ⟨s', hrun⟩ : ∃ s', vmobjCopy S s copy perm size (some x) spare t blocks = some s' :=
      vmobjCopy_made hcopy hlock hperm hx hfits hcount
    obtain ⟨-, ⟨hfail | hfail, -⟩ | ⟨-, -, y, hy, h⟩⟩ := vmobjCopy_cases hrun
    · exact absurd hfail hperm
    · cases hfail
    cases hy
    exact ⟨s', hrun, (Copied.undisturbed_iff h hcopy).mpr hkept⟩

end

end AfterCopy

/-- The object of the file has no permission, and is marked as a source. -/
def markedStart : State Unit (Fin 3) Unit (Fin 4) (Fin 2) ℕ :=
  { fileStart.state with
    vm := { fileStart.state.vm with objs := fun _ => { fileObject with flags := VMOBJ_COW_SRC } } }

theorem source_undisturbed_marked : ∃ s',
    codeStep numbered markedStart (copyOf 0 1 0) = some s' ∧
      Undisturbed (physMem numbered inTurn) () markedStart s' 0 1 := by
  have hsome : (countPages numbered.id (countedPage typed (markedStart.vm.objs 0)) (fun _ => (0 : Fin 2))
      markedStart.vm.phys.cow ((0x40000 : BitVec 32) / 4096).toNat).isSome = true := by
    decide +kernel
  obtain ⟨cow, hcount⟩ := Option.isSome_iff_exists.mp hsome
  have honly : OnlyMarked markedStart 0 := by
    unfold OnlyMarked
    decide
  have hstale : StaleFits markedStart 0 1 0x40000 := fun _ _ _ => Or.inl rfl
  exact (source_undisturbed_iff rfl rfl (by decide) rfl hcount).mpr
    ⟨by decide +kernel, honly, hstale⟩

/-- The copy of a file is copied. It loses its permissions, and its page is not the one of the file
any more. -/
theorem copied_copy_disturbed : ∃ s s' : State Unit (Fin 3) Unit (Fin 4) (Fin 2) ℕ,
    Execution (codeStep numbered) (fun _ _ => True) fileStart.state s ∧
      codeStep numbered s (copyOf 1 2 1) = some s' ∧
      (s.vm.objs 1).flags = 0x23 ∧ (s'.vm.objs 1).flags = 0 ∧
      Resolves s.vm 0 1 (.inode () 5) ∧ Finds (physMem numbered inTurn) s'.vm () 1 0 (.anon 7) ∧
      ¬ Undisturbed (physMem numbered inTurn) () s s' 1 2 := by
  have hrun : (follow (codeStep numbered) (fun _ _ => True) fileStart.state [copyOf 0 1 0]).map
      (fun s => decide ((s.vm.objs 1).flags = 0x23 ∧ (s.vm.objs 1).srcType = .anon ∧
        (s.vm.objs 1).anonPages 0 = 0 ∧ (s.vm.objs 1).cowSrc = some 0 ∧
        (s.vm.objs 0).srcType = .inode ∧ (s.vm.objs 0).offset = 5 ∧
        s.size 1 = 0x40000 ∧
        (codeStep numbered s (copyOf 1 2 1)).map (fun s' => decide ((s'.vm.objs 1).flags = 0 ∧
          (getPageSrc (physMem numbered inTurn) 1 s'.vm () 1 0).map Prod.snd =
            some (.anon 7))) = some true)) = some true := by
    decide +kernel
  obtain ⟨s, hs, hd⟩ := Option.map_eq_some_iff.mp hrun
  obtain ⟨hflags, htype, hzero, hsrc, hinode, hoffset, hsize, hcopy⟩ := of_decide_eq_true hd
  obtain ⟨s', hs', hd'⟩ := Option.map_eq_some_iff.mp hcopy
  obtain ⟨hflags', hget⟩ := of_decide_eq_true hd'
  obtain ⟨⟨vm', r⟩, hget, rfl⟩ := Option.map_eq_some_iff.mp hget
  have hfile : Resolves s.vm 0 0 (.inode () 5) := by
    have hpage := Resolves.inode (k := 0) hinode
    rwa [hoffset] at hpage
  have hpage : Resolves s.vm 0 1 (.inode () 5) :=
    .source htype hzero (by rw [hflags]; decide) hsrc hfile
  have hnew : Finds (physMem numbered inTurn) s'.vm () 1 0 (.anon 7) := ⟨1, vm', hget⟩
  refine ⟨s, s', execution_of_follow hs, hs', hflags, hflags', hpage, hnew, fun hkept => ?_⟩
  have hold := (hkept.pages 0 _ (by rw [hsize]; decide) hpage).2
  cases hold.unique hnew

end CopiedSources
