import Metakernel.PhysicalMemory

/-!
# Identifiers drawn from rand

Anonymous pages (phys_mem.c) and inodes (inode.c) take as identifier the first value of `rand`
that their hash table does not hold. A loop counts its draws; without enough of them it has not
returned.
-/
namespace Identifiers

open LinkedNodes DataStructures NodeTables GuardedRuns PhysicalPages PhysicalMemory

def RAND_MOD : BitVec 32 := 0xfffffffa

/-- The new value of `rand_seed`, which is also the result. -/
def rand (seed : BitVec 32) : BitVec 32 := seed * seed % RAND_MOD

theorem rand_zero : rand 0 = 0 := by decide

section Pages

variable {ι ν C : Type*} [DecidableEq ν] [Fintype ν]

/-- The loop of `anon_page_create`. -/
def uniquePageId (s : Memory ν C) : ℕ → BitVec 32 → Option (BitVec 32)
  | 0, _ => none
  | fuel + 1, seed =>
    let id := rand seed
    (anonFind s id).bind fun found => if found ≠ none then uniquePageId s fuel id else some id

/-- The pages, and the seed of `rand`. -/
structure RandMemory (ν C : Type*) where
  mem : Memory ν C
  seed : BitVec 32

/-- `draw` is a call of `rand` from another file. -/
inductive PageCall (ι ν : Type*) where
  | create (src : PageSrc ι) (ct : Colors) (x : ν) (draws : ℕ)
  | free (id : BitVec 32)
  | draw

def pageCall (S : Setup ι C) (s : RandMemory ν C) : PageCall ι ν → Option (RandMemory ν C)
  | .create src ct x draws => (uniquePageId s.mem draws s.seed).bind fun id =>
      (anonPageCreate S s.mem src ct id x).map fun r => ⟨r.1, id⟩
  | .free id => (anonPageFree S s.mem id).map fun mem => { s with mem }
  | .draw => some { s with seed := rand s.seed }

def GivesPageId (s : RandMemory ν C) : Prop :=
  ∃ draws id, uniquePageId s.mem draws s.seed = some id ∧ anonFind s.mem id = some none ∧ id ≠ 0

variable {S : Setup ι C} {s t : RandMemory ν C}

theorem uniquePageId_zero (mem : Memory ν C) (draws : ℕ) :
    uniquePageId mem (draws + 1) 0 = if anonFind mem 0 = some none then some 0 else none := by
  induction draws with
  | zero =>
    rw [uniquePageId, rand_zero]
    rcases hfind : anonFind mem 0 with _ | _ | x <;> simp [uniquePageId]
  | succ draws ih =>
    rw [uniquePageId, rand_zero]
    rcases hfind : anonFind mem 0 with _ | _ | x
    · simp
    · simp
    · rw [hfind] at ih
      simpa using ih

theorem uniquePageId_seed {mem : Memory ν C} {draws : ℕ} {id : BitVec 32}
    (h : uniquePageId mem draws 0 = some id) : id = 0 := by
  cases draws with
  | zero => cases h
  | succ draws =>
    rw [uniquePageId_zero] at h
    split at h
    · exact (Option.some_inj.mp h).symm
    · cases h

theorem pageCall_seed {c : PageCall ι ν} (hs : s.seed = 0) (hstep : pageCall S s c = some t) :
    t.seed = 0 := by
  cases c with
  | create src ct x draws =>
    obtain ⟨id, hid, hcreate⟩ := Option.bind_eq_some_iff.mp hstep
    obtain ⟨r, -, rfl⟩ := Option.map_eq_some_iff.mp hcreate
    rw [hs] at hid
    exact uniquePageId_seed hid
  | free id =>
    obtain ⟨mem, -, rfl⟩ := Option.map_eq_some_iff.mp hstep
    exact hs
  | draw =>
    cases hstep
    rw [hs]
    exact rand_zero

theorem seed_stays_zero {mem : Memory ν C}
    (hrun : Execution (pageCall S) (fun _ _ => True) ⟨mem, 0⟩ s) : s.seed = 0 :=
  hrun.preserves (fun _ _ _ hs _ hstep => pageCall_seed hs hstep) rfl

theorem seed_zero_gives_none (hs : s.seed = 0) : ¬ GivesPageId s := by
  rintro ⟨draws, id, hid, -, hne⟩
  rw [hs] at hid
  exact hne (uniquePageId_seed hid)

/-- In no state that is reached does the loop give a proper identifier: it returns 0 while no live
page has it, and does not return otherwise. -/
theorem page_identifiers_zero {mem : Memory ν C}
    (hrun : Execution (pageCall S) (fun _ _ => True) ⟨mem, 0⟩ s) :
    ¬ GivesPageId s ∧ ∀ draws, uniquePageId s.mem (draws + 1) s.seed =
      if anonFind s.mem 0 = some none then some 0 else none := by
  have hs := seed_stays_zero hrun
  refine ⟨seed_zero_gives_none hs, fun draws => ?_⟩
  rw [hs]
  exact uniquePageId_zero s.mem draws

end Pages

def firstPage : Option (RandMemory (Fin 3) Unit) :=
  follow (pageCall twoInodes) (fun _ _ => True) ⟨(stocked [0x1000, 0x2000]).mem, 0⟩
    [.create .null oneColor 0 1]

theorem firstPage_registered :
    firstPage.map (fun s => decide (anonFind s.mem 0 = some (some 0))) = some true := by
  decide +kernel

theorem page_identifiers_zero_first : ∃ s, firstPage = some s ∧ ¬ GivesPageId s := by
  obtain ⟨s, hs, _⟩ := Option.map_eq_some_iff.mp firstPage_registered
  exact ⟨s, hs, (page_identifiers_zero (execution_of_follow hs)).1⟩

/-- The first page gets the identifier 0, and the loop for the second one does not end. -/
theorem second_page_waits : ∃ s,
    Execution (pageCall twoInodes) (fun _ _ => True) ⟨(stocked [0x1000, 0x2000]).mem, 0⟩ s ∧
      anonFind s.mem 0 = some (some 0) ∧ (∀ draws, uniquePageId s.mem draws s.seed = none) ∧
      ¬ GivesPageId s := by
  obtain ⟨s, hs, hd⟩ := Option.map_eq_some_iff.mp firstPage_registered
  have hfind := of_decide_eq_true hd
  have hrun := execution_of_follow hs
  have hseed := seed_stays_zero hrun
  refine ⟨s, hrun, hfind, ?_, seed_zero_gives_none hseed⟩
  intro draws
  cases draws with
  | zero => rfl
  | succ draws => rw [hseed, uniquePageId_zero, hfind, if_neg (by simp)]

section Inodes

variable {ι : Type*} [DecidableEq ι] [Fintype ι]

/-- `id` and `refCount` are in `stat`. -/
structure InodeNode (ι : Type*) where
  id : BitVec 32
  refCount : BitVec 32
  hashNext : Option ι

def inodeNext : NodeField (ι → InodeNode ι) (Option ι) (Option ι) :=
  tableField InodeNode.hashNext fun r v => { r with hashNext := v }

def inodeId (m : ι → InodeNode ι) (p : Option ι) : BitVec 32 := (p.map fun x => (m x).id).getD 0

def inodeBucket (id : BitVec 32) : ℕ := id.toNat % 131071

structure InodeTable (ι : Type*) where
  inodes : ι → InodeNode ι
  table : ℕ → Option ι

def inodeFind (t : InodeTable ι) (id : BitVec 32) : Option (Option ι) :=
  hashTableLookup inodeNext none inodeId (fun x y => x = y) inodeBucket
    (Fintype.card (Option ι) + 1) t.inodes t.table id

/-- `draw` are the values of `rand`, of which the next one is the `n`-th. -/
def getUniqueId (t : InodeTable ι) (draw : ℕ → BitVec 32) : ℕ → ℕ → Option (BitVec 32)
  | 0, _ => none
  | fuel + 1, n => (inodeFind t (draw n)).bind fun found =>
      if found ≠ none ∧ 0 ≠ draw n then getUniqueId t draw fuel (n + 1) else some (draw n)

/-- `statFilesys` is `stat->filesys`, `mounted` says for which inodes `filesys_lookup` finds a
file system, and `cached` is what `inode_cache_create` returns. A null pointer is followed when
that is NULL. -/
def inodeCreate (t : InodeTable ι) (draw : ℕ → BitVec 32) (draws : ℕ) (statFilesys : BitVec 32)
    (mounted : ι → Bool) (cached : Option ι) : Option (InodeTable ι × Option ι) :=
  (getUniqueId t draw draws 0).bind fun id =>
    (inodeFind t statFilesys).bind fun
      | none => some (t, none)
      | some fs =>
        if mounted fs then
          cached.map fun out =>
            let m := Function.update t.inodes out { t.inodes out with refCount := 1, id := id }
            let r := hashTableInsert inodeNext inodeId inodeBucket m t.table (some out)
            (⟨r.1, r.2⟩, some out)
        else some (t, none)

/-- The part of `inode_close` that concerns the table. -/
def inodeClose (t : InodeTable ι) (x : ι) : Option (InodeTable ι) :=
  let m := Function.update t.inodes x
    { t.inodes x with refCount := (t.inodes x).refCount - 1 }
  if (m x).refCount = 0 then
    (hashTableDelete inodeNext none inodeId (fun a b => a = b) inodeBucket
      (Fintype.card (Option ι) + 1) m t.table (m x).id).map fun r => ⟨r.1, r.2.1⟩
  else some ⟨m, t.table⟩

inductive InodeCall (ι : Type*) where
  | create (draw : ℕ → BitVec 32) (draws : ℕ) (statFilesys : BitVec 32) (mounted : ι → Bool)
      (cached : Option ι)
  | close (x : ι)

def inodeCall (t : InodeTable ι) : InodeCall ι → Option (InodeTable ι)
  | .create draw draws statFilesys mounted cached =>
    (inodeCreate t draw draws statFilesys mounted cached).map Prod.fst
  | .close x => inodeClose t x

variable {t t' : InodeTable ι} {chains : ℕ → List (Option ι)} {draw : ℕ → BitVec 32}
  {id : BitVec 32} {n : ℕ} {e : Finset (Option ι)}

def InodeChains (t : InodeTable ι) (chains : ℕ → List (Option ι)) : Prop :=
  HashTable inodeNext none inodeId inodeBucket isNode t.inodes t.table chains

/-- Whatever `get_unique_id` returns is not zero and no identifier of the table. -/
def GivesFreshId (t : InodeTable ι) (chains : ℕ → List (Option ι)) (draw : ℕ → BitVec 32) : Prop :=
  ∀ draws id, getUniqueId t draw draws 0 = some id →
    id ≠ 0 ∧ ∀ j, ∀ p ∈ chains j, inodeId t.inodes p ≠ id

def UnusedBeforeZero (t : InodeTable ι) (draw : ℕ → BitVec 32) : Prop :=
  ∀ n, draw n = 0 → ∃ m < n, draw m ≠ 0 ∧ inodeFind t (draw m) = some none

theorem InodeChains.find_cases (h : InodeChains t chains) (id : BitVec 32) :
    (∃ x, some x ∈ chains (inodeBucket id) ∧ inodeId t.inodes (some x) = id ∧
      inodeFind t id = some (some x)) ∨
    (∀ j, ∀ p ∈ chains j, inodeId t.inodes p ≠ id) ∧ inodeFind t id = some none := by
  have hlength : (chains (inodeBucket id)).length < Fintype.card (Option ι) + 1 :=
    Nat.lt_succ_of_le (h.nodup _).length_le_card
  rcases h.lookup_cases id hlength with ⟨p, hp, hid, hfind⟩ | hnone
  · obtain ⟨x, rfl⟩ := Option.isSome_iff_exists.mp (h.nodes _ p hp)
    exact Or.inl ⟨x, hp, hid, hfind⟩
  · exact Or.inr hnone

def Stops (t : InodeTable ι) (id : BitVec 32) : Prop := id = 0 ∨ inodeFind t id = some none

instance (t : InodeTable ι) (id : BitVec 32) : Decidable (Stops t id) :=
  inferInstanceAs (Decidable (_ ∨ _))

theorem InodeChains.next_draw (h : InodeChains t chains) (draw : ℕ → BitVec 32) (draws n : ℕ) :
    getUniqueId t draw (draws + 1) n =
      if Stops t (draw n) then some (draw n) else getUniqueId t draw draws (n + 1) := by
  rw [getUniqueId]
  rcases h.find_cases (draw n) with ⟨x, -, -, hfind⟩ | ⟨-, hfind⟩
  · by_cases hzero : draw n = 0
    · have hstop : Stops t (draw n) := Or.inl hzero
      rw [if_pos hstop, hfind, Option.bind_some, if_neg (fun hgo => hgo.2 hzero.symm)]
    · have hgo : ¬ Stops t (draw n) := by
        rintro (hz | hnone)
        · exact hzero hz
        · rw [hfind] at hnone
          cases hnone
      rw [if_neg hgo, hfind, Option.bind_some, if_pos ⟨by simp, Ne.symm hzero⟩]
  · have hstop : Stops t (draw n) := Or.inr hfind
    rw [if_pos hstop, hfind, Option.bind_some, if_neg (by simp)]

theorem getUniqueId_iff (h : InodeChains t chains) :
    (∃ draws, getUniqueId t draw draws n = some id) ↔
      ∃ m, n ≤ m ∧ draw m = id ∧ Stops t id ∧ ∀ k, n ≤ k → k < m → ¬ Stops t (draw k) := by
  constructor
  · rintro ⟨draws, hrun⟩
    induction draws generalizing n with
    | zero => cases hrun
    | succ draws ih =>
      rw [h.next_draw] at hrun
      split at hrun
      · rename_i hstop
        rw [← Option.some_inj.mp hrun]
        exact ⟨n, le_rfl, rfl, hstop, fun k hnk hkn => absurd hkn (by omega)⟩
      · rename_i hgo
        obtain ⟨m, hnm, hm, hstop, hbefore⟩ := ih hrun
        refine ⟨m, by omega, hm, hstop, fun k hnk hkm => ?_⟩
        rcases Nat.eq_or_lt_of_le hnk with rfl | hlt
        · exact hgo
        · exact hbefore k hlt hkm
  · rintro ⟨m, hnm, rfl, hstop, hbefore⟩
    induction hd : m - n generalizing n with
    | zero =>
      obtain rfl : n = m := by omega
      exact ⟨1, by rw [h.next_draw, if_pos hstop]⟩
    | succ d ih =>
      obtain ⟨draws, hrun⟩ := ih (n := n + 1) (by omega)
        (fun k hnk hkm => hbefore k (by omega) hkm) (by omega)
      exact ⟨draws + 1, by rw [h.next_draw, if_neg (hbefore n le_rfl (by omega)), hrun]⟩

theorem gives_fresh_iff (h : InodeChains t chains) :
    GivesFreshId t chains draw ↔ UnusedBeforeZero t draw := by
  constructor
  · intro hfresh n hzero
    have hex : ∃ m, Stops t (draw m) := ⟨n, Or.inl hzero⟩
    have hfirst : ∀ k, 0 ≤ k → k < Nat.find hex → ¬ Stops t (draw k) :=
      fun k _ hk => Nat.find_min hex hk
    obtain ⟨draws, hrun⟩ := (getUniqueId_iff h (n := 0)).mpr
      ⟨Nat.find hex, Nat.zero_le _, rfl, Nat.find_spec hex, hfirst⟩
    have hne := (hfresh draws _ hrun).1
    have hle : Nat.find hex ≤ n := Nat.find_min' hex (Or.inl hzero)
    refine ⟨Nat.find hex, lt_of_le_of_ne hle ?_, hne, (Nat.find_spec hex).resolve_left hne⟩
    intro heq
    exact hne (by rw [heq, hzero])
  · intro hunused draws id hrun
    obtain ⟨m, -, rfl, hstop, hbefore⟩ := (getUniqueId_iff h).mp ⟨draws, hrun⟩
    have hne : draw m ≠ 0 := by
      intro hzero
      obtain ⟨k, hk, -, hnone⟩ := hunused m hzero
      exact hbefore k (Nat.zero_le k) hk (Or.inr hnone)
    refine ⟨hne, ?_⟩
    have hnone := hstop.resolve_left hne
    rcases h.find_cases (draw m) with ⟨x, -, -, hfind⟩ | ⟨hno, -⟩
    · rw [hfind] at hnone
      cases hnone
    · exact hno

def InodeSet (t : InodeTable ι) (e : Finset (Option ι)) : Prop :=
  EntrySet inodeNext none inodeId inodeBucket isNode t.inodes t.table e

/-- No two inodes of the table have one identifier, and none has 0. -/
def DistinctIds (t : InodeTable ι) : Prop :=
  ∃ e, InodeSet t e ∧ ∀ p ∈ e, inodeId t.inodes p ≠ 0

def ProperInodeCall (t : InodeTable ι) : InodeCall ι → Prop
  | .create draw _ _ _ cached => UnusedBeforeZero t draw ∧
      ∀ x, cached = some x → ∀ e, InodeSet t e → some x ∉ e
  | .close _ => True

omit [Fintype ι] in
theorem inodeNext_lawful :
    (inodeNext : NodeField (ι → InodeNode ι) _ _).Lawful isNode fun _ => True :=
  tableField_lawful (fun _ _ => rfl) _

omit [Fintype ι] in
theorem inodeId_set (m : ι → InodeNode ι) (p v q : Option ι) :
    inodeId (inodeNext.set m p v) q = inodeId m q := by
  rcases p with _ | x
  · rfl
  · rcases q with _ | y
    · rfl
    · by_cases hyx : y = x <;> simp [inodeId, inodeNext, tableField, hyx]

omit [DecidableEq ι] in
theorem nodes_length {l : List (Option ι)} (hl : l.Nodup) :
    l.length < Fintype.card (Option ι) + 1 := Nat.lt_succ_of_le hl.length_le_card

theorem inodeCreate_distinct {draws : ℕ} {statFilesys : BitVec 32} {mounted : ι → Bool}
    {cached out : Option ι} (h : DistinctIds t)
    (hproper : ProperInodeCall t (.create draw draws statFilesys mounted cached))
    (hrun : inodeCreate t draw draws statFilesys mounted cached = some (t', out)) :
    DistinctIds t' := by
  obtain ⟨e, he, hzero⟩ := h
  obtain ⟨chains, htable, hmem⟩ := he.chains
  obtain ⟨hunused, hnew⟩ := hproper
  obtain ⟨id, hid, hrun⟩ := Option.bind_eq_some_iff.mp hrun
  obtain ⟨hne, hfresh⟩ := (gives_fresh_iff htable).mpr hunused draws id hid
  obtain ⟨found, -, hrun⟩ := Option.bind_eq_some_iff.mp hrun
  rcases found with _ | fs
  · cases hrun
    exact ⟨e, he, hzero⟩
  · dsimp only at hrun
    split at hrun
    · obtain ⟨x, hx, heq⟩ := Option.map_eq_some_iff.mp hrun
      have hout : ∀ {p}, p ∈ e → p ≠ some x := by
        rintro p hp rfl
        exact hnew x hx e he hp
      generalize hm : Function.update t.inodes x { t.inodes x with refCount := 1, id := id } = m
        at heq
      have hself : inodeId m (some x) = id := by simp [← hm, inodeId]
      have hsame : ∀ p ∈ e, inodeNext.get m p = inodeNext.get t.inodes p ∧
          inodeId m p = inodeId t.inodes p := by
        intro p hp
        obtain ⟨y, rfl⟩ := Option.isSome_iff_exists.mp (he.node hp)
        have hyx : y ≠ x := fun hyx => hout hp (by rw [hyx])
        simp [← hm, inodeNext, tableField, inodeId, hyx]
      have hinsert := (he.congr hsame).insert inodeNext_lawful (x := some x) rfl
        (fun hp => hout hp rfl) (by simp)
        (fun y hy => by
          obtain ⟨j, hj⟩ := (hmem y).mp hy
          rw [hself, (hsame y hy).2]
          exact hfresh j y hj) fun y _ => inodeId_set m _ _ y
      rw [← (Prod.mk.inj heq).1]
      refine ⟨_, hinsert, fun p hp => ?_⟩
      simp only [hashTableInsert, inodeId_set]
      rcases Finset.mem_insert.mp hp with rfl | hp
      · rwa [hself]
      · rw [(hsame p hp).2]
        exact hzero p hp
    · cases hrun
      exact ⟨e, he, hzero⟩

theorem inodeClose_distinct {x : ι} (h : DistinctIds t) (hrun : inodeClose t x = some t') :
    DistinctIds t' := by
  obtain ⟨e, he, hzero⟩ := h
  unfold inodeClose at hrun
  dsimp only at hrun
  generalize hm : Function.update t.inodes x
    { t.inodes x with refCount := (t.inodes x).refCount - 1 } = m at hrun
  have hsame : ∀ p, inodeNext.get m p = inodeNext.get t.inodes p ∧
      inodeId m p = inodeId t.inodes p := by
    rintro (_ | y)
    · exact ⟨rfl, rfl⟩
    · by_cases hyx : y = x <;> simp [← hm, inodeNext, tableField, inodeId, hyx]
  have he' := he.congr fun p _ => hsame p
  have hzero' : ∀ p ∈ e, inodeId m p ≠ 0 := fun p hp => by
    rw [(hsame p).2]
    exact hzero p hp
  split at hrun
  · by_cases hex : ∃ p ∈ e, inodeId m p = (m x).id
    · obtain ⟨p, hp, hpid⟩ := hex
      obtain ⟨m', table', hdel, hentries, hwrite⟩ := he'.delete (fun l hl _ => nodes_length hl)
        inodeNext_lawful hp fun w y => inodeId_set m w _ y
      rw [hpid] at hdel
      rw [hdel, Option.map_some] at hrun
      cases hrun
      refine ⟨_, hentries, fun q hq => ?_⟩
      have hids : inodeId m' q = inodeId m q := by
        rcases hwrite with rfl | ⟨w, -, rfl⟩
        · rfl
        · exact inodeId_set m w _ q
      rw [hids]
      exact hzero' q (Finset.mem_of_mem_erase hq)
    · push Not at hex
      rw [he'.delete_none (fun l hl _ => nodes_length hl) hex, Option.map_some] at hrun
      cases hrun
      exact ⟨e, he', hzero'⟩
  · cases hrun
    exact ⟨e, he', hzero'⟩

theorem inodeCall_distinct {c : InodeCall ι} (h : DistinctIds t) (hproper : ProperInodeCall t c)
    (hstep : inodeCall t c = some t') : DistinctIds t' := by
  cases c with
  | create draw draws statFilesys mounted cached =>
    obtain ⟨⟨u, out⟩, hrun, rfl⟩ := Option.map_eq_some_iff.mp hstep
    exact inodeCreate_distinct h hproper hrun
  | close x => exact inodeClose_distinct h hstep

/-- `get_unique_id` gives fresh identifiers exactly while no zero is drawn before an identifier
that it could use; as long as this holds all identifiers in the table are distinct. -/
theorem inode_identifiers_fresh_iff :
    (∀ (t : InodeTable ι) chains draw, InodeChains t chains →
      (GivesFreshId t chains draw ↔ UnusedBeforeZero t draw)) ∧
    ∀ t t' : InodeTable ι, DistinctIds t → Execution inodeCall ProperInodeCall t t' →
      DistinctIds t' := by
  refine ⟨fun t chains draw h => gives_fresh_iff h, fun t t' h hrun => ?_⟩
  exact hrun.preserves (fun _ _ _ hs hg hstep => inodeCall_distinct hs hg hstep) h

end Inodes

/-- The inode 0 with the identifier 5, which has a file system mounted. -/
def mountedRoot : InodeTable (Fin 3) :=
  ⟨fun _ => ⟨5, 1, none⟩, fun j => if j = 5 then some 0 else none⟩

theorem mountedRoot_set : InodeSet mountedRoot {some 0} := by
  refine EntrySet.of_heads (fun j hj => ?_) fun p => ?_
  · by_cases hj5 : j = 5
    · subst hj5
      decide
    · exact absurd (if_neg hj5) hj
  · rw [Finset.mem_singleton]
    constructor
    · rintro rfl
      exact ⟨5, by decide, rfl⟩
    · rintro ⟨j, hj, rfl⟩
      by_cases hj5 : j = 5
      · exact if_pos hj5
      · exact absurd (if_neg hj5) hj

theorem mountedRoot_distinct : DistinctIds mountedRoot := by
  refine ⟨_, mountedRoot_set, fun p hp => ?_⟩
  rw [Finset.mem_singleton.mp hp]
  decide

/-- A file system is asked for the inode `x`, and `rand` gives `id` all the time. -/
def createWith (id : BitVec 32) (x : Fin 3) : InodeCall (Fin 3) :=
  .create (fun _ => id) 1 5 (fun _ => true) (some x)

theorem inode_identifiers_fresh_seven :
    (∃ chains, InodeChains mountedRoot chains ∧ GivesFreshId mountedRoot chains fun _ => 7) ∧
      ∃ t, inodeCall mountedRoot (createWith 7 1) = some t ∧ DistinctIds t := by
  have hunused : UnusedBeforeZero mountedRoot fun _ => 7 :=
    fun _ hn => absurd hn (show (7 : BitVec 32) ≠ 0 by decide)
  constructor
  · obtain ⟨chains, htable, -⟩ := mountedRoot_set.chains
    exact ⟨chains, htable, (inode_identifiers_fresh_iff.1 _ _ _ htable).mpr hunused⟩
  · have hsome : (inodeCall mountedRoot (createWith 7 1)).isSome = true := by decide +kernel
    obtain ⟨t, ht⟩ := Option.isSome_iff_exists.mp hsome
    have hnew : ∀ x : Fin 3, some 1 = some x → ∀ e, InodeSet mountedRoot e → some x ∉ e := by
      intro x hx e he
      rw [← hx, he.unique mountedRoot_set, Finset.mem_singleton]
      decide
    have hproper : ProperInodeCall mountedRoot (createWith 7 1) := ⟨hunused, hnew⟩
    have hrun : Execution inodeCall ProperInodeCall mountedRoot t := .tail (.refl _) hproper ht
    exact ⟨t, ht, inode_identifiers_fresh_iff.2 _ _ mountedRoot_distinct hrun⟩

/-- Two inodes get the identifier 0; the second one hides the first. -/
theorem zero_given_twice : ∃ t, DistinctIds mountedRoot ∧
    Execution inodeCall (fun _ _ => True) mountedRoot t ∧
      getUniqueId mountedRoot (fun _ => 0) 1 0 = some 0 ∧
      (t.inodes 1).id = 0 ∧ (t.inodes 2).id = 0 ∧
      inodeNext.get t.inodes (some 2) = some 1 ∧ inodeFind t 0 = some (some 2) ∧
      ¬ DistinctIds t := by
  have hrun : (follow inodeCall (fun _ _ => True) mountedRoot
      [createWith 0 1, createWith 0 2]).map (fun t => decide ((t.inodes 1).id = 0 ∧
        (t.inodes 2).id = 0 ∧ inodeNext.get t.inodes (some 2) = some 1 ∧
        inodeFind t 0 = some (some 2))) = some true := by
    decide +kernel
  obtain ⟨t, ht, hd⟩ := Option.map_eq_some_iff.mp hrun
  obtain ⟨h1, h2, hnext, hfind⟩ := of_decide_eq_true hd
  refine ⟨t, mountedRoot_distinct, execution_of_follow ht, by decide +kernel, h1, h2, hnext,
    hfind, ?_⟩
  rintro ⟨e, he, hzero⟩
  rcases he.lookup_cases (fun l hl _ => nodes_length hl) 0 with ⟨p, hp, hid, -⟩ | ⟨-, hnone⟩
  · exact hzero p hp hid
  · rw [← inodeFind, hfind] at hnone
    cases hnone

end Identifiers
