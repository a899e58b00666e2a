import Metakernel.PhysicalMemory
import Metakernel.GuardedRuns
import Metakernel.PointUpdates
import Mathlib.Algebra.BigOperators.Group.Finset.Basic
import Mathlib.Algebra.Order.BigOperators.Group.Finset

/-!
# Where the pages are

Over whole runs of phys_mem.c a page is free, or in the page cache, or the page of an anonymous page
that is found, or it was given to the copy of an anonymous page. What the last ones have taken does
not come back.
-/
namespace PageConservation

open DataStructures NodeTables PhysicalPages PhysicalMemory GuardedRuns PointUpdates

variable {ι ν C : Type*} [DecidableEq ν] [Fintype ν]

def freePages (S : Setup ι C) (s : Memory ν C) : ℕ :=
  ∑ c ∈ Finset.range S.colors, (s.alloc.pageCount c).toNat

def inCache (s : Memory ν C) (p : ℕ) : Prop :=
  pageCacheLookup s (s.alloc.inv p).inode (s.alloc.inv p).offset = some (invPageAddr p)

instance (s : Memory ν C) : DecidablePred (inCache s) := fun _ =>
  inferInstanceAs (Decidable (_ = _))

def cachedPages (s : Memory ν C) : ℕ := ((Finset.range 1048576).filter (inCache s)).card

def isFound (s : Memory ν C) (x : ν) : Prop :=
  s.used x = true ∧ anonFind s (s.anon x).id = some (some x)

instance (s : Memory ν C) : DecidablePred (isFound s) := fun _ =>
  inferInstanceAs (Decidable (_ ∧ _))

def livePages (s : Memory ν C) : ℕ := (Finset.univ.filter (isFound s)).card

def isCopy : MemEvent ι ν → Bool
  | .create (.anon _) _ _ _ => true
  | _ => false

def Step (S : Setup ι C) (h : MemHistory ι ν C) (e : MemEvent ι ν) (h' : MemHistory ι ν C) : Prop :=
  Supplied S h e ∧ memStep S h e = some h'

section Steps

variable {S : Setup ι C} {pages : ℕ} {s s' : Memory ν C} {ring ring' : ℕ → List ℕ}
  {chains : ℕ → List (Option ℕ)} {nodes : ℕ → List (Option ν)} {ct : Colors} {c p : ℕ}
  {addr inode offset id : BitVec 32} {x y : ν} {a : Allocator}

omit [Fintype ν] in
theorem inCache_iff (h : Consistent S pages s ring chains nodes) (hp : p < 1048576) :
    inCache s p ↔ ∃ j, some p ∈ chains j := by
  rw [inCache]
  constructor
  · intro hlook
    rcases h.cacheLookup (s.alloc.inv p).inode (s.alloc.inv p).offset with ⟨q, hq, -, heq⟩ | ⟨-, heq⟩
    · rw [heq, Option.some.injEq] at hlook
      exact ⟨_, invPageAddr_inj (h.cached _ q hq).1.2 hp hlook ▸ hq⟩
    · rw [heq, Option.some.injEq] at hlook
      exact absurd hlook.symm (invPageAddr_ne_null p)
  · rintro ⟨j, hj⟩
    rcases h.cacheLookup (s.alloc.inv p).inode (s.alloc.inv p).offset with ⟨q, hq, hsrc, heq⟩ | ⟨hno, -⟩
    · have hb := h.cache.bucket j _ hj
      have hown : src s.alloc.inv (some p) = ((s.alloc.inv p).inode, (s.alloc.inv p).offset) := rfl
      rw [hown] at hb
      subst hb
      rw [heq, h.sources _ q p hq hj (hsrc.trans hown.symm)]
    · exact absurd rfl (hno j p hj)

theorem isFound_iff (h : Consistent S pages s ring chains nodes) :
    isFound s x ↔ ∃ j, some x ∈ nodes j := by
  rw [isFound]
  constructor
  · rintro ⟨-, hfind⟩
    rcases h.anonLookup (s.anon x).id with ⟨y, hy, -, heq⟩ | ⟨-, heq⟩
    · rw [heq, Option.some.injEq, Option.some.injEq] at hfind
      exact ⟨_, hfind ▸ hy⟩
    · rw [heq] at hfind
      cases hfind
  · rintro ⟨j, hj⟩
    refine ⟨h.used j x hj, ?_⟩
    rcases h.anonLookup (s.anon x).id with ⟨y, hy, hid, heq⟩ | ⟨hno, -⟩
    · have hb : anonBucket (s.anon x).id = j := h.anon.bucket j _ hj
      rw [hb] at hy
      rw [heq, h.ids j y x hy hj hid]
    · exact absurd rfl (hno j x hj)

omit [Fintype ν] in
theorem cachedPages_eq {ring' : ℕ → List ℕ} {nodes' : ℕ → List (Option ν)}
    (h : Consistent S pages s ring chains nodes) (h' : Consistent S pages s' ring' chains nodes') :
    cachedPages s' = cachedPages s := by
  refine congrArg Finset.card (Finset.filter_congr fun p hp => ?_)
  rw [inCache_iff h' (Finset.mem_range.mp hp), inCache_iff h (Finset.mem_range.mp hp)]

theorem livePages_eq {ring' : ℕ → List ℕ} {chains' : ℕ → List (Option ℕ)}
    (h : Consistent S pages s ring chains nodes) (h' : Consistent S pages s' ring' chains' nodes) :
    livePages s' = livePages s := by
  refine congrArg Finset.card (Finset.filter_congr fun x _ => ?_)
  rw [isFound_iff h', isFound_iff h]

section

omit [Fintype ν]

theorem pageCount_lt (h : Consistent S pages s ring chains nodes) (hc : s.alloc.pageCount c ≠ 0) :
    c < S.colors := h.lists.color_lt (mt (h.lists.empty_iff c).mpr hc)

theorem freePages_take (h : Consistent S pages s ring chains nodes) (ht : Takes s.alloc a)
    (ha : s'.alloc.pageCount = a.pageCount) : freePages S s' + 1 = freePages S s := by
  obtain ⟨c, hc, hcount⟩ := ht
  have hmem : c ∈ Finset.range S.colors := Finset.mem_range.mpr (pageCount_lt h hc)
  have hpos : (s.alloc.pageCount c).toNat ≠ 0 := fun heq => hc (BitVec.eq_of_toNat_eq heq)
  have hone : (s.alloc.pageCount c - 1).toNat + 1 = (s.alloc.pageCount c).toNat := by bv_omega
  have hsum := sum_mem_change (f := fun d => (s.alloc.pageCount d).toNat)
    (g := fun d => (a.pageCount d).toNat) hmem fun d hd => by
      rw [hcount, Function.update_of_ne hd]
  rw [hcount, Function.update_self, ← hcount] at hsum
  rw [freePages, freePages, ha]
  omega

/-- The lists hold a bounded number of pages, so a count does not wrap around. -/
theorem freePages_put (h : Consistent S pages s ring chains nodes)
    (ha : putPage S.colors a addr = some s'.alloc) (hsame : a.pageCount = s.alloc.pageCount) :
    freePages S s' = freePages S s + 1 := by
  have hcolors : S.colors ≠ 0 := by
    intro hzero
    rw [putPage, if_pos hzero] at ha
    cases ha
  have hcount : s'.alloc.pageCount = Function.update s.alloc.pageCount (pageColor S.colors addr)
      (s.alloc.pageCount (pageColor S.colors addr) + 1) := by
    rw [putPage, if_neg hcolors, Option.some.injEq] at ha
    rw [← ha, hsame]
  have hmem : pageColor S.colors addr ∈ Finset.range S.colors :=
    Finset.mem_range.mpr (Nat.mod_lt _ (Nat.pos_of_ne_zero hcolors))
  have hbound := h.lists.length_le (pageColor S.colors addr)
  rw [← h.lists.count] at hbound
  have hone : (s.alloc.pageCount (pageColor S.colors addr) + 1).toNat =
      (s.alloc.pageCount (pageColor S.colors addr)).toNat + 1 := by
    bv_omega
  have hsum := sum_mem_change (f := fun d => (s.alloc.pageCount d).toNat)
    (g := fun d => (s'.alloc.pageCount d).toNat) hmem fun d hd => by
      rw [hcount, Function.update_of_ne hd]
  rw [hcount, Function.update_self, ← hcount, hone] at hsum
  rw [freePages, freePages]
  omega

end

theorem card_filter_succ {α : Type*} {t : Finset α} {P P' : α → Prop} [DecidablePred P]
    [DecidablePred P'] {a : α} (ha : a ∈ t) (hnot : ¬ P a) (h : ∀ b ∈ t, P' b ↔ b = a ∨ P b) :
    (t.filter P').card = (t.filter P).card + 1 := by
  classical
  have hinsert : t.filter P' = insert a (t.filter P) := by
    ext b
    simp only [Finset.mem_filter, Finset.mem_insert]
    constructor
    · rintro ⟨hb, hP⟩
      exact ((h b hb).mp hP).imp_right fun hP => ⟨hb, hP⟩
    · rintro (rfl | ⟨hb, hP⟩)
      · exact ⟨ha, (h b ha).mpr (Or.inl rfl)⟩
      · exact ⟨hb, (h b hb).mpr (Or.inr hP)⟩
  rw [hinsert, Finset.card_insert_of_notMem (by simp [hnot])]

theorem exists_mem_update_cons {α : Type*} {lists : ℕ → List α} {j : ℕ} {a b : α} :
    (∃ i, b ∈ Function.update lists j (a :: lists j) i) ↔ b = a ∨ ∃ i, b ∈ lists i := by
  constructor
  · rintro ⟨i, hi⟩
    rcases mem_update_cons.mp hi with ⟨heq, -⟩ | hi
    · exact Or.inl heq
    · exact Or.inr ⟨i, hi⟩
  · rintro (rfl | ⟨i, hi⟩)
    · exact ⟨j, mem_update_cons.mpr (Or.inl ⟨rfl, rfl⟩)⟩
    · exact ⟨i, mem_update_cons.mpr (Or.inr hi)⟩

omit [Fintype ν] in
theorem nodes_eq {nodes' : ℕ → List (Option ν)} {m : ν → AnonPage ν} {table : ℕ → Option ν}
    (h : HashTable anonNext none anonId anonBucket isNode m table nodes)
    (h' : HashTable anonNext none anonId anonBucket isNode m table nodes') : nodes' = nodes := by
  funext j
  exact (h'.chain j).unique (h.chain j)

theorem fetch_cases {i : ι} {out : BitVec 32} {r : Memory ν C × Colors × BitVec 32}
    (h : physPageFetch S s (.inode i offset) ct out = some r) :
    s.locked = false ∧ (r.1 = s ∨ pageCacheLookup s (S.id i) offset = some NULL_PHYS_PAGE ∧
      ∃ a addr, physPageAlloc S.colors ct.chosen s.alloc = some (a, addr) ∧
        r.1 = pageCacheInsert ({ s with alloc := a }.setContents addr (S.file i offset)) addr
          (S.id i) offset) := by
  rw [physPageFetch] at h
  split at h
  · cases h
  · rename_i hlock
    refine ⟨by simpa using hlock, ?_⟩
    obtain ⟨cached, hlook, h⟩ := Option.bind_eq_some_iff.mp h
    split at h
    · split at h
      · cases h
      · cases h
        exact Or.inl rfl
    · rename_i hnull
      rw [not_not.mp hnull] at hlook
      obtain ⟨r', hget, rfl⟩ := Option.map_eq_some_iff.mp h
      rw [getPage] at hget
      split at hget
      · cases hget
      · obtain ⟨⟨a, addr⟩, halloc, rfl⟩ := Option.map_eq_some_iff.mp hget
        exact Or.inr ⟨hlook, a, addr, halloc, rfl⟩

theorem Consistent.fetch_counts (h : Consistent S pages s ring chains nodes) {i : ι}
    {out : BitVec 32} {r : Memory ν C × Colors × BitVec 32}
    (hav : pageCacheLookup s (S.id i) offset = some NULL_PHYS_PAGE → Available S s ct)
    (hr : physPageFetch S s (.inode i offset) ct out = some r) :
    freePages S r.1 + cachedPages r.1 = freePages S s + cachedPages s ∧
      livePages r.1 = livePages s := by
  obtain ⟨-, hsame | ⟨hnull, a, addr, halloc, hnew⟩⟩ := fetch_cases hr
  · rw [hsame]
    exact ⟨rfl, rfl⟩
  · obtain ⟨a', p, ring', halloc', hcons, hloose, hfields, htakes⟩ := h.alloc (hav hnull)
    rw [halloc, Option.some.injEq, Prod.mk.injEq] at halloc'
    obtain ⟨rfl, rfl⟩ := halloc'
    have hmiss : ∀ j q, some q ∈ chains j → src a.inv (some q) ≠ (S.id i, offset) := by
      rcases h.cacheLookup (S.id i) offset with ⟨q, -, -, heq⟩ | ⟨hno, -⟩
      · rw [hnull, Option.some.injEq] at heq
        exact absurd heq.symm (invPageAddr_ne_null q)
      · intro j q hq
        rw [src_congr (hfields q)]
        exact hno j q hq
    have hafter := (hcons.setContents (invPageAddr p) (S.file i offset)).cacheInsert
      (hav hnull).colors ⟨hloose.inTable, hloose.notFree, hloose.notCached, hloose.notHeld⟩ hmiss
    rw [← hnew] at hafter
    have hfree : freePages S r.1 + 1 = freePages S s := freePages_take h htakes (by rw [hnew]; rfl)
    have hcached : cachedPages r.1 = cachedPages s + 1 := by
      have hmem := Finset.mem_range.mpr hloose.inTable.2
      refine card_filter_succ hmem ?_ fun q hq => ?_
      · rw [inCache_iff h hloose.inTable.2]
        exact fun hp => hloose.notCached hp.choose hp.choose_spec
      · rw [inCache_iff hafter (Finset.mem_range.mp hq), inCache_iff h (Finset.mem_range.mp hq),
          exists_mem_update_cons, Option.some.injEq]
    exact ⟨by omega, livePages_eq h hafter⟩

omit [DecidableEq ν] [Fintype ν] in
theorem getAnonPage_alloc {s₁ : Memory ν C} {ct₁ : Colors}
    (h : getAnonPage S s ct = some (s₁, ct₁, addr)) : ∃ a, s₁ = { s with alloc := a } := by
  rw [getAnonPage] at h
  split at h
  · cases h
  · obtain ⟨r, -, heq⟩ := Option.map_eq_some_iff.mp h
    cases heq
    exact ⟨r.1, rfl⟩

theorem create_table {r : PageSrc ι} {ct : Colors} {res : Memory ν C × Colors × BitVec 32}
    (h : anonPageCreate S s r ct id x = some res) :
    ∃ addr, (isCopy (.create r ct id x : MemEvent ι ν) = true ∧
        res.1.anon = Function.update s.anon x { s.anon x with id := id, addr := addr } ∧
        res.1.anonTable = s.anonTable) ∨
      isCopy (.create r ct id x : MemEvent ι ν) = false ∧
        (res.1.anon, res.1.anonTable) = hashTableInsert anonNext anonId anonBucket
          (Function.update s.anon x { s.anon x with id := id, addr := addr }) s.anonTable (some x) := by
  obtain ⟨hlock, hx, hfind⟩ := anonPageCreate_entered h
  cases r with
  | null =>
    rw [anonPageCreate, anonPageCreate_enter hlock hx hfind] at h
    obtain ⟨⟨s₁, ct₁, addr⟩, hget, rfl⟩ := Option.map_eq_some_iff.mp h
    obtain ⟨a, rfl⟩ := getAnonPage_alloc hget
    exact ⟨addr, Or.inr ⟨rfl, rfl⟩⟩
  | inode i offset =>
    rw [anonPageCreate, anonPageCreate_enter hlock hx hfind] at h
    obtain ⟨⟨s₁, ct₁, addr⟩, hget, h⟩ := Option.bind_eq_some_iff.mp h
    obtain ⟨cached, -, rfl⟩ := Option.map_eq_some_iff.mp h
    obtain ⟨a, rfl⟩ := getAnonPage_alloc hget
    exact ⟨addr, Or.inr ⟨rfl, rfl⟩⟩
  | anon page =>
    rw [anonPageCreate, anonPageCreate_enter hlock hx hfind] at h
    obtain ⟨⟨s₁, ct₁, addr⟩, hget, h⟩ := Option.bind_eq_some_iff.mp h
    obtain ⟨found, -, rfl⟩ := Option.map_eq_some_iff.mp h
    obtain ⟨a, rfl⟩ := getAnonPage_alloc hget
    exact ⟨addr, Or.inl ⟨rfl, by cases found <;> exact ⟨rfl, rfl⟩⟩⟩
  | kern =>
    rw [anonPageCreate, anonPageCreate_enter hlock hx hfind] at h
    obtain ⟨⟨a, tab, addr⟩, -, rfl⟩ := Option.map_eq_some_iff.mp h
    exact ⟨addr, Or.inr ⟨rfl, rfl⟩⟩

theorem Consistent.create_counts (h : Consistent S pages s ring chains nodes) {r : PageSrc ι}
    {res : Memory ν C × Colors × BitVec 32} (hav : Allocates S s ct r)
    (hres : anonPageCreate S s r ct id x = some res) :
    freePages S res.1 + 1 = freePages S s ∧ cachedPages res.1 = cachedPages s ∧
      livePages res.1 = livePages s +
        if isCopy (.create r ct id x : MemEvent ι ν) then 0 else 1 := by
  obtain ⟨hlock, hx, hfind⟩ := anonPageCreate_entered hres
  obtain ⟨s', ct', p, hcreate, hcreated⟩ := h.create hlock hx hfind hav
  rw [hres, Option.some.injEq] at hcreate
  subst hcreate
  obtain ⟨ring', nodes', hafter, -⟩ := hcreated.consistent
  refine ⟨freePages_take h hcreated.taken rfl, cachedPages_eq h hafter, ?_⟩
  have hout : ∀ {j y}, some y ∈ nodes j → y ≠ x := by
    rintro j y hy rfl
    have hused := h.used j y hy
    rw [hx] at hused
    cases hused
  have hm : ∀ {addr : BitVec 32} {j y}, some y ∈ nodes j →
      Function.update s.anon x { s.anon x with id := id, addr := addr } y = s.anon y := fun hy =>
    Function.update_of_ne (hout hy) _ _
  have hsame : ∀ addr, HashTable anonNext none anonId anonBucket isNode
      (Function.update s.anon x { s.anon x with id := id, addr := addr }) s.anonTable nodes := by
    intro addr
    refine h.anon.congr fun j q hq => ?_
    obtain ⟨y, rfl⟩ := Option.isSome_iff_exists.mp (h.anon.nodes j q hq)
    exact ⟨congrArg AnonPage.next (hm hq), congrArg AnonPage.id (hm hq)⟩
  obtain ⟨addr, ⟨hcopy, hanon, htable⟩ | ⟨hcopy, htable⟩⟩ := create_table hres
  · have htab := hafter.anon
    rw [hanon, htable] at htab
    obtain rfl := nodes_eq (hsame addr) htab
    rw [if_pos hcopy]
    exact livePages_eq h hafter
  · rw [if_neg (by simp [hcopy])]
    have hnone : ∀ j, some x ∉ nodes j := fun j hj => hout hj rfl
    have hinsert := (hsame addr).insert anonNext_lawful (x := some x) rfl hnone (by simp)
      fun q _ => anonId_set _ _ _ q
    rw [← htable] at hinsert
    have hnodes := nodes_eq hinsert hafter.anon
    refine card_filter_succ (Finset.mem_univ x) ?_ fun y _ => ?_
    · rw [isFound_iff h]
      exact fun hx => hnone hx.choose hx.choose_spec
    · rw [isFound_iff hafter, isFound_iff h, hnodes, exists_mem_update_cons, Option.some.injEq]

theorem Consistent.free_counts (h : Consistent S pages s ring chains nodes)
    (hfree : anonPageFree S s id = some s') :
    freePages S s' + livePages s' = freePages S s + livePages s ∧
      cachedPages s' = cachedPages s := by
  have hlock : s.locked = false := by
    by_contra hlock
    rw [anonPageFree, if_pos (by simpa using hlock)] at hfree
    cases hfree
  rcases h.anonLookup id with ⟨x, hx, hid, hfind⟩ | ⟨hno, -⟩
  · obtain ⟨s₁, nodes', ring', hfree', hafter, -, -, hused, -⟩ := h.release hlock hx hid
    rw [hfree, Option.some.injEq] at hfree'
    subst hfree'
    have honly : ∀ q ∈ nodes (anonBucket id), anonId s.anon q = id → q = some x := by
      intro q hq hqid
      obtain ⟨y, rfl⟩ := Option.isSome_iff_exists.mp (h.anon.nodes _ q hq)
      exact congrArg some (h.ids _ y x hq hx (hqid.trans hid.symm))
    obtain ⟨m, table, rest, hdel, htable, hrest, -⟩ := h.anon.delete_key anonNext_lawful hx hid
      honly (h.nodes_length _) fun w q _ _ => anonId_set _ w _ q
    rw [anonPageFree, if_neg (by simp [hlock]), hdel, Option.bind_some] at hfree
    obtain ⟨a, hput, heq⟩ := Option.map_eq_some_iff.mp hfree
    rw [physPageInsert] at hput
    obtain ⟨a', hput', hlast⟩ := Option.bind_eq_some_iff.mp hput
    rw [physPageInsert, Option.some.injEq] at hlast
    have halloc : a' = s'.alloc := by rw [← heq, hlast]
    rw [halloc] at hput'
    have hnodes : nodes' = Function.update nodes (anonBucket id) rest := by
      refine nodes_eq ?_ hafter.anon
      rw [← heq]
      exact htable
    have hcount := freePages_put h hput' rfl
    have hlive : livePages s = livePages s' + 1 := by
      refine card_filter_succ (Finset.mem_univ x) ?_ fun y _ => ?_
      · rw [isFound]
        exact fun hfound => ((hused x).mp hfound.1).2 rfl
      · rw [isFound_iff h, isFound_iff hafter, hnodes, h.anon.mem_deleted hx hrest, ne_eq,
          Option.some.injEq]
        by_cases hyx : y = x
        · exact ⟨fun _ => Or.inl hyx, fun _ => ⟨_, hyx ▸ hx⟩⟩
        · simp [hyx]
    exact ⟨by omega, cachedPages_eq h hafter⟩
  · rw [h.missing hlock hno, Option.some.injEq] at hfree
    subst hfree
    exact ⟨rfl, rfl⟩

end Steps

section Runs

variable {S : Setup ι C} {pages : ℕ} {h h' start : MemHistory ι ν C} {ring : ℕ → List ℕ}
  {e : MemEvent ι ν} {events : List (MemEvent ι ν)}

theorem step_counts (hrec : Recorded S pages h) (hs : Step S h e h') :
    freePages S h'.mem + cachedPages h'.mem + livePages h'.mem + (if isCopy e then 1 else 0) =
      freePages S h.mem + cachedPages h.mem + livePages h.mem := by
  obtain ⟨ring, chains, nodes, hcons, -⟩ := hrec
  obtain ⟨hg, hstep⟩ := hs
  cases e with
  | fetch i offset ct out =>
    obtain ⟨r, hr, rfl⟩ := Option.map_eq_some_iff.mp hstep
    obtain ⟨hpages, hlive⟩ := Consistent.fetch_counts hcons hg hr
    simp only [isCopy, Bool.false_eq_true, if_false]
    omega
  | create r ct id x =>
    obtain ⟨res, hres, rfl⟩ := Option.map_eq_some_iff.mp hstep
    obtain ⟨hfree, hcached, hlive⟩ := Consistent.create_counts hcons hg hres
    rw [hcached, hlive]
    by_cases hcopy : isCopy (.create r ct id x : MemEvent ι ν) = true
    · simp only [if_pos hcopy]
      omega
    · simp only [if_neg hcopy]
      omega
  | free id =>
    obtain ⟨s', hs', rfl⟩ := Option.map_eq_some_iff.mp hstep
    obtain ⟨hpages, hcached⟩ := Consistent.free_counts hcons hs'
    simp only [isCopy, Bool.false_eq_true, if_false]
    omega

theorem trace_counts (h : Trace (Step S) start events h') (hrec : Recorded S pages start) :
    freePages S h'.mem + cachedPages h'.mem + livePages h'.mem + events.countP isCopy =
      freePages S start.mem + cachedPages start.mem + livePages start.mem := by
  induction h with
  | nil => rw [List.countP_nil, Nat.add_zero]
  | cons hs _ ih =>
    have hcounts := step_counts hrec hs
    have hrest := ih (step_preserves_recorded hrec hs.1 hs.2)
    rw [List.countP_cons]
    omega

theorem fresh_counts (hfresh : Fresh S pages h ring) :
    cachedPages h.mem = 0 ∧ livePages h.mem = 0 := by
  constructor
  · rw [cachedPages, Finset.card_eq_zero, Finset.filter_eq_empty_iff]
    intro p _ hp
    have hempty : HashTable cacheNext none src cacheBucket isNode h.mem.alloc.inv h.mem.cache
        fun _ => [] := hfresh.cache ▸ HashTable.empty _
    rw [inCache, pageCacheLookup, hempty.lookup (by simp)] at hp
    exact invPageAddr_ne_null p (Option.some.inj hp).symm
  · rw [livePages, Finset.card_eq_zero, Finset.filter_eq_empty_iff]
    intro x _ hx
    rw [isFound, hfresh.used x] at hx
    cases hx.1

/-- In every run the pages that are free, cached and found are all pages but one for each copy of an
anonymous page that was made. -/
theorem pages_conserved (hfresh : Fresh S pages start ring)
    (hrun : Trace (Step S) start events h) :
    freePages S h.mem + cachedPages h.mem + livePages h.mem + events.countP isCopy =
      freePages S start.mem := by
  obtain ⟨hcached, hlive⟩ := fresh_counts hfresh
  rw [trace_counts hrun (recorded_fresh hfresh), hcached, hlive, Nat.add_zero]

end Runs

theorem pages_conserved_copy : ∃ h : MemHistory Bool (Fin 3) Unit,
    freePages twoInodes h.mem + cachedPages h.mem + livePages h.mem = 2 := by
  have hrun : (GuardedRuns.follow (memStep twoInodes) (Supplied twoInodes)
      (stocked [0x1000, 0x2000, 0x3000])
      [.create .null oneColor 5 0, .create (.anon 5) oneColor 6 1, .free 5, .free 6]).isSome := by
    decide +kernel
  obtain ⟨h, hh⟩ := Option.isSome_iff_exists.mp hrun
  obtain ⟨ring, hfresh⟩ := stocked_fresh [0x1000, 0x2000, 0x3000] (by decide +kernel) rfl
  have hstart : freePages twoInodes (stocked [0x1000, 0x2000, 0x3000]).mem = 3 := by
    decide +kernel
  have hall := pages_conserved hfresh (trace_of_follow hh)
  rw [hstart] at hall
  refine ⟨h, Nat.add_right_cancel (m := 1) ?_⟩
  exact hall

end PageConservation
