import Mathlib.Data.Fintype.Option
import Metakernel.PageAllocator

/-!
# The page cache and anonymous pages

The pages of inodes are found through a hash table that runs through the inverse page table
(page_cache.c), the anonymous pages through a table of their own (phys_mem.c). `ι` are the inodes,
`ν` the blocks that hold an `anon_page_t`, `C` the contents of a page.
-/
namespace PhysicalMemory

open LinkedNodes DataStructures NodeTables GuardedRuns PhysicalPages

variable {ι ν C : Type*} [DecidableEq ν]

/-- What does not change: the number of colors, the files and a page of zeros. `id` is `stat.id`. -/
structure Setup (ι C : Type*) where
  colors : ℕ
  id : ι → BitVec 32
  file : ι → BitVec 32 → C
  zero : C

/-- Without swap space every anonymous page has the status `ANON_PRESENT`. -/
structure AnonPage (ν : Type*) where
  id : BitVec 32
  next : Option ν
  addr : BitVec 32

/-- `used` are the blocks that `malloc` handed out and that were not freed since; `locked` says that
the mutex of phys_mem.c was left locked. -/
structure Memory (ν C : Type*) where
  alloc : Allocator
  cache : ℕ → Option ℕ
  anon : ν → AnonPage ν
  anonTable : ℕ → Option ν
  used : ν → Bool
  locked : Bool
  contents : ℕ → C

def Memory.setContents (s : Memory ν C) (addr : BitVec 32) (c : C) : Memory ν C :=
  { s with contents := Function.update s.contents (invPageLookup addr) c }

def cacheNext : NodeField (ℕ → InvPage) (Option ℕ) (Option ℕ) :=
  tableField InvPage.next fun r v => { r with next := v }

def src (m : ℕ → InvPage) (p : Option ℕ) : BitVec 32 × BitVec 32 :=
  (p.map fun x => ((m x).inode, (m x).offset)).getD (0, 0)

def cacheBucket (k : BitVec 32 × BitVec 32) : ℕ := (k.1 * (k.2 - 1)).toNat % 65535

def NULL_PHYS_PAGE : BitVec 32 := 0xffffffff

/-- There are no more than `2 ^ 20` pages. -/
def pageCacheLookup (s : Memory ν C) (inode offset : BitVec 32) : Option (BitVec 32) :=
  (hashTableLookup cacheNext none src (fun x y => x = y) cacheBucket (2 ^ 20 + 1) s.alloc.inv s.cache
    (inode, offset)).map fun p => (p.map invPageAddr).getD NULL_PHYS_PAGE

def pageCacheInsert (s : Memory ν C) (addr inode offset : BitVec 32) : Memory ν C :=
  let p := invPageLookup addr
  let inv := Function.update s.alloc.inv p
    { s.alloc.inv p with type := .used, inode := inode, offset := offset }
  let r := hashTableInsert cacheNext src cacheBucket inv s.cache (some p)
  { s with alloc := { s.alloc with inv := r.1 }, cache := r.2 }

def anonNext : NodeField (ν → AnonPage ν) (Option ν) (Option ν) :=
  tableField AnonPage.next fun r v => { r with next := v }

def anonId (m : ν → AnonPage ν) (p : Option ν) : BitVec 32 := (p.map fun x => (m x).id).getD 0

def anonBucket (id : BitVec 32) : ℕ := id.toNat % (4 * 1042 * 1042 - 1)

structure Colors where
  spc : ColorTable
  obj : ColorTable
  shared : Bool

def Colors.chosen (ct : Colors) : ColorTable := if ct.shared then ct.obj else ct.spc

variable (S : Setup ι C)

/-- Without colors `page_color` divides by zero. -/
def getAnonPage (s : Memory ν C) (ct : Colors) : Option (Memory ν C × Colors × BitVec 32) :=
  if S.colors = 0 then none
  else (physPageAlloc S.colors ct.chosen s.alloc).map fun r =>
    let color := pageColor S.colors r.2
    ({ s with alloc := r.1 }, { ct with obj := changeColorCount S.colors ct.obj color 1 }, r.2)

def getPage (s : Memory ν C) (ct : Colors) : Option (Memory ν C × Colors × BitVec 32) :=
  if S.colors = 0 then none
  else (physPageAlloc S.colors ct.chosen s.alloc).map fun r =>
    let color := pageColor S.colors r.2
    ({ s with alloc := r.1 },
      { ct with
        spc := changeColorCount S.colors ct.spc color 1
        obj := changeColorCount S.colors ct.obj color 1 }, r.2)

variable [Fintype ν]

def anonFind (s : Memory ν C) (id : BitVec 32) : Option (Option ν) :=
  hashTableLookup anonNext none anonId (fun x y => x = y) anonBucket (Fintype.card (Option ν) + 1)
    s.anon s.anonTable id

def anonInsert (s : Memory ν C) (x : ν) (id addr : BitVec 32) : Memory ν C :=
  let anon := Function.update s.anon x { s.anon x with id := id, addr := addr }
  let r := hashTableInsert anonNext anonId anonBucket anon s.anonTable (some x)
  { s with anon := r.1, anonTable := r.2, used := Function.update s.used x true }

/-- `id` is the value of `rand` that is in no use, and `x` the block that `malloc` returns. A page
that is copied from an anonymous page is not entered in the table. For `PSRC_NULL`, `phys_memset` has
the value 0, with which `memset` writes nothing, so the page keeps what it held. -/
def anonPageCreate (s : Memory ν C) (src : PageSrc ι) (ct : Colors) (id : BitVec 32) (x : ν) :
    Option (Memory ν C × Colors × BitVec 32) :=
  if s.locked ∨ s.used x then none
  else (anonFind s id).bind fun found =>
    if found ≠ none then none
    else match src with
      | .null => (getAnonPage S s ct).map fun (s, ct, addr) => (anonInsert s x id addr, ct, id)
      | .inode i offset => (getAnonPage S s ct).bind fun (s, ct, addr) =>
          (pageCacheLookup s (S.id i) offset).map fun cached =>
            let page := if cached ≠ NULL_PHYS_PAGE then s.contents (invPageLookup cached)
              else S.file i offset
            (anonInsert (s.setContents addr page) x id addr, ct, id)
      | .anon page => (getAnonPage S s ct).bind fun (s, ct, addr) =>
          (anonFind s page).map fun found =>
            let s := match found with
              | some y => s.setContents addr (s.contents (invPageLookup (s.anon y).addr))
              | none => s
            ({ s with
                anon := Function.update s.anon x { s.anon x with id := id, addr := addr }
                used := Function.update s.used x true }, ct, id)
      | .kern => (kernPageAlloc S.colors ct.obj s.alloc).map fun r =>
          (anonInsert { s with alloc := r.1 } x id r.2.2, { ct with obj := r.2.1 }, id)

def anonPageFree (s : Memory ν C) (id : BitVec 32) : Option (Memory ν C) :=
  if s.locked then none
  else (hashTableDelete anonNext none anonId (fun x y => x = y) anonBucket
      (Fintype.card (Option ν) + 1) s.anon s.anonTable id).bind fun
    | (_, _, none) => some { s with locked := true }
    | (anon, table, some x) =>
      let addr := (anon x).addr
      let p := invPageLookup addr
      let inv := Function.update s.alloc.inv p { s.alloc.inv p with type := .unused }
      (physPageInsert S.colors { s.alloc with inv := inv } [addr]).map fun a =>
        { s with alloc := a, anon := anon, anonTable := table, used := Function.update s.used x false }

def physPageFetch (s : Memory ν C) (src : PageSrc ι) (ct : Colors) (out : BitVec 32) :
    Option (Memory ν C × Colors × BitVec 32) :=
  if s.locked then none
  else match src with
    | .inode i offset => (pageCacheLookup s (S.id i) offset).bind fun cached =>
        if cached ≠ NULL_PHYS_PAGE then
          if S.colors = 0 then none
          else some (s, { ct with
            spc := changeColorCount S.colors ct.spc (pageColor S.colors cached) 1 }, cached)
        else (getPage S s ct).map fun (s, ct, addr) =>
          (pageCacheInsert (s.setContents addr (S.file i offset)) addr (S.id i) offset, ct, addr)
    | .anon page => (anonFind s page).bind fun
        | some y =>
          if S.colors = 0 then none
          else some (s, { ct with
            spc := changeColorCount S.colors ct.spc (pageColor S.colors (s.anon y).addr) 1 },
              (s.anon y).addr)
        | none => some (s, ct, out)
    | .null | .kern => some (s, ct, out)

section Pages

variable {S : Setup ι C} {pages : ℕ} {s s' : Memory ν C} {ring : ℕ → List ℕ}
  {chains : ℕ → List (Option ℕ)} {nodes : ℕ → List (Option ν)} {ct ct' : Colors} {c p : ℕ}
  {addr inode offset id : BitVec 32} {x y : ν} {a : Allocator}

structure Consistent (S : Setup ι C) (pages : ℕ) (s : Memory ν C) (ring : ℕ → List ℕ)
    (chains : ℕ → List (Option ℕ)) (nodes : ℕ → List (Option ν)) : Prop where
  lists : FreeLists pages S.colors s.alloc ring
  cache : HashTable cacheNext none src cacheBucket isNode s.alloc.inv s.cache chains
  cached : ∀ j p, some p ∈ chains j → (p < pages ∧ p < 2 ^ 20) ∧ ∀ c, p ∉ ring c
  sources : ∀ j p q, some p ∈ chains j → some q ∈ chains j →
    src s.alloc.inv (some p) = src s.alloc.inv (some q) → p = q
  anon : HashTable anonNext none anonId anonBucket isNode s.anon s.anonTable nodes
  used : ∀ j x, some x ∈ nodes j → s.used x = true
  ids : ∀ j x y, some x ∈ nodes j → some y ∈ nodes j → (s.anon x).id = (s.anon y).id → x = y
  held : ∀ x, s.used x = true → InTable pages (s.anon x).addr ∧
    (∀ c, invPageLookup (s.anon x).addr ∉ ring c) ∧
    ∀ i, some (invPageLookup (s.anon x).addr) ∉ chains i
  apart : ∀ x y, s.used x = true → s.used y = true →
    (s.anon x).addr = (s.anon y).addr → x = y
  colored : S.colors = 0 → (∀ j p, some p ∉ chains j) ∧ ∀ x, s.used x = false

/-- A page that is in none of the lists and tables. -/
structure Loose (pages : ℕ) (s : Memory ν C) (ring : ℕ → List ℕ) (chains : ℕ → List (Option ℕ))
    (p : ℕ) : Prop where
  inTable : p < pages ∧ p < 2 ^ 20
  notFree : ∀ c, p ∉ ring c
  notCached : ∀ j, some p ∉ chains j
  notHeld : ∀ x, s.used x = true → invPageLookup (s.anon x).addr ≠ p

theorem invPageAddr_aligned (p : ℕ) : invPageAddr p % 4096 = 0 := by
  apply BitVec.eq_of_toNat_eq
  simp [invPageAddr]

def Takes (a a' : Allocator) : Prop :=
  ∃ c, a.pageCount c ≠ 0 ∧ a'.pageCount = Function.update a.pageCount c (a.pageCount c - 1)

theorem takes_takePage {r : Allocator × BitVec 32} (hc : a.pageCount c ≠ 0)
    (h : takePage a c = some r) : Takes a r.1 := by
  obtain ⟨p, -, rfl⟩ := Option.map_eq_some_iff.mp h
  exact ⟨c, hc, rfl⟩

/-- The fields of the inverse page table that belong to the page cache. -/
def cacheFields (m : ℕ → InvPage) (p : ℕ) : Option ℕ × BitVec 32 × BitVec 32 :=
  ((m p).next, (m p).inode, (m p).offset)

theorem cacheFields_links (m : ℕ → InvPage) (q v : Option ℕ) (p : ℕ) :
    cacheFields (lnext.set m q v) p = cacheFields m p ∧
      cacheFields (llast.set m q v) p = cacheFields m p := by
  rcases q with _ | q
  · exact ⟨rfl, rfl⟩
  · by_cases hq : p = q <;> simp [cacheFields, lnext, llast, tableField, hq]

theorem takePage_cacheFields {r : Allocator × BitVec 32} (h : takePage a c = some r) (p : ℕ) :
    cacheFields r.1.inv p = cacheFields a.inv p := by
  obtain ⟨q, -, rfl⟩ := Option.map_eq_some_iff.mp h
  exact clistDelete_keeps (g := fun m => cacheFields m p) (fun m q v => (cacheFields_links m q v p).1)
    (fun m q v => (cacheFields_links m q v p).2) a.inv _

theorem putPage_cacheFields {a' : Allocator} {colors : ℕ} (h : putPage colors a addr = some a')
    (p : ℕ) : cacheFields a'.inv p = cacheFields a.inv p := by
  rw [putPage] at h
  split at h
  · cases h
  · cases h
    exact clistInsert_keeps (g := fun m => cacheFields m p)
      (fun m q v => (cacheFields_links m q v p).1) (fun m q v => (cacheFields_links m q v p).2)
      a.inv _ _

theorem cache_congr {m m' : ℕ → InvPage} {table : ℕ → Option ℕ}
    (h : HashTable cacheNext none src cacheBucket isNode m table chains)
    (hm : ∀ j p, some p ∈ chains j → cacheFields m' p = cacheFields m p) :
    HashTable cacheNext none src cacheBucket isNode m' table chains := by
  refine h.congr fun j q hq => ?_
  obtain ⟨p, rfl⟩ := Option.isSome_iff_exists.mp (h.nodes j q hq)
  have hp := hm j p hq
  exact ⟨congrArg Prod.fst hp, congrArg Prod.snd hp⟩

theorem src_congr {m m' : ℕ → InvPage} (h : cacheFields m' p = cacheFields m p) :
    src m' (some p) = src m (some p) := congrArg Prod.snd h

theorem freeLists_congr {colors : ℕ} {a a' : Allocator} (h : FreeLists pages colors a ring)
    (hfree : a'.freePages = a.freePages) (hcount : a'.pageCount = a.pageCount)
    (hinv : ∀ c, ∀ p ∈ ring c, (a'.inv p).lnext = (a.inv p).lnext ∧
      (a'.inv p).llast = (a.inv p).llast) : FreeLists pages colors a' ring := by
  refine ⟨⟨fun c => ?_, h.family.disjoint⟩, hcount ▸ h.count, h.color, h.inTable⟩
  rw [hfree]
  exact (h.family.rings c).congr fun p hp => hinv c p hp

omit [Fintype ν] in
theorem Consistent.cached_length (h : Consistent S pages s ring chains nodes) (j : ℕ) :
    (chains j).length < 2 ^ 20 + 1 := by
  have hsub : chains j ⊆ (List.range (2 ^ 20)).map some := by
    intro q hq
    obtain ⟨p, rfl⟩ := Option.isSome_iff_exists.mp (h.cache.nodes j q hq)
    exact List.mem_map_of_mem (List.mem_range.mpr (h.cached j p hq).1.2)
  have hle := ((h.cache.nodup j).subperm hsub).length_le
  rw [List.length_map, List.length_range] at hle
  omega

omit [Fintype ν] in
theorem Consistent.take (h : Consistent S pages s ring chains nodes) {l : List ℕ}
    (hc : ring c = p :: l) : ∃ a, takePage s.alloc c = some (a, invPageAddr p) ∧
      Consistent S pages { s with alloc := a } (Function.update ring c l) chains nodes ∧
      Loose pages s (Function.update ring c l) chains p := by
  obtain ⟨a, htake, hlists⟩ := h.lists.take hc
  have hsub : ∀ {d q}, q ∈ Function.update ring c l d → q ∈ ring d :=
    fun hq => mem_of_mem_update (hc ▸ List.subset_cons_self p l) hq
  have hp : p ∈ ring c := hc ▸ List.mem_cons_self
  have hfields := takePage_cacheFields htake
  refine ⟨a, htake, ⟨hlists, cache_congr h.cache fun j q _ => hfields q, fun j q hq => ?_,
    fun j q r hq hr heq => ?_, h.anon, h.used, h.ids, fun x hx => ?_, h.apart,
    h.colored⟩, ?_⟩
  · obtain ⟨hlt, hfree⟩ := h.cached j q hq
    exact ⟨hlt, fun d hd => hfree d (hsub hd)⟩
  · rw [src_congr (hfields q), src_congr (hfields r)] at heq
    exact h.sources j q r hq hr heq
  · obtain ⟨hin, hfree, hcached⟩ := h.held x hx
    exact ⟨hin, fun d hd => hfree d (hsub hd), hcached⟩
  · refine ⟨h.lists.inTable c p hp, fun d hd => ?_, fun j hj => (h.cached j p hj).2 c hp,
      fun x hx heq => (h.held x hx).2.1 c (heq ▸ hp)⟩
    by_cases hdc : d = c
    · subst hdc
      rw [Function.update_self] at hd
      have hnd := (h.lists.family.rings d).nodup
      rw [hc, List.nodup_cons] at hnd
      exact hnd.1 hd
    · rw [Function.update_of_ne hdc] at hd
      exact hdc (h.lists.family.disjoint d c p hd hp)

theorem cacheNext_lawful : cacheNext.Lawful isNode fun _ => True :=
  tableField_lawful (fun _ _ => rfl) _

omit [Fintype ν] in
theorem anonNext_lawful : (anonNext : NodeField (ν → AnonPage ν) _ _).Lawful isNode fun _ => True :=
  tableField_lawful (fun _ _ => rfl) _

theorem cacheNext_set_fields (m : ℕ → InvPage) (q v : Option ℕ) (p : ℕ) :
    (cacheNext.set m q v p).lnext = (m p).lnext ∧ (cacheNext.set m q v p).llast = (m p).llast ∧
      (cacheNext.set m q v p).inode = (m p).inode ∧
      (cacheNext.set m q v p).offset = (m p).offset := by
  rcases q with _ | q
  · exact ⟨rfl, rfl, rfl, rfl⟩
  · by_cases hq : p = q <;> simp [cacheNext, tableField, hq]

theorem src_set (m : ℕ → InvPage) (q v r : Option ℕ) : src (cacheNext.set m q v) r = src m r := by
  rcases r with _ | p
  · rfl
  · obtain ⟨-, -, hinode, hoffset⟩ := cacheNext_set_fields m q v p
    simp [src, hinode, hoffset]

omit [Fintype ν] in
theorem anonNext_set_fields (m : ν → AnonPage ν) (q v : Option ν) (x : ν) :
    (anonNext.set m q v x).id = (m x).id ∧ (anonNext.set m q v x).addr = (m x).addr := by
  rcases q with _ | q
  · exact ⟨rfl, rfl⟩
  · by_cases hq : x = q <;> simp [anonNext, tableField, hq]

omit [Fintype ν] in
theorem anonId_set (m : ν → AnonPage ν) (q v r : Option ν) :
    anonId (anonNext.set m q v) r = anonId m r := by
  rcases r with _ | x
  · rfl
  · exact (anonNext_set_fields m q v x).1

omit [Fintype ν] in
/-- A loose page becomes the page of a source that has none. -/
theorem Consistent.cacheInsert (h : Consistent S pages s ring chains nodes) (hcolors : S.colors ≠ 0)
    (hp : Loose pages s ring chains p)
    (hnew : ∀ j q, some q ∈ chains j → src s.alloc.inv (some q) ≠ (inode, offset)) :
    Consistent S pages (pageCacheInsert s (invPageAddr p) inode offset) ring
      (Function.update chains (cacheBucket (inode, offset))
        (some p :: chains (cacheBucket (inode, offset)))) nodes := by
  have hlook := invPageLookup_addr hp.inTable.2
  generalize hm : Function.update s.alloc.inv p
    { s.alloc.inv p with type := .used, inode := inode, offset := offset } = m
  have hself : src m (some p) = (inode, offset) := by simp [← hm, src]
  have hne : ∀ {j q}, some q ∈ chains j → q ≠ p := fun hq heq => hp.notCached _ (heq ▸ hq)
  have hold : ∀ {j q}, some q ∈ chains j → m q = s.alloc.inv q := by
    intro j q hq
    rw [← hm, Function.update_of_ne (hne hq)]
  have hlinks : ∀ q, (m q).lnext = (s.alloc.inv q).lnext ∧
      (m q).llast = (s.alloc.inv q).llast := by
    intro q
    by_cases hq : q = p <;> simp [← hm, hq]
  have hcache : HashTable cacheNext none src cacheBucket isNode m s.cache chains :=
    cache_congr h.cache fun j q hq => by rw [cacheFields, hold hq, cacheFields]
  have hinsert := hcache.insert cacheNext_lawful (x := some p) rfl hp.notCached (by simp)
    fun r _ => src_set m _ _ r
  rw [hashTableInsert, hself] at hinsert
  have heq : pageCacheInsert s (invPageAddr p) inode offset = { s with
      alloc := { s.alloc with inv := cacheNext.set m (some p) (s.cache (cacheBucket (inode, offset))) }
      cache := Function.update s.cache (cacheBucket (inode, offset)) (some p) } := by
    simp only [pageCacheInsert, hlook, hm, hashTableInsert, hself]
  rw [heq]
  refine ⟨freeLists_congr h.lists rfl rfl fun c q _ => ?_, hinsert, fun j q hq => ?_,
    fun j q r hq hr hsrc => ?_, h.anon, h.used, h.ids, fun x hx => ?_, h.apart,
    fun hzero => absurd hzero hcolors⟩
  · obtain ⟨hl, hl', -, -⟩ := cacheNext_set_fields m (some p)
      (s.cache (cacheBucket (inode, offset))) q
    exact ⟨hl.trans (hlinks q).1, hl'.trans (hlinks q).2⟩
  · rcases mem_update_cons.mp hq with ⟨hq', -⟩ | hq'
    · cases hq'
      exact ⟨hp.inTable, hp.notFree⟩
    · exact h.cached j q hq'
  · simp only [src_set] at hsrc
    rcases mem_update_cons.mp hq with ⟨hq', -⟩ | hq' <;>
      rcases mem_update_cons.mp hr with ⟨hr', -⟩ | hr'
    · exact Option.some_inj.mp (hq'.trans hr'.symm)
    · cases hq'
      rw [hself, src, Option.map_some, hold hr'] at hsrc
      exact absurd hsrc.symm (hnew j r hr')
    · cases hr'
      rw [hself, src, Option.map_some, hold hq'] at hsrc
      exact absurd hsrc (hnew j q hq')
    · rw [src, Option.map_some, hold hq', src, Option.map_some, hold hr'] at hsrc
      exact h.sources j q r hq' hr' hsrc
  · obtain ⟨hin, hfree, hcached⟩ := h.held x hx
    refine ⟨hin, hfree, fun i hi => ?_⟩
    rcases mem_update_cons.mp hi with ⟨hi', -⟩ | hi'
    · exact hp.notHeld x hx (Option.some_inj.mp hi')
    · exact hcached i hi'

omit [Fintype ν] in
theorem Consistent.anonInsert (h : Consistent S pages s ring chains nodes) (hcolors : S.colors ≠ 0)
    (hp : Loose pages s ring chains p) (hx : s.used x = false)
    (hnew : ∀ j y, some y ∈ nodes j → (s.anon y).id ≠ id) :
    Consistent S pages (anonInsert s x id (invPageAddr p)) ring chains
      (Function.update nodes (anonBucket id) (some x :: nodes (anonBucket id))) := by
  generalize hm : Function.update s.anon x { s.anon x with id := id, addr := invPageAddr p } = m
  have hself : (m x).id = id ∧ (m x).addr = invPageAddr p := by simp [← hm]
  have hout : ∀ j, some x ∉ nodes j := by
    intro j hmem
    have hused := h.used j x hmem
    rw [hx] at hused
    cases hused
  have hold : ∀ {j y}, some y ∈ nodes j → m y = s.anon y := by
    intro j y hy
    have hyx : y ≠ x := fun heq => hout j (heq ▸ hy)
    rw [← hm, Function.update_of_ne hyx]
  have hanon : HashTable anonNext none anonId anonBucket isNode m s.anonTable nodes := by
    refine h.anon.congr fun j q hq => ?_
    obtain ⟨y, rfl⟩ := Option.isSome_iff_exists.mp (h.anon.nodes j q hq)
    exact ⟨congrArg AnonPage.next (hold hq), congrArg AnonPage.id (hold hq)⟩
  have hinsert := hanon.insert anonNext_lawful (x := some x) rfl hout (by simp)
    fun r _ => anonId_set m _ _ r
  have hkey : anonId m (some x) = id := hself.1
  rw [hashTableInsert, hkey] at hinsert
  have heq : PhysicalMemory.anonInsert s x id (invPageAddr p) = { s with
      anon := anonNext.set m (some x) (s.anonTable (anonBucket id))
      anonTable := Function.update s.anonTable (anonBucket id) (some x)
      used := Function.update s.used x true } := by
    simp only [PhysicalMemory.anonInsert, hm, hashTableInsert, hkey]
  have hfields := anonNext_set_fields m (some x) (s.anonTable (anonBucket id))
  have hlook := invPageLookup_addr hp.inTable.2
  have husedOld : ∀ {y}, y ≠ x → Function.update s.used x true y = true → s.used y = true := by
    intro y hyx hy
    rwa [Function.update_of_ne hyx] at hy
  have hkeep : ∀ {y}, y ≠ x → m y = s.anon y := fun hyx => by rw [← hm, Function.update_of_ne hyx]
  have haddr : ∀ {y}, s.used y = true → (s.anon y).addr ≠ invPageAddr p := by
    intro y hy heq
    refine hp.notHeld y hy ?_
    rw [heq, hlook]
  rw [heq]
  refine ⟨h.lists, h.cache, h.cached, h.sources, hinsert, fun j y hy => ?_,
    fun j y z hy hz hid => ?_, fun y hy => ?_, fun y z hy hz haddrs => ?_,
    fun hzero => absurd hzero hcolors⟩
  · by_cases hyx : y = x
    · simp [hyx]
    · rcases mem_update_cons.mp hy with ⟨hy', -⟩ | hy'
      · exact absurd (Option.some_inj.mp hy') hyx
      · simpa [hyx] using h.used j y hy'
  · simp only [(hfields _).1] at hid
    rcases mem_update_cons.mp hy with ⟨hy', -⟩ | hy' <;>
      rcases mem_update_cons.mp hz with ⟨hz', -⟩ | hz'
    · exact Option.some_inj.mp (hy'.trans hz'.symm)
    · cases hy'
      rw [hself.1, hold hz'] at hid
      exact absurd hid.symm (hnew j z hz')
    · cases hz'
      rw [hself.1, hold hy'] at hid
      exact absurd hid (hnew j y hy')
    · rw [hold hy', hold hz'] at hid
      exact h.ids j y z hy' hz' hid
  · simp only [(hfields _).2]
    by_cases hyx : y = x
    · rw [hyx, hself.2, hlook]
      exact ⟨⟨invPageAddr_aligned p, hlook.symm ▸ hp.inTable.1⟩, hp.notFree, hp.notCached⟩
    · rw [hkeep hyx]
      exact h.held y (husedOld hyx hy)
  · simp only [(hfields _).2] at haddrs
    by_cases hyx : y = x <;> by_cases hzx : z = x
    · rw [hyx, hzx]
    · rw [hyx, hself.2, hkeep hzx] at haddrs
      exact absurd haddrs.symm (haddr (husedOld hzx hz))
    · rw [hzx, hself.2, hkeep hyx] at haddrs
      exact absurd haddrs (haddr (husedOld hyx hy))
    · rw [hkeep hyx, hkeep hzx] at haddrs
      exact h.apart y z (husedOld hyx hy) (husedOld hzx hz) haddrs

theorem Consistent.nodes_length (h : Consistent S pages s ring chains nodes) (j : ℕ) :
    (nodes j).length < Fintype.card (Option ν) + 1 :=
  Nat.lt_succ_of_le (h.anon.nodup j).length_le_card

theorem Consistent.release (h : Consistent S pages s ring chains nodes)
    (hlock : s.locked = false) (hx : some x ∈ nodes (anonBucket id)) (hid : (s.anon x).id = id) :
    ∃ s' nodes' ring', anonPageFree S s id = some s' ∧
      Consistent S pages s' ring' chains nodes' ∧ s'.locked = false ∧
      (∀ y, (s'.anon y).id = (s.anon y).id ∧ (s'.anon y).addr = (s.anon y).addr) ∧
      (∀ y, s'.used y = true ↔ s.used y = true ∧ y ≠ x) ∧ s'.cache = s.cache ∧ s'.contents = s.contents ∧
      ∀ p, cacheFields s'.alloc.inv p = cacheFields s.alloc.inv p := by
  have honly : ∀ q ∈ nodes (anonBucket id), anonId s.anon q = id → q = some x := by
    intro q hq hqid
    obtain ⟨y, rfl⟩ := Option.isSome_iff_exists.mp (h.anon.nodes _ q hq)
    exact congrArg some (h.ids _ y x hq hx (hqid.trans hid.symm))
  obtain ⟨m, table, rest, hdel, htable, hrest, hm⟩ := h.anon.delete_key anonNext_lawful hx hid
    honly (h.nodes_length _) fun w q _ _ => anonId_set _ w _ q
  have hfields : ∀ y, (m y).id = (s.anon y).id ∧ (m y).addr = (s.anon y).addr := by
    intro y
    obtain rfl | ⟨w, -, rfl⟩ := hm
    · exact ⟨rfl, rfl⟩
    · exact anonNext_set_fields _ w _ y
  have hxused := h.used _ x hx
  have hcolors : S.colors ≠ 0 := by
    intro hzero
    rw [(h.colored hzero).2 x] at hxused
    cases hxused
  obtain ⟨hin, hfree, hcached⟩ := h.held x hxused
  generalize hp : invPageLookup (s.anon x).addr = p at hfree hcached
  generalize hinv : Function.update s.alloc.inv p { s.alloc.inv p with type := .unused } = inv
  have hkeep : ∀ q, cacheFields inv q = cacheFields s.alloc.inv q ∧
      (inv q).lnext = (s.alloc.inv q).lnext ∧ (inv q).llast = (s.alloc.inv q).llast := by
    intro q
    by_cases hq : q = p <;> simp [← hinv, hq, cacheFields]
  have hlists : FreeLists pages S.colors { s.alloc with inv := inv } ring :=
    freeLists_congr h.lists rfl rfl fun c q _ => (hkeep q).2
  obtain ⟨a, ha⟩ : ∃ a, putPage S.colors { s.alloc with inv := inv } (s.anon x).addr = some a := by
    rw [putPage, if_neg hcolors]
    exact ⟨_, rfl⟩
  have hput := hlists.put hin (fun c => hp ▸ hfree c) ha
  rw [hp] at hput
  have hfields' : ∀ q, cacheFields a.inv q = cacheFields s.alloc.inv q :=
    fun q => (putPage_cacheFields ha q).trans (hkeep q).1
  have hmem : ∀ j y, some y ∈ Function.update nodes (anonBucket id) rest j ↔
      some y ∈ nodes j ∧ y ≠ x := by
    intro j y
    by_cases hj : j = anonBucket id
    · subst hj
      rw [Function.update_self, hrest]
      simp
    · rw [Function.update_of_ne hj]
      refine ⟨fun hy => ⟨hy, ?_⟩, fun hy => hy.1⟩
      rintro rfl
      have hbucket := h.anon.bucket j _ hy
      have hid' : anonId s.anon (some y) = id := hid
      exact hj (hbucket.symm.trans (congrArg anonBucket hid'))
  have hstep : anonPageFree S s id = some { s with
      alloc := a, anon := m, anonTable := table, used := Function.update s.used x false } := by
    simp only [anonPageFree, hlock, Bool.false_eq_true, if_false, hdel, Option.bind_some,
      (hfields x).2, hp, hinv, physPageInsert, ha, Option.map_some]
  have hused : ∀ y, Function.update s.used x false y = true ↔ s.used y = true ∧ y ≠ x := by
    intro y
    by_cases hyx : y = x <;> simp [hyx]
  refine ⟨_, _, _, hstep, ⟨hput, cache_congr h.cache fun j q _ => hfields' q, fun j q hq => ?_,
    fun j q r hq hr heq => ?_, htable, fun j y hy => ?_, fun j y z hy hz heq => ?_,
    fun y hy => ?_, fun y z hy hz heq => ?_, fun hzero => absurd hzero hcolors⟩, hlock, hfields,
    hused, rfl, rfl, hfields'⟩
  · obtain ⟨hlt, hnot⟩ := h.cached j q hq
    refine ⟨hlt, fun c hc => ?_⟩
    rcases mem_update_cons.mp hc with ⟨rfl, -⟩ | hc'
    · exact hcached j hq
    · exact hnot c hc'
  · rw [src_congr (hfields' q), src_congr (hfields' r)] at heq
    exact h.sources j q r hq hr heq
  · obtain ⟨hy', hyx⟩ := (hmem j y).mp hy
    exact (hused y).mpr ⟨h.used j y hy', hyx⟩
  · simp only [(hfields _).1] at heq
    exact h.ids j y z ((hmem j y).mp hy).1 ((hmem j z).mp hz).1 heq
  · obtain ⟨hy', hyx⟩ := (hused y).mp hy
    obtain ⟨hin', hfree', hcached'⟩ := h.held y hy'
    simp only [(hfields _).2]
    refine ⟨hin', fun c hc => ?_, hcached'⟩
    rcases mem_update_cons.mp hc with ⟨heq, -⟩ | hc'
    · refine hyx (h.apart y x hy' hxused ?_)
      rw [← invPageAddr_lookup hin'.1, heq, ← hp, invPageAddr_lookup hin.1]
    · exact hfree' c hc'
  · simp only [(hfields _).2] at heq
    exact h.apart y z ((hused y).mp hy).1 ((hused z).mp hz).1 heq

/-- A page that is not there is not freed, and the mutex is not unlocked. -/
theorem Consistent.missing (h : Consistent S pages s ring chains nodes) (hlock : s.locked = false)
    (hno : ∀ j x, some x ∈ nodes j → (s.anon x).id ≠ id) :
    anonPageFree S s id = some { s with locked := true } := by
  have hkey : ∀ q ∈ nodes (anonBucket id), decide (anonId s.anon q = id) = false := by
    intro q hq
    obtain ⟨x, rfl⟩ := Option.isSome_iff_exists.mp (h.anon.nodes _ q hq)
    exact decide_eq_false (hno _ x hq)
  have hdel : hashTableDelete anonNext none anonId (fun x y => x = y) anonBucket
      (Fintype.card (Option ν) + 1) s.anon s.anonTable id = some (s.anon, s.anonTable, none) :=
    h.anon.delete_none hkey (h.nodes_length _)
  rw [anonPageFree, if_neg (by simp [hlock]), hdel]
  rfl

def Grows (s : Memory ν C) (chains : ℕ → List (Option ℕ)) (s' : Memory ν C)
    (chains' : ℕ → List (Option ℕ)) : Prop :=
  ∀ j p, some p ∈ chains j →
    some p ∈ chains' j ∧ src s'.alloc.inv (some p) = src s.alloc.inv (some p)

def Available (S : Setup ι C) (s : Memory ν C) (ct : Colors) : Prop :=
  ∃ i < S.colors, s.alloc.pageCount (ct.chosen.ordered i).toNat ≠ 0

omit [Fintype ν] in
theorem Consistent.grows_refl (_ : Consistent S pages s ring chains nodes) :
    Grows s chains s chains := fun _ _ hp => ⟨hp, rfl⟩

omit [Fintype ν] in
theorem Consistent.alloc (h : Consistent S pages s ring chains nodes) (hav : Available S s ct) :
    ∃ a p ring', physPageAlloc S.colors ct.chosen s.alloc = some (a, invPageAddr p) ∧
      Consistent S pages { s with alloc := a } ring' chains nodes ∧ Loose pages s ring' chains p ∧
      (∀ q, cacheFields a.inv q = cacheFields s.alloc.inv q) ∧ Takes s.alloc a := by
  rw [physPageAlloc]
  rcases physPageAllocFrom_cases ct.chosen s.alloc S.colors 0 with
    ⟨hzero, -⟩ | ⟨j, -, hj, hne, -, heq⟩
  · obtain ⟨i, hi, hne⟩ := hav
    exact absurd (hzero i (Nat.zero_le i) (by omega)) hne
  · obtain ⟨p, l, hl⟩ := List.exists_cons_of_ne_nil (mt (h.lists.empty_iff _).mpr hne)
    obtain ⟨a, htake, hcons, hloose⟩ := h.take hl
    exact ⟨a, p, _, heq.trans htake, hcons, hloose, takePage_cacheFields htake,
      takes_takePage hne htake⟩

omit [DecidableEq ν] [Fintype ν] in
theorem Available.colors (hav : Available S s ct) : S.colors ≠ 0 := by
  obtain ⟨i, hi, -⟩ := hav
  omega

omit [Fintype ν] in
theorem Consistent.cacheLookup (h : Consistent S pages s ring chains nodes)
    (inode offset : BitVec 32) :
    (∃ p, some p ∈ chains (cacheBucket (inode, offset)) ∧
      src s.alloc.inv (some p) = (inode, offset) ∧
      pageCacheLookup s inode offset = some (invPageAddr p)) ∨
    (∀ j p, some p ∈ chains j → src s.alloc.inv (some p) ≠ (inode, offset)) ∧
      pageCacheLookup s inode offset = some NULL_PHYS_PAGE := by
  rw [pageCacheLookup]
  rcases h.cache.lookup_cases (inode, offset) (h.cached_length _) with ⟨q, hq, hsrc, heq⟩ | ⟨hno, heq⟩
  · obtain ⟨p, rfl⟩ := Option.isSome_iff_exists.mp (h.cache.nodes _ q hq)
    rw [heq]
    exact Or.inl ⟨p, hq, hsrc, rfl⟩
  · rw [heq]
    exact Or.inr ⟨fun j p hp => hno j _ hp, rfl⟩

theorem Consistent.anonLookup (h : Consistent S pages s ring chains nodes) (id : BitVec 32) :
    (∃ x, some x ∈ nodes (anonBucket id) ∧ (s.anon x).id = id ∧ anonFind s id = some (some x)) ∨
    (∀ j x, some x ∈ nodes j → (s.anon x).id ≠ id) ∧ anonFind s id = some none := by
  rw [anonFind]
  rcases h.anon.lookup_cases id (h.nodes_length _) with ⟨q, hq, hid, heq⟩ | ⟨hno, heq⟩
  · obtain ⟨x, rfl⟩ := Option.isSome_iff_exists.mp (h.anon.nodes _ q hq)
    exact Or.inl ⟨x, hq, hid, heq⟩
  · exact Or.inr ⟨fun j x hx => hno j _ hx, heq⟩

theorem invPageAddr_ne_null (p : ℕ) : invPageAddr p ≠ NULL_PHYS_PAGE := by
  intro heq
  have hal := invPageAddr_aligned p
  rw [heq] at hal
  exact absurd hal (by decide)

omit [Fintype ν] in
theorem Consistent.setContents (h : Consistent S pages s ring chains nodes) (addr : BitVec 32)
    (c : C) : Consistent S pages (s.setContents addr c) ring chains nodes :=
  ⟨h.lists, h.cache, h.cached, h.sources, h.anon, h.used, h.ids, h.held, h.apart, h.colored⟩

/-- A fetch of an inode page finds it in the cache, or enters a free page there. -/
theorem Consistent.fetch (h : Consistent S pages s ring chains nodes) (hlock : s.locked = false)
    (i : ι) (offset out : BitVec 32)
    (hav : pageCacheLookup s (S.id i) offset = some NULL_PHYS_PAGE → Available S s ct) :
    ∃ s' ct' ring' chains' p, physPageFetch S s (.inode i offset) ct out =
        some (s', ct', invPageAddr p) ∧
      Consistent S pages s' ring' chains' nodes ∧ Grows s chains s' chains' ∧
      some p ∈ chains' (cacheBucket (S.id i, offset)) ∧
      src s'.alloc.inv (some p) = (S.id i, offset) ∧
      s'.locked = false ∧ s'.anon = s.anon ∧ s'.used = s.used ∧
      (s' = s ∨ Loose pages s ring' chains p ∧
        s'.contents = Function.update s.contents p (S.file i offset)) := by
  have hlock' : ¬ s.locked = true := by simp [hlock]
  rcases h.cacheLookup (S.id i) offset with ⟨p, hp, hsrc, hlook⟩ | ⟨hno, hlook⟩
  · have hcolors : S.colors ≠ 0 := fun hzero => (h.colored hzero).1 _ p hp
    obtain ⟨ct', hfetch⟩ : ∃ ct', physPageFetch S s (.inode i offset) ct out =
        some (s, ct', invPageAddr p) := by
      rw [physPageFetch, if_neg hlock']
      simp only [hlook, Option.bind_some, ne_eq, invPageAddr_ne_null, not_false_eq_true, if_true,
        hcolors, if_false]
      exact ⟨_, rfl⟩
    exact ⟨s, ct', ring, chains, p, hfetch, h, h.grows_refl, hp, hsrc, hlock, rfl, rfl, Or.inl rfl⟩
  · have hcolors := (hav hlook).colors
    obtain ⟨a, p, ring', halloc, hcons, hloose, hfields, -⟩ := h.alloc (hav hlook)
    have hpage := invPageLookup_addr hloose.inTable.2
    generalize hs₁ : ({ s with alloc := a }.setContents (invPageAddr p) (S.file i offset) :
      Memory ν C) = s₁
    have hinv : s₁.alloc.inv = a.inv := by rw [← hs₁, Memory.setContents]
    have hcons₁ : Consistent S pages s₁ ring' chains nodes := hs₁ ▸ hcons.setContents _ _
    have hloose₁ : Loose pages s₁ ring' chains p :=
      hs₁ ▸ ⟨hloose.inTable, hloose.notFree, hloose.notCached, hloose.notHeld⟩
    have hnew : ∀ j q, some q ∈ chains j → src s₁.alloc.inv (some q) ≠ (S.id i, offset) := by
      intro j q hq
      rw [hinv, src_congr (hfields q)]
      exact hno j q hq
    have hins := hcons₁.cacheInsert hcolors hloose₁ hnew
    obtain ⟨ct', hfetch⟩ : ∃ ct', physPageFetch S s (.inode i offset) ct out =
        some (pageCacheInsert s₁ (invPageAddr p) (S.id i) offset, ct', invPageAddr p) := by
      rw [physPageFetch, if_neg hlock', ← hs₁]
      simp only [hlook, Option.bind_some, ne_eq, not_true_eq_false, if_false, getPage, hcolors,
        halloc, Option.map_some]
      exact ⟨_, rfl⟩
    refine ⟨_, ct', ring', _, p, hfetch, hins, fun j q hq => ⟨mem_update_cons.mpr (Or.inr hq), ?_⟩,
      mem_update_cons.mpr (Or.inl ⟨rfl, rfl⟩), ?_, ?_, ?_, ?_, Or.inr ⟨hloose, ?_⟩⟩
    · have hqp : q ≠ p := fun heq => hloose.notCached j (heq ▸ hq)
      simp only [pageCacheInsert, hashTableInsert, src_set, hpage]
      rw [src, Option.map_some, Function.update_of_ne hqp, hinv]
      exact src_congr (hfields q)
    · simp only [pageCacheInsert, hashTableInsert, src_set, hpage]
      simp [src]
    · rw [← hlock, pageCacheInsert, ← hs₁, Memory.setContents]
    · rw [pageCacheInsert, ← hs₁, Memory.setContents]
    · rw [pageCacheInsert, ← hs₁, Memory.setContents]
    · rw [pageCacheInsert, ← hs₁, Memory.setContents, hpage]

/-- The loose page `p` is the page of the new anonymous page `x`. -/
structure Created (S : Setup ι C) (pages : ℕ) (s s' : Memory ν C) (chains : ℕ → List (Option ℕ))
    (x : ν) (p : ℕ) : Prop where
  consistent : ∃ ring' nodes', Consistent S pages s' ring' chains nodes' ∧
    Loose pages s ring' chains p
  fields : ∀ q, cacheFields s'.alloc.inv q = cacheFields s.alloc.inv q
  taken : Takes s.alloc s'.alloc
  locked : s'.locked = s.locked
  used : s'.used = Function.update s.used x true
  addr : (s'.anon x).addr = invPageAddr p
  others : ∀ y, y ≠ x → (s'.anon y).id = (s.anon y).id ∧ (s'.anon y).addr = (s.anon y).addr

omit [Fintype ν] in
theorem Consistent.enter {ring' : ℕ → List ℕ}
    (h : Consistent S pages { s with alloc := a } ring' chains nodes) (hcolors : S.colors ≠ 0)
    (hp : Loose pages s ring' chains p)
    (hfields : ∀ q, cacheFields a.inv q = cacheFields s.alloc.inv q) (htaken : Takes s.alloc a)
    (hx : s.used x = false) (hnew : ∀ j y, some y ∈ nodes j → (s.anon y).id ≠ id) (c : C) :
    Created S pages s (PhysicalMemory.anonInsert
      ({ s with alloc := a }.setContents (invPageAddr p) c) x id (invPageAddr p)) chains x p := by
  have hloose : Loose pages ({ s with alloc := a }.setContents (invPageAddr p) c) ring' chains p :=
    ⟨hp.inTable, hp.notFree, hp.notCached, hp.notHeld⟩
  have hset := anonNext_set_fields
    (Function.update s.anon x { s.anon x with id := id, addr := invPageAddr p }) (some x)
  refine ⟨⟨ring', _, (h.setContents (invPageAddr p) c).anonInsert hcolors hloose hx hnew, hp⟩,
    hfields, htaken, rfl, rfl, ?_, fun y hy => ?_⟩
  · simp [PhysicalMemory.anonInsert, hashTableInsert, Memory.setContents, (hset _ x).2]
  · simp only [PhysicalMemory.anonInsert, hashTableInsert, Memory.setContents]
    rw [(hset _ y).1, (hset _ y).2, Function.update_of_ne hy]
    exact ⟨rfl, rfl⟩

omit [Fintype ν] in
theorem Consistent.leak {ring' : ℕ → List ℕ}
    (h : Consistent S pages { s with alloc := a } ring' chains nodes) (hcolors : S.colors ≠ 0)
    (hp : Loose pages s ring' chains p)
    (hfields : ∀ q, cacheFields a.inv q = cacheFields s.alloc.inv q) (htaken : Takes s.alloc a)
    (hx : s.used x = false) (id : BitVec 32) (contents : ℕ → C) :
    Created S pages s { s with
      alloc := a
      anon := Function.update s.anon x { s.anon x with id := id, addr := invPageAddr p }
      used := Function.update s.used x true
      contents := contents } chains x p := by
  have hlook := invPageLookup_addr hp.inTable.2
  have hout : ∀ {j y}, some y ∈ nodes j → y ≠ x := by
    rintro j y hy rfl
    have hused := h.used j y hy
    rw [hx] at hused
    cases hused
  have hold : ∀ {y}, y ≠ x → Function.update s.used x true y = true → s.used y = true := by
    intro y hyx hy
    rwa [Function.update_of_ne hyx] at hy
  have haddr : ∀ {y}, s.used y = true → (s.anon y).addr ≠ invPageAddr p := by
    intro y hy heq
    refine hp.notHeld y hy ?_
    rw [heq, hlook]
  refine ⟨⟨ring', nodes, ⟨h.lists, h.cache, h.cached, h.sources, ?_, fun j y hy => ?_,
    fun j y z hy hz heq => ?_, fun y hy => ?_, fun y z hy hz heq => ?_,
    fun hzero => absurd hzero hcolors⟩, hp⟩, hfields, htaken, rfl, rfl, by simp,
    fun y hy => by simp [hy]⟩
  · refine h.anon.congr fun j q hq => ?_
    obtain ⟨y, rfl⟩ := Option.isSome_iff_exists.mp (h.anon.nodes j q hq)
    have hy := hout hq
    simp [anonNext, tableField, anonId, hy]
  · have hused := h.used j y hy
    simpa [hout hy] using hused
  · simp only [Function.update_of_ne (hout hy), Function.update_of_ne (hout hz)] at heq
    exact h.ids j y z hy hz heq
  · by_cases hyx : y = x
    · subst hyx
      simp only [Function.update_self, hlook]
      exact ⟨⟨invPageAddr_aligned p, hlook.symm ▸ hp.inTable.1⟩, hp.notFree, hp.notCached⟩
    · simp only [Function.update_of_ne hyx]
      exact h.held y (hold hyx hy)
  · by_cases hyx : y = x <;> by_cases hzx : z = x
    · rw [hyx, hzx]
    · simp only [hyx, Function.update_self, Function.update_of_ne hzx] at heq
      exact absurd heq.symm (haddr (hold hzx hz))
    · simp only [hzx, Function.update_self, Function.update_of_ne hyx] at heq
      exact absurd heq (haddr (hold hyx hy))
    · simp only [Function.update_of_ne hyx, Function.update_of_ne hzx] at heq
      exact h.apart y z (hold hyx hy) (hold hzx hz) heq

def Allocates (S : Setup ι C) (s : Memory ν C) (ct : Colors) : PageSrc ι → Prop
  | .kern => S.colors ≠ 0 ∧ s.alloc.pageCount (ct.obj.ordered 0).toNat ≠ 0
  | _ => Available S s ct

def Colors.count (ct : Colors) (colors : ℕ) (addr : BitVec 32) : Colors :=
  { ct with obj := changeColorCount colors ct.obj (pageColor colors addr) 1 }

omit [DecidableEq ν] [Fintype ν] in
theorem getAnonPage_eq {addr : BitVec 32} (hcolors : S.colors ≠ 0)
    (h : physPageAlloc S.colors ct.chosen s.alloc = some (a, addr)) :
    getAnonPage S s ct = some ({ s with alloc := a }, ct.count S.colors addr, addr) := by
  rw [getAnonPage, if_neg hcolors, h]
  rfl

theorem anonPageCreate_entered {r : PageSrc ι} {res : Memory ν C × Colors × BitVec 32}
    (h : anonPageCreate S s r ct id x = some res) :
    s.locked = false ∧ s.used x = false ∧ anonFind s id = some none := by
  unfold anonPageCreate at h
  split at h
  · cases h
  · rename_i henter
    obtain ⟨found, hfind, h⟩ := Option.bind_eq_some_iff.mp h
    split at h
    · cases h
    · rename_i hfound
      rw [not_not.mp hfound] at hfind
      exact ⟨by simpa using (not_or.mp henter).1, by simpa using (not_or.mp henter).2, hfind⟩

section Create

theorem Consistent.unknown (h : Consistent S pages s ring chains nodes)
    (hfind : anonFind s id = some none) : ∀ j y, some y ∈ nodes j → (s.anon y).id ≠ id := by
  rcases h.anonLookup id with ⟨y, -, -, heq⟩ | ⟨hno, -⟩
  · rw [hfind] at heq
    cases heq
  · exact hno

omit [DecidableEq ν] [Fintype ν] in
theorem setContents_same (hp : p < 2 ^ 20) :
    ({ s with alloc := a }.setContents (invPageAddr p) (s.contents p) : Memory ν C) =
      { s with alloc := a } := by
  rw [Memory.setContents, invPageLookup_addr hp, Function.update_eq_self]

variable (h : Consistent S pages s ring chains nodes) (hlock : s.locked = false)
  (hx : s.used x = false) (hfind : anonFind s id = some none)

include h hlock hx hfind

omit h in
theorem anonPageCreate_enter {α : Type*} (f : Option α) :
    (if s.locked = true ∨ s.used x = true then none
      else (anonFind s id).bind fun found => if found ≠ none then none else f) = f := by
  rw [if_neg (by simp [hlock, hx]), hfind]
  simp

theorem Consistent.create_null (hav : Available S s ct) :
    ∃ s' ct' p, anonPageCreate S s .null ct id x = some (s', ct', id) ∧
      Created S pages s s' chains x p ∧ s'.contents = s.contents := by
  obtain ⟨a, p, ring', halloc, hcons, hloose, hfields, htaken⟩ := h.alloc hav
  have hcreated := hcons.enter hav.colors hloose hfields htaken hx (h.unknown hfind)
    (s.contents p)
  rw [setContents_same hloose.inTable.2] at hcreated
  refine ⟨_, ct.count S.colors (invPageAddr p), p, ?_, hcreated, rfl⟩
  rw [anonPageCreate, anonPageCreate_enter hlock hx hfind, getAnonPage_eq hav.colors halloc]
  rfl

theorem Consistent.create_inode (hav : Available S s ct) (i : ι) (offset : BitVec 32) :
    ∃ s' ct' p c, anonPageCreate S s (.inode i offset) ct id x = some (s', ct', id) ∧
      Created S pages s s' chains x p ∧ s'.contents = Function.update s.contents p c ∧
      (c = S.file i offset ∨ ∃ q, some q ∈ chains (cacheBucket (S.id i, offset)) ∧
        src s.alloc.inv (some q) = (S.id i, offset) ∧ c = s.contents q) := by
  obtain ⟨a, p, ring', halloc, hcons, hloose, hfields, htaken⟩ := h.alloc hav
  have hcreated := hcons.enter hav.colors hloose hfields htaken hx (h.unknown hfind)
  have hcontents : ∀ c, (PhysicalMemory.anonInsert ({ s with alloc := a }.setContents
      (invPageAddr p) c) x id (invPageAddr p)).contents = Function.update s.contents p c := by
    intro c
    simp [PhysicalMemory.anonInsert, Memory.setContents, invPageLookup_addr hloose.inTable.2]
  rcases hcons.cacheLookup (S.id i) offset with ⟨q, hq, hsrc, hlook⟩ | ⟨-, hlook⟩
  · refine ⟨_, ct.count S.colors (invPageAddr p), p, s.contents q, ?_, hcreated _, hcontents _,
      Or.inr ⟨q, hq, ?_, rfl⟩⟩
    · rw [anonPageCreate, anonPageCreate_enter hlock hx hfind, getAnonPage_eq hav.colors halloc]
      simp only [Option.map_some, Option.bind_some, hlook, ne_eq, invPageAddr_ne_null,
        not_false_eq_true, if_true, invPageLookup_addr (hcons.cached _ q hq).1.2]
    · rw [← hsrc, src_congr (hfields q)]
  · refine ⟨_, ct.count S.colors (invPageAddr p), p, S.file i offset, ?_, hcreated _, hcontents _,
      Or.inl rfl⟩
    rw [anonPageCreate, anonPageCreate_enter hlock hx hfind, getAnonPage_eq hav.colors halloc]
    simp only [Option.map_some, Option.bind_some, hlook, ne_eq, not_true_eq_false, if_false]

theorem Consistent.create_kern
    (hav : S.colors ≠ 0 ∧ s.alloc.pageCount (ct.obj.ordered 0).toNat ≠ 0) :
    ∃ s' ct' p, anonPageCreate S s .kern ct id x = some (s', ct', id) ∧
      Created S pages s s' chains x p := by
  obtain ⟨p, l, hl⟩ := List.exists_cons_of_ne_nil (mt (h.lists.empty_iff _).mpr hav.2)
  obtain ⟨a, htake, hcons, hloose⟩ := h.take hl
  have hcreated := hcons.enter hav.1 hloose (takePage_cacheFields htake)
    (takes_takePage hav.2 htake) hx (h.unknown hfind) (s.contents p)
  rw [setContents_same hloose.inTable.2] at hcreated
  refine ⟨_, { ct with obj := changeColorCount S.colors ct.obj (ct.obj.ordered 0).toNat 1 }, p, ?_,
    hcreated⟩
  rw [anonPageCreate, anonPageCreate_enter hlock hx hfind, kernPageAlloc, if_neg hav.1]
  dsimp only
  rw [if_pos hav.2, htake]
  rfl

theorem Consistent.create_copy (hav : Available S s ct) (page : BitVec 32) :
    ∃ s' ct' p, anonPageCreate S s (.anon page) ct id x = some (s', ct', id) ∧
      Created S pages s s' chains x p := by
  obtain ⟨a, p, ring', halloc, hcons, hloose, hfields, htaken⟩ := h.alloc hav
  have hcreated := hcons.leak hav.colors hloose hfields htaken hx id
  rcases hcons.anonLookup page with ⟨y, -, -, hlook⟩ | ⟨-, hlook⟩
  · refine ⟨_, ct.count S.colors (invPageAddr p), p, ?_, hcreated (Function.update s.contents p
      (s.contents (invPageLookup (s.anon y).addr)))⟩
    rw [anonPageCreate, anonPageCreate_enter hlock hx hfind, getAnonPage_eq hav.colors halloc]
    simp only [Option.bind_some, hlook, Option.map_some, Memory.setContents,
      invPageLookup_addr hloose.inTable.2]
  · refine ⟨_, ct.count S.colors (invPageAddr p), p, ?_, hcreated s.contents⟩
    rw [anonPageCreate, anonPageCreate_enter hlock hx hfind, getAnonPage_eq hav.colors halloc]
    simp only [Option.bind_some, hlook, Option.map_some]

theorem Consistent.create {r : PageSrc ι} (hav : Allocates S s ct r) :
    ∃ s' ct' p, anonPageCreate S s r ct id x = some (s', ct', id) ∧
      Created S pages s s' chains x p := by
  cases r with
  | null =>
    obtain ⟨s', ct', p, hstep, hcreated, -⟩ := h.create_null hlock hx hfind hav
    exact ⟨s', ct', p, hstep, hcreated⟩
  | inode i offset =>
    obtain ⟨s', ct', p, -, hstep, hcreated, -⟩ := h.create_inode hlock hx hfind hav i offset
    exact ⟨s', ct', p, hstep, hcreated⟩
  | anon page => exact h.create_copy hlock hx hfind hav page
  | kern => exact h.create_kern hlock hx hfind hav

end Create

end Pages

/-- `fetched` are the fetches of inode pages so far, with the addresses that they returned. -/
structure MemHistory (ι ν C : Type*) where
  mem : Memory ν C
  fetched : List ((ι × BitVec 32) × BitVec 32)

inductive MemEvent (ι ν : Type*) where
  | fetch (i : ι) (offset : BitVec 32) (ct : Colors) (out : BitVec 32)
  | create (src : PageSrc ι) (ct : Colors) (id : BitVec 32) (x : ν)
  | free (id : BitVec 32)

def memStep (S : Setup ι C) (h : MemHistory ι ν C) : MemEvent ι ν → Option (MemHistory ι ν C)
  | .fetch i offset ct out => (physPageFetch S h.mem (.inode i offset) ct out).map fun r =>
      ⟨r.1, ((i, offset), r.2.2) :: h.fetched⟩
  | .create src ct id x => (anonPageCreate S h.mem src ct id x).map fun r => { h with mem := r.1 }
  | .free id => (anonPageFree S h.mem id).map fun s => { h with mem := s }

def Supplied (S : Setup ι C) (h : MemHistory ι ν C) : MemEvent ι ν → Prop
  | .fetch i offset ct _ =>
    pageCacheLookup h.mem (S.id i) offset = some NULL_PHYS_PAGE → Available S h.mem ct
  | .create src ct _ _ => Allocates S h.mem ct src
  | .free _ => True

structure Fresh (S : Setup ι C) (pages : ℕ) (h : MemHistory ι ν C) (ring : ℕ → List ℕ) : Prop where
  lists : FreeLists pages S.colors h.mem.alloc ring
  cache : h.mem.cache = fun _ => none
  anonTable : h.mem.anonTable = fun _ => none
  used : ∀ x, h.mem.used x = false
  fetched : h.fetched = []

section Histories

variable {S : Setup ι C} {pages : ℕ} {h h' : MemHistory ι ν C} {ring : ℕ → List ℕ}

def Recorded (S : Setup ι C) (pages : ℕ) (h : MemHistory ι ν C) : Prop :=
  ∃ ring chains nodes, Consistent S pages h.mem ring chains nodes ∧
    ∀ r ∈ h.fetched, ∃ p, some p ∈ chains (cacheBucket (S.id r.1.1, r.1.2)) ∧
      src h.mem.alloc.inv (some p) = (S.id r.1.1, r.1.2) ∧ r.2 = invPageAddr p

omit [Fintype ν] in
theorem recorded_fresh (hfresh : Fresh S pages h ring) : Recorded S pages h := by
  have hcache : HashTable cacheNext none src cacheBucket isNode h.mem.alloc.inv h.mem.cache
      fun _ => [] := hfresh.cache ▸ HashTable.empty _
  have hanon : HashTable anonNext none anonId anonBucket isNode h.mem.anon h.mem.anonTable
      fun _ => [] := hfresh.anonTable ▸ HashTable.empty _
  have hused : ∀ {x}, ¬ h.mem.used x = true := fun {x} hx => by
    rw [hfresh.used x] at hx
    cases hx
  refine ⟨ring, _, _, ⟨hfresh.lists, hcache, ?_, ?_, hanon, ?_, ?_, fun x hx => absurd hx hused,
    fun x y hx => absurd hx hused, fun _ => ⟨?_, hfresh.used⟩⟩, fun r hr => ?_⟩
  · intro j p hp
    cases hp
  · intro j p q hp
    cases hp
  · intro j x hx
    cases hx
  · intro j x y hx
    cases hx
  · intro j p hp
    cases hp
  · rw [hfresh.fetched] at hr
    cases hr

theorem step_preserves_recorded {e : MemEvent ι ν} (hrec : Recorded S pages h)
    (hg : Supplied S h e) (hstep : memStep S h e = some h') : Recorded S pages h' := by
  obtain ⟨ring, chains, nodes, hcons, hfetched⟩ := hrec
  cases e with
  | fetch i offset ct out =>
    obtain ⟨r, hr, rfl⟩ := Option.map_eq_some_iff.mp hstep
    have hlock : h.mem.locked = false := by
      by_contra hlock
      rw [physPageFetch, if_pos (by simpa using hlock)] at hr
      cases hr
    obtain ⟨s', ct', ring', chains', p, hfetch, hcons', hgrows, hp, hsrc, -⟩ :=
      hcons.fetch hlock i offset out hg
    rw [hfetch] at hr
    cases hr
    refine ⟨ring', chains', nodes, hcons', fun r hr => ?_⟩
    rcases List.mem_cons.mp hr with rfl | hr
    · exact ⟨p, hp, hsrc, rfl⟩
    · obtain ⟨q, hq, hqsrc, heq⟩ := hfetched r hr
      obtain ⟨hq', hsame⟩ := hgrows _ q hq
      exact ⟨q, hq', hsame.trans hqsrc, heq⟩
  | create r ct id x =>
    obtain ⟨res, hres, rfl⟩ := Option.map_eq_some_iff.mp hstep
    obtain ⟨hlock, hx, hfind⟩ := anonPageCreate_entered hres
    obtain ⟨s', ct', p, hcreate, hcreated⟩ := hcons.create hlock hx hfind hg
    rw [hcreate] at hres
    cases hres
    obtain ⟨ring', nodes', hcons', -⟩ := hcreated.consistent
    refine ⟨ring', chains, nodes', hcons', fun r hr => ?_⟩
    obtain ⟨q, hq, hsrc, heq⟩ := hfetched r hr
    exact ⟨q, hq, (src_congr (hcreated.fields q)).trans hsrc, heq⟩
  | free id =>
    obtain ⟨s', hs', rfl⟩ := Option.map_eq_some_iff.mp hstep
    have hlock : h.mem.locked = false := by
      by_contra hlock
      rw [anonPageFree, if_pos (by simpa using hlock)] at hs'
      cases hs'
    rcases hcons.anonLookup id with ⟨x, hx, hid, -⟩ | ⟨hno, -⟩
    · obtain ⟨s₁, nodes', ring', hfree, hcons', -, -, -, -, -, hfields⟩ :=
        hcons.release hlock hx hid
      rw [hfree] at hs'
      cases hs'
      refine ⟨ring', chains, nodes', hcons', fun r hr => ?_⟩
      obtain ⟨q, hq, hsrc, heq⟩ := hfetched r hr
      exact ⟨q, hq, (src_congr (hfields q)).trans hsrc, heq⟩
    · rw [hcons.missing hlock hno] at hs'
      cases hs'
      exact ⟨ring, chains, nodes, ⟨hcons.lists, hcons.cache, hcons.cached, hcons.sources,
        hcons.anon, hcons.used, hcons.ids, hcons.held, hcons.apart, hcons.colored⟩, hfetched⟩

theorem recorded_run {start : MemHistory ι ν C} (hfresh : Fresh S pages start ring)
    (hrun : Execution (memStep S) (Supplied S) start h) : Recorded S pages h :=
  hrun.preserves (fun _ _ _ hrec hg hstep => step_preserves_recorded hrec hg hstep)
    (recorded_fresh hfresh)

/-- Fetches return the same page exactly for the same source, and never the page of a live anonymous
page. -/
theorem page_cache_coherent {start : MemHistory ι ν C} (hid : Function.Injective S.id)
    (hfresh : Fresh S pages start ring)
    (hrun : Execution (memStep S) (Supplied S) start h) :
    (∀ r₁ ∈ h.fetched, ∀ r₂ ∈ h.fetched, r₁.1 = r₂.1 ↔ r₁.2 = r₂.2) ∧
    (∀ r ∈ h.fetched, ∀ x, h.mem.used x = true → (h.mem.anon x).addr ≠ r.2) ∧
    ∀ i offset ct out, Supplied S h (.fetch i offset ct out) → h.mem.locked = false →
      ∃ h', memStep S h (.fetch i offset ct out) = some h' := by
  obtain ⟨ring', chains, nodes, hcons, hfetched⟩ := recorded_run hfresh hrun
  refine ⟨fun r₁ hr₁ r₂ hr₂ => ?_, fun r hr x hx heq => ?_, fun i offset ct out hav hlock => ?_⟩
  · obtain ⟨p, hp, hpsrc, hpaddr⟩ := hfetched r₁ hr₁
    obtain ⟨q, hq, hqsrc, hqaddr⟩ := hfetched r₂ hr₂
    constructor
    · intro heq
      rw [← heq] at hq hqsrc
      rw [hpaddr, hqaddr, hcons.sources _ p q hp hq (hpsrc.trans hqsrc.symm)]
    · intro heq
      rw [hpaddr, hqaddr] at heq
      obtain rfl := invPageAddr_inj (hcons.cached _ p hp).1.2 (hcons.cached _ q hq).1.2 heq
      have hkey := Prod.mk.inj (hpsrc.symm.trans hqsrc)
      exact Prod.ext (hid hkey.1) hkey.2
  · obtain ⟨p, hp, -, hpaddr⟩ := hfetched r hr
    obtain ⟨-, -, hcached⟩ := hcons.held x hx
    rw [heq, hpaddr, invPageLookup_addr (hcons.cached _ p hp).1.2] at hcached
    exact hcached _ hp
  · obtain ⟨s', ct', -, -, p, hfetch, -⟩ := hcons.fetch hlock i offset out hav
    exact ⟨_, by rw [memStep, hfetch]; rfl⟩

/-- As long as every allocation finds a page, live anonymous pages have pages of their own, and the
colors are counted for pages that were taken. -/
theorem anonymous_pages_apart {start : MemHistory ι ν C} (hfresh : Fresh S pages start ring)
    (hrun : Execution (memStep S) (Supplied S) start h) :
    (∀ x y, h.mem.used x = true → h.mem.used y = true →
      (h.mem.anon x).addr = (h.mem.anon y).addr → x = y) ∧
    ∀ r ct id x s' ct' id', Allocates S h.mem ct r →
      anonPageCreate S h.mem r ct id x = some (s', ct', id') → Takes h.mem.alloc s'.alloc := by
  obtain ⟨ring', chains, nodes, hcons, -⟩ := recorded_run hfresh hrun
  refine ⟨hcons.apart, fun r ct id x s' ct' id' hav hcreate => ?_⟩
  obtain ⟨hlock, hx, hfind⟩ := anonPageCreate_entered hcreate
  obtain ⟨s₁, ct₁, p, hcreate', hcreated⟩ := hcons.create hlock hx hfind hav
  rw [hcreate] at hcreate'
  cases hcreate'
  exact hcreated.taken

end Histories

instance (S : Setup ι C) (s : Memory ν C) (ct : Colors) : Decidable (Available S s ct) :=
  inferInstanceAs (Decidable (∃ i < _, _))

instance (S : Setup ι C) (s : Memory ν C) (ct : Colors) :
    ∀ r : PageSrc ι, Decidable (Allocates S s ct r)
  | .kern => inferInstanceAs (Decidable (_ ∧ _))
  | .null | .inode _ _ | .anon _ => inferInstanceAs (Decidable (Available S s ct))

instance (S : Setup ι C) (h : MemHistory ι ν C) (e : MemEvent ι ν) : Decidable (Supplied S h e) := by
  cases e <;> unfold Supplied <;> infer_instance

def twoInodes : Setup Bool Unit where
  colors := 1
  id i := if i then 1 else 2
  file _ _ := ()
  zero := ()

def stockedAlloc (addrs : List (BitVec 32)) : Allocator :=
  (physPageInsert 1 (noPages fun _ => blankPage) addrs).getD (noPages fun _ => blankPage)

def stocked (addrs : List (BitVec 32)) : MemHistory Bool (Fin 3) Unit where
  mem :=
    { alloc := stockedAlloc addrs
      cache := fun _ => none
      anon := fun _ => ⟨0, none, 0⟩
      anonTable := fun _ => none
      used := fun _ => false
      locked := false
      contents := fun _ => () }
  fetched := []

def oneColor : Colors where
  spc := ⟨fun _ => 0, fun _ => 0, fun _ => 0⟩
  obj := ⟨fun _ => 0, fun _ => 0, fun _ => 0⟩
  shared := false

theorem stocked_fresh (addrs : List (BitVec 32))
    (haddrs : Returnable 16 (startHistory fun _ => blankPage) addrs)
    (hins : physPageInsert 1 (noPages fun _ => blankPage) addrs = some (stockedAlloc addrs)) :
    ∃ ring, Fresh twoInodes 16 (stocked addrs) ring := by
  have hbooked : Booked 16 1 (startHistory fun _ => blankPage) fun _ => [] := booked_start _
  obtain ⟨ring, hb⟩ := hbooked.insert haddrs hins
  exact ⟨ring, hb.lists, rfl, rfl, fun _ => rfl, rfl⟩

theorem page_cache_coherent_again : ∃ h : MemHistory Bool (Fin 3) Unit,
    Execution (memStep twoInodes) (Supplied twoInodes)
        (stocked [0x1000, 0x2000, 0x3000, 0x4000]) h ∧
      h.fetched = [((true, 7), 0x4000), ((false, 7), 0x2000), ((true, 7), 0x4000)] ∧
      h.mem.used 1 = true ∧ (h.mem.anon 1).addr = 0x1000 ∧
      (∀ r₁ ∈ h.fetched, ∀ r₂ ∈ h.fetched, r₁.1 = r₂.1 ↔ r₁.2 = r₂.2) ∧
      (∀ r ∈ h.fetched, ∀ x, h.mem.used x = true → (h.mem.anon x).addr ≠ r.2) := by
  have hrun : (follow (memStep twoInodes) (Supplied twoInodes)
      (stocked [0x1000, 0x2000, 0x3000, 0x4000])
      [.fetch true 7 oneColor 0, .create .null oneColor 5 0, .fetch false 7 oneColor 0,
        .create (.inode true 7) oneColor 6 1, .free 5, .fetch true 7 oneColor 0]).map
      (fun h => decide (h.fetched = [((true, 7), 0x4000), ((false, 7), 0x2000), ((true, 7), 0x4000)] ∧
        h.mem.used 1 = true ∧ (h.mem.anon 1).addr = 0x1000)) = some true := by
    decide +kernel
  obtain ⟨h, hh, hd⟩ := Option.map_eq_some_iff.mp hrun
  obtain ⟨hfetched, hused, haddr⟩ := of_decide_eq_true hd
  have hexec := execution_of_follow hh
  have hid : Function.Injective twoInodes.id := by decide
  obtain ⟨ring, hfresh⟩ := stocked_fresh [0x1000, 0x2000, 0x3000, 0x4000] (by decide +kernel) rfl
  obtain ⟨hsame, hapart, -⟩ := page_cache_coherent hid hfresh hexec
  exact ⟨h, hexec, hfetched, hused, haddr, hsame, hapart⟩

/-- Anonymous pages of every kind of source, the first of them freed again. -/
theorem anonymous_pages_apart_kinds : ∃ h : MemHistory Bool (Fin 3) Unit,
    Execution (memStep twoInodes) (Supplied twoInodes)
        (stocked [0x1000, 0x2000, 0x3000]) h ∧
      h.mem.used = (fun x => decide (x ≠ 0)) ∧
      (∀ x y, h.mem.used x = true → h.mem.used y = true →
        (h.mem.anon x).addr = (h.mem.anon y).addr → x = y) ∧
      ∀ r ct id x s' ct' id', Allocates twoInodes h.mem ct r →
        anonPageCreate twoInodes h.mem r ct id x = some (s', ct', id') →
        Takes h.mem.alloc s'.alloc := by
  have hrun : (follow (memStep twoInodes) (Supplied twoInodes)
      (stocked [0x1000, 0x2000, 0x3000])
      [.create .null oneColor 5 0, .create .kern oneColor 6 1, .create (.anon 5) oneColor 7 2,
        .free 5]).map (fun h => decide (h.mem.used = fun x => decide (x ≠ 0))) = some true := by
    decide +kernel
  obtain ⟨h, hh, hd⟩ := Option.map_eq_some_iff.mp hrun
  have hexec := execution_of_follow hh
  obtain ⟨ring, hfresh⟩ := stocked_fresh [0x1000, 0x2000, 0x3000] (by decide +kernel) rfl
  exact ⟨h, hexec, of_decide_eq_true hd, anonymous_pages_apart hfresh hexec⟩

/-- When the only page is taken, the next two anonymous pages both have the address 0, and a color
is counted for them. -/
theorem exhausted_pages_alias : ∃ h s' ct',
    Execution (memStep twoInodes) (fun _ _ => True) (stocked [0x1000]) h ∧
      anonPageCreate twoInodes h.mem .null oneColor 7 2 = some (s', ct', 7) ∧
      s'.used 1 = true ∧ s'.used 2 = true ∧ (s'.anon 1).addr = (s'.anon 2).addr ∧
      s'.alloc.pageCount 0 = h.mem.alloc.pageCount 0 ∧ ct'.obj.count 0 ≠ oneColor.obj.count 0 := by
  have hrun : (follow (memStep twoInodes) (fun _ _ => True) (stocked [0x1000])
      [.create .null oneColor 5 0, .create .null oneColor 6 1]).map
      (fun h => decide ((anonPageCreate twoInodes h.mem .null oneColor 7 2).map (fun r =>
        decide (r.2.2 = 7 ∧ r.1.used 1 = true ∧ r.1.used 2 = true ∧
          (r.1.anon 1).addr = (r.1.anon 2).addr ∧
          r.1.alloc.pageCount 0 = h.mem.alloc.pageCount 0 ∧
          r.2.1.obj.count 0 ≠ oneColor.obj.count 0)) = some true)) = some true := by
    decide +kernel
  obtain ⟨h, hh, hd⟩ := Option.map_eq_some_iff.mp hrun
  obtain ⟨⟨s', ct', id⟩, hcreate, hr⟩ := Option.map_eq_some_iff.mp (of_decide_eq_true hd)
  obtain ⟨rfl, hfacts⟩ := of_decide_eq_true hr
  exact ⟨h, s', ct', execution_of_follow hh, hcreate, hfacts⟩

end PhysicalMemory
