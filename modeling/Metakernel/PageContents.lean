import Metakernel.PhysicalMemory

/-!
# What page sources show

The contents of a source are found on its physical page, or in the file where an inode page is not
cached. A new anonymous page has a physical page that no other source has.
-/
namespace PageContents

open DataStructures NodeTables PhysicalPages PhysicalMemory

variable {ι ν C : Type*} [DecidableEq ν] [Fintype ν]

def anonPage (s : Memory ν C) (id : BitVec 32) : Option ℕ :=
  (anonFind s id).join.map fun x => invPageLookup (s.anon x).addr

def cachedPage (s : Memory ν C) (inode offset : BitVec 32) : Option ℕ :=
  (pageCacheLookup s inode offset).bind fun a =>
    if a = NULL_PHYS_PAGE then none else some (invPageLookup a)

def srcContents (S : Setup ι C) (s : Memory ν C) : PageSrc ι → Option C
  | .anon id => (anonPage s id).map s.contents
  | .inode i offset => some ((cachedPage s (S.id i) offset).elim (S.file i offset) s.contents)
  | .null | .kern => none

def Sound (S : Setup ι C) (pages : ℕ) (s : Memory ν C) : Prop :=
  (∃ ring chains nodes, Consistent S pages s ring chains nodes) ∧ s.locked = false

section Lookup

variable {S : Setup ι C} {pages : ℕ} {s s' : Memory ν C} {ring : ℕ → List ℕ}
  {chains : ℕ → List (Option ℕ)} {nodes : ℕ → List (Option ν)} {id inode offset : BitVec 32} {p : ℕ}

theorem anonPage_iff (h : Consistent S pages s ring chains nodes) :
    anonPage s id = some p ↔
      ∃ j x, some x ∈ nodes j ∧ (s.anon x).id = id ∧ invPageLookup (s.anon x).addr = p := by
  rcases h.anonLookup id with ⟨x, hx, hid, hfind⟩ | ⟨hno, hfind⟩
  · have hpage : anonPage s id = some (invPageLookup (s.anon x).addr) := by simp [anonPage, hfind]
    rw [hpage, Option.some_inj]
    constructor
    · intro heq
      exact ⟨_, x, hx, hid, heq⟩
    · rintro ⟨j, y, hy, hyid, heq⟩
      have hj : j = anonBucket id := by
        have hb := h.anon.bucket j _ hy
        rw [anonId, Option.map_some, Option.getD_some, hyid] at hb
        exact hb.symm
      subst hj
      rw [← h.ids _ y x hy hx (hyid.trans hid.symm), heq]
  · have hpage : anonPage s id = none := by simp [anonPage, hfind]
    rw [hpage]
    constructor
    · intro heq
      cases heq
    · rintro ⟨j, y, hy, hyid, -⟩
      exact absurd hyid (hno j y hy)

omit [Fintype ν] in
theorem cachedPage_iff (h : Consistent S pages s ring chains nodes) :
    cachedPage s inode offset = some p ↔
      ∃ j, some p ∈ chains j ∧ src s.alloc.inv (some p) = (inode, offset) := by
  rcases h.cacheLookup inode offset with ⟨q, hq, hsrc, hlook⟩ | ⟨hno, hlook⟩
  · have hpage : cachedPage s inode offset = some q := by
      simp [cachedPage, hlook, invPageAddr_ne_null, invPageLookup_addr (h.cached _ q hq).1.2]
    rw [hpage, Option.some_inj]
    constructor
    · rintro rfl
      exact ⟨_, hq, hsrc⟩
    · rintro ⟨j, hp, hpsrc⟩
      have hb := h.cache.bucket j _ hp
      rw [hpsrc] at hb
      subst hb
      exact h.sources _ q p hq hp (hsrc.trans hpsrc.symm)
  · have hpage : cachedPage s inode offset = none := by simp [cachedPage, hlook]
    rw [hpage]
    constructor
    · intro heq
      cases heq
    · rintro ⟨j, hp, hpsrc⟩
      exact absurd hpsrc (hno j p hp)

end Lookup

/-- The physical page `p` is the page of the anonymous page `id` and of nothing else. -/
structure Own (s : Memory ν C) (id : BitVec 32) (p : ℕ) : Prop where
  page : anonPage s id = some p
  anon : ∀ id', anonPage s id' = some p → id' = id
  cached : ∀ inode offset, cachedPage s inode offset ≠ some p

/-- The anonymous page `id` was entered and shows `c`; what all other sources show is the same. -/
structure Entered (S : Setup ι C) (pages : ℕ) (s s' : Memory ν C) (id : BitVec 32) (c : C) :
    Prop where
  sound : Sound S pages s'
  own : ∃ p, Own s' id p
  shows : srcContents S s' (.anon id) = some c
  others : ∀ r, r ≠ .anon id → srcContents S s' r = srcContents S s r

/-- The anonymous page `id` is registered with the physical page `p`, and the others are as
before. -/
structure EnteredAt (s s' : Memory ν C) (id : BitVec 32) (p : ℕ) : Prop where
  page : anonPage s' id = some p
  kept : ∀ id', id' ≠ id → anonPage s' id' = anonPage s id'

/-- The page that the next allocation takes holds `c` already. -/
def NextHolds (S : Setup ι C) (s : Memory ν C) (ct : Colors) (c : C) : Prop :=
  ∀ r ∈ physPageAlloc S.colors ct.chosen s.alloc, s.contents (invPageLookup r.2) = c

section Create

variable {S : Setup ι C} {pages : ℕ} {s s' : Memory ν C} {ring : ℕ → List ℕ}
  {chains : ℕ → List (Option ℕ)} {nodes : ℕ → List (Option ν)} {id inode offset addr : BitVec 32}
  {p : ℕ} {a : Allocator} {x : ν} {c : C} {ct ct' : Colors}

/-- A source keeps its contents when at most another page was written. -/
theorem srcContents_frame {r : PageSrc ι}
    (hanon : ∀ id', r = .anon id' → anonPage s' id' = anonPage s id' ∧ anonPage s id' ≠ some p)
    (hcached : ∀ i o, cachedPage s' i o = cachedPage s i o ∧ cachedPage s i o ≠ some p)
    (hcontents : ∀ q, q ≠ p → s'.contents q = s.contents q) :
    srcContents S s' r = srcContents S s r := by
  cases r with
  | null | kern => rfl
  | anon id' =>
    obtain ⟨hsame, hne⟩ := hanon id' rfl
    rw [srcContents, srcContents, hsame]
    refine Option.map_congr fun q hq => hcontents q ?_
    rintro rfl
    exact hne hq
  | inode i o =>
    obtain ⟨hsame, hne⟩ := hcached (S.id i) o
    rw [srcContents, srcContents, hsame]
    cases hq : cachedPage s (S.id i) o with
    | none => rfl
    | some q =>
      refine congrArg some (hcontents q ?_)
      rintro rfl
      exact hne hq

theorem Own.store (h : Own s id p) (haddr : invPageLookup addr = p) (c : C) (S : Setup ι C) :
    srcContents S (s.setContents addr c) (.anon id) = some c ∧
      ∀ r, r ≠ .anon id → srcContents S (s.setContents addr c) r = srcContents S s r := by
  have hanon : ∀ id', anonPage (s.setContents addr c) id' = anonPage s id' := fun _ => rfl
  have hcached : ∀ i o, cachedPage (s.setContents addr c) i o = cachedPage s i o := fun _ _ => rfl
  have hcontents : (s.setContents addr c).contents = Function.update s.contents p c := by
    rw [Memory.setContents, haddr]
  constructor
  · rw [srcContents, hanon, h.page, hcontents, Option.map_some, Function.update_self]
  · intro r hr
    refine srcContents_frame (fun id' hid' => ⟨hanon id', fun heq => hr ?_⟩)
      (fun i o => ⟨hcached i o, h.cached i o⟩) fun q hq => ?_
    · rw [hid', h.anon id' heq]
    · rw [hcontents, Function.update_of_ne hq]

omit [Fintype ν] in
theorem Sound.setContents (h : Sound S pages s) (addr : BitVec 32) (c : C) :
    Sound S pages (s.setContents addr c) := by
  obtain ⟨⟨ring, chains, nodes, hcons⟩, hlock⟩ := h
  exact ⟨⟨ring, chains, nodes, hcons.setContents addr c⟩, hlock⟩

theorem entered_insert {ring' : ℕ → List ℕ} (h : Consistent S pages s ring chains nodes)
    (hcons : Consistent S pages { s with alloc := a } ring' chains nodes)
    (hlock : s.locked = false) (hcolors : S.colors ≠ 0) (hp : Loose pages s ring' chains p)
    (hfields : ∀ q, cacheFields a.inv q = cacheFields s.alloc.inv q) (hx : s.used x = false)
    (hnew : ∀ j y, some y ∈ nodes j → (s.anon y).id ≠ id) :
    Entered S pages s (anonInsert ({ s with alloc := a }.setContents (invPageAddr p) c) x id
        (invPageAddr p)) id c ∧
      EnteredAt s (anonInsert ({ s with alloc := a }.setContents (invPageAddr p) c) x id
        (invPageAddr p)) id p := by
  generalize hs₁ : ({ s with alloc := a }.setContents (invPageAddr p) c : Memory ν C) = s₁
  have hlook := invPageLookup_addr hp.inTable.2
  have hloose : Loose pages s₁ ring' chains p :=
    hs₁ ▸ ⟨hp.inTable, hp.notFree, hp.notCached, hp.notHeld⟩
  have hanon₁ : s₁.anon = s.anon := by rw [← hs₁, Memory.setContents]
  have hused₁ : s₁.used = s.used := by rw [← hs₁, Memory.setContents]
  have hinv₁ : s₁.alloc.inv = a.inv := by rw [← hs₁, Memory.setContents]
  have hcontents₁ : s₁.contents = Function.update s.contents p c := by
    rw [← hs₁, Memory.setContents, hlook]
  have hcons' := (hs₁ ▸ hcons.setContents (invPageAddr p) c :
    Consistent S pages s₁ ring' chains nodes).anonInsert hcolors hloose (hused₁ ▸ hx)
      (fun j y hy => by rw [hanon₁]; exact hnew j y hy)
  have hlock' : (anonInsert s₁ x id (invPageAddr p)).locked = false := by
    rw [← hlock, anonInsert, ← hs₁, Memory.setContents]
  have hcontents : (anonInsert s₁ x id (invPageAddr p)).contents =
      Function.update s.contents p c := hcontents₁
  have hinv : (anonInsert s₁ x id (invPageAddr p)).alloc.inv = a.inv := hinv₁
  have hset := anonNext_set_fields
    (Function.update s₁.anon x { s₁.anon x with id := id, addr := invPageAddr p }) (some x)
  have hself : ((anonInsert s₁ x id (invPageAddr p)).anon x).id = id ∧
      ((anonInsert s₁ x id (invPageAddr p)).anon x).addr = invPageAddr p := by
    simp [anonInsert, hashTableInsert, (hset _ x).1, (hset _ x).2]
  have hother : ∀ y, y ≠ x → ((anonInsert s₁ x id (invPageAddr p)).anon y).id = (s.anon y).id ∧
      ((anonInsert s₁ x id (invPageAddr p)).anon y).addr = (s.anon y).addr := by
    intro y hy
    simp only [anonInsert, hashTableInsert]
    rw [(hset _ y).1, (hset _ y).2, Function.update_of_ne hy, hanon₁]
    exact ⟨rfl, rfl⟩
  generalize hs' : anonInsert s₁ x id (invPageAddr p) = s' at *
  have hout : ∀ {j y}, some y ∈ nodes j → y ≠ x := by
    rintro j y hy rfl
    have hused := h.used j y hy
    rw [hx] at hused
    cases hused
  have hcached : ∀ i o, cachedPage s' i o = cachedPage s i o := by
    intro i o
    ext q
    have hsrc : src s'.alloc.inv (some q) = src s.alloc.inv (some q) := by
      rw [hinv]
      exact src_congr (hfields q)
    rw [cachedPage_iff hcons', cachedPage_iff h, hsrc]
  have hanon : ∀ id', id' ≠ id → anonPage s' id' = anonPage s id' := by
    intro id' hid'
    ext q
    rw [anonPage_iff hcons', anonPage_iff h]
    constructor
    · rintro ⟨j, y, hy, hyid, hq⟩
      have hyx : y ≠ x := by
        rintro rfl
        exact hid' (hyid.symm.trans hself.1)
      rw [(hother y hyx).1] at hyid
      rw [(hother y hyx).2] at hq
      rcases mem_update_cons.mp hy with ⟨heq, -⟩ | hy
      · exact absurd (Option.some_inj.mp heq) hyx
      · exact ⟨j, y, hy, hyid, hq⟩
    · rintro ⟨j, y, hy, hyid, hq⟩
      have hyx := hout hy
      refine ⟨j, y, mem_update_cons.mpr (Or.inr hy), ?_, ?_⟩
      · rw [(hother y hyx).1, hyid]
      · rw [(hother y hyx).2, hq]
  have hpage : anonPage s' id = some p := (anonPage_iff hcons').mpr
    ⟨_, x, mem_update_cons.mpr (Or.inl ⟨rfl, rfl⟩), hself.1, by rw [hself.2, hlook]⟩
  have hheld : ∀ id', anonPage s id' ≠ some p := by
    intro id' heq
    obtain ⟨j, y, hy, -, hq⟩ := (anonPage_iff h).mp heq
    exact hp.notHeld y (h.used j y hy) hq
  have hnocache : ∀ i o, cachedPage s i o ≠ some p := by
    intro i o heq
    obtain ⟨j, hj, -⟩ := (cachedPage_iff h).mp heq
    exact hp.notCached j hj
  refine ⟨⟨⟨⟨_, _, _, hcons'⟩, hlock'⟩, ⟨p, hpage, fun id' heq => ?_, fun i o => ?_⟩, ?_,
    fun r hr => ?_⟩, hpage, hanon⟩
  · by_contra hid'
    exact hheld id' ((hanon id' hid').symm.trans heq)
  · rw [hcached]
    exact hnocache i o
  · rw [srcContents, hpage, hcontents, Option.map_some, Function.update_self]
  · refine srcContents_frame (fun id' hid' => ⟨hanon id' ?_, hheld id'⟩)
      (fun i o => ⟨hcached i o, hnocache i o⟩) fun q hq => ?_
    · rintro rfl
      exact hr hid'
    · rw [hcontents, Function.update_of_ne hq]

section Calls

variable (h : Sound S pages s) (hav : Available S s ct) (hx : s.used x = false)
  (hid : anonFind s id = some none)

include h hav hx hid

/-- A new page with what it held before, or a copy of an inode page. -/
theorem Sound.create_at {r : PageSrc ι} (hr : r = .null ∧ NextHolds S s ct c ∨
      (∃ i o, r = .inode i o) ∧ srcContents S s r = some c) :
    ∃ s' ct' a p, physPageAlloc S.colors ct.chosen s.alloc = some (a, invPageAddr p) ∧
      anonPageCreate S s r ct id x = some (s', ct', id) ∧ Entered S pages s s' id c ∧
      EnteredAt s s' id p := by
  obtain ⟨⟨ring, chains, nodes, hcons⟩, hlock⟩ := h
  obtain ⟨a, p, ring', halloc, hcons', hloose, hfields, -⟩ := hcons.alloc hav
  have henter := fun c => entered_insert hcons hcons' hlock hav.colors hloose hfields hx
    (hcons.unknown hid) (c := c)
  rcases hr with ⟨rfl, hnext⟩ | ⟨⟨i, o, rfl⟩, hc⟩
  · have hold : s.contents p = c := by
      rw [← invPageLookup_addr hloose.inTable.2]
      exact hnext _ halloc
    have hsame := henter c
    rw [← hold, setContents_same hloose.inTable.2] at hsame
    refine ⟨_, ct.count S.colors (invPageAddr p), a, p, halloc, ?_, hold ▸ hsame⟩
    rw [anonPageCreate, anonPageCreate_enter hlock hx hid, getAnonPage_eq hav.colors halloc]
    rfl
  · refine ⟨_, ct.count S.colors (invPageAddr p), a, p, halloc, ?_, henter c⟩
    rw [anonPageCreate, anonPageCreate_enter hlock hx hid, getAnonPage_eq hav.colors halloc]
    rcases hcons'.cacheLookup (S.id i) o with ⟨q, hq, hsrc, hlook⟩ | ⟨hno, hlook⟩
    · have hcached : cachedPage s (S.id i) o = some q :=
        (cachedPage_iff hcons).mpr ⟨_, hq, by rw [← hsrc, src_congr (hfields q)]⟩
      rw [srcContents, hcached, Option.elim_some, Option.some_inj] at hc
      simp only [Option.map_some, Option.bind_some, hlook, ne_eq, invPageAddr_ne_null,
        not_false_eq_true, if_true, invPageLookup_addr (hcons'.cached _ q hq).1.2, hc]
    · have hcached : cachedPage s (S.id i) o = none := by
        rw [Option.eq_none_iff_forall_ne_some]
        intro q hq
        obtain ⟨j, hj, hsrc⟩ := (cachedPage_iff hcons).mp hq
        exact hno j q hj ((src_congr (hfields q)).trans hsrc)
      rw [srcContents, hcached, Option.elim_none, Option.some_inj] at hc
      simp only [Option.map_some, Option.bind_some, hlook, ne_eq, not_true_eq_false, if_false, hc]

theorem Sound.create {r : PageSrc ι} (hr : r = .null ∧ NextHolds S s ct c ∨
      (∃ i o, r = .inode i o) ∧ srcContents S s r = some c) :
    ∃ s' ct', anonPageCreate S s r ct id x = some (s', ct', id) ∧ Entered S pages s s' id c := by
  obtain ⟨s', ct', _, _, _, hcreate, hentered, _⟩ := h.create_at hav hx hid hr
  exact ⟨s', ct', hcreate, hentered⟩

omit hav in
theorem Sound.copy_unregistered {page : BitVec 32}
    (hcreate : anonPageCreate S s (.anon page) ct id x = some (s', ct', id)) :
    anonPage s' id = none := by
  obtain ⟨⟨ring, chains, nodes, hcons⟩, hlock⟩ := h
  rw [anonPageCreate, anonPageCreate_enter hlock hx hid] at hcreate
  obtain ⟨⟨s₁, ct₁, addr⟩, hget, hcopy⟩ := Option.bind_eq_some_iff.mp hcreate
  obtain ⟨found, -, hs'⟩ := Option.map_eq_some_iff.mp hcopy
  have hs₁ : s₁.anon = s.anon ∧ s₁.anonTable = s.anonTable := by
    unfold getAnonPage at hget
    split at hget
    · cases hget
    · obtain ⟨r, -, hr⟩ := Option.map_eq_some_iff.mp hget
      cases hr
      exact ⟨rfl, rfl⟩
  have htable : s'.anonTable = s.anonTable := by
    cases hs'
    cases found <;> exact hs₁.2
  have hfields : ∀ y, y ≠ x → s'.anon y = s.anon y := by
    intro y hy
    cases hs'
    cases found <;> simp [Memory.setContents, hy, hs₁.1]
  have hout : ∀ {j y}, some y ∈ nodes j → y ≠ x := by
    rintro j y hy rfl
    have hused := hcons.used j y hy
    rw [hx] at hused
    cases hused
  have htable' : HashTable anonNext none anonId anonBucket isNode s'.anon s'.anonTable nodes := by
    rw [htable]
    refine hcons.anon.congr fun j q hq => ?_
    obtain ⟨y, rfl⟩ := Option.isSome_iff_exists.mp (hcons.anon.nodes j q hq)
    simp [anonNext, tableField, anonId, hfields y (hout hq)]
  have hfind : anonFind s' id = some none := by
    rw [anonFind]
    rcases htable'.lookup_cases id (hcons.nodes_length _) with ⟨q, hq, hqid, -⟩ | ⟨-, heq⟩
    · obtain ⟨y, rfl⟩ := Option.isSome_iff_exists.mp (hcons.anon.nodes _ q hq)
      rw [anonId, Option.map_some, Option.getD_some, hfields y (hout hq)] at hqid
      exact absurd hqid (hcons.unknown hid _ y hq)
    · exact heq
  rw [anonPage, hfind]
  rfl

end Calls

theorem Sound.fetch_anon (h : Sound S pages s) (hcolors : S.colors ≠ 0)
    (hpage : anonPage s id = some p) (ct : Colors) (out : BitVec 32) :
    ∃ ct', physPageFetch S s (.anon id) ct out = some (s, ct', invPageAddr p) ∧
      invPageLookup (invPageAddr p) = p := by
  obtain ⟨⟨ring, chains, nodes, hcons⟩, hlock⟩ := h
  have hlock' : ¬ s.locked = true := by simp [hlock]
  rcases hcons.anonLookup id with ⟨y, hy, -, hfind⟩ | ⟨-, hfind⟩
  · have hpage' : anonPage s id = some (invPageLookup (s.anon y).addr) := by simp [anonPage, hfind]
    have hp := Option.some_inj.mp (hpage'.symm.trans hpage)
    obtain ⟨ct', hfetch⟩ : ∃ ct', physPageFetch S s (.anon id) ct out =
        some (s, ct', (s.anon y).addr) := by
      rw [physPageFetch, if_neg hlock']
      simp only [hfind, Option.bind_some, hcolors, if_false]
      exact ⟨_, rfl⟩
    have hin := (hcons.held y (hcons.used _ y hy)).1
    have haddr : invPageAddr p = (s.anon y).addr := by rw [← hp, invPageAddr_lookup hin.1]
    exact ⟨ct', haddr ▸ hfetch, haddr ▸ hp⟩
  · simp [anonPage, hfind] at hpage

theorem Sound.fetch_inode (h : Sound S pages s) (hav : Available S s ct) {i : ι}
    (hc : srcContents S s (.inode i offset) = some c) (out : BitVec 32) :
    ∃ s' ct' addr, physPageFetch S s (.inode i offset) ct out = some (s', ct', addr) ∧
      s'.contents (invPageLookup addr) = c := by
  obtain ⟨⟨ring, chains, nodes, hcons⟩, hlock⟩ := h
  obtain ⟨s', ct', ring', chains', p, hfetch, hcons', hgrows, hp, hsrc, -, -, -, hsame⟩ :=
    hcons.fetch hlock i offset out fun _ => hav
  refine ⟨s', ct', _, hfetch, ?_⟩
  rw [invPageLookup_addr (hcons'.cached _ p hp).1.2]
  rw [srcContents, Option.some_inj] at hc
  rcases hsame with rfl | ⟨hloose, hcontents⟩
  · rw [← hc, (cachedPage_iff hcons').mpr ⟨_, hp, hsrc⟩, Option.elim_some]
  · have hnone : cachedPage s (S.id i) offset = none := by
      rw [Option.eq_none_iff_forall_ne_some]
      intro q hq
      obtain ⟨j, hj, hqsrc⟩ := (cachedPage_iff hcons).mp hq
      obtain ⟨hj', hqsrc'⟩ := hgrows j q hj
      have hqsrc'' := hqsrc'.trans hqsrc
      have hb := hcons'.cache.bucket j _ hj'
      rw [hqsrc''] at hb
      subst hb
      obtain rfl := hcons'.sources _ q p hj' hp (hqsrc''.trans hsrc.symm)
      exact hloose.notCached _ hj
    rw [← hc, hnone, hcontents, Function.update_self, Option.elim_none]

end Create

def startContents (S : Setup ι C) (s : Memory ν C) : PageSrc ι → Option C
  | .null => some S.zero
  | r => srcContents S s r

/-- The new page is registered, a fetch returns the page that was allocated for it, which holds
what the source holds, and the other anonymous pages are as before. -/
structure Fetchable (S : Setup ι C) (s s' : Memory ν C) (r : PageSrc ι) (ct : Colors)
    (id : BitVec 32) (p : ℕ) : Prop where
  allocated : ∃ a, physPageAlloc S.colors ct.chosen s.alloc = some (a, invPageAddr p)
  registered : anonPage s' id = some p
  fetched : ∀ ct out, ∃ ct', physPageFetch S s' (.anon id) ct out = some (s', ct', invPageAddr p)
  contents : some (s'.contents p) = startContents S s r
  others : ∀ id', id' ≠ id → anonPage s' id' = anonPage s id' ∧
    srcContents S s' (.anon id') = srcContents S s (.anon id')

def CreatesFetchable (S : Setup ι C) (s : Memory ν C) (r : PageSrc ι) (ct : Colors)
    (id : BitVec 32) (x : ν) : Prop :=
  ∃ s' ct' p, anonPageCreate S s r ct id x = some (s', ct', id) ∧ Fetchable S s s' r ct id p

section Created

variable {S : Setup ι C} {pages : ℕ} {s : Memory ν C} {r : PageSrc ι} {ct : Colors}
  {id : BitVec 32} {x : ν} {c : C}

theorem Sound.copy_not_fetchable (h : Sound S pages s) (hx : s.used x = false)
    (hid : anonFind s id = some none) (page : BitVec 32) :
    ¬ CreatesFetchable S s (.anon page) ct id x := by
  rintro ⟨s', ct', p, hcreate, hfetch⟩
  have hpage := hfetch.registered
  rw [h.copy_unregistered hx hid hcreate] at hpage
  cases hpage

theorem Sound.creates_fetchable (h : Sound S pages s) (hav : Available S s ct)
    (hx : s.used x = false) (hid : anonFind s id = some none)
    (hr : r = .null ∧ c = S.zero ∧ NextHolds S s ct c ∨
      (∃ i o, r = .inode i o) ∧ srcContents S s r = some c) :
    CreatesFetchable S s r ct id x := by
  obtain ⟨s', ct', a, p, halloc, hcreate, hentered, hat⟩ :=
    h.create_at hav hx hid (hr.imp_left fun hnull => ⟨hnull.1, hnull.2.2⟩)
  have hshows := hentered.shows
  rw [srcContents, hat.page, Option.map_some] at hshows
  refine ⟨s', ct', p, hcreate, ⟨a, halloc⟩, hat.page, fun ct out => ?_, ?_, fun id' hid' => ?_⟩
  · obtain ⟨ct'', hfetch, -⟩ := hentered.sound.fetch_anon hav.colors hat.page ct out
    exact ⟨ct'', hfetch⟩
  · rcases hr with ⟨rfl, rfl, -⟩ | ⟨⟨i, o, rfl⟩, hc⟩
    · exact hshows
    · exact hshows.trans hc.symm
  · refine ⟨hat.kept id' hid', hentered.others _ ?_⟩
    intro heq
    exact hid' (PageSrc.anon.inj heq)

/-- A page of zeros holds what the page that was allocated for it held before. -/
theorem Sound.null_holds (h : Sound S pages s) (hav : Available S s ct) (hx : s.used x = false)
    (hid : anonFind s id = some none) (hcreates : CreatesFetchable S s .null ct id x) :
    NextHolds S s ct S.zero := by
  obtain ⟨s', ct', p, hcreate, hfetch⟩ := hcreates
  intro r hr
  have hnext : NextHolds S s ct (s.contents (invPageLookup r.2)) := by
    intro r' hr'
    rw [Option.mem_unique hr' hr]
  obtain ⟨s₁, ct₁, a, p₁, halloc, hcreate₁, hentered, hat⟩ :=
    h.create_at hav hx hid (Or.inl ⟨rfl, hnext⟩)
  rw [hcreate] at hcreate₁
  cases hcreate₁
  have hp : p = p₁ := Option.some_inj.mp (hfetch.registered.symm.trans hat.page)
  have hshows := hentered.shows
  rw [srcContents, hat.page, Option.map_some, ← hp, hfetch.contents] at hshows
  exact (Option.some_inj.mp hshows).symm

end Created

instance [DecidableEq C] (S : Setup ι C) (s : Memory ν C) (ct : Colors) (c : C) :
    Decidable (NextHolds S s ct c) :=
  inferInstanceAs (Decidable (∀ r ∈ _, _))

def onesInFiles : Setup Bool Bool where
  colors := 1
  id i := if i then 1 else 2
  file _ _ := true
  zero := false

/-- Two free pages and no others. The last one, which is taken first, is not zero. -/
def twoFree : MemHistory Bool (Fin 3) Bool where
  mem :=
    { alloc := stockedAlloc [0x1000, 0x2000]
      cache := fun _ => none
      anon := fun _ => ⟨0, none, 0⟩
      anonTable := fun _ => none
      used := fun _ => false
      locked := false
      contents := fun p => p = 2 }
  fetched := []

theorem sound_of_run {h : MemHistory Bool (Fin 3) Bool}
    (hrun : GuardedRuns.Execution (memStep onesInFiles) (Supplied onesInFiles) twoFree h)
    (hlock : h.mem.locked = false) : Sound onesInFiles 16 h.mem := by
  obtain ⟨ring, hb⟩ := (booked_start fun _ => blankPage).insert
    (show Returnable 16 (startHistory fun _ => blankPage) [0x1000, 0x2000] by decide +kernel)
    (show physPageInsert 1 (noPages fun _ => blankPage) [0x1000, 0x2000] =
      some (stockedAlloc [0x1000, 0x2000]) from rfl)
  have hfresh : Fresh onesInFiles 16 twoFree ring := ⟨hb.lists, rfl, rfl, fun _ => rfl, rfl⟩
  obtain ⟨ring', chains, nodes, hcons, -⟩ := recorded_run hfresh hrun
  exact ⟨⟨ring', chains, nodes, hcons⟩, hlock⟩

end PageContents
