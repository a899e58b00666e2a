import Metakernel.InodeCache

/-!
# Closing an unlinked inode

`inode_close` of the last reference to an inode that no directory refers to. The cache may be in any
state that calls lead to: a new inode gets its identifier when its entry has been put into the table
of the inodes, so the entries need not be where their identifiers say.
-/
namespace InodeCache

open LinkedNodes DataStructures NodeTables GuardedRuns

variable {φ ι ε : Type} [DecidableEq φ] [DecidableEq ι] [DecidableEq ε] [Fintype ε]
  {src : φ → ι} {c c' d : Cache φ ι ε} {ids : ι → BitVec 32} {chains rchains : ℕ → List (Option ε)}
  {ring : List ε} {x y new : ε} {i : ι} {f : φ} {n : BitVec 64}

def Cache.withIds (c : Cache φ ι ε) (ids : ι → BitVec 32) : Cache φ ι ε :=
  { c with inodes := fun i => { c.inodes i with id := ids i } }

/-- The entries are in the tables by the identifiers `ids` of their insertion. That of the source of
a file system has not changed. -/
structure Filed (src : φ → ι) (c : Cache φ ι ε) (ids : ι → BitVec 32)
    (chains rchains : ℕ → List (Option ε)) : Prop where
  tables : Tables src (c.withIds ids) chains rchains
  sources : ∀ f, ids (src f) = (c.inodes (src f)).id

omit [DecidableEq ι] in
theorem Filed.cacheFind_eq (h : Filed src c ids chains rchains) (f : φ) (n : BitVec 64) :
    cacheFind src (c.withIds ids) f n = cacheFind src c f n := by
  have hindex : cacheIndex src (c.withIds ids).inodes = cacheIndex src c.inodes :=
    cacheIndex_congr h.sources
  rw [cacheFind, hindex]
  rfl

omit [DecidableEq φ] [DecidableEq ι] [Fintype ε] in
theorem Filed.congr (h : Filed src c ids chains rchains) {entries : ε → Entry φ ι ε}
    {inodes : ι → Inode} {queue : Option ε} {locked : Bool}
    (hcore : ∀ x, (entries x).core = (c.entries x).core)
    (hsrc : ∀ f, (inodes (src f)).id = (c.inodes (src f)).id) :
    Filed src { c with entries, inodes, queue, locked } ids chains rchains :=
  ⟨h.tables.congr hcore (fun _ => rfl) fun _ => rfl, fun f => (h.sources f).trans (hsrc f).symm⟩

/-- `inode_cache_delete` marks the entry. -/
abbrev forgotten (c : Cache φ ι ε) (x : ε) : Cache φ ι ε :=
  { c with entries := Function.update c.entries x { c.entries x with inode := none } }

omit [DecidableEq φ] [DecidableEq ι] [Fintype ε] in
theorem Filed.forget (h : Filed src c ids chains rchains) (x : ε) :
    Filed src (forgotten c x) ids chains rchains :=
  ⟨h.tables.forget x, h.sources⟩

omit [DecidableEq φ] [Fintype ε] in
theorem Filed.setInode (h : Filed src c ids chains rchains) {g : Inode → Inode}
    (hid : ∀ f, src f = i → ∀ nd, (g nd).id = nd.id) :
    Filed src (c.setInode i g) ids chains rchains := by
  refine h.congr (fun _ => rfl) fun f => ?_
  by_cases hf : src f = i
  · rw [hf, Function.update_self, hid f hf]
  · rw [Function.update_of_ne hf]

omit [DecidableEq φ] [DecidableEq ι] [Fintype ε] in
theorem Filed.enqueue (h : Filed src c ids chains rchains) (x : ε) :
    Filed src (enqueue c x) ids chains rchains :=
  h.congr (enqueue_core c x) fun _ => rfl

omit [DecidableEq φ] [DecidableEq ι] [Fintype ε] in
theorem Filed.unqueue (h : Filed src c ids chains rchains) (x : ε) :
    Filed src (unqueue c x) ids chains rchains :=
  h.congr (unqueue_core c x) fun _ => rfl

omit [DecidableEq φ] [Fintype ε] in
/-- The new entry is put where the identifier that the file system has set says. -/
theorem addEntry_withIds (hsrc : ∀ f, ids (src f) = (c.inodes (src f)).id) (hi : ∀ f, src f ≠ i)
    (f : φ) (n : BitVec 64) (stat : Inode) (new : ε) :
    addEntry src (c.withIds ids) f n i stat new =
      (addEntry src c f n i stat new).withIds (Function.update ids i stat.id) := by
  let stat' : Inode := { stat with refCount := 1 }
  let m := Function.update c.entries new { c.entries new with
    listNext := none, listLast := none, filesys := f, filesysId := n, inode := some i }
  have hcache : cacheIndex src (Function.update (c.withIds ids).inodes i stat') =
      cacheIndex src (Function.update c.inodes i stat') := by
    refine cacheIndex_congr fun g => ?_
    rw [Function.update_of_ne (hi g), Function.update_of_ne (hi g)]
    exact hsrc g
  have hrev : ∀ m' : ε → Entry φ ι ε, (m' new).inode = some i →
      hashTableInsert revNext revUnId (revIndex (Function.update (c.withIds ids).inodes i stat')) m'
        c.revTable (some new) =
      hashTableInsert revNext revUnId (revIndex (Function.update c.inodes i stat')) m' c.revTable
        (some new) := by
    intro m' hm'
    have hkey : revUnId m' (some new) = some i := hm'
    simp [hashTableInsert, hkey, revIndex]
  have hinodes : Function.update (c.withIds ids).inodes i stat' = fun j =>
      { Function.update c.inodes i stat' j with id := Function.update ids i stat.id j } := by
    funext j
    by_cases hj : j = i
    · subst hj
      simp [stat']
    · simp [hj, Cache.withIds]
  have hinode : (((hashTableInsert hashNext unId (cacheIndex src (Function.update c.inodes i stat'))
      m c.cacheTable (some new)).1) new).inode = some i :=
    (hashNext_set_fields m (some new) _ new).2.2.trans (by simp [m])
  have hinsert := hrev _ hinode
  rw [← hcache] at hinsert
  unfold addEntry
  simp only [Cache.withIds] at hinsert hcache hinodes ⊢
  rw [hinsert, hcache, hinodes]

theorem Filed.addEntry (h : Filed src c ids chains rchains) (stat : Inode)
    (howned : c.owned i = false) (hnew : c.used new = false)
    (hfind : cacheFind src c f n = some none) :
    (∀ g, src g ≠ i) ∧ ∃ chains' rchains', Filed src (addEntry src c f n i stat new)
      (Function.update ids i stat.id) chains' rchains' := by
  have hi : ∀ g, src g ≠ i := by
    intro g heq
    have hsource : c.owned (src g) = true := h.tables.sources g
    rw [heq, howned] at hsource
    cases hsource
  have hfresh : ∀ x, c.used x = true → unId c.entries (some x) ≠ some (f, n) := by
    rcases h.tables.cacheFind_cases f n with ⟨x, -, -, hx⟩ | ⟨hnone, -⟩
    · rw [h.cacheFind_eq, hfind] at hx
      cases hx
    · exact hnone
  obtain ⟨chains', rchains', htables⟩ : ∃ chains' rchains', Tables src
      (InodeCache.addEntry src (c.withIds ids) f n i stat new) chains' rchains' :=
    h.tables.add howned hnew hfresh
  rw [addEntry_withIds h.sources hi] at htables
  refine ⟨hi, chains', rchains', htables, fun g => ?_⟩
  simp only [InodeCache.addEntry, Function.update_of_ne (hi g)]
  exact h.sources g

structure Kept (c c' : Cache φ ι ε) : Prop where
  used : ∀ x, c.used x = true → c'.used x = true
  number : ∀ x, c.used x = true → unId c'.entries (some x) = unId c.entries (some x)
  deleted : ∀ x, c.used x = true → (c.entries x).inode = none → (c'.entries x).inode = none

section

omit [DecidableEq φ] [DecidableEq ι] [DecidableEq ε] [Fintype ε]

theorem Kept.refl (c : Cache φ ι ε) : Kept c c := ⟨fun _ h => h, fun _ _ => rfl, fun _ _ h => h⟩

theorem Kept.trans (h : Kept c c') (h' : Kept c' d) : Kept c d :=
  ⟨fun x hx => h'.used x (h.used x hx),
    fun x hx => (h'.number x (h.used x hx)).trans (h.number x hx),
    fun x hx hnone => h'.deleted x (h.used x hx) (h.deleted x hx hnone)⟩

theorem kept_of_core (hused : c'.used = c.used)
    (hcore : ∀ x, (c'.entries x).core = (c.entries x).core) : Kept c c' := by
  refine ⟨fun x hx => hused ▸ hx, fun x _ => ?_, fun x _ hnone => ?_⟩
  · exact congrArg (fun t => some (t.2.2.1, t.2.2.2.1)) (hcore x)
  · exact (congrArg (fun t => t.2.2.2.2) (hcore x)).trans hnone

end

omit [DecidableEq φ] [DecidableEq ι] [Fintype ε] in
theorem kept_forget (c : Cache φ ι ε) (x : ε) : Kept c (forgotten c x) := by
  refine ⟨fun _ h => h, fun y _ => ?_, fun y _ hnone => ?_⟩
  · by_cases hy : y = x
    · subst hy
      simp [unId]
    · simp [unId, hy]
  · by_cases hy : y = x
    · subst hy
      simp
    · simpa [hy] using hnone

omit [DecidableEq φ] [Fintype ε] in
theorem kept_addEntry (hnew : c.used new = false) (stat : Inode) :
    Kept c (addEntry src c f n i stat new) := by
  have hne : ∀ {x}, c.used x = true → x ≠ new := by
    rintro x hx rfl
    rw [hnew] at hx
    cases hx
  refine ⟨fun x hx => (Function.update_of_ne (hne hx) _ _).trans hx, fun x hx => ?_,
    fun x hx hnone => ?_⟩
  · rw [(addEntry_entries src c f n i stat new x).1, if_neg (hne hx)]
  · rw [(addEntry_entries src c f n i stat new x).2, if_neg (hne hx)]
    exact hnone

omit [DecidableEq φ] [DecidableEq ε] [Fintype ε] in
theorem kept_setInode (c : Cache φ ι ε) (i : ι) (g : Inode → Inode) : Kept c (c.setInode i g) :=
  kept_of_core rfl fun _ => rfl

omit [DecidableEq φ] [DecidableEq ι] [Fintype ε] in
theorem kept_enqueue (c : Cache φ ι ε) (x : ε) : Kept c (enqueue c x) :=
  kept_of_core rfl (enqueue_core c x)

omit [DecidableEq φ] [DecidableEq ι] [Fintype ε] in
theorem kept_unqueue (c : Cache φ ι ε) (x : ε) : Kept c (unqueue c x) :=
  kept_of_core rfl (unqueue_core c x)

theorem lookup_filed {read : Option (ι × Inode)} {malloc : Option (ε × ℕ)} {r : Option ι}
    (h : Filed src c ids chains rchains)
    (hstep : inodeCacheLookup src c f n read malloc = some (c', r)) :
    (∃ ids chains rchains, Filed src c' ids chains rchains) ∧ Kept c c' := by
  obtain ⟨x, i, c₁, -, -, htaken, rfl, -⟩ | ⟨x, -, -, rfl, -⟩ | ⟨-, -, rfl, -⟩ |
    ⟨i, stat, new, hfind, -, howned, hused, rfl, -⟩ := inodeCacheLookup_cases hstep
  · subst htaken
    split
    · exact ⟨⟨ids, chains, rchains, (h.unqueue x).setInode fun _ _ _ => rfl⟩,
        (kept_unqueue c x).trans (kept_setInode _ i _)⟩
    · exact ⟨⟨ids, chains, rchains, h.setInode fun _ _ _ => rfl⟩, kept_setInode _ i _⟩
  · exact ⟨⟨ids, chains, rchains, h.congr (fun _ => rfl) fun _ => rfl⟩,
      kept_of_core rfl fun _ => rfl⟩
  · exact ⟨⟨ids, chains, rchains, h⟩, Kept.refl _⟩
  · exact ⟨⟨_, (h.addEntry stat howned hused hfind).2⟩, kept_addEntry hused stat⟩

theorem create_filed {filesys : Option φ} {create : Option (ι × Inode × BitVec 64)}
    {malloc : Option (ε × ℕ)} {id : BitVec 32} (h : Filed src c ids chains rchains)
    (hstep : inodeCreate src c filesys create malloc id = some c') :
    (∃ ids chains rchains, Filed src c' ids chains rchains) ∧ Kept c c' := by
  obtain ⟨-, rfl⟩ | ⟨f, i, stat, n, new, -, -, hi, hnew, hfind, rfl⟩ := inodeCreate_cases hstep
  · exact ⟨⟨ids, chains, rchains, h⟩, Kept.refl _⟩
  · obtain ⟨hsrc, chains', rchains', h'⟩ := h.addEntry stat hi hnew hfind
    refine ⟨⟨_, chains', rchains', h'.setInode fun g hg => absurd hg (hsrc g)⟩, ?_⟩
    exact (kept_addEntry hnew stat).trans (kept_setInode _ i _)

omit [DecidableEq φ] in
theorem close_filed (h : Filed src c ids chains rchains) (hstep : inodeClose c i = some c') :
    (∃ ids chains rchains, Filed src c' ids chains rchains) ∧ Kept c c' := by
  obtain ⟨c₁, hc₁, hend⟩ := inodeClose_cases hstep
  have h₁ : Filed src c₁ ids chains rchains := hc₁ ▸ h.setInode fun _ _ _ => rfl
  have hkept : Kept c c₁ := hc₁ ▸ kept_setInode c i _
  obtain ⟨-, -, hdelete⟩ | ⟨-, -, c₂, hfree, rfl⟩ | ⟨-, rfl⟩ := hend
  · obtain ⟨x, -, rfl⟩ | ⟨-, rfl⟩ := inodeCacheDelete_cases hdelete
    · exact ⟨⟨ids, chains, rchains, (h₁.forget x).enqueue x⟩,
        hkept.trans ((kept_forget c₁ x).trans (kept_enqueue _ x))⟩
    · exact ⟨⟨ids, chains, rchains, h₁⟩, hkept⟩
  · obtain ⟨x, -, rfl⟩ | ⟨-, rfl⟩ := inodeCacheFree_cases hfree
    · exact ⟨⟨ids, chains, rchains, (h₁.enqueue x).setInode fun _ _ _ => rfl⟩,
        hkept.trans ((kept_enqueue c₁ x).trans (kept_setInode _ i _))⟩
    · exact ⟨⟨ids, chains, rchains, h₁.setInode fun _ _ _ => rfl⟩,
        hkept.trans (kept_setInode _ i _)⟩
  · exact ⟨⟨ids, chains, rchains, h₁⟩, hkept⟩

theorem step_filed {e : Call φ ι ε} (h : Filed src c ids chains rchains)
    (hstep : step src c e = some c') :
    (∃ ids chains rchains, Filed src c' ids chains rchains) ∧ Kept c c' := by
  cases e with
  | create filesys create malloc id => exact create_filed h hstep
  | lookup f n read malloc =>
    obtain ⟨⟨c₁, r⟩, hlookup, rfl⟩ := Option.map_eq_some_iff.mp hstep
    exact lookup_filed h hlookup
  | close i =>
    simp only [step] at hstep
    split at hstep
    · exact close_filed h hstep
    · cases hstep

/-- A deleted entry hides its number, whatever is called in between. -/
theorem deleted_stays (h : Filed src c ids chains rchains) (hx : c.used x = true)
    (hdeleted : (c.entries x).inode = none) (hrun : Execution (step src) (fun _ _ => True) c d) :
    cacheFind src d (c.entries x).filesys (c.entries x).filesysId = some (some x) ∧
      (d.entries x).inode = none := by
  have hkept : (∃ ids chains rchains, Filed src d ids chains rchains) ∧ Kept c d := by
    refine hrun.preserves (I := fun d => (∃ ids chains rchains, Filed src d ids chains rchains) ∧
      Kept c d) ?_ ⟨⟨ids, chains, rchains, h⟩, Kept.refl c⟩
    rintro d₁ e d₂ ⟨⟨_, _, _, hd⟩, hk⟩ - hstep
    obtain ⟨hfiled, hnext⟩ := step_filed hd hstep
    exact ⟨hfiled, hk.trans hnext⟩
  obtain ⟨⟨ids', chains', rchains', hd⟩, hk⟩ := hkept
  have hnumber := hk.number x hx
  simp only [unId, Option.map_some, Option.some_inj, Prod.mk.injEq] at hnumber
  refine ⟨?_, hk.deleted x hx hdeleted⟩
  rw [← hnumber.1, ← hnumber.2, ← hd.cacheFind_eq]
  exact hd.tables.cacheFind_entry (hk.used x hx)

def Idle (c : Cache φ ι ε) (ring : List ε) : Prop :=
  ∀ x ∈ ring, ∀ i, (c.entries x).inode = some i → (c.inodes i).refCount = 0

structure Sound (src : φ → ι) (c : Cache φ ι ε) (ids : ι → BitVec 32)
    (chains rchains : ℕ → List (Option ε)) (ring : List ε) : Prop where
  filed : Filed src c ids chains rchains
  queued : Queued c ring
  idle : Idle c ring

def Referenced (c : Cache φ ι ε) : Call φ ι ε → Prop
  | .close i => (c.inodes i).refCount ≠ 0
  | _ => True

omit [DecidableEq φ] in
theorem Filed.revFind_within (h : Filed src c ids chains rchains) {table : ℕ → Option ε}
    (htable : ∀ j y, table j = some y → c.used y = true)
    (hfind : revFind c table i = some (some x)) :
    c.used x = true ∧ (c.entries x).inode = some i := by
  have hsame : revFind (c.withIds ids) (fun _ => table (revIndex c.inodes (some i))) i =
    some (some x) := hfind
  exact h.tables.revFind_within (fun _ y hy => htable _ y hy) hsame

omit [DecidableEq φ] [DecidableEq ι] [Fintype ε] in
theorem Filed.one_inode (h : Filed src c ids chains rchains) (hx : c.used x = true)
    (hy : c.used y = true) (hxi : (c.entries x).inode = some i)
    (hyi : (c.entries y).inode = some i) : x = y := h.tables.one_inode x y i hx hy hxi hyi

omit [DecidableEq φ] [Fintype ε] in
theorem Sound.addEntry_ring (h : Sound src c ids chains rchains ring) (stat : Inode)
    (howned : c.owned i = false) (hnew : c.used new = false) :
    Queued (addEntry src c f n i stat new) ring ∧ Idle (addEntry src c f n i stat new) ring := by
  refine ⟨h.queued.addEntry hnew src f n i stat, fun x hx j hj => ?_⟩
  have hused := h.queued.used x hx
  have hne : x ≠ new := by
    rintro rfl
    rw [hnew] at hused
    cases hused
  rw [(addEntry_entries src c f n i stat new x).2, if_neg hne] at hj
  have hji : j ≠ i := by
    rintro rfl
    have hown : c.owned j = true := h.filed.tables.owned x j hused hj
    rw [howned] at hown
    cases hown
  simpa [addEntry, hji] using h.idle x hx j hj

omit [DecidableEq φ] [Fintype ε] in
theorem Queued.setInode (h : Queued c ring) (g : Inode → Inode) : Queued (c.setInode i g) ring :=
  h.congr fun _ => ⟨rfl, rfl⟩

omit [DecidableEq φ] [DecidableEq ε] [Fintype ε] in
theorem Idle.setInode (h : Idle c ring) {g : Inode → Inode}
    (hg : ∀ x ∈ ring, (c.entries x).inode = some i → (g (c.inodes i)).refCount = 0) :
    Idle (c.setInode i g) ring := by
  intro x hx j hj
  by_cases hji : j = i
  · subst hji
    simpa [Cache.setInode] using hg x hx hj
  · simpa [Cache.setInode, hji] using h x hx j hj

theorem lookup_ring {read : Option (ι × Inode)} {malloc : Option (ε × ℕ)} {r : Option ι}
    (h : Sound src c ids chains rchains ring)
    (hstep : inodeCacheLookup src c f n read malloc = some (c', r)) :
    ∃ ring', Queued c' ring' ∧ Idle c' ring' := by
  obtain ⟨x, i, c₁, hfind, hi, htaken, rfl, -⟩ | ⟨x, -, -, rfl, -⟩ | ⟨-, -, rfl, -⟩ |
    ⟨i, stat, new, -, -, howned, hused, rfl, -⟩ := inodeCacheLookup_cases hstep
  · have hx : c.used x = true := by
      rcases h.filed.tables.cacheFind_cases f n with ⟨y, hy, -, hyfind⟩ | ⟨-, hnone⟩
      · rw [h.filed.cacheFind_eq, hfind] at hyfind
        cases hyfind
        exact hy
      · rw [h.filed.cacheFind_eq, hfind] at hnone
        cases hnone
    obtain ⟨ring', hqueued, hmem, hinodes, hused, hinode⟩ := h.queued.taken hx htaken
    have hidle : Idle c₁ ring' := by
      intro y hy j hj
      rw [hinode] at hj
      rw [hinodes]
      exact h.idle y ((hmem y).mp hy).1 j hj
    refine ⟨ring', hqueued.setInode _, hidle.setInode fun y hy hj => ?_⟩
    obtain ⟨hyring, hyx⟩ := (hmem y).mp hy
    rw [hinode] at hj
    exact absurd (h.filed.one_inode (h.queued.used y hyring) hx hj hi) hyx
  · exact ⟨ring, h.queued.congr fun _ => ⟨rfl, rfl⟩, h.idle⟩
  · exact ⟨ring, h.queued, h.idle⟩
  · exact ⟨ring, h.addEntry_ring stat howned hused⟩

theorem create_ring {filesys : Option φ} {create : Option (ι × Inode × BitVec 64)}
    {malloc : Option (ε × ℕ)} {id : BitVec 32} (h : Sound src c ids chains rchains ring)
    (hstep : inodeCreate src c filesys create malloc id = some c') :
    ∃ ring', Queued c' ring' ∧ Idle c' ring' := by
  obtain ⟨-, rfl⟩ | ⟨f, i, stat, n, new, -, -, hi, hnew, -, rfl⟩ := inodeCreate_cases hstep
  · exact ⟨ring, h.queued, h.idle⟩
  · obtain ⟨hqueued, hidle⟩ : Queued (addEntry src c f n i stat new) ring ∧
      Idle (addEntry src c f n i stat new) ring := h.addEntry_ring stat hi hnew
    exact ⟨ring, hqueued.setInode _, hidle.setInode fun x hx hi => hidle x hx i hi⟩

omit [DecidableEq φ] [DecidableEq ι] [Fintype ε] in
theorem Queued.delete (h : Queued c ring) (hx : c.used x = true) (hout : x ∉ ring) :
    Queued (enqueue (forgotten c x) x) (x :: ring) := by
  refine Queued.add (h.congr fun y => ?_) hx hout
  by_cases hy : y = x
  · subst hy
    simp
  · simp [hy]

omit [DecidableEq φ] [DecidableEq ι] [Fintype ε] in
theorem deleted_inode (c : Cache φ ι ε) (x y : ε) :
    ((enqueue (forgotten c x) x).entries y).inode = if y = x then none else (c.entries y).inode := by
  rw [enqueue_inode]
  by_cases hy : y = x
  · subst hy
    simp
  · simp [hy]

omit [DecidableEq φ] [Fintype ε] in
/-- `inode_close` after the count has been lowered. -/
theorem Sound.lowered (h : Sound src c ids chains rchains ring) (hcount : (c.inodes i).refCount ≠ 0) :
    Sound src (c.setInode i fun nd => { nd with refCount := nd.refCount - 1, locked := true }) ids
        chains rchains ring ∧
      ∀ x ∈ ring, (c.entries x).inode ≠ some i := by
  have hout : ∀ x ∈ ring, (c.entries x).inode ≠ some i := fun x hx hi => hcount (h.idle x hx i hi)
  refine ⟨⟨h.filed.setInode fun _ _ _ => rfl, h.queued.setInode _, ?_⟩, hout⟩
  exact h.idle.setInode fun x hx hi => absurd hi (hout x hx)

omit [DecidableEq φ] in
theorem close_ring (h : Sound src c ids chains rchains ring) (hcount : (c.inodes i).refCount ≠ 0)
    (hstep : inodeClose c i = some c') : ∃ ring', Queued c' ring' ∧ Idle c' ring' := by
  obtain ⟨h₁, hout⟩ := h.lowered hcount
  obtain ⟨c₁, hc₁, hend⟩ := inodeClose_cases hstep
  have hentries : ∀ g, (c.setInode i g).entries = c.entries := fun _ => rfl
  rw [← hentries fun nd => { nd with refCount := nd.refCount - 1, locked := true }] at hout
  rw [hc₁] at h₁ hout
  obtain ⟨-, -, hdelete⟩ | ⟨hzero, -, c₂, hfree, rfl⟩ | ⟨-, rfl⟩ := hend
  · obtain ⟨x, hfind, rfl⟩ | ⟨-, rfl⟩ := inodeCacheDelete_cases hdelete
    · obtain ⟨hx, hi⟩ := h₁.filed.revFind_within h₁.filed.tables.cacheTable_used hfind
      refine ⟨x :: ring, h₁.queued.delete hx fun hmem => hout x hmem hi, fun y hy j hj => ?_⟩
      rw [deleted_inode] at hj
      split at hj
      · cases hj
      · rename_i hyx
        exact h₁.idle y ((List.mem_cons.mp hy).resolve_left hyx) j hj
    · exact ⟨ring, h₁.queued, h₁.idle⟩
  · obtain ⟨x, hfind, rfl⟩ | ⟨-, rfl⟩ := inodeCacheFree_cases hfree
    · obtain ⟨hx, hi⟩ := h₁.filed.revFind_within h₁.filed.tables.revTable_used hfind
      have hqueued := h₁.queued.add hx fun hmem => hout x hmem hi
      have hidle : Idle (enqueue c₁ x) (x :: ring) := by
        intro y hy j hj
        rw [enqueue_inode] at hj
        rcases List.mem_cons.mp hy with rfl | hy
        · obtain rfl := Option.some_inj.mp (hj.symm.trans hi)
          exact hzero
        · exact h₁.idle y hy j hj
      exact ⟨_, hqueued.setInode _, hidle.setInode fun _ _ _ => hzero⟩
    · exact ⟨_, h₁.queued.setInode _, h₁.idle.setInode fun _ _ _ => hzero⟩
  · exact ⟨ring, h₁.queued, h₁.idle⟩

theorem step_sound {e : Call φ ι ε} (h : Sound src c ids chains rchains ring)
    (href : Referenced c e) (hstep : step src c e = some c') :
    ∃ ids chains rchains ring, Sound src c' ids chains rchains ring := by
  obtain ⟨⟨ids', chains', rchains', hfiled⟩, -⟩ := step_filed h.filed hstep
  obtain ⟨ring', hqueued, hidle⟩ : ∃ ring', Queued c' ring' ∧ Idle c' ring' := by
    cases e with
    | create filesys create malloc id => exact create_ring h hstep
    | lookup f n read malloc =>
      obtain ⟨⟨c₁, r⟩, hlookup, rfl⟩ := Option.map_eq_some_iff.mp hstep
      exact lookup_ring h hlookup
    | close i =>
      simp only [step] at hstep
      split at hstep
      · exact close_ring h href hstep
      · cases hstep
  exact ⟨ids', chains', rchains', ring', hfiled, hqueued, hidle⟩

theorem reachable_sound {entries : ε → Entry φ ι ε} {inodes : ι → Inode} {owned : ι → Bool}
    (hsrc : ∀ f, owned (src f) = true)
    (hrun : Execution (step src) Referenced (start entries inodes owned) c) :
    ∃ ids chains rchains ring, Sound src c ids chains rchains ring := by
  refine hrun.preserves (I := fun c => ∃ ids chains rchains ring,
    Sound src c ids chains rchains ring) ?_ ?_
  · rintro c₁ e c₂ ⟨_, _, _, _, h⟩ href hstep
    exact step_sound h href hstep
  · obtain ⟨chains, rchains, ring, h⟩ := consistent_start entries inodes owned hsrc
    refine ⟨fun i => (inodes i).id, chains, rchains, ring, ⟨h.tables, fun _ => rfl⟩, h.queued, ?_⟩
    intro x hx i hi
    exact (h.counted x i (h.queued.used x hx) hi).mp hx

/-- The entry is met on the way along the links of the inodes, from the bucket that its inode has in
the table of the inodes, but taken in the table of the numbers. -/
def MetFromCache (c : Cache φ ι ε) (i : ι) (x : ε) : Prop :=
  ∃ k, (revNext.get c.entries)^[k] (c.cacheTable (revIndex c.inodes (some i))) = some x

/-- Of the `entries` before, this one is now marked and on the ring, no other one is marked, and
whenever its number is looked up later there is no inode. -/
structure Deleted (src : φ → ι) (entries : ε → Entry φ ι ε) (c : Cache φ ι ε) (x : ε) : Prop where
  marked : (c.entries x).inode = none
  reclaimed : OnQueue c x
  others : ∀ y, y ≠ x → (c.entries y).inode = (entries y).inode
  later : ∀ d read malloc, Execution (step src) (fun _ _ => True) c d → d.locked = false →
    ∃ d', inodeCacheLookup src d (entries x).filesys (entries x).filesysId read malloc =
      some (d', none)

omit [DecidableEq φ] [DecidableEq ι] in
theorem Filed.walk (h : Filed src c ids chains rchains) {start : Option ε}
    (hstart : ∀ y, start = some y → c.used y = true) :
    ∃ l, Chain revNext none c.entries start l ∧ l.length < Fintype.card (Option ε) + 1 ∧
      ∀ p ∈ l, ∃ y, p = some y ∧ c.used y = true := by
  cases start with
  | none => exact ⟨[], rfl, Nat.succ_pos _, by simp⟩
  | some y =>
    obtain ⟨-, j, hj⟩ := h.tables.present y (hstart y rfl)
    obtain ⟨before, after, hsplit⟩ := List.append_of_mem hj
    have hchain : Chain revNext none c.entries (c.revTable j) (before ++ some y :: after) :=
      hsplit ▸ h.tables.rev.chain j
    have hlength := (h.tables.length_lt j).2
    rw [hsplit, List.length_append] at hlength
    refine ⟨some y :: after, ⟨rfl, by simp, hchain.tail⟩, by omega, fun p hp => ?_⟩
    have hmem : p ∈ rchains j := by
      rw [hsplit]
      exact List.mem_append_right before hp
    obtain ⟨z, rfl⟩ := Option.isSome_iff_exists.mp (h.tables.rev.nodes j p hmem)
    exact ⟨z, rfl, h.tables.rev_used j z hmem⟩

omit [DecidableEq φ] in
/-- The walk from the wrong table finds the entry of the inode or nothing. -/
theorem Filed.revFind_cacheTable (h : Filed src c ids chains rchains) (hx : c.used x = true)
    (hi : (c.entries x).inode = some i) :
    (MetFromCache c i x ∧ revFind c c.cacheTable i = some (some x)) ∨
      (¬ MetFromCache c i x ∧ revFind c c.cacheTable i = some none) := by
  have hstart : ∀ y, c.cacheTable (revIndex c.inodes (some i)) = some y → c.used y = true :=
    h.tables.cacheTable_used _
  obtain ⟨l, hchain, hlength, hused⟩ := h.walk hstart
  have hmet : MetFromCache c i x ↔ some x ∈ l := Chain.reach_iff rfl (by simp) hchain
  have hlookup : revFind c c.cacheTable i = some ((l.find? fun p =>
      decide (revUnId c.entries p = some i)).getD none) :=
    hashTableLookupFrom_chain hchain hlength
  cases hfind : l.find? fun p => decide (revUnId c.entries p = some i) with
  | none =>
    rw [hfind] at hlookup
    refine Or.inr ⟨fun hm => ?_, hlookup⟩
    exact absurd (decide_eq_true hi) (List.find?_eq_none.mp hfind _ (hmet.mp hm))
  | some p =>
    obtain ⟨y, rfl, hy⟩ := hused p (List.mem_of_find?_eq_some hfind)
    have hdecide := List.find?_some hfind
    have hyi : (c.entries y).inode = some i := of_decide_eq_true hdecide
    obtain rfl := h.one_inode hy hx hyi hi
    rw [hfind] at hlookup
    exact Or.inl ⟨hmet.mpr (List.mem_of_find?_eq_some hfind), hlookup⟩

theorem later_lookup (h : Filed src c ids chains rchains) (hx : c.used x = true)
    (hdeleted : (c.entries x).inode = none) (hrun : Execution (step src) (fun _ _ => True) c d)
    (hlocked : d.locked = false) (read : Option (ι × Inode)) (malloc : Option (ε × ℕ)) :
    ∃ d', inodeCacheLookup src d (c.entries x).filesys (c.entries x).filesysId read malloc =
      some (d', none) := by
  obtain ⟨hfind, hnone⟩ := deleted_stays h hx hdeleted hrun
  refine ⟨{ d with locked := true }, ?_⟩
  simp [inodeCacheLookup, hlocked, hfind, hnone]

theorem inodeCacheDelete_iff (h : Sound src c ids chains rchains ring) (hx : c.used x = true)
    (hi : (c.entries x).inode = some i) (hout : x ∉ ring) (hlocked : c.locked = false) :
    (∃ c', inodeCacheDelete c i = some c' ∧ Deleted src c.entries c' x) ↔ MetFromCache c i x := by
  have hdelete : inodeCacheDelete c i = (revFind c c.cacheTable i).map fun p =>
      p.elim c fun x => enqueue (forgotten c x) x := by
    rw [inodeCacheDelete, if_neg (by simp [hlocked])]
    congr 1
    funext p
    cases p <;> rfl
  rcases h.filed.revFind_cacheTable hx hi with ⟨hmet, hfind⟩ | ⟨hnot, hfind⟩
  · rw [hdelete, hfind]
    refine iff_of_true ⟨enqueue (forgotten c x) x, rfl, ?_⟩ hmet
    have hqueued := h.queued.delete hx hout
    have hfiled := (h.filed.forget x).enqueue x
    have hmarked : ((enqueue (forgotten c x) x).entries x).inode = none := by
      rw [deleted_inode, if_pos rfl]
    have hnumber := ((kept_forget c x).trans (kept_enqueue _ x)).number x hx
    simp only [unId, Option.map_some, Option.some_inj, Prod.mk.injEq] at hnumber
    refine ⟨hmarked, hqueued.onQueue_iff.mpr (List.mem_cons_self ..), fun y hy => ?_,
      fun d read malloc hrun hd => ?_⟩
    · rw [deleted_inode, if_neg hy]
    · have hlater := later_lookup hfiled hx hmarked hrun hd read malloc
      rwa [hnumber.1, hnumber.2] at hlater
  · refine iff_of_false ?_ hnot
    rintro ⟨c', hc', hdeleted⟩
    rw [hdelete, hfind] at hc'
    cases hc'
    have hmarked : (c.entries x).inode = none := hdeleted.marked
    rw [hi] at hmarked
    cases hmarked

/-- When the last reference to an inode is given back that no directory refers to, `inode_close`
deletes its entry exactly when it meets it in the wrong table. -/
theorem inode_close_deletes_iff (h : Sound src c ids chains rchains ring)
    (hcached : revFind c c.revTable i = some (some x)) (hlast : (c.inodes i).refCount = 1)
    (hhard : (c.inodes i).hardRefCount = 0) (hfree : (c.inodes i).locked = false)
    (hcache : c.locked = false) :
    (∃ c', inodeClose c i = some c' ∧ Deleted src c.entries c' x) ↔ MetFromCache c i x := by
  obtain ⟨hx, hi⟩ := h.filed.revFind_within h.filed.tables.revTable_used hcached
  obtain ⟨h₁, hout⟩ := h.lowered (i := i) (by rw [hlast]; decide)
  have hclose : inodeClose c i = inodeCacheDelete (c.setInode i fun nd =>
      { nd with refCount := nd.refCount - 1, locked := true }) i := by
    simp [inodeClose, hfree, Cache.setInode, hlast, hhard]
  have hmet : MetFromCache (c.setInode i fun nd =>
      { nd with refCount := nd.refCount - 1, locked := true }) i x ↔ MetFromCache c i x := by
    simp [MetFromCache, Cache.setInode, revIndex]
  rw [hclose, ← hmet]
  exact inodeCacheDelete_iff h₁ hx hi (fun hmem => hout x hmem hi) hcache

instance (c : Cache φ ι ε) : ∀ e : Call φ ι ε, Decidable (Referenced c e)
  | .create _ _ _ _ => isTrue trivial
  | .lookup _ _ _ _ => isTrue trivial
  | .close i => inferInstanceAs (Decidable ((c.inodes i).refCount ≠ 0))

/-- The number 5 of a file system whose source has the identifier 3 is in the bucket 15, as is an
inode with the identifier 15. -/
theorem inode_close_deletes_iff_met : ∃ (c c' : Cache Unit (Fin 3) (Fin 2)) (x : Fin 2) (i : Fin 3),
    Execution (step fun _ => 0) Referenced oneFileSystem c ∧
      revFind c c.revTable i = some (some x) ∧ inodeClose c i = some c' ∧
        Deleted (fun _ => 0) c.entries c' x := by
  have hfollow : (follow (step fun _ => 0) Referenced oneFileSystem
      [.create (some ()) (some (1, ⟨15, 0, 0, false⟩, 5)) (some (0, 32)) 15]).map (fun c =>
        decide (revFind c c.revTable 1 = some (some 0) ∧ (c.inodes 1).refCount = 1 ∧
          (c.inodes 1).hardRefCount = 0 ∧ (c.inodes 1).locked = false ∧ c.locked = false ∧
          c.cacheTable (revIndex c.inodes (some 1)) = some 0)) = some true := by decide +kernel
  obtain ⟨c, hc, hstate⟩ := Option.map_eq_some_iff.mp hfollow
  obtain ⟨hcached, hlast, hhard, hfree, hlocked, hhead⟩ := of_decide_eq_true hstate
  have hrun := execution_of_follow hc
  obtain ⟨ids, chains, rchains, ring, h⟩ := reachable_sound (fun _ => rfl) hrun
  obtain ⟨c', hclose, hdeleted⟩ :=
    (inode_close_deletes_iff h hcached hlast hhard hfree hlocked).mpr ⟨0, hhead⟩
  exact ⟨c, c', 0, 1, hrun, hcached, hclose, hdeleted⟩

/-- The same number for an inode with the identifier 7: the bucket 7 of the wrong table is empty. -/
theorem unlinked_inode_stays : ∃ (c : Cache Unit (Fin 3) (Fin 2)) (x : Fin 2) (i : Fin 3),
    Execution (step fun _ => 0) Referenced oneFileSystem c ∧
      (revFind c c.revTable i = some (some x) ∧ (c.inodes i).refCount = 1 ∧
        (c.inodes i).hardRefCount = 0 ∧ (c.inodes i).locked = false ∧ c.locked = false) ∧
      (∃ c', inodeClose c i = some c') ∧
      ¬ ∃ c', inodeClose c i = some c' ∧ Deleted (fun _ => 0) c.entries c' x := by
  have hfollow : (follow (step fun _ => 0) Referenced oneFileSystem
      [.create (some ()) (some (1, ⟨7, 0, 0, false⟩, 5)) (some (0, 32)) 7]).map (fun c =>
        decide ((revFind c c.revTable 1 = some (some 0) ∧ (c.inodes 1).refCount = 1 ∧
          (c.inodes 1).hardRefCount = 0 ∧ (c.inodes 1).locked = false ∧ c.locked = false) ∧
          (inodeClose c 1).map (fun c' => (c'.entries 0).inode) = some (some 1))) =
      some true := by decide +kernel
  obtain ⟨c, hc, hstate⟩ := Option.map_eq_some_iff.mp hfollow
  obtain ⟨hbefore, hafter⟩ := of_decide_eq_true hstate
  obtain ⟨c', hclose, hinode⟩ := Option.map_eq_some_iff.mp hafter
  refine ⟨c, 0, 1, execution_of_follow hc, hbefore, ⟨c', hclose⟩, ?_⟩
  rintro ⟨c'', hclose', hdeleted⟩
  rw [hclose] at hclose'
  cases hclose'
  have hmarked := hdeleted.marked
  rw [hinode] at hmarked
  cases hmarked

end InodeCache
