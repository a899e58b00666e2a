import Metakernel.ByteMemory
import Metakernel.CopyOnWrite

/-!
# The storage of new objects

`vmobj_create` asks for storage, and sets the fields of a `vm_obj_t` and the entries of its pages in
it. The storage is given by its bytes, with addresses that start at the object.
-/
namespace ObjectCreation

open ByteMemory PhysicalPages VirtualMemory CopyOnWrite
open CowTable (Cow cowInc)

/-- One that sets `n` bytes, as its callers want it; that of util.c is bounded by the value. -/
def memset (m : Memory) (p : ℕ) (v : UInt8) (n : ℕ) : Memory := fun b =>
  if p ≤ b ∧ b < p + n then v else m b

theorem memset_frame (m : Memory) {p n b : ℕ} (v : UInt8) (h : b < p ∨ p + n ≤ b) :
    memset m p v n b = m b := if_neg (by omega)

theorem load32_memset_of_apart (m : Memory) {p n a : ℕ} (v : UInt8) (h : a + 4 ≤ p ∨ p + n ≤ a) :
    load32 (memset m p v n) a = load32 m a :=
  load32_congr fun _ _ _ => memset_frame m v (by omega)

inductive Field where
  | id | flags | size | numMappers | mutex | mappers | srcType | cowSrc | cowNext | cowPrev
  | hashNext | cowCount | colorTable | inode | offset | anonPages

def Field.pos : Field → ℕ
  | .id => 0 | .flags => 4 | .size => 8 | .numMappers => 12 | .mutex => 16 | .mappers => 80
  | .srcType => 204 | .cowSrc => 208 | .cowNext => 212 | .cowPrev => 216 | .hashNext => 220
  | .cowCount => 224 | .colorTable => 228 | .inode => 232 | .offset => 236 | .anonPages => 240

def storeFields (m : Memory) (ws : List (Field × BitVec 32)) : Memory :=
  ws.foldl (fun m w => store32 m w.1.pos w.2.toNat) m

def VMOBJ_INODE : BitVec 32 := 1
def VMOBJ_ANON : BitVec 32 := 2

def VMAP_HASH_TABLE_SIZE : ℕ := 31
def VMOBJ_HASH_TABLE_SIZE : ℕ := 16383

/-- The size of `mutex_t`. -/
def mutexSize : ℕ := 64

def mutexInit (m : Memory) : Memory := memset m Field.mutex.pos 0 mutexSize

variable {σ ο ι ε : Type*} [DecidableEq ι] [DecidableEq ε] [Fintype ε]

/-- `idCount` is `vm_id_count`, `objTab` the heads of `vm_obj_tab`. -/
structure Tables (ι ε : Type*) where
  idCount : BitVec 32
  objTab : ℕ → BitVec 32
  cow : Cow ι ε

/-- A copy is given by the address of the object that is copied, that object and its size. `page`
and `blocks` are what the calls of `cow_inc` find on the stack and get from `malloc`. -/
inductive Creation (σ ο ι ε : Type*) where
  | inode (inode offset : BitVec 32)
  | anon
  | copy (addr : BitVec 32) (source : VmObj σ ο ι) (sourceSize : BitVec 32) (page : Untyped ι)
    (blocks : ℕ → ε)

/-- Only the first `requested` bytes of the storage belong to the object. `source` is what has become
of the object that was copied. -/
structure Created (σ ο ι ε : Type*) where
  addr : BitVec 32
  requested : ℕ
  storage : Memory
  tables : Tables ι ε
  source : Option (VmObj σ ο ι)

def vmObjInsert (m : Memory) (t : Tables ι ε) (new : BitVec 32) : Memory × Tables ι ε :=
  let index := load32 m Field.id.pos % VMOBJ_HASH_TABLE_SIZE
  (storeFields m [(.hashNext, t.objTab index)],
    { t with objTab := Function.update t.objTab index new })

def copyPages (id : ι → BitVec 32) (pages : ℕ → PageSrc ι) (blocks : ℕ → ε) (m : Memory)
    (cow : Cow ι ε) : ℕ → Option (Memory × Cow ι ε)
  | 0 => some (m, cow)
  | n + 1 => (copyPages id pages blocks m cow n).bind fun r =>
      (cowInc id r.2 (pages n) (blocks n)).map fun cow =>
        (store32 r.1 (Field.anonPages.pos + 4 * n) 0, cow)

/-- `malloc` returns an address and what the storage there holds. No object is returned where it
returns NULL, where the permissions of a copy lack `VMOBJ_WRITE`, or where `cow_inc` does not
end. -/
def vmobjCreate (id : ι → BitVec 32) (malloc : ℕ → Option (BitVec 32 × Memory)) (t : Tables ι ε)
    (perm size : BitVec 32) : Creation σ ο ι ε → Option (Created σ ο ι ε)
  | .inode inode offset =>
    let requested := 4
    (malloc requested).map fun (new, m) =>
      let m := storeFields m [(.id, t.idCount)]
      let m := mutexInit m
      let m := storeFields m [(.size, size), (.numMappers, 0)]
      let m := memset m Field.mappers.pos 0 VMAP_HASH_TABLE_SIZE
      let m := storeFields m [(.flags, perm), (.cowNext, 0), (.cowPrev, 0), (.cowCount, 0),
        (.srcType, VMOBJ_INODE), (.inode, inode), (.offset, offset)]
      let r := vmObjInsert m { t with idCount := t.idCount + 1 } new
      ⟨new, requested, r.1, r.2, none⟩
  | .anon =>
    let requested := 4 + size.toNat / 4096 * 8
    (malloc requested).map fun (new, m) =>
      let m := storeFields m [(.id, t.idCount), (.size, size), (.numMappers, 0)]
      let m := mutexInit m
      let m := memset m Field.mappers.pos 0 VMAP_HASH_TABLE_SIZE
      let m := storeFields m [(.flags, perm), (.cowNext, 0), (.cowPrev, 0), (.cowCount, 0),
        (.srcType, VMOBJ_ANON)]
      let m := memset m Field.anonPages.pos 0 (size.toNat / 4096)
      let r := vmObjInsert m { t with idCount := t.idCount + 1 } new
      ⟨new, requested, r.1, r.2, none⟩
  | .copy addr source sourceSize page blocks =>
    let requested := 4 + size.toNat / 4096 * 8
    if perm &&& VMOBJ_WRITE ≠ 0 then
      (malloc requested).bind fun (new, m) =>
        let m := storeFields m [(.id, t.idCount), (.size, sourceSize), (.numMappers, 0)]
        let m := mutexInit m
        let m := memset m Field.mappers.pos 0 VMAP_HASH_TABLE_SIZE
        let m := storeFields m [(.flags, perm ||| VMOBJ_COW), (.cowNext, new), (.cowPrev, new),
          (.cowCount, sourceSize / 4096), (.cowSrc, addr), (.srcType, VMOBJ_ANON)]
        (copyPages id (countedPage page source) blocks m t.cow (size.toNat / 4096)).map
          fun (m, cow) =>
            let r := vmObjInsert m { t with idCount := t.idCount + 1, cow := cow } new
            ⟨new, requested, r.1, r.2, some (markSource source (sourceSize / 4096))⟩
    else none

def Creation.requested (size : BitVec 32) : Creation σ ο ι ε → ℕ
  | .inode _ _ => 4
  | _ => 4 + size.toNat / 4096 * 8

def Creation.HasPages : Creation σ ο ι ε → Prop
  | .inode _ _ => False
  | _ => True

def pagesBelow (size : ℕ) : ℕ := (size + 4095) / 4096

structure WellFormed (c : Creation σ ο ι ε) (r : Created σ ο ι ε) : Prop where
  covers : Field.anonPages.pos + 4 * pagesBelow (load32 r.storage Field.size.pos) ≤ r.requested
  empty : ∀ i < VMAP_HASH_TABLE_SIZE, load32 r.storage (Field.mappers.pos + 4 * i) = 0
  pages : c.HasPages → ∀ k < pagesBelow (load32 r.storage Field.size.pos),
    load32 r.storage (Field.anonPages.pos + 4 * k) = 0
  unmapped : load32 r.storage Field.numMappers.pos = 0

/-- The request is long enough for the object's own size, and what is not cleared was zero. -/
structure Fits (m : Memory) (requested size cleared : ℕ) : Prop where
  covers : Field.anonPages.pos + 4 * pagesBelow size ≤ requested
  mappers : ∀ b, Field.mappers.pos + VMAP_HASH_TABLE_SIZE ≤ b →
    b < Field.mappers.pos + 4 * VMAP_HASH_TABLE_SIZE → m b = 0
  pages : ∀ b, Field.anonPages.pos + cleared ≤ b → b < Field.anonPages.pos + 4 * pagesBelow size →
    m b = 0

/-- No storage is long enough for an object of an inode. The entries of an anonymous object are
counted as bytes where they are cleared, and those of a copy by the size that is passed and not by
that of the source. -/
def CreatedRight (m : Memory) (size : BitVec 32) : Creation σ ο ι ε → Prop
  | .inode _ _ => False
  | .anon => Fits m (4 + size.toNat / 4096 * 8) size.toNat (size.toNat / 4096)
  | .copy _ _ sourceSize _ _ =>
    Fits m (4 + size.toNat / 4096 * 8) sourceSize.toNat (4 * (size.toNat / 4096))

structure Filled (m m' : Memory) (size cleared : ℕ) : Prop where
  size : load32 m' Field.size.pos = size
  numMappers : load32 m' Field.numMappers.pos = 0
  mappers : ∀ b, Field.mappers.pos ≤ b → b < Field.mappers.pos + 4 * VMAP_HASH_TABLE_SIZE →
    m' b = if b < Field.mappers.pos + VMAP_HASH_TABLE_SIZE then 0 else m b
  pages : ∀ b, Field.anonPages.pos ≤ b →
    m' b = if b < Field.anonPages.pos + cleared then 0 else m b

omit [DecidableEq ι] [DecidableEq ε] [Fintype ε] in
theorem Filled.wellFormed_iff {c : Creation σ ο ι ε} {r : Created σ ο ι ε} {m : Memory}
    {size cleared : ℕ} (h : Filled m r.storage size cleared) (hc : c.HasPages) :
    WellFormed c r ↔ Fits m r.requested size cleared := by
  have hpages : (∀ k < pagesBelow size, load32 r.storage (Field.anonPages.pos + 4 * k) = 0) ↔
      ∀ b, Field.anonPages.pos + cleared ≤ b → b < Field.anonPages.pos + 4 * pagesBelow size →
        m b = 0 := by
    rw [words_zero_iff]
    constructor
    · intro hzero b hb hlt
      have hbyte := h.pages b (by omega)
      rw [if_neg (by omega), hzero b (by omega) hlt] at hbyte
      exact hbyte.symm
    · intro hzero b hb hlt
      rw [h.pages b hb]
      split
      · rfl
      · exact hzero b (by omega) hlt
  have hmappers : (∀ i < VMAP_HASH_TABLE_SIZE,
        load32 r.storage (Field.mappers.pos + 4 * i) = 0) ↔
      ∀ b, Field.mappers.pos + VMAP_HASH_TABLE_SIZE ≤ b →
        b < Field.mappers.pos + 4 * VMAP_HASH_TABLE_SIZE → m b = 0 := by
    rw [words_zero_iff]
    constructor
    · intro hzero b hb hlt
      have hbyte := h.mappers b (by omega) hlt
      rw [if_neg (by omega), hzero b (by omega) hlt] at hbyte
      exact hbyte.symm
    · intro hzero b hb hlt
      rw [h.mappers b hb hlt]
      split
      · rfl
      · exact hzero b (by omega) hlt
  constructor
  · intro hwf
    have hzero := hwf.pages hc
    have hcovers := hwf.covers
    rw [h.size] at hzero hcovers
    exact ⟨hcovers, hmappers.mp hwf.empty, hpages.mp hzero⟩
  · intro hfits
    refine ⟨?_, hmappers.mpr hfits.mappers, fun _ => ?_, h.numMappers⟩
    · rw [h.size]
      exact hfits.covers
    · rw [h.size]
      exact hpages.mpr hfits.pages

section Filling

variable {m m' m'' : Memory} {size cleared : ℕ} {ws : List (Field × BitVec 32)}

theorem storeFields_frame {b : ℕ} (h : ∀ w ∈ ws, b < w.1.pos ∨ w.1.pos + 4 ≤ b) :
    storeFields m ws b = m b := by
  induction ws generalizing m with
  | nil => rfl
  | cons w ws ih =>
    have hrest : ∀ w' ∈ ws, b < w'.1.pos ∨ w'.1.pos + 4 ≤ b :=
      fun w' hw' => h w' (List.mem_cons_of_mem _ hw')
    exact (ih hrest).trans (store32_frame m _ _ (h w List.mem_cons_self))

theorem load32_storeFields_of_apart {a : ℕ}
    (h : ∀ w ∈ ws, a + 4 ≤ w.1.pos ∨ w.1.pos + 4 ≤ a) :
    load32 (storeFields m ws) a = load32 m a := by
  refine load32_congr fun b hab hba => storeFields_frame fun w hw => ?_
  have hapart := h w hw
  omega

theorem load32_storeFields (m : Memory) (xs : List (Field × BitVec 32)) (f : Field) (v : BitVec 32)
    {ys : List (Field × BitVec 32)} (h : ∀ w ∈ ys, f.pos + 4 ≤ w.1.pos ∨ w.1.pos + 4 ≤ f.pos) :
    load32 (storeFields m (xs ++ (f, v) :: ys)) f.pos = v.toNat := by
  have hlast : storeFields m (xs ++ (f, v) :: ys) =
      storeFields (store32 (storeFields m xs) f.pos v.toNat) ys := List.foldl_append
  rw [hlast, load32_storeFields_of_apart h, load32_store32 _ _ v.isLt]

def Field.Apart (f : Field) : Prop :=
  f.pos + 4 ≤ Field.size.pos ∨
    Field.mappers.pos + 4 * VMAP_HASH_TABLE_SIZE ≤ f.pos ∧ f.pos + 4 ≤ Field.anonPages.pos

theorem Filled.storeFields (h : Filled m m' size cleared) (ws : List (Field × BitVec 32))
    (hws : ∀ w ∈ ws, w.1.Apart) : Filled m (storeFields m' ws) size cleared := by
  have hword : ∀ a, 8 ≤ a → a + 4 ≤ 204 → ∀ w ∈ ws, a + 4 ≤ w.1.pos ∨ w.1.pos + 4 ≤ a := by
    intro a hle hlt w hw
    have hpos : w.1.pos + 4 ≤ 8 ∨ 204 ≤ w.1.pos ∧ w.1.pos + 4 ≤ 240 := hws w hw
    omega
  have hbyte : ∀ b, 8 ≤ b → b < 204 ∨ 240 ≤ b → ∀ w ∈ ws, b < w.1.pos ∨ w.1.pos + 4 ≤ b := by
    intro b hle hb w hw
    have hpos : w.1.pos + 4 ≤ 8 ∨ 204 ≤ w.1.pos ∧ w.1.pos + 4 ≤ 240 := hws w hw
    omega
  refine ⟨?_, ?_, fun b hb hlt => ?_, fun b hb => ?_⟩
  · rw [load32_storeFields_of_apart (hword _ (by decide) (by decide)), h.size]
  · rw [load32_storeFields_of_apart (hword _ (by decide) (by decide)), h.numMappers]
  · have hle : 80 ≤ b := hb
    rw [storeFields_frame (hbyte b (by omega) (Or.inl hlt)), h.mappers b hb hlt]
  · have hle : 240 ≤ b := hb
    rw [storeFields_frame (hbyte b (by omega) (Or.inr hle)), h.pages b hb]

theorem Filled.clear (h : Filled m m' size 0)
    (hm : ∀ b, m'' b = if Field.anonPages.pos ≤ b ∧ b < Field.anonPages.pos + cleared then 0
      else m' b) : Filled m m'' size cleared := by
  have hbefore : ∀ b, b < Field.anonPages.pos → m'' b = m' b := fun b hb => by
    rw [hm, if_neg (by omega)]
  refine ⟨?_, ?_, fun b hb hlt => ?_, fun b hb => ?_⟩
  · have hle : Field.size.pos + 4 ≤ Field.anonPages.pos := by decide
    rw [← h.size]
    exact load32_congr fun b _ hb => hbefore b (by omega)
  · have hle : Field.numMappers.pos + 4 ≤ Field.anonPages.pos := by decide
    rw [← h.numMappers]
    exact load32_congr fun b _ hb => hbefore b (by omega)
  · have hle : Field.mappers.pos + 4 * VMAP_HASH_TABLE_SIZE ≤ Field.anonPages.pos := by decide
    rw [hbefore b (by omega), h.mappers b hb hlt]
  · have hnone : ¬ b < Field.anonPages.pos + 0 := by omega
    rw [hm, h.pages b hb, if_neg hnone]
    exact if_congr (and_iff_right hb) rfl rfl

theorem Filled.memset (h : Filled m m' size 0) (n : ℕ) :
    Filled m (memset m' Field.anonPages.pos 0 n) size n := h.clear fun _ => rfl

theorem Filled.entries {n : ℕ} (h : Filled m m' size (4 * n)) (i : ℕ) :
    load32 m' (Field.anonPages.pos + 4 * i) =
      if i < n then 0 else load32 m (Field.anonPages.pos + 4 * i) := by
  split
  · refine (load32_eq_zero_iff _ _).mpr fun b hb hlt => ?_
    rw [h.pages b (by omega), if_pos (by omega)]
  · refine load32_congr fun b hb hlt => ?_
    rw [h.pages b (by omega), if_neg (by omega)]

theorem filled_start (m : Memory) (idCount size : BitVec 32) :
    Filled m (memset (mutexInit (storeFields m [(.id, idCount), (.size, size), (.numMappers, 0)]))
      Field.mappers.pos 0 VMAP_HASH_TABLE_SIZE) size.toNat 0 := by
  generalize hfirst : storeFields m [(.id, idCount), (.size, size), (.numMappers, 0)] = m₁
  have hsize : load32 m₁ Field.size.pos = size.toNat := by
    rw [← hfirst]
    exact load32_storeFields m [(.id, idCount)] .size size (by simp [Field.pos])
  have hcount : load32 m₁ Field.numMappers.pos = 0 := by
    rw [← hfirst]
    exact load32_storeFields m [(.id, idCount), (.size, size)] .numMappers 0 (by simp)
  have hframe : ∀ b, Field.mutex.pos ≤ b → m₁ b = m b := by
    intro b hb
    rw [← hfirst]
    refine storeFields_frame fun w hw => ?_
    simp only [Field.pos] at hb
    simp only [List.mem_cons, List.not_mem_nil, or_false] at hw
    rcases hw with rfl | rfl | rfl <;> simp only [Field.pos] <;> omega
  rw [mutexInit]
  refine ⟨?_, ?_, fun b hb hlt => ?_, fun b hb => ?_⟩
  · rw [load32_memset_of_apart _ _ (by decide), load32_memset_of_apart _ _ (by decide), hsize]
  · rw [load32_memset_of_apart _ _ (by decide), load32_memset_of_apart _ _ (by decide), hcount]
  · have hmutex : Field.mutex.pos + mutexSize ≤ b := hb
    rw [memset, memset_frame _ _ (Or.inr hmutex), hframe b (by omega)]
    exact if_congr (and_iff_right hb) rfl rfl
  · have hnone : ¬ b < Field.anonPages.pos + 0 := by omega
    have hmappers : Field.mappers.pos + VMAP_HASH_TABLE_SIZE ≤ Field.anonPages.pos := by decide
    have hmutex : Field.mutex.pos + mutexSize ≤ Field.anonPages.pos := by decide
    rw [if_neg hnone, memset_frame _ _ (Or.inr (by omega)), memset_frame _ _ (Or.inr (by omega)),
      hframe b (by omega)]

end Filling

theorem copyPages_storage {id : ι → BitVec 32} {pages : ℕ → PageSrc ι} {blocks : ℕ → ε}
    {m m' : Memory} {cow cow' : Cow ι ε} {n : ℕ}
    (h : copyPages id pages blocks m cow n = some (m', cow')) (b : ℕ) :
    m' b = if Field.anonPages.pos ≤ b ∧ b < Field.anonPages.pos + 4 * n then 0 else m b := by
  induction n generalizing m' cow' with
  | zero =>
    cases h
    rw [if_neg (by omega)]
  | succ n ih =>
    obtain ⟨r, hr, h⟩ := Option.bind_eq_some_iff.mp h
    obtain ⟨cow₁, -, heq⟩ := Option.map_eq_some_iff.mp h
    cases heq
    rw [store32_zero, ih hr]
    by_cases hb : Field.anonPages.pos ≤ b ∧ b < Field.anonPages.pos + 4 * (n + 1)
    · rw [if_pos hb]
      split
      · rfl
      · exact if_pos (by omega)
    · rw [if_neg hb, if_neg (by omega), if_neg (by omega)]

section Branches

variable {id : ι → BitVec 32} {malloc : ℕ → Option (BitVec 32 × Memory)} {t : Tables ι ε}
  {perm size new : BitVec 32} {m : Memory} {c : Creation σ ο ι ε} {r : Created σ ο ι ε}

theorem anon_filled (hmalloc : malloc (4 + size.toNat / 4096 * 8) = some (new, m))
    (hrun : vmobjCreate id malloc t perm size .anon = some r) :
    r.requested = 4 + size.toNat / 4096 * 8 ∧
      Filled m r.storage size.toNat (size.toNat / 4096) := by
  simp only [vmobjCreate, hmalloc, Option.map_some, Option.some_inj] at hrun
  subst hrun
  have hfields := (filled_start m t.idCount size).storeFields [(.flags, perm), (.cowNext, 0),
    (.cowPrev, 0), (.cowCount, 0), (.srcType, VMOBJ_ANON)]
    (by simp [Field.Apart, Field.pos, VMAP_HASH_TABLE_SIZE])
  have hcleared := hfields.memset (size.toNat / 4096)
  exact ⟨rfl, hcleared.storeFields _ (by simp [Field.Apart, Field.pos, VMAP_HASH_TABLE_SIZE])⟩

theorem copy_filled {addr sourceSize : BitVec 32} {source : VmObj σ ο ι} {page : Untyped ι}
    {blocks : ℕ → ε} (hmalloc : malloc (4 + size.toNat / 4096 * 8) = some (new, m))
    (hrun : vmobjCreate id malloc t perm size (.copy addr source sourceSize page blocks) =
      some r) : r.requested = 4 + size.toNat / 4096 * 8 ∧
      Filled m r.storage sourceSize.toNat (4 * (size.toNat / 4096)) := by
  simp only [vmobjCreate, hmalloc, Option.bind_some] at hrun
  split at hrun
  · obtain ⟨⟨m', cow⟩, hpages, rfl⟩ := Option.map_eq_some_iff.mp hrun
    have hfields := (filled_start m t.idCount sourceSize).storeFields
      [(.flags, perm ||| VMOBJ_COW), (.cowNext, new), (.cowPrev, new),
        (.cowCount, sourceSize / 4096), (.cowSrc, addr), (.srcType, VMOBJ_ANON)]
      (by simp [Field.Apart, Field.pos, VMAP_HASH_TABLE_SIZE])
    have hcleared := hfields.clear (copyPages_storage hpages)
    exact ⟨rfl, hcleared.storeFields _ (by simp [Field.Apart, Field.pos, VMAP_HASH_TABLE_SIZE])⟩
  · cases hrun

/-- An object is created well formed exactly when its request is long enough and the bytes that are
not cleared were zero. -/
theorem created_well_formed_iff (hmalloc : malloc (c.requested size) = some (new, m))
    (hrun : vmobjCreate id malloc t perm size c = some r) :
    WellFormed c r ↔ CreatedRight m size c := by
  cases c with
  | inode inode offset =>
    have hmalloc : malloc 4 = some (new, m) := hmalloc
    simp only [vmobjCreate, hmalloc, Option.map_some, Option.some_inj] at hrun
    refine iff_of_false (fun h => ?_) fun h => h
    have hcovers := h.covers
    rw [← hrun] at hcovers
    simp only [Field.pos] at hcovers
    omega
  | anon =>
    have hpages : (Creation.anon : Creation σ ο ι ε).HasPages := trivial
    obtain ⟨hrequested, hfilled⟩ := anon_filled hmalloc hrun
    rw [hfilled.wellFormed_iff hpages, hrequested]
    rfl
  | copy addr source sourceSize page blocks =>
    have hpages : (Creation.copy addr source sourceSize page blocks).HasPages := trivial
    obtain ⟨hrequested, hfilled⟩ := copy_filled hmalloc hrun
    rw [hfilled.wellFormed_iff hpages, hrequested]
    rfl

end Branches

def newTables : Tables Unit (Fin 1) :=
  ⟨7, fun _ => 0, ⟨fun _ => ⟨.null, 0, none⟩, fun _ => none, fun _ => false⟩⟩

/-- The bytes of the storage are all `b`. -/
def heapOf (b : UInt8) (_ : ℕ) : Option (BitVec 32 × Memory) := some (0x1000, fun _ => b)

def createAnon (b : UInt8) (size : BitVec 32) : Option (Created Unit Unit Unit (Fin 1)) :=
  vmobjCreate (fun _ => 1) (heapOf b) newTables 3 size .anon

theorem created_well_formed_large : ∃ r, createAnon 0 0x40000 = some r ∧ WellFormed .anon r := by
  have hmalloc : heapOf 0 ((.anon : Creation Unit Unit Unit (Fin 1)).requested 0x40000) =
      some (0x1000, fun _ => 0) := rfl
  have hfits : CreatedRight (fun _ => 0) 0x40000 (.anon : Creation Unit Unit Unit (Fin 1)) :=
    ⟨by decide, fun _ _ _ => rfl, fun _ _ _ => rfl⟩
  have hsome : (createAnon 0 0x40000).isSome = true := rfl
  obtain ⟨r, hr⟩ := Option.isSome_iff_exists.mp hsome
  exact ⟨r, hr, (created_well_formed_iff hmalloc hr).mpr hfits⟩

/-- Two pages in storage that is not clear: 20 bytes are asked for, from the eighth bucket on the
table is not empty, and neither are the entries. -/
theorem small_object_malformed : ∃ r, createAnon 0xff 0x2000 = some r ∧ r.requested = 20 ∧
    load32 r.storage (Field.mappers.pos + 4 * 8) = 0xffffffff ∧
    load32 r.storage Field.anonPages.pos = 0xffff0000 ∧ ¬ WellFormed .anon r := by
  refine ⟨_, rfl, by decide, by decide +kernel, by decide +kernel, fun h => ?_⟩
  have hsize := h.covers
  revert hsize
  decide +kernel

end ObjectCreation
