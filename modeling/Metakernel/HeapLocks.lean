import Metakernel.KernelHeapRealloc
import Metakernel.LockCalls

/-!
# The mutexes of the kernel heap

The functions of malloc.c with `mutex` and `stat_mutex`. Where the heap is changed or read they do
what the functions without the mutexes do; a run that leaves the program's meaning there does not
return here.
-/
namespace HeapLocks

open KernelHeap (Heap addrSize roundDown roundUp ilog smallestBlock largestBlock listOffset loopBound
  emergencyStore emptyCaches Admitted Session Owned ExactFit realloc_exact_fit
  realloc_keeps_iff)
open ByteMemory LockCalls LockCalls.Call
open DyadicBlocks (Block)

inductive Mutex where
  | heap
  | stat
  deriving DecidableEq

abbrev Locking (α : Type) : Type := Call Mutex Heap α

def lookupAddr (ptr : ℕ) : Locking ℕ := do
  spinLock .heap
  let addr ← inspect fun h => KernelHeap.lookupAddr h ptr
  spinUnlock .heap
  pure addr

/-- The number of the list is computed before the mutex is taken. -/
def insertAddr (ptr : ℕ) : Locking Unit := do
  spinLock .heap
  change fun h => KernelHeap.insertAddr h ptr
  spinUnlock .heap

def deleteAddr (ptr : ℕ) : Locking Unit := do
  spinLock .heap
  change fun h => KernelHeap.deleteAddr h ptr
  spinUnlock .heap

def forwardLoop (wanted : ℕ → Bool) : ℕ → ℕ → ℕ → Locking ℕ
  | 0, _, _ => halt
  | fuel + 1, ptr, size => do
    let align ← inspect fun _ => addrSize ptr
    if size < align ∧ wanted size then do
      let found ← lookupAddr (wadd ptr size)
      if found ≠ 0 then do
        deleteAddr (wadd ptr size)
        let more ← read fun h => h.size (wadd ptr size)
        forwardLoop wanted fuel ptr (wadd size more)
      else pure size
    else pure size

def mergeBlockForward (ptr size : ℕ) : Locking ℕ := do
  let size ← forwardLoop (fun _ => true) loopBound ptr size
  write fun h => h.setSize ptr size
  pure size

def liveMergeForward (ptr size limit : ℕ) : Locking ℕ :=
  forwardLoop (fun size => decide (size < limit)) loopBound ptr size

def mergeLoop : ℕ → ℕ → ℕ → Locking ℕ
  | 0, _, _ => halt
  | fuel + 1, ptr, size =>
    if size < largestBlock then do
      let size ← mergeBlockForward ptr size
      let align ← inspect fun _ => addrSize ptr
      if size = align then do
        let found ← lookupAddr (wsub ptr size)
        let back ← read fun h => h.size (wsub ptr size)
        if found ≠ 0 ∧ back = size ∧ size < largestBlock then do
          deleteAddr (wsub ptr size)
          write fun h => h.setSize (wsub ptr size) (h.size (wsub ptr size) * 2)
          let double ← read fun h => h.size (wsub ptr size)
          mergeLoop fuel (wsub ptr size) double
        else pure ptr
      else pure ptr
    else pure ptr

def mergeBlock (ptr size : ℕ) : Locking ℕ := mergeLoop loopBound ptr size

def splitLoop : ℕ → ℕ → ℕ → Locking ℕ
  | 0, _, _ => halt
  | fuel + 1, front, diff =>
    if smallestBlock ≤ diff then do
      let powSize ← inspect fun _ => roundDown diff
      write fun h => h.setSize (wsub front powSize) powSize
      insertAddr (wsub front powSize)
      splitLoop fuel (wsub front powSize) (wsub diff powSize)
    else pure diff

def statSection : Locking Unit := do
  spinLock .stat
  spinUnlock .stat

def splitBlock (ptr size minSize : ℕ) : Locking ℕ := do
  let diff ← splitLoop loopBound (wadd ptr size) (wsub size minSize)
  statSection
  pure (wadd minSize diff)

def acquireLoop : ℕ → ℕ → Locking ℕ
  | 0, _ => halt
  | fuel + 1, list => do
    let high ← read fun h => h.highList
    if list ≤ high then do
      spinLock .heap
      let entry ← read fun h => h.blockLists list
      if entry ≠ 0 then do
        let out ← read fun h => KernelHeap.nodeLast.get h.mem entry
        change fun h => KernelHeap.deleteAddrNolock h out
        spinUnlock .heap
        pure out
      else do
        spinUnlock .heap
        acquireLoop fuel (wadd list 1)
    else pure 0

def acquireBlock (size : ℕ) : Locking ℕ := do
  let power ← inspect fun _ => ilog size
  acquireLoop loopBound (wsub power listOffset)

def growLoop : ℕ → ℕ → ℕ → ℕ → Locking (ℕ × ℕ)
  | 0, _, _, _ => halt
  | fuel + 1, ptr, size, newSize =>
    if size < newSize then do
      let size ← liveMergeForward ptr size newSize
      let align ← inspect fun _ => addrSize ptr
      if size = align ∧ size < newSize then do
        let found ← lookupAddr (wsub ptr size)
        let back ← read fun h => h.size (wsub ptr size)
        if found ≠ 0 ∧ back = size then do
          deleteAddr (wsub ptr size)
          write fun h => h.setSize (wsub ptr size) (h.size (wsub ptr size) * 2)
          let double ← read fun h => h.size (wsub ptr size)
          growLoop fuel (wsub ptr size) double newSize
        else pure (ptr, size)
      else pure (ptr, size)
    else pure (ptr, size)

def growBlock (ptr size newSize : ℕ) : Locking (ℕ × ℕ) := growLoop loopBound ptr size newSize

def setupBlock (ptr size : ℕ) : Locking (ℕ × ℕ) := do
  let whole ← read fun h => h.size ptr
  let size ← splitBlock ptr whole size
  pure (ptr, size)

def kernMalloc (size priority : ℕ) : Locking (ℕ × ℕ) := do
  let blockSize ← inspect fun _ => roundUp size
  spinLock .stat
  let heapFree ← read fun h => h.heapFree
  if blockSize ≤ wsub heapFree emergencyStore ∨ priority ≠ 0 then do
    spinUnlock .stat
    let out ← acquireBlock blockSize
    if out ≠ 0 then setupBlock out size
    else do
      write emptyCaches
      let out ← acquireBlock blockSize
      if out ≠ 0 then setupBlock out size
      else pure (0, size)
  else do
    spinUnlock .stat
    write emptyCaches
    spinLock .stat
    let heapFree ← read fun h => h.heapFree
    if blockSize ≤ wsub heapFree emergencyStore then do
      let out ← acquireBlock blockSize
      if out ≠ 0 then do
        spinUnlock .stat
        setupBlock out size
      else do
        spinUnlock .stat
        pure (0, size)
    else do
      spinUnlock .stat
      pure (0, size)

def freeLoop : ℕ → ℕ → ℕ → ℕ → Locking Unit
  | 0, _, _, _ => halt
  | fuel + 1, ptr, size, i =>
    if i < size then do
      let powSize ← inspect fun _ => roundDown (wsub size i)
      let powSize := if powSize > largestBlock then largestBlock else powSize
      write fun h => h.setSize ptr powSize
      insertAddr ptr
      freeLoop fuel (wadd ptr powSize) size (wadd i powSize)
    else pure ()

def kernFree (ptr size : ℕ) : Locking Unit :=
  if ptr ≠ 0 ∧ size ≠ 0 then do
    write fun h => h.setSize ptr size
    let ptr ← mergeBlock ptr size
    let size ← read fun h => h.size ptr
    freeLoop loopBound ptr size 0
    statSection
  else pure ()

def cutLoop : ℕ → ℕ → ℕ → Locking Unit
  | 0, _, _ => halt
  | fuel + 1, curr, freeSize =>
    if freeSize ≠ 0 then do
      let align ← inspect fun _ => addrSize curr
      let inSize ← inspect fun _ => if freeSize > align then some align else roundDown freeSize
      write fun h => h.setSize curr inSize
      insertAddr curr
      cutLoop fuel (wadd curr inSize) (wsub freeSize inSize)
    else pure ()

def cutBlockEnd (ptr min size : ℕ) : Locking ℕ := do
  let start := wadd (min - min % 16) smallestBlock
  cutLoop loopBound (wadd ptr start) (wsub size start)
  pure start

def trimBlock (ptr size oldSize : ℕ) : Locking (ℕ × ℕ) := do
  let oldSize ← liveMergeForward ptr oldSize size
  let size ← cutBlockEnd ptr size oldSize
  pure (ptr, size)

def moveInto (ptr copySize grown oldSize out newSize : ℕ) : Locking (ℕ × ℕ) := do
  write fun h => { h with mem := Util.memcpyLoHi h.mem out ptr copySize }
  kernFree grown oldSize
  pure (out, newSize)

def moveBlock (ptr size copySize grown oldSize : ℕ) : Locking (ℕ × ℕ) := do
  let (out, newSize) ← kernMalloc size 1
  if out ≠ 0 then moveInto ptr copySize grown oldSize out newSize
  else do
    write emptyCaches
    let (out, newSize) ← kernMalloc size 1
    if out ≠ 0 then moveInto ptr copySize grown oldSize out newSize
    else pure (0, oldSize)

def growOrMove (ptr size oldSize : ℕ) : Locking (ℕ × ℕ) := do
  let copySize := oldSize
  let (grown, oldSize) ← growBlock ptr oldSize size
  if oldSize ≥ size then do
    write fun h => if grown ≠ ptr then { h with mem := Util.memmove h.mem grown ptr copySize } else h
    let size ← cutBlockEnd grown size oldSize
    pure (grown, size)
  else moveBlock ptr size copySize grown oldSize

/-- The last exit does not give `stat_mutex` back. -/
def kernRealloc (ptr size oldSize priority : ℕ) : Locking (ℕ × ℕ) :=
  if oldSize ≥ size then trimBlock ptr size oldSize
  else do
    spinLock .stat
    let heapFree ← read fun h => h.heapFree
    if wsub size oldSize ≤ wsub heapFree emergencyStore ∨ priority ≠ 0 then do
      spinUnlock .stat
      growOrMove ptr size oldSize
    else do
      spinUnlock .stat
      write emptyCaches
      spinLock .stat
      let heapFree ← read fun h => h.heapFree
      if wsub size oldSize ≤ wsub heapFree emergencyStore ∨ priority ≠ 0 then do
        spinUnlock .stat
        growOrMove ptr size oldSize
      else pure (0, oldSize)

section Runs

variable {held : Mutex → Bool} {h : Heap} {ptr size : ℕ}

theorem lookupAddr_runs (hh : held .heap = false) : Runs held (lookupAddr ptr) h held
    ((KernelHeap.lookupAddr h ptr).map fun a => (h, a)) := runs_section hh runs_compute

theorem insertAddr_runs (hh : held .heap = false) : Runs held (insertAddr ptr) h held
    ((KernelHeap.insertAddr h ptr).map fun h => (h, ())) := runs_section_unit hh runs_compute

theorem deleteAddr_runs (hh : held .heap = false) : Runs held (deleteAddr ptr) h held
    ((KernelHeap.deleteAddr h ptr).map fun h => (h, ())) := runs_section_unit hh runs_compute

theorem forwardLoop_runs (hh : held .heap = false) (wanted : ℕ → Bool) (fuel : ℕ) :
    ∀ h ptr size, Runs held (forwardLoop wanted fuel ptr size) h held
      (KernelHeap.forwardLoop wanted fuel h ptr size) := by
  induction fuel with
  | zero => exact fun _ _ _ => runs_none rfl
  | succ fuel ih =>
    intro h ptr size
    rw [forwardLoop, KernelHeap.forwardLoop]
    refine Runs.bind_inspect runs_compute fun align _ => ?_
    by_cases hgo : size < align ∧ wanted size
    · rw [if_pos hgo, if_pos hgo]
      refine Runs.bind_inspect (lookupAddr_runs hh) fun found _ => ?_
      by_cases hfound : found ≠ 0
      · rw [if_pos hfound, if_pos hfound]
        refine Runs.bind_change (deleteAddr_runs hh) fun h₁ _ => ?_
        exact (ends_read _).runs_bind (ih _ _ _)
      · rw [if_neg hfound, if_neg hfound]
        exact runs_pure
    · rw [if_neg hgo, if_neg hgo]
      exact runs_pure

theorem mergeBlockForward_runs (hh : held .heap = false) : Runs held (mergeBlockForward ptr size) h
    held (KernelHeap.mergeBlockForward h ptr size) := by
  rw [mergeBlockForward, KernelHeap.mergeBlockForward]
  refine (forwardLoop_runs hh _ _ h ptr size).bind fun size h₁ _ => ?_
  exact (ends_write _).runs_bind runs_pure

theorem mergeLoop_runs (hh : held .heap = false) (fuel : ℕ) :
    ∀ h ptr size, Runs held (mergeLoop fuel ptr size) h held
      (KernelHeap.mergeLoop fuel h ptr size) := by
  induction fuel with
  | zero => exact fun _ _ _ => runs_none rfl
  | succ fuel ih =>
    intro h ptr size
    rw [mergeLoop, KernelHeap.mergeLoop]
    by_cases hsmall : size < largestBlock
    · rw [if_pos hsmall, if_pos hsmall]
      refine (mergeBlockForward_runs hh).bind fun size h₁ _ => ?_
      dsimp only
      refine Runs.bind_inspect runs_compute fun align _ => ?_
      by_cases hfull : size = align
      · rw [if_pos hfull, if_pos hfull]
        refine Runs.bind_inspect (lookupAddr_runs hh) fun found _ => ?_
        refine (ends_read _).runs_bind ?_
        by_cases hback : found ≠ 0 ∧ h₁.size (wsub ptr size) = size ∧ size < largestBlock
        · rw [if_pos hback, if_pos hback]
          refine Runs.bind_change (deleteAddr_runs hh) fun h₂ _ => ?_
          refine (ends_write _).runs_bind ?_
          exact (ends_read _).runs_bind (ih _ _ _)
        · rw [if_neg hback, if_neg hback]
          exact runs_pure
      · rw [if_neg hfull, if_neg hfull]
        exact runs_pure
    · rw [if_neg hsmall, if_neg hsmall]
      exact runs_pure

theorem splitLoop_runs (hh : held .heap = false) (fuel : ℕ) :
    ∀ h front diff, Runs held (splitLoop fuel front diff) h held
      (KernelHeap.splitLoop fuel h front diff) := by
  induction fuel with
  | zero => exact fun _ _ _ => runs_none rfl
  | succ fuel ih =>
    intro h front diff
    rw [splitLoop, KernelHeap.splitLoop]
    by_cases hmore : smallestBlock ≤ diff
    · rw [if_pos hmore, if_pos hmore]
      refine Runs.bind_inspect runs_compute fun powSize _ => ?_
      refine (ends_write _).runs_bind ?_
      refine Runs.bind_change (insertAddr_runs hh) fun h₁ _ => ?_
      exact ih _ _ _
    · rw [if_neg hmore, if_neg hmore]
      exact runs_pure

theorem statSection_ends (hs : held .stat = false) : Ends held statSection h held () h :=
  (ends_lock hs).bind (ends_unlock hs)

theorem splitBlock_runs {minSize : ℕ} (hh : held .heap = false) (hs : held .stat = false) :
    Runs held (splitBlock ptr size minSize) h held (KernelHeap.splitBlock h ptr size minSize) := by
  rw [splitBlock, KernelHeap.splitBlock]
  refine (splitLoop_runs hh _ h _ _).bind fun diff h₁ _ => ?_
  exact (statSection_ends hs).runs_bind runs_pure

theorem acquireLoop_runs (hh : held .heap = false) (fuel : ℕ) :
    ∀ h list, Runs held (acquireLoop fuel list) h held (KernelHeap.acquireLoop fuel h list) := by
  induction fuel with
  | zero => exact fun _ _ => runs_none rfl
  | succ fuel ih =>
    intro h list
    rw [acquireLoop, KernelHeap.acquireLoop]
    refine (ends_read _).runs_bind ?_
    by_cases hlist : list ≤ h.highList
    · rw [if_pos hlist, if_pos hlist]
      refine (ends_lock hh).runs_bind ((ends_read _).runs_bind ?_)
      by_cases hentry : h.blockLists list ≠ 0
      · rw [if_pos hentry, if_pos hentry]
        refine (ends_read _).runs_bind ?_
        refine Runs.bind_change runs_compute fun h₁ _ => ?_
        exact (ends_unlock hh).runs_bind runs_pure
      · rw [if_neg hentry, if_neg hentry]
        exact (ends_unlock hh).runs_bind (ih _ _)
    · rw [if_neg hlist, if_neg hlist]
      exact runs_pure

theorem acquireBlock_runs (hh : held .heap = false) :
    Runs held (acquireBlock size) h held (KernelHeap.acquireBlock h size) := by
  rw [acquireBlock, KernelHeap.acquireBlock]
  refine Runs.bind_inspect runs_compute fun power _ => ?_
  exact acquireLoop_runs hh loopBound h (wsub power listOffset)

theorem growLoop_runs (hh : held .heap = false) (fuel : ℕ) :
    ∀ h ptr size newSize, Runs held (growLoop fuel ptr size newSize) h held
      (KernelHeap.growLoop fuel h ptr size newSize) := by
  induction fuel with
  | zero => exact fun _ _ _ _ => runs_none rfl
  | succ fuel ih =>
    intro h ptr size newSize
    rw [growLoop, KernelHeap.growLoop]
    by_cases hmore : size < newSize
    · rw [if_pos hmore, if_pos hmore]
      refine (forwardLoop_runs hh _ _ h ptr size).bind fun size h₁ _ => ?_
      dsimp only
      refine Runs.bind_inspect runs_compute fun align _ => ?_
      by_cases hfull : size = align ∧ size < newSize
      · rw [if_pos hfull, if_pos hfull]
        refine Runs.bind_inspect (lookupAddr_runs hh) fun found _ => ?_
        refine (ends_read _).runs_bind ?_
        by_cases hback : found ≠ 0 ∧ h₁.size (wsub ptr size) = size
        · rw [if_pos hback, if_pos hback]
          refine Runs.bind_change (deleteAddr_runs hh) fun h₂ _ => ?_
          refine (ends_write _).runs_bind ?_
          exact (ends_read _).runs_bind (ih _ _ _ _)
        · rw [if_neg hback, if_neg hback]
          exact runs_pure
      · rw [if_neg hfull, if_neg hfull]
        exact runs_pure
    · rw [if_neg hmore, if_neg hmore]
      exact runs_pure

theorem setupBlock_runs (hh : held .heap = false) (hs : held .stat = false) :
    Runs held (setupBlock ptr size) h held (KernelHeap.setupBlock h ptr size) := by
  rw [setupBlock, KernelHeap.setupBlock]
  refine (ends_read _).runs_bind ?_
  exact (splitBlock_runs hh hs).bind fun size h₁ _ => runs_pure

theorem setup_or_null_runs {out : ℕ} {x : Locking (ℕ × ℕ)} {t : Option (Heap × ℕ × ℕ)}
    (hh : held .heap = false) (hs : held .stat = false) (hnull : Runs held x h held t) :
    Runs held (if out ≠ 0 then setupBlock out size else x) h held
      (if out ≠ 0 then KernelHeap.setupBlock h out size else t) := by
  by_cases hout : out ≠ 0
  · rw [if_pos hout, if_pos hout]
    exact setupBlock_runs hh hs
  · rw [if_neg hout, if_neg hout]
    exact hnull

theorem kernMalloc_runs {priority : ℕ} (hh : held .heap = false) (hs : held .stat = false) :
    Runs held (kernMalloc size priority) h held (KernelHeap.kernMalloc h size priority) := by
  have hhs : Function.update held .stat true .heap = false := hh
  rw [kernMalloc, KernelHeap.kernMalloc]
  refine Runs.bind_inspect runs_compute fun blockSize _ => ?_
  refine (ends_lock hs).runs_bind ((ends_read _).runs_bind ?_)
  by_cases hfits : blockSize ≤ wsub h.heapFree emergencyStore ∨ priority ≠ 0
  · rw [if_pos hfits, if_pos hfits]
    refine (ends_unlock hs).runs_bind ?_
    refine (acquireBlock_runs hh).bind fun out h₁ _ => ?_
    refine setup_or_null_runs hh hs ?_
    refine (ends_write _).runs_bind ?_
    refine (acquireBlock_runs hh).bind fun out h₂ _ => ?_
    exact setup_or_null_runs hh hs runs_pure
  · rw [if_neg hfits, if_neg hfits]
    refine (ends_unlock hs).runs_bind ((ends_write _).runs_bind ?_)
    refine (ends_lock hs).runs_bind ((ends_read _).runs_bind ?_)
    by_cases hnow : blockSize ≤ wsub (emptyCaches h).heapFree emergencyStore
    · rw [if_pos hnow]
      dsimp only
      rw [if_pos hnow]
      -- the search is made with `stat_mutex` held
      refine (acquireBlock_runs hhs).bind fun out h₁ _ => ?_
      dsimp only
      by_cases hout : out ≠ 0
      · rw [if_pos hout, if_pos hout]
        exact (ends_unlock hs).runs_bind (setupBlock_runs hh hs)
      · rw [if_neg hout, if_neg hout]
        exact (ends_unlock hs).runs_bind runs_pure
    · rw [if_neg hnow]
      dsimp only
      rw [if_neg hnow]
      exact (ends_unlock hs).runs_bind runs_pure

theorem freeLoop_runs (hh : held .heap = false) (fuel : ℕ) :
    ∀ h ptr size i, Runs held (freeLoop fuel ptr size i) h held
      ((KernelHeap.freeLoop fuel h ptr size i).map fun h => (h, ())) := by
  induction fuel with
  | zero => exact fun _ _ _ _ => runs_none rfl
  | succ fuel ih =>
    intro h ptr size i
    rw [freeLoop, KernelHeap.freeLoop]
    by_cases hmore : i < size
    · rw [if_pos hmore, if_pos hmore, Option.bind_eq_bind, Option.map_bind]
      refine Runs.bind_inspect runs_compute fun powSize _ => ?_
      refine (ends_write _).runs_bind ?_
      simp only [Function.comp_apply, Option.bind_eq_bind, Option.map_bind]
      refine Runs.bind_change (insertAddr_runs hh) fun h₁ _ => ?_
      exact ih _ _ _ _
    · rw [if_neg hmore, if_neg hmore]
      exact runs_pure

theorem kernFree_runs (hh : held .heap = false) (hs : held .stat = false) :
    Runs held (kernFree ptr size) h held
      ((KernelHeap.kernFree h ptr size).map fun h => (h, ())) := by
  rw [kernFree, KernelHeap.kernFree]
  by_cases hblock : ptr ≠ 0 ∧ size ≠ 0
  · rw [if_pos hblock, if_pos hblock, Option.bind_eq_bind, Option.map_bind]
    refine (ends_write _).runs_bind ?_
    refine (mergeLoop_runs hh loopBound _ ptr size).bind fun ptr h₁ _ => ?_
    refine (ends_read _).runs_bind ?_
    have hend := (freeLoop_runs hh loopBound h₁ ptr (h₁.size ptr) 0).bind (k := some)
      fun _ h₂ _ => (statSection_ends hs).runs
    rwa [Option.bind_eq_bind, Option.bind_fun_some] at hend
  · rw [if_neg hblock, if_neg hblock]
    exact runs_pure

theorem cutLoop_runs (hh : held .heap = false) (fuel : ℕ) :
    ∀ h curr freeSize, Runs held (cutLoop fuel curr freeSize) h held
      ((KernelHeap.cutLoop fuel h curr freeSize).map fun h => (h, ())) := by
  induction fuel with
  | zero => exact fun _ _ _ => runs_none rfl
  | succ fuel ih =>
    intro h curr freeSize
    rw [cutLoop, KernelHeap.cutLoop]
    by_cases hmore : freeSize ≠ 0
    · rw [if_pos hmore, if_pos hmore, Option.bind_eq_bind, Option.map_bind]
      refine Runs.bind_inspect runs_compute fun align _ => ?_
      have hpiece : ∀ inSize, Runs held (do
          write fun h => h.setSize curr inSize
          insertAddr curr
          cutLoop fuel (wadd curr inSize) (wsub freeSize inSize)) h held
          ((KernelHeap.insertAddr (h.setSize curr inSize) curr).bind fun h =>
            (KernelHeap.cutLoop fuel h (wadd curr inSize) (wsub freeSize inSize)).map
              fun h => (h, ())) := fun inSize =>
        (ends_write _).runs_bind (Runs.bind_change (insertAddr_runs hh) fun h₁ _ => ih _ _ _)
      by_cases hlarge : freeSize > align
      · simp only [Function.comp_apply, if_pos hlarge, Option.bind_eq_bind, Option.bind_some,
          Option.map_bind]
        exact (ends_inspect (g := fun _ => some align) rfl).runs_bind (hpiece align)
      · simp only [Function.comp_apply, if_neg hlarge, Option.bind_eq_bind, Option.map_bind]
        exact Runs.bind_inspect runs_compute fun inSize _ => hpiece inSize
    · rw [if_neg hmore, if_neg hmore]
      exact runs_pure

theorem cutBlockEnd_runs {min : ℕ} (hh : held .heap = false) :
    Runs held (cutBlockEnd ptr min size) h held (KernelHeap.cutBlockEnd h ptr min size) := by
  rw [cutBlockEnd, KernelHeap.cutBlockEnd]
  exact Runs.bind_change (cutLoop_runs hh loopBound h _ _) fun h₁ _ => runs_pure

theorem trimBlock_runs {oldSize : ℕ} (hh : held .heap = false) :
    Runs held (trimBlock ptr size oldSize) h held (KernelHeap.trimBlock h ptr size oldSize) := by
  rw [trimBlock, KernelHeap.trimBlock]
  refine (forwardLoop_runs hh _ _ h ptr oldSize).bind fun oldSize h₁ _ => ?_
  exact (cutBlockEnd_runs hh).bind fun size h₂ _ => runs_pure

theorem moveBlock_runs {copySize grown oldSize : ℕ} (hh : held .heap = false)
    (hs : held .stat = false) :
    Runs held (moveBlock ptr size copySize grown oldSize) h held
      (KernelHeap.moveBlock h ptr size copySize grown oldSize) := by
  have hmove : ∀ (h : Heap) (out newSize : ℕ),
      Runs held (moveInto ptr copySize grown oldSize out newSize) h held
        (KernelHeap.kernFree { h with mem := Util.memcpyLoHi h.mem out ptr copySize } grown oldSize >>=
          fun h => some (h, out, newSize)) := fun h out newSize =>
    (ends_write _).runs_bind (Runs.bind_change (kernFree_runs hh hs) fun h₁ _ => runs_pure)
  rw [moveBlock, KernelHeap.moveBlock]
  refine (kernMalloc_runs hh hs).bind fun first h₁ _ => ?_
  obtain ⟨out, newSize⟩ := first
  dsimp only
  by_cases hout : out ≠ 0
  · rw [if_pos hout, if_pos hout]
    exact hmove h₁ out newSize
  · rw [if_neg hout, if_neg hout]
    refine (ends_write _).runs_bind ?_
    refine (kernMalloc_runs hh hs).bind fun second h₂ _ => ?_
    obtain ⟨out, newSize⟩ := second
    dsimp only
    by_cases hout : out ≠ 0
    · rw [if_pos hout, if_pos hout]
      exact hmove h₂ out newSize
    · rw [if_neg hout, if_neg hout]
      exact runs_pure

theorem growOrMove_runs {oldSize : ℕ} (hh : held .heap = false) (hs : held .stat = false) :
    Runs held (growOrMove ptr size oldSize) h held (KernelHeap.growOrMove h ptr size oldSize) := by
  rw [growOrMove, KernelHeap.growOrMove]
  refine (growLoop_runs hh loopBound h ptr oldSize size).bind fun grown h₁ _ => ?_
  obtain ⟨grown, newSize⟩ := grown
  dsimp only
  by_cases henough : newSize ≥ size
  · rw [if_pos henough, if_pos henough]
    refine (ends_write _).runs_bind ?_
    exact (cutBlockEnd_runs hh).bind fun size h₂ _ => runs_pure
  · rw [if_neg henough, if_neg henough]
    exact moveBlock_runs hh hs

/-- A larger request that the reserve test refuses twice comes back with `stat_mutex` held. -/
theorem kernRealloc_refused_ends {oldSize priority : ℕ} (hs : held .stat = false)
    (hlarger : oldSize < size) (hrefused : ¬ Admitted h size oldSize priority) :
    Ends held (kernRealloc ptr size oldSize priority) h (Function.update held .stat true)
      (0, oldSize) h := by
  have htest : ¬ (wsub size oldSize ≤ wsub h.heapFree emergencyStore ∨ priority ≠ 0) := hrefused
  have hagain : ¬ (wsub size oldSize ≤ wsub (emptyCaches h).heapFree emergencyStore ∨
    priority ≠ 0) := hrefused
  rw [kernRealloc, if_neg (by omega)]
  refine (ends_lock hs).bind ((ends_read _).bind ?_)
  rw [if_neg htest]
  refine (ends_unlock hs).bind ((ends_write _).bind ?_)
  refine (ends_lock hs).bind ((ends_read _).bind ?_)
  rw [if_neg hagain]
  exact ends_pure

theorem kernRealloc_runs {oldSize priority : ℕ} (hh : held .heap = false) (hs : held .stat = false)
    (hserved : size ≤ oldSize ∨ Admitted h size oldSize priority) :
    Runs held (kernRealloc ptr size oldSize priority) h held
      (KernelHeap.kernRealloc h ptr size oldSize priority) := by
  rw [kernRealloc, KernelHeap.kernRealloc]
  by_cases hle : oldSize ≥ size
  · rw [if_pos hle, if_pos hle]
    exact trimBlock_runs hh
  · have hadmitted : wsub size oldSize ≤ wsub h.heapFree emergencyStore ∨ priority ≠ 0 :=
      hserved.resolve_left hle
    rw [if_neg hle, if_neg hle, if_pos hadmitted]
    refine (ends_lock hs).runs_bind ((ends_read _).runs_bind ?_)
    rw [if_pos hadmitted]
    exact (ends_unlock hs).runs_bind (growOrMove_runs hh hs)

theorem kernRealloc_restores_iff {oldSize priority : ℕ} (hh : held .heap = false)
    (hs : held .stat = false) :
    Restores held (kernRealloc ptr size oldSize priority) h (fun _ => True) ↔
      KernelHeap.kernRealloc h ptr size oldSize priority ≠ none ∧
        (size ≤ oldSize ∨ Admitted h size oldSize priority) := by
  by_cases hserved : size ≤ oldSize ∨ Admitted h size oldSize priority
  · rw [(kernRealloc_runs hh hs hserved).restores_iff]
    simp [hserved]
  · rw [not_or, not_le] at hserved
    refine iff_of_false ?_ fun hboth => hboth.2.elim (by omega) hserved.2
    rintro ⟨r, hlog, -⟩
    have hends : Ends held (kernRealloc ptr size oldSize priority) h _ _ _ :=
      kernRealloc_refused_ends hs hserved.1 hserved.2
    rw [hends.1] at hlog
    exact update_ne hs (Option.some_inj.mp hlog)

/-- In a consistent heap a request of a block that is served comes back, unless the block fits
exactly. -/
theorem kernRealloc_owned_iff {s : Session} {F : Finset Block} {b : Block} {priority : ℕ}
    (hh : held .heap = false) (hs : held .stat = false) (howned : Owned s F) (hb : b ∈ s.live)
    (hmax : size ≤ largestBlock) :
    Restores held (kernRealloc b.addr size b.size priority) s.heap (fun _ => True) ↔
      ¬ ExactFit s.heap F b size priority ∧ (size ≤ b.size ∨ Admitted s.heap size b.size priority) := by
  rw [kernRealloc_restores_iff hh hs]
  refine and_congr_left fun _ => ?_
  constructor
  · intro hreturns hexact
    exact hreturns (realloc_exact_fit howned.rep (howned.held b hb).1 (howned.apart b hb) hexact)
  · intro hexact
    obtain ⟨h', p, n, hrun, -⟩ := (realloc_keeps_iff howned hb hmax priority).mpr hexact
    rw [hrun]
    simp

end Runs

end HeapLocks
