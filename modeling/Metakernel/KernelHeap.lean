import Metakernel.DataStructures
import Metakernel.Util

/-!
# The kernel heap of malloc.c

The free blocks carry their own headers (`mem_node`) inside a byte memory. `none` is a run
that has left the program's meaning: a bit scan of zero, an array index out of bounds, or a
loop that does not end. The mutexes protect these functions and do nothing else here.
-/
namespace KernelHeap

open LinkedNodes ByteMemory DataStructures

def smallestBlock : ℕ := 16
def listOffset : ℕ := 4
def largestBlock : ℕ := 1024 * 1024
def hashTableSize : ℕ := 256 * 256 - 1
def emergencyStore : ℕ := 0x100000

/-- The number of iterations after which a loop over 32-bit state counts as endless. -/
def loopBound : ℕ := 4294967296

/-- Index of the lowest set bit. The instruction leaves its result undefined for zero. -/
def bsf (x : ℕ) : Option ℕ := (List.range 32).find? fun i => x.testBit i

def bsr (x : ℕ) : Option ℕ := (List.range 32).reverse.find? fun i => x.testBit i

def sizeTab : List ℕ :=
  [0x00000001, 0x00000002, 0x00000004, 0x00000008, 0x00000010, 0x00000020, 0x00000040,
   0x00000080, 0x00000100, 0x00000200, 0x00000400, 0x00000800, 0x00001000, 0x00002000,
   0x00004000, 0x00008000, 0x00010000, 0x00020000, 0x00040000, 0x00080000, 0x00100000,
   0x00200000, 0x00400000, 0x00800000, 0x01000000, 0x02000000, 0x04000000, 0x08000000,
   0x10000000, 0x20000000, 0x40000000, 0x80000000]

def addrSize (ptr : ℕ) : Option ℕ := do
  let i ← bsf ptr
  sizeTab[i]?

def roundDown (n : ℕ) : Option ℕ := do
  let i ← bsr n
  sizeTab[i]?

def roundUp (n : ℕ) : Option ℕ := do
  let i ← bsr (wsub n 1)
  sizeTab[i + 1]?

def addrPower (n : ℕ) : Option ℕ := bsr n

/-- The same entry point as `addrPower`. -/
def ilog (n : ℕ) : Option ℕ := addrPower n

def nodeNext : NodeField Memory ℕ ℕ := wordField 0
def nodeLast : NodeField Memory ℕ ℕ := wordField 4
def nodeHashNext : NodeField Memory ℕ ℕ := wordField 8
def nodeSize : NodeField Memory ℕ ℕ := wordField 12

structure Heap where
  mem : Memory
  highList : ℕ
  blockLists : ℕ → ℕ
  hashTable : ℕ → ℕ
  heapFree : ℕ

def Heap.setSize (h : Heap) (ptr size : ℕ) : Heap := { h with mem := nodeSize.set h.mem ptr size }

def Heap.size (h : Heap) (ptr : ℕ) : ℕ := nodeSize.get h.mem ptr

def ptrToUint (ptr : ℕ) : ℤ := if ptr < 2147483648 then ptr else (ptr : ℤ) - 4294967296

/-- C's remainder of the signed key, stored in an unsigned local. -/
def hashIndex (key : ℕ) : ℕ := ((ptrToUint key).tmod hashTableSize % 4294967296).toNat

def inTable (key : ℕ) : Option Unit := if hashIndex key < hashTableSize then some () else none

def lookupAddr (h : Heap) (ptr : ℕ) : Option ℕ := do
  inTable ptr
  hashTableLookup nodeHashNext 0 (fun _ p => p) (fun a b => a == b) hashIndex loopBound
    h.mem h.hashTable ptr

def insertAddr (h : Heap) (ptr : ℕ) : Option Heap := do
  let power ← addrPower (h.size ptr)
  let list := wsub power listOffset
  if list ≤ h.highList then
    let (mem, entry) := clistInsert nodeNext nodeLast 0 h.mem (h.blockLists list) ptr
    inTable ptr
    let (mem, table) := hashTableInsert nodeHashNext (fun _ p => p) hashIndex mem h.hashTable ptr
    some { h with
      mem := mem
      blockLists := Function.update h.blockLists list entry
      hashTable := table
      heapFree := wadd h.heapFree (nodeSize.get mem ptr) }
  else none

def deleteAddr (h : Heap) (ptr : ℕ) : Option Heap := do
  let power ← addrPower (h.size ptr)
  let list := wsub power listOffset
  if list ≤ h.highList then
    let (mem, entry) := clistDelete nodeNext nodeLast 0 h.mem ptr
    inTable ptr
    let (mem, table, _) ← hashTableDelete nodeHashNext 0 (fun _ p => p) (fun a b => a == b)
      hashIndex loopBound mem h.hashTable ptr
    some { h with
      mem := mem
      blockLists := Function.update h.blockLists list entry
      hashTable := table
      heapFree := wsub h.heapFree (nodeSize.get mem ptr) }
  else none

/-- The same deletion for a caller that holds the mutex; the counter is updated before the
hash table. -/
def deleteAddrNolock (h : Heap) (ptr : ℕ) : Option Heap := do
  let power ← addrPower (h.size ptr)
  let list := wsub power listOffset
  if list ≤ h.highList then
    let (mem, entry) := clistDelete nodeNext nodeLast 0 h.mem ptr
    let free := wsub h.heapFree (nodeSize.get mem ptr)
    inTable ptr
    let (mem, table, _) ← hashTableDelete nodeHashNext 0 (fun _ p => p) (fun a b => a == b)
      hashIndex loopBound mem h.hashTable ptr
    some { h with
      mem := mem
      blockLists := Function.update h.blockLists list entry
      hashTable := table
      heapFree := free }
  else none

/-- The loop of both forward merges: absorb the block behind `ptr` while the block is smaller
than its alignment and `wanted` asks for more. -/
def forwardLoop (wanted : ℕ → Bool) : ℕ → Heap → ℕ → ℕ → Option (Heap × ℕ)
  | 0, _, _, _ => none
  | fuel + 1, h, ptr, size => do
    let align ← addrSize ptr
    if size < align ∧ wanted size then
      let forward := wadd ptr size
      let found ← lookupAddr h forward
      if found ≠ 0 then
        let h ← deleteAddr h forward
        forwardLoop wanted fuel h ptr (wadd size (h.size forward))
      else some (h, size)
    else some (h, size)

def mergeBlockForward (h : Heap) (ptr size : ℕ) : Option (Heap × ℕ) := do
  let (h, size) ← forwardLoop (fun _ => true) loopBound h ptr size
  some (h.setSize ptr size, size)

/-- Does not write into the block, which is live, and stops at a limit. -/
def liveMergeForward (h : Heap) (ptr size limit : ℕ) : Option (Heap × ℕ) :=
  forwardLoop (fun size => decide (size < limit)) loopBound h ptr size

def mergeLoop : ℕ → Heap → ℕ → ℕ → Option (Heap × ℕ)
  | 0, _, _, _ => none
  | fuel + 1, h, ptr, size =>
    if size < largestBlock then do
      let (h, size) ← mergeBlockForward h ptr size
      let align ← addrSize ptr
      if size = align then
        let back := wsub ptr size
        let found ← lookupAddr h back
        if found ≠ 0 ∧ h.size back = size ∧ size < largestBlock then
          let h ← deleteAddr h back
          let h := h.setSize back (h.size back * 2)
          mergeLoop fuel h back (h.size back)
        else some (h, ptr)
      else some (h, ptr)
    else some (h, ptr)

def mergeBlock (h : Heap) (ptr size : ℕ) : Option (Heap × ℕ) := mergeLoop loopBound h ptr size

def splitLoop : ℕ → Heap → ℕ → ℕ → Option (Heap × ℕ)
  | 0, _, _, _ => none
  | fuel + 1, h, front, diff =>
    if smallestBlock ≤ diff then do
      let powSize ← roundDown diff
      let front := wsub front powSize
      let h ← insertAddr (h.setSize front powSize) front
      splitLoop fuel h front (wsub diff powSize)
    else some (h, diff)

def splitBlock (h : Heap) (ptr size minSize : ℕ) : Option (Heap × ℕ) := do
  let (h, diff) ← splitLoop loopBound h (wadd ptr size) (wsub size minSize)
  some (h, wadd minSize diff)

def acquireLoop : ℕ → Heap → ℕ → Option (Heap × ℕ)
  | 0, _, _ => none
  | fuel + 1, h, list =>
    if list ≤ h.highList then
      if h.blockLists list ≠ 0 then do
        let out := nodeLast.get h.mem (h.blockLists list)
        let h ← deleteAddrNolock h out
        some (h, out)
      else acquireLoop fuel h (wadd list 1)
    else some (h, 0)

/-- Returns NULL, which is 0, when no list has a block. -/
def acquireBlock (h : Heap) (size : ℕ) : Option (Heap × ℕ) := do
  let power ← ilog size
  acquireLoop loopBound h (wsub power listOffset)

def growLoop : ℕ → Heap → ℕ → ℕ → ℕ → Option (Heap × ℕ × ℕ)
  | 0, _, _, _, _ => none
  | fuel + 1, h, ptr, size, newSize =>
    if size < newSize then do
      let (h, size) ← liveMergeForward h ptr size newSize
      let align ← addrSize ptr
      if size = align ∧ size < newSize then
        let back := wsub ptr size
        let found ← lookupAddr h back
        if found ≠ 0 ∧ h.size back = size then
          let h ← deleteAddr h back
          let h := h.setSize back (h.size back * 2)
          growLoop fuel h back (h.size back) newSize
        else some (h, ptr, size)
      else some (h, ptr, size)
    else some (h, ptr, size)

def growBlock (h : Heap) (ptr size newSize : ℕ) : Option (Heap × ℕ × ℕ) :=
  growLoop loopBound h ptr size newSize

def setupBlock (h : Heap) (ptr size : ℕ) : Option (Heap × ℕ × ℕ) := do
  let (h, size) ← splitBlock h ptr (h.size ptr) size
  some (h, ptr, size)

/-- The function of util.c has an empty body. -/
def emptyCaches (h : Heap) : Heap := h

/-- Returns the heap, the pointer (0 is NULL) and the value left in `*size`. -/
def kernMalloc (h : Heap) (size priority : ℕ) : Option (Heap × ℕ × ℕ) := do
  let blockSize ← roundUp size
  if blockSize ≤ wsub h.heapFree emergencyStore ∨ priority ≠ 0 then
    let (h, out) ← acquireBlock h blockSize
    if out ≠ 0 then setupBlock h out size
    else
      let h := emptyCaches h
      let (h, out) ← acquireBlock h blockSize
      if out ≠ 0 then setupBlock h out size
      else some (h, 0, size)
  else
    let h := emptyCaches h
    if blockSize ≤ wsub h.heapFree emergencyStore then
      let (h, out) ← acquireBlock h blockSize
      if out ≠ 0 then setupBlock h out size
      else some (h, 0, size)
    else some (h, 0, size)

def freeLoop : ℕ → Heap → ℕ → ℕ → ℕ → Option Heap
  | 0, _, _, _, _ => none
  | fuel + 1, h, ptr, size, i =>
    if i < size then do
      let powSize ← roundDown (wsub size i)
      let powSize := if powSize > largestBlock then largestBlock else powSize
      let h ← insertAddr (h.setSize ptr powSize) ptr
      freeLoop fuel h (wadd ptr powSize) size (wadd i powSize)
    else some h

def kernFree (h : Heap) (ptr size : ℕ) : Option Heap :=
  if ptr ≠ 0 ∧ size ≠ 0 then do
    let h := h.setSize ptr size
    let (h, ptr) ← mergeBlock h ptr size
    freeLoop loopBound h ptr (h.size ptr) 0
  else some h

def cutLoop : ℕ → Heap → ℕ → ℕ → Option Heap
  | 0, _, _, _ => none
  | fuel + 1, h, curr, freeSize =>
    if freeSize ≠ 0 then do
      let align ← addrSize curr
      let inSize ← if freeSize > align then some align else roundDown freeSize
      let h ← insertAddr (h.setSize curr inSize) curr
      cutLoop fuel h (wadd curr inSize) (wsub freeSize inSize)
    else some h

/-- Cuts the end off a block of `size` bytes; returns the heap and the size that is kept. -/
def cutBlockEnd (h : Heap) (ptr min size : ℕ) : Option (Heap × ℕ) := do
  let start := wadd (min - min % 16) smallestBlock
  let h ← cutLoop loopBound h (wadd ptr start) (wsub size start)
  some (h, start)

def trimBlock (h : Heap) (ptr size oldSize : ℕ) : Option (Heap × ℕ × ℕ) := do
  let (h, oldSize) ← liveMergeForward h ptr oldSize size
  let (h, size) ← cutBlockEnd h ptr size oldSize
  some (h, ptr, size)

/-- The fallback of `kern_realloc`: allocate, copy and free; a second attempt follows after
the caches were flushed. -/
def moveBlock (h : Heap) (ptr size copySize grown oldSize : ℕ) : Option (Heap × ℕ × ℕ) := do
  let (h, out, newSize) ← kernMalloc h size 1
  if out ≠ 0 then
    let h := { h with mem := Util.memcpyLoHi h.mem out ptr copySize }
    let h ← kernFree h grown oldSize
    some (h, out, newSize)
  else
    let h := emptyCaches h
    let (h, out, newSize) ← kernMalloc h size 1
    if out ≠ 0 then
      let h := { h with mem := Util.memcpyLoHi h.mem out ptr copySize }
      let h ← kernFree h grown oldSize
      some (h, out, newSize)
    else some (h, 0, oldSize)

/-- The part of `kern_realloc` behind the reserve test, which the source has twice. -/
def growOrMove (h : Heap) (ptr size oldSize : ℕ) : Option (Heap × ℕ × ℕ) := do
  let copySize := oldSize
  let (h, grown, oldSize) ← growBlock h ptr oldSize size
  if oldSize ≥ size then
    let h := if grown ≠ ptr then { h with mem := Util.memmove h.mem grown ptr copySize } else h
    let (h, size) ← cutBlockEnd h grown size oldSize
    some (h, grown, size)
  else moveBlock h ptr size copySize grown oldSize

def kernRealloc (h : Heap) (ptr size oldSize priority : ℕ) : Option (Heap × ℕ × ℕ) :=
  if oldSize ≥ size then trimBlock h ptr size oldSize
  else if wsub size oldSize ≤ wsub h.heapFree emergencyStore ∨ priority ≠ 0 then
    growOrMove h ptr size oldSize
  else
    let h := emptyCaches h
    if wsub size oldSize ≤ wsub h.heapFree emergencyStore ∨ priority ≠ 0 then
      growOrMove h ptr size oldSize
    else some (h, 0, oldSize)

end KernelHeap
