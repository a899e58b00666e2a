import Metakernel.AddressLookup
import Metakernel.NodeTables

/-!
# Address spaces and vm objects

The calls of virt_mem.c on the memory they share: the mapping nodes with the tree of an address
space and the mapper table of a vm object, and the two tables of registered spaces and objects.
Pointers are numbers with NULL 0. A call that follows NULL, or whose loop does not end, returns
nothing. Mutexes are left out, since every call runs on its own; locking through NULL faults.
-/
namespace AddressSpaces

open LinkedNodes LinkedTrees DataStructures RedBlackTree AddressLookup ByteMemory

def VMOBJ_REF_COUNT : BitVec 32 := 0x10

def VMOBJ_RESERVED : BitVec 32 := 0xffffff80

structure Vmap where
  flags : BitVec 32
  addr : ℕ
  obj : ℕ
  spc : ℕ
  next : ℕ

structure AddrSpc where
  id : ℕ
  hashNext : ℕ
  numMappers : BitVec 32
  mappers : ℕ
  objs : ℕ

structure VmObj where
  id : ℕ
  flags : BitVec 32
  size : ℕ
  numMappers : BitVec 32
  mappers : ℕ → ℕ
  cowNext : ℕ
  cowPrev : ℕ
  hashNext : ℕ

inductive Block where
  | vmap (p : ℕ)
  | vmObj (p : ℕ)
  | addrSpc (p : ℕ)
  | threads (p : ℕ)
  deriving DecidableEq

structure Vm where
  maps : ℕ → Vmap
  links : Links ℕ
  spcs : ℕ → AddrSpc
  objs : ℕ → VmObj
  addrTab : ℕ → ℕ
  vmObjTab : ℕ → ℕ
  freed : List Block

def Vm.setMap (vm : Vm) (p : ℕ) (m : Vmap) : Vm := { vm with maps := Function.update vm.maps p m }

def Vm.setSpc (vm : Vm) (p : ℕ) (a : AddrSpc) : Vm :=
  { vm with spcs := Function.update vm.spcs p a }

def Vm.setObj (vm : Vm) (p : ℕ) (o : VmObj) : Vm := { vm with objs := Function.update vm.objs p o }

def Vm.free (vm : Vm) (b : Block) : Vm := { vm with freed := b :: vm.freed }

@[simp] theorem Vm.setMap_self (vm : Vm) (p : ℕ) (m : Vmap) : (vm.setMap p m).maps p = m := by
  simp [Vm.setMap]

def mapNext : NodeField Vm ℕ ℕ where
  get vm p := (vm.maps p).next
  set vm p v := vm.setMap p { vm.maps p with next := v }

def spcNext : NodeField Vm ℕ ℕ where
  get vm p := (vm.spcs p).hashNext
  set vm p v := vm.setSpc p { vm.spcs p with hashNext := v }

def objNext : NodeField Vm ℕ ℕ where
  get vm p := (vm.objs p).hashNext
  set vm p v := vm.setObj p { vm.objs p with hashNext := v }

def cowNext : NodeField Vm ℕ ℕ where
  get vm p := (vm.objs p).cowNext
  set vm p v := vm.setObj p { vm.objs p with cowNext := v }

def cowLast : NodeField Vm ℕ ℕ where
  get vm p := (vm.objs p).cowPrev
  set vm p v := vm.setObj p { vm.objs p with cowPrev := v }

def mapId (vm : Vm) (p : ℕ) : ℕ := (vm.spcs (vm.maps p).spc).id

def spcId (vm : Vm) (p : ℕ) : ℕ := (vm.spcs p).id

def objId (vm : Vm) (p : ℕ) : ℕ := (vm.objs p).id

def mapIndex (key : ℕ) : ℕ := key % 31

def spcIndex (key : ℕ) : ℕ := key % 4093

def objIndex (key : ℕ) : ℕ := key % 16383

/-- The mapper tables lie in their objects, so the object is written too. -/
def mapTableInsert (vm : Vm) (obj map : ℕ) : Vm :=
  let (vm, tab) := hashTableInsert mapNext mapId mapIndex vm (vm.objs obj).mappers map
  vm.setObj obj { vm.objs obj with mappers := tab }

def mapTableLookup (vm : Vm) (obj key : ℕ) : Option ℕ :=
  hashTableLookup mapNext 0 mapId (fun a b => a = b) mapIndex loopBound vm (vm.objs obj).mappers key

def mapTableDelete (vm : Vm) (obj key : ℕ) : Option (Vm × ℕ) := do
  let (vm, tab, map) ← hashTableDelete mapNext 0 mapId (fun a b => a = b) mapIndex loopBound vm
    (vm.objs obj).mappers key
  some (vm.setObj obj { vm.objs obj with mappers := tab }, map)

def spcTableLookup (vm : Vm) (key : ℕ) : Option ℕ :=
  hashTableLookup spcNext 0 spcId (fun a b => a = b) spcIndex loopBound vm vm.addrTab key

def spcTableDelete (vm : Vm) (key : ℕ) : Option (Vm × ℕ) := do
  let (vm, tab, spc) ← hashTableDelete spcNext 0 spcId (fun a b => a = b) spcIndex loopBound vm
    vm.addrTab key
  some ({ vm with addrTab := tab }, spc)

def objTableLookup (vm : Vm) (key : ℕ) : Option ℕ :=
  hashTableLookup objNext 0 objId (fun a b => a = b) objIndex loopBound vm vm.vmObjTab key

def objTableDelete (vm : Vm) (key : ℕ) : Option (Vm × ℕ) := do
  let (vm, tab, obj) ← hashTableDelete objNext 0 objId (fun a b => a = b) objIndex loopBound vm
    vm.vmObjTab key
  some ({ vm with vmObjTab := tab }, obj)

/-- The ring deletion writes through both links of a node that is not alone in its ring. -/
def cowDelete (vm : Vm) (obj : ℕ) : Option Vm :=
  if obj ≠ 0 ∧ obj ≠ (vm.objs obj).cowNext ∧ ((vm.objs obj).cowPrev = 0 ∨ (vm.objs obj).cowNext = 0)
  then none else some (clistDelete cowNext cowLast 0 vm obj).1

def treeInsertMap (vm : Vm) (spc map : ℕ) : Option Vm := do
  let (links, objs) ← vmapTreeInsert vm.links (vm.spcs spc).objs map
  some ({ vm with links := links }.setSpc spc { vm.spcs spc with objs := objs })

def treeDeleteMap (vm : Vm) (spc map : ℕ) : Option Vm := do
  let (links, objs, _) ← treeDelete 0 comp (fun p => (vm.maps p).flags.toNat) loopBound vm.links
    (vm.spcs spc).objs map
  some ({ vm with links := links }.setSpc spc { vm.spcs spc with objs := objs })

/-- The descent of `collision_test`: nothing where it meets the address itself, else `low` and
`high`. -/
def boundsLoop (vm : Vm) (addr : ℕ) : ℕ → ℕ → ℕ → ℕ → Option (Option (ℕ × ℕ))
  | 0, _, _, _ => none
  | fuel + 1, tree, low, high =>
    if tree ≠ 0 then
      if addr < (vm.maps tree).addr then boundsLoop vm addr fuel (vm.links.left tree) tree high
      else if addr > (vm.maps tree).addr then
        boundsLoop vm addr fuel (vm.links.right tree) low tree
      else some none
    else some (some (low, high))

def collisionTest (vm : Vm) (spc addr size : ℕ) : Option ℤ := do
  match ← boundsLoop vm addr loopBound (vm.spcs spc).objs 0 0 with
  | none => some 1
  | some (low, high) =>
    if low = 0 then none
    else if wadd (vm.maps low).addr (vm.objs (vm.maps low).obj).size < addr then
      if high = 0 then none
      else if (vm.maps high).addr > wadd addr size then some 0 else some 1
    else some 1

def readNumMappers (vm : Vm) (obj : ℕ) : Option (BitVec 32) :=
  if obj = 0 then none else some (vm.objs obj).numMappers

def vmobjDestroy (vm : Vm) (obj : ℕ) : Option (Vm × ℤ) := do
  if obj = 0 then none
  else
    let (vm, target) ← objTableDelete vm (vm.objs obj).id
    let destroys ← if target ≠ 0 then some true
      else (readNumMappers vm target).map fun n => decide (n ≠ 0)
    if destroys then
      let vm ← cowDelete vm target
      some (vm.free (.vmObj target), 0)
    else some (vm, -1)

def mappersAddr (obj : ℕ) : ℕ := obj + 80

/-- The test at the end of `delete_mapping` and of `vmobj_unmap`. -/
def garbageCollect (vm : Vm) (obj : ℕ) : Option Vm :=
  if 0 = mappersAddr obj ∧ (vm.objs obj).flags &&& VMOBJ_REF_COUNT ≠ 0 then
    (vmobjDestroy vm obj).map Prod.fst
  else some vm

def deleteMapping (vm : Vm) (map : ℕ) : Option Vm := do
  let spc := (vm.maps map).spc
  let obj := (vm.maps map).obj
  if spc = 0 ∨ obj = 0 then none
  else
    let vm := vm.setObj obj { vm.objs obj with numMappers := (vm.objs obj).numMappers - 1 }
    let (vm, _) ← mapTableDelete vm obj (vm.spcs spc).id
    garbageCollect vm obj

/-- What the loop of `unmap_all_objs` does with the nodes of the tree. -/
inductive Access where
  | read (p : ℕ)
  | write (p : ℕ)
  | deleteMapping (p : ℕ)
  | free (p : ℕ)
  deriving DecidableEq

def Access.node : Access → ℕ
  | .read p | .write p | .deleteMapping p | .free p => p

def unmapLoop (spc : ℕ) : ℕ → Vm → List Access → ℕ → Option (Vm × List Access)
  | 0, _, _, _ => none
  | fuel + 1, vm, log, curr =>
    if curr = 0 then none
    else if vm.links.left curr ≠ 0 then
      unmapLoop spc fuel vm (log ++ [.read curr]) (vm.links.left curr)
    else if vm.links.right curr ≠ 0 then
      unmapLoop spc fuel vm (log ++ [.read curr]) (vm.links.right curr)
    else if curr ≠ (vm.spcs spc).objs then do
      let vm ← deleteMapping vm curr
      let up := vm.links.up curr
      if up = 0 then none
      else if curr = vm.links.left up then
        let node := vm.links.left up
        let vm := { vm with links := setLeft vm.links up 0 }.free (.vmap node)
        unmapLoop spc fuel vm (log ++ [.read curr, .deleteMapping curr, .read curr, .read up,
          .read curr, .read up, .free node, .write up]) up
      else
        let node := vm.links.right up
        let vm := { vm with links := setRight vm.links up 0 }.free (.vmap node)
        unmapLoop spc fuel vm (log ++ [.read curr, .deleteMapping curr, .read curr, .read up,
          .read curr, .read up, .free node, .write up]) up
    else do
      let vm ← deleteMapping vm curr
      some (vm.free (.vmap curr), log ++ [.read curr, .deleteMapping curr, .free curr])

/-- Returns what was done with the nodes of the tree too. A round goes down to a node or takes one
away, so no tree needs more than two rounds a node. -/
def unmapAllObjs (vm : Vm) (spc : ℕ) : Option (Vm × List Access) :=
  unmapLoop spc (2 * loopBound) vm [] (vm.spcs spc).objs

def addrSpcDestroy (vm : Vm) (spc : ℕ) : Option (Vm × ℤ) := do
  if spc = 0 then none
  else
    let (vm, target) ← spcTableDelete vm (vm.spcs spc).id
    if target ≠ 0 then
      if (vm.spcs spc).numMappers ≠ 0 then
        let vm := vm.free (.threads (vm.spcs spc).mappers)
        let (vm, _) ← unmapAllObjs vm target
        some (vm.free (.addrSpc target), 0)
      else some (vm, -1)
    else some (vm, -1)

/-- `block` is what `malloc` returns. -/
def vmobjMap (vm : Vm) (spc obj addr : ℕ) (flags : BitVec 32) (block : ℕ) : Option (Vm × ℤ) := do
  if spc = 0 ∨ obj = 0 then none
  else
    let hit ← collisionTest vm spc addr (vm.objs obj).size
    if hit = 0 ∧ block ≠ 0 then
      let vm := vm.setMap block
        { vm.maps block with spc := spc, obj := obj, flags := flags &&& ~~~VMOBJ_RESERVED, addr := addr }
      let vm := vm.setObj obj { vm.objs obj with numMappers := (vm.objs obj).numMappers + 1 }
      let vm := mapTableInsert vm obj block
      let vm ← treeInsertMap vm spc block
      some (vm, 0)
    else some (vm, -1)

def vmobjUnmap (vm : Vm) (spc obj : ℕ) : Option (Vm × ℤ) := do
  if spc = 0 ∨ obj = 0 then none
  else
    let (vm, map) ← mapTableDelete vm obj (vm.spcs spc).id
    if map ≠ 0 then
      let vm ← treeDeleteMap vm spc map
      let vm := vm.setObj obj { vm.objs obj with numMappers := (vm.objs obj).numMappers - 1 }
      let vm ← garbageCollect vm obj
      some (vm.free (.vmap map), 0)
    else some (vm, -1)

/-- A mapping found under the id of the space is put back where the new range is taken. -/
def vmobjRemap (vm : Vm) (spc obj addr : ℕ) (flags : BitVec 32) : Option (Vm × ℤ) := do
  if spc = 0 ∨ obj = 0 then none
  else
    let spc ← spcTableLookup vm (vm.spcs spc).id
    if spc = 0 then none
    else
      let obj ← objTableLookup vm (vm.objs obj).id
      if obj = 0 then none
      else
        let map ← mapTableLookup vm obj (vm.spcs spc).id
        if map ≠ 0 then
          if (vm.maps map).spc = spc ∨ spc = 0 then
            some (vm.setMap map { vm.maps map with flags := flags &&& ~~~VMOBJ_RESERVED }, 0)
          else
            let vm ← treeDeleteMap vm spc map
            let hit ← collisionTest vm spc addr (vm.objs obj).size
            if hit = 0 then
              let vm := vm.setMap map
                { vm.maps map with flags := flags &&& ~~~VMOBJ_RESERVED, addr := addr }
              let vm := mapTableInsert vm obj map
              let vm ← treeInsertMap vm spc map
              some (vm, 0)
            else
              let vm := mapTableInsert vm obj map
              let vm ← treeInsertMap vm spc map
              some (vm, -1)
        else some (vm, -1)

end AddressSpaces
