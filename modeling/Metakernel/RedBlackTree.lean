import Metakernel.LinkedTrees
import Mathlib.Data.Nat.Bitwise
import Mathlib.Tactic.Common

/-!
# The red-black trees of data_structures.h

The macro is generic in the node type, the comparison and the accessors, and so is the model:
a node pointer is a value of `P` and the accessors are the fields of `Links`. A loop that does
not end within `fuel` rounds gives `none`.
-/
namespace RedBlackTree

open LinkedTrees

def COLOR : ℕ := 0x01

def BLACK : ℕ := 0x01

def notColor : ℕ := 0xfffffffe

section Model

variable {P : Type*} [DecidableEq P] (null : P) (comp : P → P → ℤ)

def setUp (s : Links P) (x v : P) : Links P := { s with up := Function.update s.up x v }

def setLeft (s : Links P) (x v : P) : Links P := { s with left := Function.update s.left x v }

def setRight (s : Links P) (x v : P) : Links P := { s with right := Function.update s.right x v }

def setColor (s : Links P) (x : P) (v : ℕ) : Links P :=
  { s with color := Function.update s.color x v }

def uncleNode (s : Links P) (node : P) : P :=
  if s.up node = s.left (s.up (s.up node)) then s.right (s.up (s.up node))
  else s.left (s.up (s.up node))

def sRightRotate (s : Links P) (tree : P) : Links P × P :=
  let top := tree
  let child := s.left tree
  let tmp := s.color top &&& COLOR
  let s := setColor s top (s.color top &&& notColor)
  let s := setColor s top (s.color top ||| (s.color child &&& COLOR))
  let s := setColor s child (s.color child &&& notColor)
  let s := setColor s child (s.color child ||| tmp)
  let s := setLeft s top (s.right child)
  let s := if null ≠ s.right child then setUp s (s.right child) top else s
  let s := setUp s child (s.up top)
  let s := setRight s child top
  let s := setUp s top child
  (s, child)

/-- Not quite the mirror image: the color word of the old top is assigned, which clears its
other bits. -/
def sLeftRotate (s : Links P) (tree : P) : Links P × P :=
  let top := tree
  let child := s.right tree
  let tmp := s.color top &&& COLOR
  let s := setColor s top (s.color top &&& notColor)
  let s := setColor s top (s.color child &&& COLOR)
  let s := setColor s child (s.color child &&& notColor)
  let s := setColor s child (s.color child ||| tmp)
  let s := setRight s top (s.left child)
  let s := if null ≠ s.left child then setUp s (s.left child) top else s
  let s := setUp s child (s.up top)
  let s := setLeft s child top
  let s := setUp s top child
  (s, child)

def dRightRotate (s : Links P) (tree : P) : Links P × P :=
  let (s, child) := sLeftRotate null s (s.left tree)
  let s := setLeft s tree child
  sRightRotate null s tree

def dLeftRotate (s : Links P) (tree : P) : Links P × P :=
  let (s, child) := sRightRotate null s (s.right tree)
  let s := setRight s tree child
  sLeftRotate null s tree

/-- The descent of `tree_insert`; returns the last node. -/
def searchLoop (s : Links P) (inn : P) : ℕ → P → Option P
  | 0, _ => none
  | fuel + 1, curr =>
    let last := curr
    let curr := if comp curr inn > 0 then s.left curr else s.right curr
    if null ≠ curr then searchLoop s inn fuel curr else some last

/-- One of the four rotations around the grandparent; returns the new top. -/
def rotateCase (s : Links P) (curr : P) : Links P × P :=
  if s.up curr = s.left (s.up (s.up curr)) then
    if curr = s.left (s.up curr) then sRightRotate null s (s.up (s.up curr))
    else dRightRotate null s (s.up (s.up curr))
  else
    if curr = s.right (s.up curr) then sLeftRotate null s (s.up (s.up curr))
    else dLeftRotate null s (s.up (s.up curr))

/-- `child_direction` is taken from the grandparent before the rotation, and used only when the
new top is not the root. -/
def rotateUp (s : Links P) (curr : P) : Links P × P :=
  let gp := s.up (s.up curr)
  let childDirection := decide (gp = s.left (s.up gp))
  let (s, curr) := rotateCase null s curr
  if null ≠ s.up curr then
    if childDirection then (setLeft s (s.up curr) curr, curr)
    else (setRight s (s.up curr) curr, curr)
  else (s, curr)

def transferHeat (s : Links P) (curr : P) : Links P × P :=
  let gp := s.up (s.up curr)
  let s := setColor s (s.left gp) (s.color (s.left gp) ||| BLACK)
  let s := setColor s (s.right gp) (s.color (s.right gp) ||| BLACK)
  let s := if null ≠ s.up gp then setColor s gp (s.color gp &&& notColor) else s
  (s, gp)

def fixLoop : ℕ → Links P → P → Option (Links P × P)
  | 0, _, _ => none
  | fuel + 1, s, curr =>
    if s.up curr ≠ null then
      if s.color (s.up curr) &&& COLOR ≠ 0 then some (s, curr)
      else if (if null ≠ uncleNode s curr then s.color (uncleNode s curr) &&& COLOR
          else BLACK) = 0 then
        let (s, curr) := transferHeat null s curr
        fixLoop fuel s curr
      else some (rotateUp null s curr)
    else some (s, curr)

/-- The last loop of `tree_insert`. -/
def topLoop (s : Links P) : ℕ → P → Option P
  | 0, _ => none
  | fuel + 1, curr => if null ≠ s.up curr then topLoop s fuel (s.up curr) else some curr

def treeInsert (fuel : ℕ) (s : Links P) (tree inn : P) : Option (Links P × P) :=
  let s := setColor s inn (s.color inn &&& notColor)
  if null ≠ tree then do
    let last ← searchLoop null comp s inn fuel tree
    let s := setUp s inn last
    let s := setRight s inn null
    let s := setLeft s inn null
    let s := if comp inn last < 0 then setLeft s last inn else setRight s last inn
    let (s, curr) ← fixLoop null fuel s inn
    let curr ← topLoop null s fuel curr
    some (s, curr)
  else
    let s := setUp s inn null
    let s := setRight s inn null
    let s := setLeft s inn null
    let s := setColor s inn (s.color inn ||| BLACK)
    some (s, inn)

def brotherNode (s : Links P) (node : P) : P :=
  if node = s.left (s.up node) then s.right (s.up node) else s.left (s.up node)

/-- The search of `tree_delete`; it takes the left link where the node is less than `inn`. -/
def targetLoop (s : Links P) (inn : P) : ℕ → P → Option P
  | 0, _ => none
  | fuel + 1, target =>
    if null ≠ target then
      if 0 = comp target inn then some target
      else if -1 = comp target inn then targetLoop s inn fuel (s.left target)
      else targetLoop s inn fuel (s.right target)
    else some target

def replacementLoop (s : Links P) (direction : Bool) : ℕ → P → Option P
  | 0, _ => none
  | fuel + 1, nodePtr =>
    if null ≠ (if direction then s.left nodePtr else s.right nodePtr) then
      replacementLoop s direction fuel (if direction then s.left nodePtr else s.right nodePtr)
    else some nodePtr

def childColor (s : Links P) (x : P) : ℕ := if x = null then BLACK else s.color x &&& COLOR

/-- The rotation of cases 1 and 4 around the parent of the brother, with the link from above. -/
def rotateParent (s : Links P) (brother : P) : Links P × P :=
  let top := s.up brother
  let childDirection := decide (top = s.left (s.up top))
  let (s, nodePtr) := if brother = s.left top then sRightRotate null s top
    else sLeftRotate null s top
  if null ≠ s.up nodePtr then
    if childDirection then (setLeft s (s.up nodePtr) nodePtr, nodePtr)
    else (setRight s (s.up nodePtr) nodePtr, nodePtr)
  else (s, nodePtr)

/-- The inner child of the brother is red and the outer one is black. -/
def innerRed (s : Links P) (brother : P) : Prop :=
  if brother = s.left (s.up brother) then
    childColor null s (s.left brother) ≠ 0 ∧ childColor null s (s.right brother) = 0
  else childColor null s (s.right brother) ≠ 0 ∧ childColor null s (s.left brother) = 0

instance (s : Links P) (brother : P) : Decidable (innerRed null s brother) := by
  unfold innerRed
  infer_instance

def rotateBrother (s : Links P) (brother : P) : Links P :=
  if brother = s.left (s.up brother) then
    let (s, nodePtr) := sLeftRotate null s brother
    setLeft s (s.up nodePtr) nodePtr
  else
    let (s, nodePtr) := sRightRotate null s brother
    setRight s (s.up nodePtr) nodePtr

def fixerLoop : ℕ → Links P → P → Option (Links P)
  | 0, _, _ => none
  | fuel + 1, s, fixPtr =>
    if s.up fixPtr ≠ null then
      if s.color fixPtr &&& COLOR = 0 then some (setColor s fixPtr (s.color fixPtr ||| BLACK))
      else
        let nodePtr := brotherNode s fixPtr
        if s.color nodePtr &&& COLOR = 0 then fixerLoop fuel (rotateParent null s nodePtr).1 fixPtr
        else if childColor null s (s.left nodePtr) ≠ 0 ∧ childColor null s (s.right nodePtr) ≠ 0 then
          fixerLoop fuel (setColor s nodePtr (s.color nodePtr &&& notColor)) (s.up fixPtr)
        else if innerRed null s nodePtr then fixerLoop fuel (rotateBrother null s nodePtr) fixPtr
        else
          let s := (rotateParent null s nodePtr).1
          let nodePtr := brotherNode s (s.up fixPtr)
          some (setColor s nodePtr (s.color nodePtr ||| BLACK))
    else some s

def runFixer (fuel : ℕ) (s : Links P) (fixPtr : P) : Option (Links P) :=
  if s.color fixPtr &&& COLOR ≠ 0 then fixerLoop null fuel s fixPtr else some s

def removeReplacement (s : Links P) (target replacement : P) (direction : Bool) : Links P :=
  if s.left target ≠ replacement ∧ s.right target ≠ replacement then
    if direction then
      let s := if null ≠ s.up replacement then
          setLeft s (s.up replacement) (s.right replacement) else s
      if null ≠ s.right replacement then setUp s (s.right replacement) (s.up replacement) else s
    else
      let s := if null ≠ s.up replacement then
          setRight s (s.up replacement) (s.left replacement) else s
      if null ≠ s.left replacement then setUp s (s.left replacement) (s.up replacement) else s
  else if s.right target = replacement then setRight s target (s.right replacement)
  else setLeft s target (s.left replacement)

def installReplacement (s : Links P) (target replacement : P) : Links P :=
  let s := if null ≠ s.left target then setUp s (s.left target) replacement else s
  let s := if null ≠ s.right target then setUp s (s.right target) replacement else s
  let s := if null ≠ s.up target then
      if target = s.left (s.up target) then setLeft s (s.up target) replacement
      else setRight s (s.up target) replacement
    else s
  let s := setUp s replacement (s.up target)
  let s := if s.right target ≠ replacement then setRight s replacement (s.right target)
    else setRight s replacement null
  if s.left target ≠ replacement then setLeft s replacement (s.left target)
  else setLeft s replacement null

/-- Returns the links, the new value of `*tree` and the returned node. The color of the
replacement comes from the member `flags` of the target, whatever the accessor of the color is. -/
def treeDelete (flags : P → ℕ) (fuel : ℕ) (s : Links P) (tree inn : P) :
    Option (Links P × P × P) := do
  let target ← targetLoop null comp s inn fuel tree
  if null ≠ target then
    if null = s.left target ∧ null = s.right target then
      if null ≠ s.up target then
        let s ← runFixer null fuel s target
        let replacement := s.up target
        let s := if target = s.left (s.up target) then setLeft s (s.up target) null
          else setRight s (s.up target) null
        let top ← topLoop null s fuel replacement
        some (s, top, target)
      else some (s, null, target)
    else
      let direction := decide (s.left target = null)
      let replacement ← replacementLoop null s direction fuel
        (if direction then s.right target else s.left target)
      let s ← runFixer null fuel s replacement
      let s := setColor s replacement (s.color replacement &&& notColor)
      let s := setColor s replacement (s.color replacement ||| (flags target &&& COLOR))
      let s := removeReplacement null s target replacement direction
      let s := installReplacement null s target replacement
      let top ← topLoop null s fuel replacement
      some (s, top, target)
  else some (s, tree, null)

end Model

end RedBlackTree
