import Gem5.Construction.Base.Fault

namespace Gem5
open Function

/-- A node pointer is the number of the allocation, and the head of the trie has the number 0. -/
abbrev NodePtr := Nat

/-- A node with its links to its parent and its kids. -/
structure TrieNode (Value : Type) where
  key : BitVec 64
  mask : BitVec 64
  value : Option Value
  parent : Option NodePtr
  kids : Fin 2 → Option NodePtr

namespace TrieNode
variable {Value : Type}

/-- The constructor `Node(_key, _mask, _val)`. -/
def make (key mask : BitVec 64) (value : Option Value) : TrieNode Value where
  key := key &&& mask
  mask := mask
  value := value
  parent := none
  kids := fun _ => none

/-- This function is `matches` of the source. -/
def matchesKey (node : TrieNode Value) (test : BitVec 64) : Bool := test &&& node.mask = node.key

/-- This function replaces one kid. -/
def setKid (node : TrieNode Value) (i : Fin 2) (kid : Option NodePtr) : TrieNode Value :=
  { node with kids := update node.kids i kid }

end TrieNode

/-- The trie, from which deleted nodes are absent. -/
structure Trie (Value : Type) where
  nodes : NodePtr → Option (TrieNode Value)
  allocations : Nat

namespace Trie
variable {Value : Type}

/-- This trie has the head only. -/
def init : Trie Value where
  nodes := update (fun _ => none) 0 (some (.make 0 0 none))
  allocations := 1

def maxBits : Nat := 64

/-- This number of passes is enough for a walk along strictly longer masks. -/
def maxSteps : Nat := maxBits + 1

variable (trie : Trie Value) (ptr : NodePtr) (key : BitVec 64)

/-- This function reads a node that exists. -/
def deref : Except Fault (TrieNode Value) :=
  match trie.nodes ptr with
  | some node => .ok node
  | none => .error .nullDereference

def store (node : TrieNode Value) : Trie Value := { trie with nodes := update trie.nodes ptr (some node) }

def delete : Trie Value := { trie with nodes := update trie.nodes ptr none }

/-- This function allocates a node at the pointer `allocations`. -/
def allocate (node : TrieNode Value) : Trie Value :=
  { trie.store trie.allocations node with allocations := trie.allocations + 1 }

/-- This function tests a kid that exists. -/
def testKid (test : TrieNode Value → Bool) : Option NodePtr → Except Fault Bool
  | none => .ok false
  | some kid => do .ok (test (← trie.deref kid))

/-- The first kid that passes a test. -/
def pickKid (test : TrieNode Value → Bool) (node : TrieNode Value) : Except Fault (Option NodePtr) := do
  let first ← trie.testKid test (node.kids 0)
  if first then .ok (node.kids 0)
  else
    let second ← trie.testKid test (node.kids 1)
    if second then .ok (node.kids 1) else .ok none

/-- This test decides whether the key that is inserted lies beyond a node. -/
def goesAfter (key newMask : BitVec 64) (node : TrieNode Value) : Bool :=
  node.matchesKey key && node.mask &&& newMask = node.mask

def extendMask (orig : BitVec 64) : BitVec 64 := orig ||| (orig >>> 1) ||| ((1 : BitVec 64) <<< (maxBits - 1))

/-- This loop walks down to the first value on the path of a key. -/
def lookupLoop (trie : Trie Value) (key : BitVec 64) : Nat → NodePtr → Except Fault (Option NodePtr)
  | 0, _ => .error .endlessLoop
  | fuel + 1, ptr => do
    let node ← trie.deref ptr
    if node.value.isSome then .ok (some ptr)
    else match ← trie.pickKid (·.matchesKey key) node with
      | some kid => lookupLoop trie key fuel kid
      | none => .ok none

def lookupHandle : Except Fault (Option NodePtr) := trie.lookupLoop key maxSteps 0

def lookup : Except Fault (Option Value) := do
  match ← trie.lookupHandle key with
  | some ptr => do .ok (← trie.deref ptr).value
  | none => .ok none

/-- The mask of the highest `width` bits. -/
def prefixMask (width : Nat) : BitVec 64 :=
  if width < maxBits then BitVec.allOnes 64 <<< (maxBits - width) else BitVec.allOnes 64

/-- This loop walks past the nodes that the new node is inserted after. -/
def walkLoop (trie : Trie Value) (key newMask : BitVec 64) : Nat → NodePtr → Except Fault NodePtr
  | 0, _ => .error .endlessLoop
  | fuel + 1, ptr => do
    let node ← trie.deref ptr
    match ← trie.pickKid (goesAfter key newMask) node with
    | some kid => walkLoop trie key newMask fuel kid
    | none => .ok ptr

/-- This loop extends the mask until the keys differ or the bits of the new mask are used up. -/
def legLoop (key kidKey newMask : BitVec 64) : Nat → BitVec 64 → Except Fault (BitVec 64)
  | 0, _ => .error .endlessLoop
  | fuel + 1, lastMask =>
    let curMask := extendMask lastMask
    if key &&& curMask ≠ kidKey &&& curMask ∨ lastMask = newMask then .ok lastMask
    else legLoop key kidKey newMask fuel curMask

/-- This function adds a new node in an empty place. -/
def addKid (node : TrieNode Value) (i : Fin 2) (kid : TrieNode Value) : Trie Value :=
  let added := trie.allocate { kid with parent := some ptr }
  added.store ptr (node.setKid i (some trie.allocations))

/-- This function adds a new node between a node and its kid. -/
def splitKid (node : TrieNode Value) (i : Fin 2) (kid : NodePtr) (kidNode middle : TrieNode Value) : Trie Value :=
  let added := trie.allocate { middle with parent := some ptr, kids := update middle.kids 0 (some kid) }
  let moved := added.store kid { kidNode with parent := some trie.allocations }
  moved.store ptr (node.setKid i (some trie.allocations))

/-- This loop tries the legs of a node and returns the new node with the trie. -/
def insertLegs (trie : Trie Value) (ptr : NodePtr) (key newMask : BitVec 64) (val : Value) :
    List (Fin 2) → Except Fault (NodePtr × Trie Value)
  | [] => .error (.panic "Reached the end of the Trie insert function!\n")
  | i :: rest => do
    let node ← trie.deref ptr
    match node.kids i with
    | none => .ok (trie.allocations, trie.addKid ptr node i (.make key newMask (some val)))
    | some kid => do
      let kidNode ← trie.deref kid
      let curMask ← legLoop key kidNode.key newMask maxSteps node.mask
      if curMask = node.mask then insertLegs trie ptr key newMask val rest
      else if curMask = newMask then
        .ok (trie.allocations, trie.splitKid ptr node i kid kidNode (.make key curMask (some val)))
      else do
        let split := trie.splitKid ptr node i kid kidNode (.make key curMask none)
        let middle ← split.deref trie.allocations
        .ok (split.allocations, split.addKid trie.allocations middle 1 (.make key newMask (some val)))

/-- This function inserts a value and returns its handle. -/
def insert (width : Nat) (val : Option Value) : Except Fault (NodePtr × Trie Value) :=
  match val with
  | none => .error (.assertion "val")
  | some val => do
    let newMask := prefixMask width
    let key := key &&& newMask
    let ptr ← trie.walkLoop key newMask maxSteps 0
    let node ← trie.deref ptr
    if node.mask = newMask then do
      assert (node.value = none) "!node->value"
      .ok (ptr, trie.store ptr { node with value := some val })
    else trie.insertLegs ptr key newMask val [0, 1]

/-- This function sets the parent of a kid that exists. -/
def adoptKid (parent : NodePtr) : Option NodePtr → Except Fault (Trie Value)
  | none => .ok trie
  | some kid => do .ok (trie.store kid { (← trie.deref kid) with parent := some parent })

/-- This function finds which kid of its parent a node is. -/
def kidIndex (parent : TrieNode Value) (ptr : NodePtr) : Except Fault (Fin 2) :=
  if parent.kids 0 = some ptr then .ok 0
  else if parent.kids 1 = some ptr then .ok 1
  else .error (.panic "Trie: Inconsistent parent/kid relationship.\n")

/-- This function gives the place of a node to its first kid and deletes the node. -/
def spliceKid (node : TrieNode Value) (parent : NodePtr) : Except Fault (Trie Value) := do
  let adopted ← trie.adoptKid parent (node.kids 0)
  let parentNode ← adopted.deref parent
  let i ← kidIndex parentNode ptr
  .ok ((adopted.delete ptr).store parent (parentNode.setKid i (node.kids 0)))

/-- This function moves a single kid to the first place. -/
def alignKids (node : TrieNode Value) : Trie Value :=
  if (node.kids 1).isSome ∧ node.kids 0 = none then
    trie.store ptr ((node.setKid 0 (node.kids 1)).setKid 1 none)
  else trie

/-- This function removes a handle and then the parents that are not needed any more. -/
def removeLoop : Nat → Trie Value → NodePtr → Except Fault (Option Value × Trie Value)
  | 0, _, _ => .error .endlessLoop
  | fuel + 1, trie, ptr => do
    let node ← trie.deref ptr
    if (node.kids 1).isSome then do
      assert (node.value.isSome) "node->value"
      .ok (node.value, trie.store ptr { node with value := none })
    else match node.parent with
      | none => .error (.panic "Trie: Can't remove root node.\n")
      | some parent => do
        let spliced ← trie.spliceKid ptr node parent
        let aligned := spliced.alignKids parent (← spliced.deref parent)
        let parentNode ← aligned.deref parent
        if parentNode.kids 1 = none ∧ parentNode.value = none ∧ parentNode.parent.isSome then do
          let (_, removed) ← removeLoop fuel aligned parent
          .ok (node.value, removed)
        else .ok (node.value, aligned)

def remove (handle : NodePtr) : Except Fault (Option Value × Trie Value) := removeLoop maxSteps trie handle

/-- This function removes the entry that a key finds. -/
def removeKey : Except Fault (Option Value × Trie Value) := do
  match ← trie.lookupHandle key with
  | some handle => trie.remove handle
  | none => .ok (none, trie)

/-- This function deletes all nodes below the head. -/
def clear : Except Fault (Trie Value) := do
  let head ← trie.deref 0
  .ok { trie with nodes := update (fun _ => none) 0 (some { head with kids := fun _ => none }) }

end Trie

end Gem5
