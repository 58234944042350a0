import Gem5.Construction.Base.Fault

namespace Gem5.Compression

/-- A codeword in the lowest bits of a number. -/
structure Code where
  code : BitVec 64
  length : Nat
deriving DecidableEq, Repr

/-- A node of the Huffman tree is a leaf with its frequency or has two subtrees. -/
inductive HuffmanNode where
  | leaf (value frequency : BitVec 64)
  | node (left right : HuffmanNode)
deriving DecidableEq, Repr

def HuffmanNode.frequency : HuffmanNode → BitVec 64
  | .leaf _ frequency => frequency
  | .node left right => left.frequency + right.frequency

/-- This relation is `buildTree`: each round merges two nodes of the smallest frequencies, and the priority queue leaves
the order of equal frequencies open. -/
inductive BuildsTree : List HuffmanNode → HuffmanNode → Prop
  | root (node : HuffmanNode) : BuildsTree [node] node
  | merge {queue rest : List HuffmanNode} {left right root : HuffmanNode}
      (popped : queue.Perm (left :: right :: rest))
      (first : ∀ other ∈ right :: rest, left.frequency ≤ other.frequency)
      (second : ∀ other ∈ rest, right.frequency ≤ other.frequency)
      (merged : BuildsTree (.node left right :: rest) root) : BuildsTree queue root

/-- This function takes a node of the smallest frequency out of a queue. -/
def popSmallest : HuffmanNode → List HuffmanNode → HuffmanNode × List HuffmanNode
  | node, [] => (node, [])
  | node, next :: rest =>
    let popped := popSmallest next rest
    if node.frequency ≤ popped.1.frequency then (node, next :: rest) else (popped.1, node :: popped.2)

/-- This function merges at most a number of times and pops the first of equal frequencies. -/
def mergeTrees : Nat → HuffmanNode → List HuffmanNode → HuffmanNode
  | 0, node, _ => node
  | merges + 1, node, rest =>
    match popSmallest node rest with
    | (root, []) => root
    | (left, next :: others) =>
      let popped := popSmallest next others
      mergeTrees merges (.node left popped.1) popped.2

/-- This function builds the tree of a queue that is not empty. -/
def buildTree (node : HuffmanNode) (rest : List HuffmanNode) : HuffmanNode := mergeTrees rest.length node rest

/-- An encoder. -/
structure Huffman where
  maxCodeLength : Nat
  trees : List HuffmanNode
  valueToCode : BitVec 64 → Option Code
  codeToValue : BitVec 64 → Option (BitVec 64)

namespace Huffman

/-- A new encoder has no samples and no codes. -/
def empty (maxCodeLength : Nat) : Huffman :=
  { maxCodeLength, trees := [], valueToCode := fun _ => none, codeToValue := fun _ => none }

/-- The constructor. -/
def construct (maxCodeLength : Nat) : Except Fault Huffman :=
  if maxCodeLength > 64 then .error (.fatal "Code length cannot surpass its underlying container")
  else .ok (empty maxCodeLength)

variable (huffman : Huffman)

def sample (value frequency : BitVec 64) : Huffman :=
  if frequency ≠ 0 then { huffman with trees := .leaf value frequency :: huffman.trees } else huffman

/-- This function samples values with their frequencies one after another. -/
def sampleAll (samples : List (BitVec 64 × BitVec 64)) : Huffman :=
  samples.foldl (fun huffman sample => huffman.sample sample.1 sample.2) huffman

/-- This function enters a codeword into both tables. -/
def record (value : BitVec 64) (code : Code) : Huffman :=
  { huffman with
    valueToCode := Function.update huffman.valueToCode value (some code)
    codeToValue := Function.update huffman.codeToValue code.code (some value) }

def generateCodes (huffman : Huffman) : HuffmanNode → Code → Huffman
  | .leaf value _, current => if current.length > huffman.maxCodeLength then huffman else huffman.record value current
  | .node left right, current =>
    if current.length > huffman.maxCodeLength then huffman
    else
      let rightCode : Code := { code := current.code <<< 1 + 1, length := current.length + 1 }
      let leftCode : Code := { code := current.code <<< 1, length := current.length + 1 }
      (huffman.generateCodes right rightCode).generateCodes left leftCode

/-- This function is `generateCodeMaps` with the tree that the queue gives. -/
def generateCodeMaps (root : HuffmanNode) : Huffman :=
  (empty huffman.maxCodeLength).generateCodes root { code := 0, length := 0 }

def encode (value : BitVec 64) : Code :=
  match huffman.valueToCode value with
  | none => { code := 0, length := 65 }
  | some code => code

def decode (code : BitVec 64) : Except Fault (BitVec 64) :=
  match huffman.codeToValue code with
  | none => .error (.assertion "it != codeToValue.end()")
  | some value => .ok value

end Huffman
end Gem5.Compression
