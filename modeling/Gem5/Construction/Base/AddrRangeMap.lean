import Gem5.Construction.Base.AddrRange

namespace Gem5

/-- A node of the tree, whose identity stands for the iterators that refer to it. -/
structure RangeNode (Value : Type) where
  id : Nat
  range : AddrRange
  value : Value
deriving DecidableEq, Repr

/-- The map with its nodes in the order of the tree and the iterators in its cache. -/
structure AddrRangeMap (Value : Type) where
  maxCacheSize : BitVec 32
  tree : List (RangeNode Value)
  cache : List Nat
  nextId : Nat
deriving DecidableEq, Repr

namespace AddrRangeMap
variable {Value : Type}

/-- This map is empty. -/
def init (maxCacheSize : BitVec 32) : AddrRangeMap Value := { maxCacheSize, tree := [], cache := [], nextId := 0 }

variable (map : AddrRangeMap Value)

/-- This function reads the node of an iterator, which must be in the tree. -/
def deref (it : Nat) : Except Fault (RangeNode Value) :=
  match map.tree.find? (fun node => node.id = it) with
  | some node => .ok node
  | none => .error .danglingIterator

/-- This function adds an iterator to the cache, in place of the last one if the cache is full. -/
def addNewEntryToCache (it : Nat) : AddrRangeMap Value :=
  if map.maxCacheSize ≠ 0 then
    if (map.maxCacheSize.signExtend 64).toNat ≤ map.cache.length then
      if 1 < map.maxCacheSize.toInt then { map with cache := it :: map.cache.dropLast }
      else { map with cache := map.cache.dropLast ++ [it] }
    else { map with cache := it :: map.cache }
  else map

/-- This loop looks for the first cached entry that satisfies the condition. -/
def searchCache (map : AddrRangeMap Value) (cond : AddrRange → Except Fault Bool) : List Nat → Except Fault (Option Nat)
  | [] => .ok none
  | it :: rest => do
    let node ← map.deref it
    let holds ← cond node.range
    if holds then .ok (some it) else searchCache map cond rest

/-- This loop walks back over the nodes that merge with the one after them. -/
def searchBack (cond : AddrRange → Except Fault Bool) : List (RangeNode Value) → Except Fault (Option Nat)
  | [] => .ok none
  | i :: earlier => do
    let holds ← cond i.range
    if holds then .ok (some i.id)
    else match earlier with
      | [] => .ok none
      | next :: first => if next.range.mergesWith i.range then searchBack cond (next :: first) else .ok none

/-- This function tests a node, which may be the end of the tree. -/
def testNode (cond : AddrRange → Except Fault Bool) : Option (RangeNode Value) → Except Fault Bool
  | none => .ok false
  | some node => cond node.range

/-- This function looks at the first node above the range and then at the nodes before it. -/
def searchTree (tree : List (RangeNode Value)) (r : AddrRange) (cond : AddrRange → Except Fault Bool) :
    Except Fault (Option Nat) := do
  let before := tree.takeWhile fun node => !r.less node.range
  let next := (tree.dropWhile fun node => !r.less node.range).head?
  let holds ← testNode cond next
  if holds then .ok (next.map (·.id))
  else searchBack cond before.reverse

/-- This function finds an entry that satisfies the condition, first in the cache and then in the tree. -/
def find (r : AddrRange) (cond : AddrRange → Except Fault Bool) : Except Fault (Option Nat × AddrRangeMap Value) := do
  match ← map.searchCache cond map.cache with
  | some it => .ok (some it, { map with cache := it :: map.cache.erase it })
  | none =>
    match ← searchTree map.tree r cond with
    | some it => .ok (some it, map.addNewEntryToCache it)
    | none => .ok (none, map)

def contains (r : AddrRange) : Except Fault (Option Nat × AddrRangeMap Value) := map.find r fun r1 => r.isSubset r1

def containsAddr (r : Addr) : Except Fault (Option Nat × AddrRangeMap Value) := map.contains (.rangeSize r 1)

def intersects (r : AddrRange) : Except Fault (Option Nat × AddrRangeMap Value) := map.find r fun r1 => r.intersects r1

/-- The insertion of a pair into the tree, which keeps an equivalent key. -/
def insertNode (r : AddrRange) (d : Value) : Option Nat × AddrRangeMap Value :=
  let before := map.tree.takeWhile fun node => node.range.less r
  let after := map.tree.dropWhile fun node => node.range.less r
  let node : RangeNode Value := { id := map.nextId, range := r, value := d }
  match after.head?.filter fun next => !r.less next.range with
  | some next => (some next.id, map)
  | none => (some map.nextId, { map with tree := before ++ node :: after, nextId := map.nextId + 1 })

/-- This function inserts a range that intersects no stored one. -/
def insert (r : AddrRange) (d : Value) : Except Fault (Option Nat × AddrRangeMap Value) := do
  let (found, map) ← map.intersects r
  if found.isSome then .ok (none, map) else .ok (map.insertNode r d)

/-- This function erases the entry of an iterator. -/
def erase (p : Nat) : Except Fault (AddrRangeMap Value) := do
  let _ ← map.deref p
  .ok { map with cache := map.cache.filter (· ≠ p), tree := map.tree.filter (·.id ≠ p) }

/-- This function erases the entries from `p` up to `q`, and its loop over them removes `p` from the cache each time. -/
def eraseRange (p q : Option Nat) : Except Fault (AddrRangeMap Value) :=
  let before := map.tree.takeWhile fun node => some node.id ≠ p
  let rest := map.tree.dropWhile fun node => some node.id ≠ p
  let erased := rest.takeWhile fun node => some node.id ≠ q
  let after := rest.dropWhile fun node => some node.id ≠ q
  if rest.head?.map (·.id) = p ∧ after.head?.map (·.id) = q then
    .ok { map with
      cache := erased.foldl (fun cache _ => cache.filter fun it => some it ≠ p) map.cache
      tree := before ++ after }
  else .error .danglingIterator

/-- This function erases all entries. -/
def clear : AddrRangeMap Value := { map with cache := [], tree := [] }

/-- This type lists the operations of a map. -/
inductive Op (Value : Type) where
  | insert (r : AddrRange) (d : Value)
  | contains (r : AddrRange)
  | containsAddr (r : Addr)
  | intersects (r : AddrRange)
  | erase (p : Nat)
  | eraseRange (p q : Option Nat)
  | clear
deriving DecidableEq, Repr

/-- This function performs an operation and returns its iterator. -/
def step : Op Value → Except Fault (Option Nat × AddrRangeMap Value)
  | .insert r d => map.insert r d
  | .contains r => map.contains r
  | .containsAddr r => map.containsAddr r
  | .intersects r => map.intersects r
  | .erase p => do .ok (none, ← map.erase p)
  | .eraseRange p q => do .ok (none, ← map.eraseRange p q)
  | .clear => .ok (none, map.clear)

end AddrRangeMap

end Gem5
