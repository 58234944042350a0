import Gem5.Construction.Base.Intmath

namespace Gem5
open Bitfield Intmath Function

/-- This structure contains the sizes in bytes, which are of the type `unsigned`. -/
structure FALRUParams where
  size : Nat
  blkSize : Nat
  minTrackedSize : Nat
  sizeFits : size < 2 ^ 32
  blkSizeFits : blkSize < 2 ^ 32
  minTrackedSizeFits : minTrackedSize < 2 ^ 32

namespace FALRUParams
variable (params : FALRUParams)

def numBlocks : Nat := params.size / params.blkSize

/-- The number of smaller caches that are tracked. -/
def numTrackedCaches : Nat :=
  if params.size > params.minTrackedSize then
    floorLog2 (BitVec.ofNat 64 params.size) - floorLog2 (BitVec.ofNat 64 params.minTrackedSize)
  else 0

/-- The mask of all tracked caches. -/
def inAllCachesMask : BitVec 32 := (mask params.numTrackedCaches).truncate 32

end FALRUParams

/-- A block with its neighbours in the order of the last uses. -/
structure FALRUBlk where
  prev : Option Nat
  next : Option Nat
  inCachesMask : BitVec 32
  valid : Bool
  tag : Addr
  secure : Bool
deriving DecidableEq, Repr

namespace FALRUBlk

/-- A new block is invalid and has no neighbours. -/
def fresh : FALRUBlk :=
  { prev := none, next := none, inCachesMask := 0, valid := false, tag := BitVec.allOnes 64, secure := false }

def invalidate (blk : FALRUBlk) : FALRUBlk := { blk with valid := false, tag := BitVec.allOnes 64, secure := false }

def insert (blk : FALRUBlk) (tag : Addr) (secure : Bool) : FALRUBlk := { blk with valid := true, tag, secure }

end FALRUBlk

/-- The tag store, where a pointer to a block is its index. -/
structure FALRU where
  blks : Nat → FALRUBlk
  head : Nat
  tail : Nat
  tagHash : Addr × Bool → Option Nat
  boundaries : Nat → Option Nat
  hits : Nat → Nat
  misses : Nat → Nat
  accesses : Nat

namespace FALRU
variable (params : FALRUParams) (tags : FALRU)

/-- This function follows a pointer. -/
def deref : Option Nat → Except Fault Nat
  | none => .error .nullDereference
  | some blk => .ok blk

variable (blk : Nat)

def modifyBlk (change : FALRUBlk → FALRUBlk) : FALRU :=
  { tags with blks := update tags.blks blk (change (tags.blks blk)) }

def setPrev (prev : Option Nat) : FALRU := tags.modifyBlk blk fun entry => { entry with prev }

def setNext (next : Option Nat) : FALRU := tags.modifyBlk blk fun entry => { entry with next }

def setMask (inCachesMask : BitVec 32) : FALRU := tags.modifyBlk blk fun entry => { entry with inCachesMask }

def setBoundary (i : Nat) (blk : Option Nat) : FALRU := { tags with boundaries := update tags.boundaries i blk }

/-- This loop of `init` walks the list from a block on. -/
def initLoop : Nat → Option Nat → Nat → Nat → BitVec 32 → Nat → FALRU → Except Fault FALRU
  | _, none, _, _, _, _, tags => .ok tags
  | 0, some _, _, _, _, _, _ => .error .endlessLoop
  | fuel + 1, some blk, currSize, trackedCacheSize, inCachesMask, j, tags =>
    let masked := tags.setMask blk inCachesMask
    let currSize := (currSize + params.blkSize) % 2 ^ 32
    if currSize = trackedCacheSize ∧ blk ≠ tags.tail then
      if j < params.numTrackedCaches then
        initLoop fuel (tags.blks blk).next currSize ((trackedCacheSize <<< 1) % 2 ^ 32)
          (inCachesMask &&& ~~~((1 : BitVec 32) <<< j)) (j + 1) (masked.setBoundary j (some blk))
      else .error .outOfBounds
    else initLoop fuel (tags.blks blk).next currSize trackedCacheSize inCachesMask j masked

def init : Except Fault FALRU :=
  initLoop params params.numBlocks (if params.numTrackedCaches = 0 then none else some tags.head) 0
    params.minTrackedSize params.inAllCachesMask 0 tags

/-- This function moves the boundary of one cache before a block moves to the head. -/
def boundaryToHead (updateCachesMask : BitVec 32) (tags : FALRU) (i : Nat) : Except Fault FALRU :=
  let currentCacheMask := (1 : BitVec 32) <<< i
  if currentCacheMask &&& updateCachesMask ≠ 0 then do
    let boundary ← deref (tags.boundaries i)
    .ok ((tags.setMask boundary ((tags.blks boundary).inCachesMask &&& ~~~currentCacheMask)).setBoundary i
      (tags.blks boundary).prev)
  else if tags.boundaries i = some blk then .ok (tags.setBoundary i (tags.blks blk).prev)
  else .ok tags

def moveBlockToHead : Except Fault FALRU := do
  let updateCachesMask := params.inAllCachesMask ^^^ (tags.blks blk).inCachesMask
  let moved ← (List.range params.numTrackedCaches).foldlM (boundaryToHead blk updateCachesMask) tags
  .ok (moved.setMask blk params.inAllCachesMask)

/-- The boundary that follows and is not the moved block. -/
def boundaryAfter (blk boundary : Nat) : Option Nat :=
  if (tags.blks boundary).next = some blk then (tags.blks blk).next else (tags.blks boundary).next

/-- This function moves the boundary of one cache before a block moves to the tail. -/
def boundaryToTail (updateCachesMask : BitVec 32) (tags : FALRU) (i : Nat) : Except Fault FALRU :=
  let currentCacheMask := (1 : BitVec 32) <<< i
  if currentCacheMask &&& updateCachesMask ≠ 0 then do
    let boundary ← deref (tags.boundaries i)
    let following ← deref (tags.boundaryAfter blk boundary)
    .ok ((tags.setBoundary i (some following)).setMask following
      ((tags.blks following).inCachesMask ||| currentCacheMask))
  else .ok tags

def moveBlockToTail : Except Fault FALRU := do
  let moved ← (List.range params.numTrackedCaches).foldlM (boundaryToTail blk (tags.blks blk).inCachesMask) tags
  .ok (moved.setMask blk 0)

/-- This function counts an access in every tracked cache and in the cache itself. -/
def recordAccess (blk : Option Nat) : FALRU :=
  let inCache (i : Nat) : Bool := match blk with
    | none => false
    | some blk =>
      if i < params.numTrackedCaches then ((1 : BitVec 32) <<< i) &&& (tags.blks blk).inCachesMask != 0
      else (tags.blks blk).valid
  { tags with
    hits := fun i => if i ≤ params.numTrackedCaches ∧ inCache i then tags.hits i + 1 else tags.hits i
    misses := fun i => if i ≤ params.numTrackedCaches ∧ ¬ inCache i then tags.misses i + 1 else tags.misses i
    accesses := tags.accesses + 1 }

/-- This function links the blocks in the order of their indices. -/
def linkBlks (numBlocks : Nat) : Nat → FALRUBlk :=
  let first := update (fun _ => FALRUBlk.fresh) 0 { FALRUBlk.fresh with prev := none, next := some 1 }
  let inner := (List.range' 1 (numBlocks - 2)).foldl (fun blks i =>
    update blks i { blks i with prev := some (i - 1), next := some (i + 1) }) first
  update inner (numBlocks - 1)
    { inner (numBlocks - 1) with prev := some ((numBlocks + 2 ^ 32 - 2) % 2 ^ 32), next := none }

def tagsInit : Except Fault FALRU :=
  if params.numBlocks = 0 then .error .outOfBounds
  else
    init params {
      blks := linkBlks params.numBlocks
      head := 0
      tail := params.numBlocks - 1
      tagHash := fun _ => none
      boundaries := fun _ => none
      hits := fun _ => 0
      misses := fun _ => 0
      accesses := 0 }

/-- The constructor and the initialization of the tags. -/
def construct : Except Fault FALRU :=
  if params.blkSize = 0 then .error .arithmetic
  else if params.size > params.minTrackedSize ∧ params.minTrackedSize = 0 then .error (.assertion "x > 0")
  else if params.numTrackedCaches > 32 then
    .error (.fatal "Not enough bits in type CachesMask type to keep track of caches")
  else if isPowerOf2 (BitVec.ofNat 64 params.blkSize) = false then
    .error (.fatal "cache block size (in bytes) must be a power of two")
  else if isPowerOf2 (BitVec.ofNat 64 params.size) = false then .error (.fatal "Cache Size must be power of 2 for now")
  else tagsInit params

/-- This function takes an inner block out of the list. -/
def detach : Except Fault FALRU := do
  let prev ← deref (tags.blks blk).prev
  let next ← deref (tags.blks blk).next
  .ok ((tags.setNext prev (some next)).setPrev next (some prev))

/-- This function takes the last block out of the list. -/
def detachTail : Except Fault FALRU := do
  assert ((tags.blks blk).next = none) "blk->next == nullptr"
  let prev ← deref (tags.blks blk).prev
  .ok { tags.setNext prev none with tail := prev }

/-- This function takes the first block out of the list. -/
def detachHead : Except Fault FALRU := do
  assert ((tags.blks blk).prev = none) "blk->prev == nullptr"
  let next ← deref (tags.blks blk).next
  .ok { tags.setPrev next none with head := next }

/-- This function takes a block that is not the head out of the list. -/
def detachForHead : Except Fault FALRU := if blk = tags.tail then tags.detachTail blk else tags.detach blk

/-- This function takes a block that is not the tail out of the list. -/
def detachForTail : Except Fault FALRU := if blk = tags.head then tags.detachHead blk else tags.detach blk

def moveToHead : Except Fault FALRU :=
  if blk ≠ tags.head then do
    let tracked ← tags.moveBlockToHead params blk
    let detached ← tracked.detachForHead blk
    .ok { ((detached.setNext blk (some detached.head)).setPrev blk none).setPrev detached.head (some blk) with
      head := blk }
  else .ok tags

def moveToTail : Except Fault FALRU :=
  if blk ≠ tags.tail then do
    let tracked ← tags.moveBlockToTail params blk
    let detached ← tracked.detachForTail blk
    .ok { ((detached.setPrev blk (some detached.tail)).setNext blk none).setNext detached.tail (some blk) with
      tail := blk }
  else .ok tags

/-- The tag of an address is its block. -/
def extractTag (addr : Addr) : Addr := addr &&& ~~~(BitVec.ofNat 64 (params.blkSize - 1))

/-- This function finds a block in the hash table and compares it with the key. -/
def findBlock (tag : Addr) (secure : Bool) : Except Fault (Option Nat) :=
  match tags.tagHash (tag, secure) with
  | none => .ok none
  | some blk =>
    if (tags.blks blk).valid then do
      assert ((tags.blks blk).tag = tag) "blk->getTag() == tag"
      assert ((tags.blks blk).secure = secure) "blk->isSecure() == lookup.secure"
      .ok (some blk)
    else .ok (some blk)

/-- This function returns the block, the mask before the access and the new state. -/
def accessBlock (addr : Addr) (secure : Bool) : Except Fault (Option Nat × BitVec 32 × FALRU) := do
  let found ← tags.findBlock (extractTag params addr) secure
  match found with
  | none => .ok (none, 0, tags.recordAccess params none)
  | some blk =>
    if (tags.blks blk).valid then do
      let moved ← tags.moveToHead params blk
      .ok (some blk, (tags.blks blk).inCachesMask, moved.recordAccess params (some blk))
    else .ok (some blk, 0, tags.recordAccess params (some blk))

def findVictim : Nat := tags.tail

def insertBlock (addr : Addr) (secure : Bool) (blk : Nat) : Except Fault FALRU := do
  assert ((tags.blks blk).inCachesMask = 0) "falruBlk->inCachesMask == 0"
  assert ((tags.blks blk).valid = false) "!blk->isValid()"
  let moved ← (tags.modifyBlk blk (·.insert (extractTag params addr) secure)).moveToHead params blk
  .ok { moved with tagHash := update moved.tagHash (extractTag params addr, secure) (some blk) }

def invalidate : Except Fault FALRU := do
  let key := ((tags.blks blk).tag, (tags.blks blk).secure)
  assert ((tags.tagHash key).isSome) "num_erased == 1"
  assert ((tags.blks blk).valid) "blk->isValid()"
  let erased := { tags with tagHash := update tags.tagHash key none }
  (erased.modifyBlk blk FALRUBlk.invalidate).moveToTail params blk

/-- The cache looks up a block, inserts one for a victim and invalidates one. -/
inductive Op where
  | accessBlock (addr : Addr) (secure : Bool)
  | insertBlock (addr : Addr) (secure : Bool) (blk : Nat)
  | invalidate (blk : Nat)

def Op.apply (tags : FALRU) : Op → Except Fault FALRU
  | .accessBlock addr secure => do
    let result ← tags.accessBlock params addr secure
    .ok result.2.2
  | .insertBlock addr secure blk => tags.insertBlock params addr secure blk
  | .invalidate blk => tags.invalidate params blk

/-- A block is inserted in place of the victim, and only a block of the cache is invalidated. -/
def Op.Allowed (tags : FALRU) : Op → Prop
  | .accessBlock _ _ => True
  | .insertBlock _ _ blk => blk = tags.findVictim
  | .invalidate blk => blk < params.numBlocks

def machine : ToMathlib.Machine FALRU Op Fault where
  guard := Op.Allowed params
  step tags op := op.apply params tags

/-- The part of `handleEvictions` that invalidates a valid victim. -/
def evictVictim : Except Fault FALRU :=
  if (tags.blks tags.findVictim).valid then tags.invalidate params tags.findVictim else .ok tags

/-- This function evicts the victim and inserts a block in its place. -/
def allocateBlock (addr : Addr) (secure : Bool) : Except Fault FALRU := do
  let evicted ← tags.evictVictim params
  evicted.insertBlock params addr secure tags.findVictim

/-- The cache is fed with accesses and with fills of blocks that it does not contain. -/
inductive Feed where
  | access (addr : Addr) (secure : Bool)
  | fill (addr : Addr) (secure : Bool)

def Feed.apply (tags : FALRU) : Feed → Except Fault FALRU
  | .access addr secure => do
    let result ← tags.accessBlock params addr secure
    .ok result.2.2
  | .fill addr secure => tags.allocateBlock params addr secure

/-- A block is filled only if it is missing. -/
def Feed.Allowed (tags : FALRU) : Feed → Prop
  | .access _ _ => True
  | .fill addr secure => tags.tagHash (extractTag params addr, secure) = none

def feeding : ToMathlib.Machine FALRU Feed Fault where
  guard := Feed.Allowed params
  step tags op := op.apply params tags

end FALRU
end Gem5
