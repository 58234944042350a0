import Gem5.Construction.Base.Bitfield

namespace Gem5
open Bitfield

/-- A block of a superblock. -/
structure CompressionBlk where
  valid : Bool
  size : Nat
  compressed : Bool
deriving DecidableEq, Repr

/-- A superblock, whose blocks share a tag and the space of one block. -/
structure SuperBlk (Key : Type) (numBlocks : Nat) where
  key : Option Key
  blks : Fin numBlocks → CompressionBlk
  blkSize : Nat
  compressionFactor : Nat
  validCounter : Nat

namespace SuperBlk
variable {Key : Type} [DecidableEq Key] {numBlocks : Nat}

/-- This superblock is empty. -/
def init (blkSize : Nat) : SuperBlk Key numBlocks where
  key := none
  blks := fun _ => { valid := false, size := 0, compressed := false }
  blkSize := blkSize
  compressionFactor := 1
  validCounter := 0

variable (superblock : SuperBlk Key numBlocks)

/-- The number of bits of an uncompressed block. -/
def blkSizeBits : Nat := 8 * superblock.blkSize

def isValid : Bool := superblock.validCounter > 0

/-- This function is `match` of the source. -/
def matchKey (key : Key) : Bool := superblock.isValid && superblock.key = some key

def setBlk (offset : Fin numBlocks) (blk : CompressionBlk) : SuperBlk Key numBlocks :=
  { superblock with blks := Function.update superblock.blks offset blk }

/-- This function reads the first valid block other than an ignored one. -/
def isCompressed (ignored : Option (Fin numBlocks)) : Bool :=
  match (List.finRange numBlocks).find? fun offset => (superblock.blks offset).valid && some offset ≠ ignored with
  | some offset => (superblock.blks offset).compressed
  | none => true

def canCoAllocate (compressedSize : Nat) : Bool :=
  superblock.validCounter < superblock.compressionFactor &&
    compressedSize ≤ superblock.blkSizeBits / superblock.compressionFactor

/-- This function returns an eight-bit number. -/
def calculateCompressionFactor (size : Nat) : Nat :=
  let compressionFactor :=
    if size > superblock.blkSizeBits then 1
    else if size = 0 then superblock.blkSizeBits
    else (alignToPowerOfTwo (BitVec.ofNat 64 (superblock.blkSizeBits / size))).toNat
  min compressionFactor numBlocks % 2 ^ 8

def setCompressionFactor (compressionFactor : Nat) : SuperBlk Key numBlocks :=
  if superblock.validCounter ≤ 1 then { superblock with compressionFactor } else superblock

/-- This function is `setSizeBits` of the block at an offset. -/
def setSizeBits (offset : Fin numBlocks) (size : Nat) : Except Fault (SuperBlk Key numBlocks) := do
  let sized := superblock.setBlk offset { superblock.blks offset with size }
  let compressionFactor := sized.calculateCompressionFactor size
  let factored := sized.setCompressionFactor compressionFactor
  assert (factored.validCounter ≥ 1) "num_valid >= 1"
  let compressed :=
    if factored.validCounter = 1 then decide (compressionFactor ≠ 1) else factored.isCompressed (some offset)
  .ok (factored.setBlk offset { factored.blks offset with compressed })

/-- This function inserts a block, and a superblock without valid blocks takes its tag. -/
def insert (offset : Fin numBlocks) (key : Key) : Except Fault (SuperBlk Key numBlocks) := do
  assert ((superblock.blks offset).valid = false) "!blk->isValid()"
  if superblock.isValid && !superblock.matchKey key then .error (.panic "Overwriting valid sector!")
  else
    let tagged := if superblock.isValid then superblock else { superblock with key := some key }
    .ok { tagged.setBlk offset { tagged.blks offset with valid := true } with
      validCounter := (tagged.validCounter + 1) % 2 ^ 8 }

/-- This function invalidates a valid block, and with the last one the whole superblock. -/
def invalidate (offset : Fin numBlocks) : Except Fault (SuperBlk Key numBlocks) := do
  assert ((superblock.blks offset).valid = true) "blk->isValid()"
  let cleared := superblock.setBlk offset { superblock.blks offset with valid := false, compressed := false }
  let validCounter := (superblock.validCounter + 2 ^ 8 - 1) % 2 ^ 8
  if validCounter = 0 then .ok { cleared with validCounter, key := none, compressionFactor := 1 }
  else .ok { cleared with validCounter }

/-- This loop invalidates the valid blocks of a list of offsets. -/
def evict (superblock : SuperBlk Key numBlocks) : List (Fin numBlocks) → Except Fault (SuperBlk Key numBlocks)
  | [] => .ok superblock
  | offset :: rest =>
    if (superblock.blks offset).valid then do (← superblock.invalidate offset).evict rest
    else superblock.evict rest

end SuperBlk

/-- A tag store of superblocks. -/
structure CompressedTags (Key : Type) (numSectors numBlocks : Nat) where
  superBlks : Fin numSectors → SuperBlk Key numBlocks

namespace CompressedTags
variable {Key : Type} [DecidableEq Key] {numSectors numBlocks : Nat}

def init (blkSize : Nat) : CompressedTags Key numSectors numBlocks where
  superBlks := fun _ => .init blkSize

variable (tags : CompressedTags Key numSectors numBlocks)

/-- A block can share the superblock. -/
def coAllocates (key : Key) (offset : Fin numBlocks) (compressedSize : Nat) (sector : Fin numSectors) : Bool :=
  let superblock := tags.superBlks sector
  superblock.matchKey key && !(superblock.blks offset).valid && superblock.isCompressed none &&
    superblock.canCoAllocate compressedSize

/-- This function chooses a superblock among its possible entries, with the choice of the replacement policy, and
returns whether the block shares it. -/
def findVictim (entries : List (Fin numSectors)) (key : Key)
    (offset : Fin numBlocks) (compressedSize : Nat) (choice : Fin numSectors) : Option (Fin numSectors × Bool) :=
  match entries.find? (tags.coAllocates key offset compressedSize) with
  | some sector => some (sector, true)
  | none => if entries = [] then none else some (choice, false)

/-- This function makes room in the superblock, inserts the block and sets its size. -/
def place (superblock : SuperBlk Key numBlocks) (key : Key) (offset : Fin numBlocks) (compressedSize : Nat)
    (coAllocation : Bool) : Except Fault (SuperBlk Key numBlocks) := do
  let room ← if coAllocation then .ok superblock else superblock.evict (List.finRange numBlocks)
  let inserted ← room.insert offset key
  inserted.setSizeBits offset compressedSize

/-- This function allocates a block, unless no entry is possible. -/
def allocateBlock (entries : List (Fin numSectors)) (key : Key)
    (offset : Fin numBlocks) (compressedSize : Nat) (choice : Fin numSectors) :
    Except Fault (CompressedTags Key numSectors numBlocks) :=
  match tags.findVictim entries key offset compressedSize choice with
  | none => .ok tags
  | some (sector, coAllocation) => do
    let placed ← place (tags.superBlks sector) key offset compressedSize coAllocation
    .ok { tags with superBlks := Function.update tags.superBlks sector placed }

/-- The operations on a tag store. -/
inductive Op (Key : Type) (numSectors numBlocks : Nat) where
  | allocateBlock (entries : List (Fin numSectors)) (key : Key) (offset : Fin numBlocks) (compressedSize : Nat)
      (choice : Fin numSectors)
  | invalidate (sector : Fin numSectors) (offset : Fin numBlocks)

def step : Op Key numSectors numBlocks → Except Fault (CompressedTags Key numSectors numBlocks)
  | .allocateBlock entries key offset compressedSize choice =>
    tags.allocateBlock entries key offset compressedSize choice
  | .invalidate sector offset => do
    let superblock ← (tags.superBlks sector).invalidate offset
    .ok { tags with superBlks := Function.update tags.superBlks sector superblock }

end CompressedTags
end Gem5
