import Gem5.Construction.Base.Intmath

namespace Gem5
open Bitfield Intmath

/-- This structure has the constants of an indexing policy. -/
structure SkewedAssociative where
  assoc : Nat
  numSets : BitVec 32
  setShift : Nat
deriving DecidableEq, Repr

namespace SkewedAssociative

/-- The number of skewing functions of the source. -/
def numSkewingFunctions : Nat := 8

section Constants
variable (policy : SkewedAssociative)

def msbShift : Nat := floorLog2 (policy.numSets.setWidth 64) - 1

def tagShift : Nat := policy.setShift + floorLog2 (policy.numSets.setWidth 64)

def setMask : Addr := (policy.numSets - 1).setWidth 64

end Constants

/-- The constructor with the checks of its base. -/
def construct (size entrySize assoc : BitVec 64) : Except Fault SkewedAssociative :=
  if entrySize = 0 ∨ assoc = 0 then .error .arithmetic
  else do
    let numSets := (size / entrySize).setWidth 32 / assoc.setWidth 32
    let policy : SkewedAssociative := { assoc := assoc.toNat, numSets, setShift := floorLog2 entrySize }
    assert (numSets ≠ 0) "x > 0"
    if isPowerOf2 (numSets.setWidth 64) = false then .error (.fatal "# of sets must be non-zero and a power of 2")
    else if policy.setShift + 2 * (policy.msbShift + 1) > 64 then
      .error (.panic "Unsuported number of bits for the skewing functions.")
    else if numSets ≤ 2 then .error (.fatal "The number of sets must be greater than 2")
    else .ok policy

variable (policy : SkewedAssociative)

def hash (addr : Addr) : Addr :=
  let lsb := bits addr 0 0 (Nat.le_refl 0)
  let msb := bits addr policy.msbShift policy.msbShift (Nat.le_refl _)
  let xorBit := msb ^^^ lsb
  insertBits (addr >>> 1) policy.msbShift policy.msbShift (Nat.le_refl _) xorBit

def dehash (addr : Addr) : Addr :=
  let msb := bits addr (policy.msbShift - 1) (policy.msbShift - 1) (Nat.le_refl _)
  let xorBit := bits addr policy.msbShift policy.msbShift (Nat.le_refl _)
  let lsb := msb ^^^ xorBit
  let addrNoMsb := mbits addr (policy.msbShift - 1) 0
  insertBits (addrNoMsb <<< 1) 0 0 (Nat.le_refl 0) lsb

/-- The set bits of the address of a block. -/
def addr1 (addr : Addr) : Addr := bits addr policy.msbShift 0 (Nat.zero_le _)

/-- The lowest tag bits of the address of a block. -/
def addr2 (addr : Addr) : Addr := bits addr (2 * (policy.msbShift + 1) - 1) (policy.msbShift + 1) (by omega)

/-- The choice of a skewing function. -/
def skewSelect (addr1 addr2 : Addr) : Fin 8 → Addr
  | 0 => policy.hash addr1 ^^^ policy.hash addr2 ^^^ addr2
  | 1 => policy.hash addr1 ^^^ policy.hash addr2 ^^^ addr1
  | 2 => policy.hash addr1 ^^^ policy.dehash addr2 ^^^ addr2
  | 3 => policy.hash addr1 ^^^ policy.dehash addr2 ^^^ addr1
  | 4 => policy.dehash addr1 ^^^ policy.hash addr2 ^^^ addr2
  | 5 => policy.dehash addr1 ^^^ policy.hash addr2 ^^^ addr1
  | 6 => policy.dehash addr1 ^^^ policy.dehash addr2 ^^^ addr2
  | 7 => policy.dehash addr1 ^^^ policy.dehash addr2 ^^^ addr1

def skew (addr : Addr) (way : Nat) : Addr :=
  policy.hash^[way / numSkewingFunctions]
    (policy.skewSelect (policy.addr1 addr) (policy.addr2 addr) (Fin.ofNat 8 (way % numSkewingFunctions)))

/-- The choice of the inverse of a skewing function. -/
def deskewSelect (addr1 addr2 : Addr) : Fin 8 → Addr
  | 0 => policy.dehash (addr1 ^^^ policy.hash addr2 ^^^ addr2)
  | 1 => policy.hash^[policy.msbShift] (addr1 ^^^ policy.hash addr2)
  | 2 => policy.dehash (addr1 ^^^ policy.dehash addr2 ^^^ addr2)
  | 3 => policy.hash^[policy.msbShift] (addr1 ^^^ policy.dehash addr2)
  | 4 => policy.hash (addr1 ^^^ policy.hash addr2 ^^^ addr2)
  | 5 => policy.hash^[policy.msbShift + 1] (addr1 ^^^ policy.hash addr2)
  | 6 => policy.hash (addr1 ^^^ policy.dehash addr2 ^^^ addr2)
  | 7 => policy.hash^[policy.msbShift + 1] (addr1 ^^^ policy.dehash addr2)

def deskew (addr : Addr) (way : Nat) : Addr :=
  let unpiled :=
    if way ≥ numSkewingFunctions then policy.dehash^[way / numSkewingFunctions] (policy.addr1 addr)
    else policy.addr1 addr
  policy.deskewSelect unpiled (policy.addr2 addr) (Fin.ofNat 8 (way % 8))

def extractTag (addr : Addr) : Addr := addr >>> policy.tagShift

def extractSet (addr : Addr) (way : Nat) : BitVec 32 :=
  (policy.skew (addr >>> policy.setShift) way &&& policy.setMask).setWidth 32

/-- This function regenerates the address of an entry from its tag, its set and its way. -/
def regenerateAddr (tag : Addr) (set : BitVec 32) (way : Nat) : Addr :=
  let addrSet := (tag <<< (policy.msbShift + 1)) ||| set.setWidth 64
  (tag <<< policy.tagShift) ||| ((policy.deskew addrSet way &&& policy.setMask) <<< policy.setShift)

end SkewedAssociative
end Gem5
