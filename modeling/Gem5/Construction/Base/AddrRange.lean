import Gem5.Construction.Base.Bitfield

namespace Gem5
open Bitfield

/-- A range of addresses with one mask for each bit of its match value. -/
structure AddrRange where
  start : Addr
  stop : Addr
  masks : List Addr
  intlvMatch : BitVec 8
deriving DecidableEq, Repr

/-- This function shifts the unsigned 64-bit one, which is defined below its width only. -/
def shiftOne (amount : Nat) : Except Fault (BitVec 64) :=
  if amount < 64 then .ok ((1 : BitVec 64) <<< amount) else .error .arithmetic

namespace AddrRange

/-- The check of a match value against the number of interleaving bits. -/
def checkMatch (intlvMatch : BitVec 8) (count : Nat) : Except Fault Unit := do
  if count ≠ 0 then
    let limit ← shiftOne count
    if limit ≤ intlvMatch.setWidth 64 then
      .error (.fatal s!"Match value {intlvMatch.toNat} does not fit in {count} interleaving bits\n")

/-- This constructor takes the masks. -/
def ofMasks (start stop : Addr) (masks : List Addr) (intlvMatch : BitVec 8) : Except Fault AddrRange := do
  checkMatch intlvMatch masks.length
  .ok { start, stop, masks, intlvMatch }

/-- This constructor makes a range that is not interleaved. -/
def ofBounds (start stop : Addr) : AddrRange := { start, stop, masks := [], intlvMatch := 0 }

/-- The check of the distance between the interleaving bits and the hashed bits. -/
def checkXor (intlvHighBit xorHighBit intlvBits : BitVec 8) : Except Fault Unit :=
  if intlvBits ≠ 0 ∧ xorHighBit ≠ 0 then
    if xorHighBit = intlvHighBit then
      .error (.fatal "XOR and interleave high bit must be different\n")
    else if intlvHighBit < xorHighBit then
      if xorHighBit.toNat - intlvHighBit.toNat < intlvBits.toNat then
        .error (.fatal s!"XOR and interleave high bit must be at least {intlvBits.toNat} bits apart\n")
      else .ok ()
    else if intlvHighBit.toNat - xorHighBit.toNat < intlvBits.toNat then
      .error (.fatal s!"Interleave and XOR high bit must be at least {intlvBits.toNat} bits apart\n")
    else .ok ()
  else .ok ()

/-- The mask of the pass `i` over the interleaving bits. -/
def legacyMask (intlvHighBit xorHighBit : BitVec 8) (i : Nat) : Except Fault Addr := do
  let bit1 := intlvHighBit - BitVec.ofNat 8 i
  let mask ← shiftOne bit1.toNat
  if xorHighBit ≠ 0 then
    let bit2 := xorHighBit - BitVec.ofNat 8 i
    let xorMask ← shiftOne bit2.toNat
    .ok (mask ||| xorMask)
  else .ok mask

/-- This loop stores the masks of the last `count` passes, from the highest bit on, in front of the later ones. -/
def legacyMasks (intlvHighBit xorHighBit : BitVec 8) (intlvBits : Nat) : Nat → List Addr → Except Fault (List Addr)
  | 0, masks => .ok masks
  | count + 1, masks => do
    let mask ← legacyMask intlvHighBit xorHighBit (intlvBits - (count + 1))
    legacyMasks intlvHighBit xorHighBit intlvBits count (mask :: masks)

/-- This constructor is the legacy one, which takes the positions of the interleaving and of the hashed bits. -/
def legacy (start stop : Addr) (intlvHighBit xorHighBit intlvBits intlvMatch : BitVec 8) : Except Fault AddrRange := do
  checkMatch intlvMatch intlvBits.toNat
  checkXor intlvHighBit xorHighBit intlvBits
  let masks ← legacyMasks intlvHighBit xorHighBit intlvBits.toNat intlvBits.toNat []
  .ok { start, stop, masks, intlvMatch }

variable (range : AddrRange) (a : Addr)

def interleaved : Bool := 0 < range.masks.length

def size : Addr := (range.stop - range.start) >>> range.masks.length

/-- This loop collects the parity of each mask in a 32-bit integer, whose shifts are defined below its width only. -/
def selectLoop (a : Addr) : Nat → List Addr → BitVec 32 → Except Fault (BitVec 32)
  | _, [], sel => .ok sel
  | i, mask :: masks, sel =>
    if i < 32 then selectLoop a (i + 1) masks (sel ||| (BitVec.ofNat 32 (popCount (a &&& mask) % 2) <<< i))
    else .error .arithmetic

/-- The selector of an address. -/
def select : Except Fault (BitVec 32) := selectLoop a 0 range.masks 0

/-- This function decides whether the range contains an address. -/
def contains : Except Fault Bool :=
  if range.start ≤ a ∧ a < range.stop then do
    let sel ← range.select a
    .ok (sel = range.intlvMatch.setWidth 32)
  else .ok false

/-- This function sorts the lowest bits of the masks. -/
def masksLsb : List Nat := (range.masks.map ctz64).insertionSort (· ≤ ·)

/-- This function drops one interleaving bit after `i` earlier ones, with its position in the unsigned type. -/
def removeBit (i intlvBit : Nat) (a : Addr) : Addr :=
  if 0 < intlvBit then insertBits (a >>> 1) ((intlvBit + 2 ^ 32 - i - 1) % 2 ^ 32) 0 (Nat.zero_le _) a
  else a >>> 1

/-- This loop drops the interleaving bits in their order. -/
def removeLoop : Nat → List Nat → Addr → Addr
  | _, [], a => a
  | i, intlvBit :: rest, a => removeLoop (i + 1) rest (removeBit i intlvBit a)

/-- This function removes the interleaving bits of an address. -/
def removeIntlvBits : Addr := if range.interleaved then removeLoop 0 range.masksLsb a else a

/-- This function makes room for one interleaving bit. -/
def insertBit (intlvBit : Nat) (a : Addr) : Addr :=
  if 0 < intlvBit then insertBits (a <<< 1) (intlvBit - 1) 0 (Nat.zero_le _) a else a <<< 1

/-- The complement of the signed 32-bit one at a position, widened to an address. -/
def clearLsb (lsb : Nat) : Except Fault Addr :=
  if lsb < 32 then .ok ((~~~((1 : BitVec 32) <<< lsb)).signExtend 64) else .error .arithmetic

/-- This function reads one bit of the match value, which is widened to a 32-bit integer. -/
def matchBit (intlvMatch : BitVec 8) (i : Nat) : Except Fault Addr :=
  if i < 32 then .ok (((intlvMatch.setWidth 32 >>> i).setWidth 64) &&& mask 1) else .error .arithmetic

/-- This loop sets the lowest bit of each mask to what its bit of the match value asks for. -/
def placeLoop (intlvMatch : BitVec 8) : Nat → List Addr → Addr → Except Fault Addr
  | _, [], a => .ok a
  | i, mask :: masks, a => do
    let lsb := ctz64 mask
    let intlvBit ← matchBit intlvMatch i
    let kept ← clearLsb lsb
    let masked := a &&& mask &&& kept
    placeLoop intlvMatch (i + 1) masks
      (insertBits a lsb lsb (Nat.le_refl lsb) (intlvBit ^^^ BitVec.ofNat 64 (popCount masked)))

/-- This function adds the interleaving bits that the removal drops. -/
def addIntlvBits : Except Fault Addr :=
  if range.interleaved then
    placeLoop range.intlvMatch 0 range.masks (range.masksLsb.foldl (fun a intlvBit => insertBit intlvBit a) a)
  else .ok a

/-- The offset of an address in the range, or the largest address outside of it. -/
def getOffset : Addr :=
  if range.start ≤ a ∧ a < range.stop then
    if range.interleaved then range.removeIntlvBits a - range.removeIntlvBits range.start else a - range.start
  else -1

/-- The size of the regions between interleaving bits, with the masks combined in a 32-bit integer. -/
def granularity : Except Fault Addr :=
  if range.interleaved then
    let combinedMask : BitVec 32 := range.masks.foldl (fun combined mask => combined ||| mask.setWidth 32) 0
    shiftOne (ctz64 (combinedMask.signExtend 64))
  else .ok range.size

def hex (value : Addr) : String := if value = 0 then "0" else "0x" ++ String.ofList (Nat.toDigits 16 value.toNat)

/-- This function names the bits of a mask. -/
def maskString (mask : Addr) : String :=
  String.join (((List.range 64).filter mask.getLsbD).map fun bit => s!"a[{bit}]^")

/-- This function prints a range. -/
def toString : String :=
  let bounds := "[" ++ hex range.start ++ ":" ++ hex range.stop ++ "]"
  if range.interleaved then
    bounds ++ String.join (range.masks.zipIdx.map fun (mask, i) =>
      " " ++ maskString mask ++ "\x08=" ++ ((range.intlvMatch.toNat >>> i) % 2).repr)
  else bounds

def mergesWith (range r : AddrRange) : Bool := r.start = range.start ∧ r.stop = range.stop ∧ r.masks = range.masks

/-- This function decides whether two ranges share an address. -/
def intersects (range r : AddrRange) : Except Fault Bool :=
  if r.stop ≤ range.start ∨ range.stop ≤ r.start then .ok false
  else if !range.interleaved && !r.interleaved then .ok true
  else if r.size = 1 then range.contains r.start
  else if range.mergesWith r then .ok (range.intlvMatch = r.intlvMatch)
  else .error (.panic s!"Cannot test intersection of {range.toString} and {r.toString}\n")

/-- This function decides whether `r` has all addresses of the range. -/
def isSubset (range r : AddrRange) : Except Fault Bool :=
  if range.interleaved then
    .error (.panic s!"Cannot test subset of interleaved range {range.toString}\n")
  else if r.interleaved then do
    let first ← r.contains range.start
    if first then
      let last ← r.contains (range.stop - 1)
      if last then
        let limit ← r.granularity
        .ok (range.size ≤ limit)
      else .ok false
    else .ok false
  else if range.stop ≤ range.start then .ok (r.start ≤ range.start ∧ r.stop = 0)
  else if r.stop ≤ r.start then .ok (r.start ≤ range.start)
  else .ok (r.start ≤ range.start ∧ range.stop ≤ r.stop)

/-- The order of the ranges in a tree. -/
def less (range r : AddrRange) : Bool :=
  if range.start ≠ r.start then range.start < r.start
  else if range.interleaved && r.interleaved then range.intlvMatch < r.intlvMatch
  else range.interleaved

/-- This function makes a range from its start and its size. -/
def rangeSize (start size : Addr) : AddrRange := ofBounds start (start + size)

end AddrRange

end Gem5
