import Gem5.Construction.Base.Bitfield

namespace Gem5.Intmath

/-- This function adds a shift to the logarithm when one of the masked bits is set. -/
def floorLog2Step (mask : BitVec 64) (shift : Nat) (state : Nat × BitVec 64) : Nat × BitVec 64 :=
  if state.2 &&& mask ≠ 0 then (state.1 + shift, state.2 >>> shift) else state

/-- This function is `floorLog2` for a positive number. -/
def floorLog2 (x : BitVec 64) : Nat :=
  (floorLog2Step 0x2 1 <| floorLog2Step 0xc 2 <| floorLog2Step 0xf0 4 <| floorLog2Step 0xff00 8 <|
    floorLog2Step 0xffff0000 16 <| floorLog2Step 0xffffffff00000000 32 (0, x)).1

def isPowerOf2 (n : BitVec 64) : Bool := n ≠ 0 && n &&& (n - 1) = 0

/-- The lower half of a word. -/
def lowHalf (value : BitVec 64) : BitVec 64 := (value.setWidth 32).setWidth 64

/-- The upper half of a word. -/
def highHalf (value : BitVec 64) : BitVec 64 := lowHalf (value >>> 32)

/-- Half the sum of the terms that are carried into the high result. -/
def halfCarry (c1 hiLo loHi : BitVec 64) : BitVec 64 :=
  (c1 >>> 1) + (hiLo >>> 1) + (loHi >>> 1) + (((c1 &&& 1) + (hiLo &&& 1) + (loHi &&& 1)) >>> 1)

/-- The results of the multiplications are the high and the low word of the product. -/
def mulUnsignedManual (valA valB : BitVec 64) : BitVec 64 × BitVec 64 :=
  let c1 := highHalf (lowHalf valA * lowHalf valB)
  let c2 := halfCarry c1 (highHalf valA * lowHalf valB) (lowHalf valA * highHalf valB)
  (highHalf valA * highHalf valB + (c2 >>> 31), valA * valB)

/-- The compiler may have integers of 128 bits. -/
def mulUnsigned (int128 : Bool) (valA valB : BitVec 64) : BitVec 64 × BitVec 64 :=
  if int128 then
    let val := valA.setWidth 128 * valB.setWidth 128
    ((val >>> 64).setWidth 64, val.setWidth 64)
  else mulUnsignedManual valA valB

def mulSignedManual (int128 : Bool) (valA valB : BitVec 64) : BitVec 64 × BitVec 64 :=
  let (uHigh, uLow) := mulUnsigned int128 valA valB
  let uHigh := if valA.slt 0 then uHigh - valB else uHigh
  let uHigh := if valB.slt 0 then uHigh - valA else uHigh
  (uHigh, uLow)

end Gem5.Intmath
