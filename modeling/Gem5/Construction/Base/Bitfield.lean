import Gem5.Construction.Base.Fault

namespace Gem5

/-- The addresses of the source. -/
abbrev Addr := BitVec 64

namespace Bitfield

/-- This function sets the lowest `nbits` bits. -/
def mask (nbits : Nat) : BitVec 64 := if 64 ≤ nbits then -1 else (1 : BitVec 64) <<< nbits - 1

/-- This function extracts the bits from `last` to `first`, and its argument is the assertion of the source. -/
def bits (val : BitVec 64) (first last : Nat) (_ordered : last ≤ first) : BitVec 64 :=
  (val >>> last) &&& mask (first - last + 1)

/-- This function keeps the bits from `last` to `first` at their places. -/
def mbits (val : BitVec 64) (first last : Nat) : BitVec 64 := val &&& (mask (first + 1) &&& ~~~mask last)

/-- This function sets the bits from `last` to `first`, whose successor is taken in the unsigned type. -/
def maskBetween (first last : Nat) : BitVec 64 := mask ((first + 1) % 2 ^ 32) &&& ~~~mask last

/-- This function replaces the bits from `last` to `first`, and its argument is the assertion of the source. -/
def insertBits (val : BitVec 64) (first last : Nat) (_ordered : last ≤ first) (bitVal : BitVec 64) : BitVec 64 :=
  let bmask := maskBetween first last
  (val &&& ~~~bmask) ||| ((bitVal <<< last) &&& bmask)

/-- This function extends the sign of a value whose bits past the sign are zero. -/
def sext (nbits : Nat) (val : BitVec 64) : BitVec 64 := if val.getLsbD (nbits - 1) then val ||| ~~~mask nbits else val

/-- This function extends the sign and clears the bits past it if necessary. -/
def szext (nbits : Nat) (val : BitVec 64) : BitVec 64 :=
  if val.getLsbD (nbits - 1) then val ||| ~~~mask nbits else val &&& mask nbits

/-- This function sets the bits below each set bit that is a distance away. -/
def smear (val : BitVec 64) (distance : Nat) : BitVec 64 := val ||| (val >>> distance)

def alignToPowerOfTwo (val : BitVec 64) : BitVec 64 := ([1, 2, 4, 8, 16, 32].foldl smear (val - 1)) + 1

/-- This function counts the bits that are set. -/
def popCount (val : BitVec 64) : Nat := (List.range 64).countP val.getLsbD

/-- This function finds the lowest bit that is set. -/
def ctz64 (value : BitVec 64) : Nat := ((List.range 64).find? value.getLsbD).getD 64

end Bitfield

end Gem5
