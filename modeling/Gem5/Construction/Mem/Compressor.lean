import Gem5.Construction.Base.Bitfield

namespace Gem5.Compression
open Bitfield

/-- A number of bits per chunk that the constructor of a compressor accepts. -/
structure ChunkSize where
  bits : Nat
  divides : 64 % bits = 0
deriving DecidableEq, Repr

namespace ChunkSize
variable (size : ChunkSize)

theorem positive : 0 < size.bits := by
  rcases Nat.eq_zero_or_pos size.bits with zero | positive
  · have divides := size.divides
    simp [zero] at divides
  · exact positive

/-- The number of chunks in a 64-bit value. -/
def perWord : Nat := 64 / size.bits

/-- The lowest bit of a chunk in its word. -/
def lowest (index : Nat) : Nat := index % size.perWord * size.bits

/-- The highest bit of a chunk in its word. -/
def highest (index : Nat) : Nat := (index % size.perWord + 1) * size.bits - 1

theorem lowest_le_highest (index : Nat) : size.lowest index ≤ size.highest index := by
  have positive := size.positive
  unfold lowest highest
  rw [Nat.add_one_mul]
  omega

/-- This function turns an array of words into an array of chunks. -/
def toChunks (data : List (BitVec 64)) : List (BitVec 64) :=
  (List.range (data.length * 64 / size.bits)).map fun i =>
    Bitfield.bits (data.getD (i / size.perWord) 0) (size.highest i) (size.lowest i) (size.lowest_le_highest i)

/-- This loop writes chunks into words from an index on. -/
def writeChunks : Nat → List (BitVec 64) → List (BitVec 64) → List (BitVec 64)
  | _, [], data => data
  | i, chunk :: rest, data =>
    writeChunks (i + 1) rest (data.modify (i / size.perWord) fun word =>
      insertBits word (size.highest i) (size.lowest i) (size.lowest_le_highest i) chunk)

/-- This function turns an array of chunks into an array of words. -/
def fromChunks (words : Nat) (chunks : List (BitVec 64)) : List (BitVec 64) :=
  size.writeChunks 0 chunks (List.replicate words 0)

end ChunkSize
end Gem5.Compression
