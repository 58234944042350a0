import Gem5.Construction.Mem.Compressor

namespace Gem5.Compression
open Bitfield

/-- A dictionary entry is an array of bytes with the lowest byte first. -/
abbrev DictionaryEntry := List (BitVec 8)

/-- This loop splits a value into bytes. -/
def toBytes {width : Nat} : Nat → BitVec width → DictionaryEntry
  | 0, _ => []
  | count + 1, value => (value &&& 0xFF).truncate 8 :: toBytes count (value >>> 8)

def toDictionaryEntry {size : Nat} (value : BitVec (8 * size)) : DictionaryEntry := toBytes size value

/-- This loop starts at the last byte. -/
def fromDictionaryEntry {size : Nat} (entry : DictionaryEntry) : BitVec (8 * size) :=
  entry.foldr (fun byte value => value <<< 8 ||| byte.zeroExtend (8 * size)) 0

/-- What each kind of pattern stores. -/
inductive PatternData (size : Nat) where
  | uncompressed (data : DictionaryEntry)
  | masked (mask bits : BitVec (8 * size))
  | maskedValue (value mask bits : BitVec (8 * size))
  | repeatedValue (repSize : Nat) (value : BitVec (8 * repSize))
  | delta (bytes : DictionaryEntry)
  | signExtended (width : Nat) (bits : BitVec width)
  | signExtendedTwoHalfwords (low high : BitVec 8)
deriving DecidableEq, Repr

/-- A zero run counts the zeros before a word, and its first word has a size. -/
structure ZeroRunSize where
  runLength : Nat
  realSize : Nat
deriving DecidableEq, Repr

/-- A pattern, whose zero run is that of the derived class. -/
structure Pattern (Number : Type) (size : Nat) where
  patternNumber : Number
  code : BitVec 8
  length : Nat
  numUnmatchedBits : Nat
  matchLocation : Int
  allocate : Bool
  data : PatternData size
  zeroRun : Option ZeroRunSize := none
deriving DecidableEq, Repr

/-- This loop writes copies of a value next to each other. -/
def repeatValue {size repSize : Nat} (value : BitVec (8 * repSize)) : Nat → BitVec (8 * size)
  | 0 => 0
  | count + 1 => repeatValue value count <<< (8 * repSize) ||| value.zeroExtend (8 * size)

/-- This function extends a byte to a halfword. -/
def extendedHalfword (byte : BitVec 8) : BitVec 16 := (szext 8 (byte.signExtend 64)).truncate 16

def PatternData.decompress {size : Nat} (dictBytes : DictionaryEntry) : PatternData size → DictionaryEntry
  | .uncompressed data => data
  | .masked mask bits => toDictionaryEntry (bits ||| (fromDictionaryEntry dictBytes &&& mask))
  | .maskedValue value mask bits =>
    toDictionaryEntry (bits ||| (fromDictionaryEntry (toDictionaryEntry value) &&& mask))
  | .repeatedValue repSize value => toDictionaryEntry (repeatValue value (size / repSize) : BitVec (8 * size))
  | .delta bytes => bytes
  | .signExtended width bits => toDictionaryEntry ((sext width (bits.zeroExtend 64)).truncate (8 * size))
  | .signExtendedTwoHalfwords low high =>
    toDictionaryEntry (((extendedHalfword high).zeroExtend (8 * size) <<< 16) |||
      (extendedHalfword low).zeroExtend (8 * size))

namespace Pattern
variable {Number : Type} {size : Nat}

/-- The match location is returned as a `uint8_t`. -/
def getMatchLocation (pattern : Pattern Number size) : Nat := (pattern.matchLocation % 256).toNat

def getSizeBits (pattern : Pattern Number size) : Nat :=
  match pattern.zeroRun with
  | some run => run.realSize
  | none => pattern.numUnmatchedBits + pattern.length

def decompress (pattern : Pattern Number size) (dictBytes : DictionaryEntry) : DictionaryEntry :=
  pattern.data.decompress dictBytes

end Pattern

/-- A class of patterns with its test and its constructor. -/
structure PatternClass (Number : Type) (size : Nat) where
  isPattern (bytes dictBytes : DictionaryEntry) (matchLocation : Int) : Bool
  make (bytes : DictionaryEntry) (matchLocation : Int) : Pattern Number size

section Classes
variable {Number : Type} {size : Nat} (number : Number) (code : BitVec 8) (metadataLength : Nat) (matchLocation : Int)

namespace UncompressedPattern

def construct (bytes : DictionaryEntry) : Pattern Number size where
  patternNumber := number
  code := code
  length := metadataLength
  numUnmatchedBits := size * 8
  matchLocation := matchLocation
  allocate := true
  data := .uncompressed bytes

def isPattern (_bytes _dictBytes : DictionaryEntry) (_matchLocation : Int) : Bool := true

end UncompressedPattern

namespace MaskedPattern
variable (mask : BitVec (8 * size))

def construct (bytes : DictionaryEntry) (allocate : Bool) : Pattern Number size where
  patternNumber := number
  code := code
  length := metadataLength
  numUnmatchedBits := popCount ((~~~mask).zeroExtend 64)
  matchLocation := matchLocation
  allocate := allocate
  data := .masked mask (fromDictionaryEntry bytes &&& ~~~mask)

def isPattern (size : Nat) (mask : BitVec (8 * size)) (bytes dictBytes : DictionaryEntry) (matchLocation : Int) :
    Bool :=
  matchLocation ≥ 0 && (fromDictionaryEntry bytes &&& mask) == (fromDictionaryEntry dictBytes &&& mask)

end MaskedPattern

namespace MaskedValuePattern
variable (value mask : BitVec (8 * size))

def construct (bytes : DictionaryEntry) (allocate : Bool) : Pattern Number size :=
  { MaskedPattern.construct number code metadataLength matchLocation mask bytes allocate with
    data := .maskedValue value mask (fromDictionaryEntry bytes &&& ~~~mask) }

def isPattern (size : Nat) (value mask : BitVec (8 * size)) (bytes _dictBytes : DictionaryEntry)
    (_matchLocation : Int) : Bool :=
  (value &&& mask) == (fromDictionaryEntry bytes &&& mask)

end MaskedValuePattern

namespace LocatedMaskedPattern

def isPattern (size : Nat) (mask : BitVec (8 * size)) (location : Int) (bytes dictBytes : DictionaryEntry)
    (matchLocation : Int) : Bool :=
  matchLocation == location && MaskedPattern.isPattern size mask bytes dictBytes matchLocation

end LocatedMaskedPattern

namespace RepeatedValuePattern
variable (repSize : Nat)

def construct (bytes : DictionaryEntry) (allocate : Bool) : Pattern Number size where
  patternNumber := number
  code := code
  length := metadataLength
  numUnmatchedBits := 8 * repSize
  matchLocation := matchLocation
  allocate := allocate
  data := .repeatedValue repSize ((fromDictionaryEntry bytes : BitVec (8 * size)).truncate (8 * repSize))

/-- This loop compares each part of a value with one value. -/
def repeats (repValue : BitVec (8 * repSize)) : Nat → BitVec (8 * size) → Bool
  | 0, _ => true
  | count + 1, value => value.truncate (8 * repSize) == repValue && repeats repValue count (value >>> (8 * repSize))

def isPattern (size repSize : Nat) (bytes _dictBytes : DictionaryEntry) (_matchLocation : Int) : Bool :=
  let bytesValue : BitVec (8 * size) := fromDictionaryEntry bytes
  repeats repSize (bytesValue.truncate (8 * repSize)) (size / repSize) bytesValue

end RepeatedValuePattern

namespace DeltaPattern
variable (deltaSizeBits : Nat)

def construct (bytes : DictionaryEntry) : Pattern Number size where
  patternNumber := number
  code := code
  length := metadataLength
  numUnmatchedBits := deltaSizeBits
  matchLocation := matchLocation
  allocate := false
  data := .delta bytes

def isValidDelta (size : Nat) (bytes baseBytes : DictionaryEntry) : Bool :=
  let limit : Int := if deltaSizeBits = 0 then 0 else (mask (deltaSizeBits - 1)).toNat
  let value : BitVec (8 * size) := fromDictionaryEntry bytes
  let base : BitVec (8 * size) := fromDictionaryEntry baseBytes
  let delta := (value - base).toInt
  delta ≥ -limit && delta ≤ limit

def isPattern (size : Nat) (bytes dictBytes : DictionaryEntry) (matchLocation : Int) : Bool :=
  matchLocation ≥ 0 && isValidDelta deltaSizeBits size bytes dictBytes

end DeltaPattern

namespace SignExtendedPattern
variable (width : Nat)

def construct (bytes : DictionaryEntry) (allocate : Bool) : Pattern Number size where
  patternNumber := number
  code := code
  length := metadataLength
  numUnmatchedBits := width
  matchLocation := -1
  allocate := allocate
  data := .signExtended width
    (((fromDictionaryEntry bytes : BitVec (8 * size)).zeroExtend 64 &&& mask width).truncate width)

def isPattern (size : Nat) (bytes _dictBytes : DictionaryEntry) (_matchLocation : Int) : Bool :=
  let data : BitVec (8 * size) := fromDictionaryEntry bytes
  data == (szext width (data.zeroExtend 64)).truncate (8 * size)

end SignExtendedPattern
end Classes

/-- A dictionary and its number of valid entries. -/
structure Dictionary where
  entries : List DictionaryEntry
  numEntries : Nat
deriving DecidableEq, Repr

/-- A compressed line. -/
structure DictionaryData (Number : Type) (size : Nat) where
  entries : List (Pattern Number size)
  sizeBits : Nat
deriving DecidableEq, Repr

namespace DictionaryData
variable {Number : Type} {size : Nat}

def empty : DictionaryData Number size := { entries := [], sizeBits := 0 }

def addEntry (data : DictionaryData Number size) (pattern : Pattern Number size) : DictionaryData Number size :=
  { entries := data.entries ++ [pattern], sizeBits := data.sizeBits + pattern.getSizeBits }

end DictionaryData

namespace Dictionary
variable (size dictionarySize : Nat)

/-- This function is `resetDictionary` of the base class. -/
def reset : Dictionary :=
  { entries := List.replicate dictionarySize (toDictionaryEntry (0 : BitVec (8 * size))), numEntries := 0 }

/-- This function adds an entry behind the valid ones. -/
def append (dictionary : Dictionary) (data : DictionaryEntry) : Except Fault Dictionary := do
  assert (dictionary.numEntries < dictionarySize) "numEntries < dictionarySize"
  .ok { entries := dictionary.entries.set dictionary.numEntries data, numEntries := dictionary.numEntries + 1 }

end Dictionary

/-- This structure contains the parameters and the virtual functions of a compressor. -/
structure DictionaryCompressor (Number : Type) (size : Nat) where
  divides : 64 % (8 * size) = 0
  factory : List (PatternClass Number size)
  uncompressed : PatternClass Number size
  resetDictionary : Except Fault Dictionary
  addToDictionary : Dictionary → DictionaryEntry → Except Fault Dictionary
  addEntry : DictionaryData Number size → Pattern Number size → DictionaryData Number size
  finish : Nat → Dictionary → DictionaryData Number size → DictionaryData Number size

namespace DictionaryCompressor
variable {Number : Type} {size : Nat} (compressor : DictionaryCompressor Number size)

def chunkSize : ChunkSize := { bits := 8 * size, divides := compressor.divides }

/-- This function takes the first class of the factory that matches. -/
def getPattern (bytes dictBytes : DictionaryEntry) (matchLocation : Int) : Pattern Number size :=
  match compressor.factory.find? fun pattern => pattern.isPattern bytes dictBytes matchLocation with
  | some pattern => pattern.make bytes matchLocation
  | none => compressor.uncompressed.make bytes matchLocation

/-- This function compares a pattern with the one for a location. -/
def betterPattern (dictionary : Dictionary) (bytes : DictionaryEntry) (pattern : Pattern Number size) (i : Nat) :
    Pattern Number size :=
  let temp := compressor.getPattern bytes (dictionary.entries.getD i []) i
  if temp.getSizeBits < pattern.getSizeBits then temp else pattern

/-- This function searches the valid entries for the smallest pattern. -/
def selectPattern (dictionary : Dictionary) (data : BitVec (8 * size)) : Pattern Number size :=
  let bytes := toDictionaryEntry data
  (List.range dictionary.numEntries).foldl (compressor.betterPattern dictionary bytes)
    (compressor.getPattern bytes (toDictionaryEntry (0 : BitVec (8 * size))) (-1))

/-- This function adds a value to the dictionary if its pattern allocates. -/
def allocateEntry (dictionary : Dictionary) (pattern : Pattern Number size) (data : DictionaryEntry) :
    Except Fault Dictionary :=
  if pattern.allocate then compressor.addToDictionary dictionary data else .ok dictionary

def compressValue (dictionary : Dictionary) (data : BitVec (8 * size)) :
    Except Fault (Pattern Number size × Dictionary) := do
  let pattern := compressor.selectPattern dictionary data
  let dictionary ← compressor.allocateEntry dictionary pattern (toDictionaryEntry data)
  .ok (pattern, dictionary)

/-- This loop compresses every value sequentially. -/
def compressValues : Dictionary → DictionaryData Number size → List (BitVec (8 * size)) →
    Except Fault (DictionaryData Number size × Dictionary)
  | dictionary, data, [] => .ok (data, dictionary)
  | dictionary, data, value :: rest => do
    let compressed ← compressor.compressValue dictionary value
    compressValues compressed.2 (compressor.addEntry data compressed.1) rest

/-- The values of a line. -/
def values (line : List (BitVec 64)) : List (BitVec (8 * size)) :=
  (compressor.chunkSize.toChunks line).map (·.truncate (8 * size))

def compress (line : List (BitVec 64)) : Except Fault (DictionaryData Number size) := do
  let dictionary ← compressor.resetDictionary
  let compressed ← compressor.compressValues dictionary .empty (compressor.values line)
  .ok (compressor.finish line.length compressed.2 compressed.1)

/-- This function reads the entry at the match location, where a location outside the dictionary gives the contents of
some other memory. -/
def decompressValue (memory : Nat → DictionaryEntry) (dictionary : Dictionary) (pattern : Pattern Number size) :
    Except Fault (BitVec (8 * size) × Dictionary) := do
  let location := pattern.getMatchLocation
  let data := pattern.decompress (dictionary.entries.getD location (memory location))
  let dictionary ← compressor.allocateEntry dictionary pattern data
  .ok (fromDictionaryEntry data, dictionary)

/-- This loop decompresses every entry sequentially. -/
def decompressValues (memory : Nat → DictionaryEntry) : Dictionary → List (Pattern Number size) →
    Except Fault (List (BitVec (8 * size)) × Dictionary)
  | dictionary, [] => .ok ([], dictionary)
  | dictionary, pattern :: rest => do
    let first ← compressor.decompressValue memory dictionary pattern
    let later ← decompressValues memory first.2 rest
    .ok (first.1 :: later.1, later.2)

/-- This function concatenates the values of a word from the last one on. -/
def concatenate (values : List (BitVec (8 * size))) (i : Nat) : BitVec 64 :=
  let valuesPerEntry := 8 / size
  (List.range valuesPerEntry).reverse.foldl
    (fun word j => word ||| ((values.getD (valuesPerEntry * i + j) 0).zeroExtend 64 <<< (j * (8 * size)))) 0

/-- This function decompresses into a number of words. -/
def decompress (memory : Nat → DictionaryEntry) (words : Nat) (data : DictionaryData Number size) :
    Except Fault (List (BitVec 64)) := do
  let dictionary ← compressor.resetDictionary
  let decompressed ← compressor.decompressValues memory dictionary data.entries
  .ok ((List.range words).map (concatenate decompressed.1))

end DictionaryCompressor
end Gem5.Compression
