import Gem5.Construction.Mem.DictionaryCompressor

namespace Gem5.Compression
open Bitfield

namespace CPack

inductive PatternNumber where
  | zzzz | xxxx | mmmm | mmxx | zzzx | mmmx
deriving DecidableEq, Repr

def patternZZZZ : PatternClass PatternNumber 4 where
  isPattern := MaskedValuePattern.isPattern 4 0 0xFFFFFFFF
  make bytes matchLocation := MaskedValuePattern.construct .zzzz 0x0 2 matchLocation 0 0xFFFFFFFF bytes false

def patternXXXX : PatternClass PatternNumber 4 where
  isPattern := UncompressedPattern.isPattern
  make bytes matchLocation := UncompressedPattern.construct .xxxx 0x1 2 matchLocation bytes

def patternMMMM : PatternClass PatternNumber 4 where
  isPattern := MaskedPattern.isPattern 4 0xFFFFFFFF
  make bytes matchLocation := MaskedPattern.construct .mmmm 0x2 6 matchLocation 0xFFFFFFFF bytes true

def patternMMXX : PatternClass PatternNumber 4 where
  isPattern := MaskedPattern.isPattern 4 0xFFFF0000
  make bytes matchLocation := MaskedPattern.construct .mmxx 0xC 8 matchLocation 0xFFFF0000 bytes true

def patternZZZX : PatternClass PatternNumber 4 where
  isPattern := MaskedValuePattern.isPattern 4 0 0xFFFFFF00
  make bytes matchLocation := MaskedValuePattern.construct .zzzx 0xD 4 matchLocation 0 0xFFFFFF00 bytes false

def patternMMMX : PatternClass PatternNumber 4 where
  isPattern := MaskedPattern.isPattern 4 0xFFFFFF00
  make bytes matchLocation := MaskedPattern.construct .mmmx 0xE 8 matchLocation 0xFFFFFF00 bytes true

end CPack

/-- This compressor keeps one dictionary entry for each byte of the line. -/
def cpack (dictionarySize : Nat) : DictionaryCompressor CPack.PatternNumber 4 where
  divides := by decide
  factory := [CPack.patternZZZZ, CPack.patternMMMM, CPack.patternZZZX, CPack.patternMMMX, CPack.patternMMXX]
  uncompressed := CPack.patternXXXX
  resetDictionary := .ok (Dictionary.reset 4 dictionarySize)
  addToDictionary := Dictionary.append dictionarySize
  addEntry := DictionaryData.addEntry
  finish _ _ data := data

namespace FPC

inductive PatternNumber where
  | zeroRun | signExtended4Bits | signExtended1Byte | signExtendedHalfword | zeroPaddedHalfword
  | signExtendedTwoHalfwords | repBytes | uncompressed
deriving DecidableEq, Repr

def zeroRun : PatternClass PatternNumber 4 where
  isPattern := MaskedValuePattern.isPattern 4 0 0xFFFFFFFF
  make bytes _ :=
    { MaskedValuePattern.construct .zeroRun 0 3 (-1) 0 0xFFFFFFFF bytes false with
      zeroRun := some { runLength := 0, realSize := 0 } }

def signExtended4Bits : PatternClass PatternNumber 4 where
  isPattern := SignExtendedPattern.isPattern 4 4
  make bytes _ := SignExtendedPattern.construct .signExtended4Bits 1 3 4 bytes false

def signExtended1Byte : PatternClass PatternNumber 4 where
  isPattern := SignExtendedPattern.isPattern 8 4
  make bytes _ := SignExtendedPattern.construct .signExtended1Byte 2 3 8 bytes false

def signExtendedHalfword : PatternClass PatternNumber 4 where
  isPattern := SignExtendedPattern.isPattern 16 4
  make bytes _ := SignExtendedPattern.construct .signExtendedHalfword 3 3 16 bytes false

def zeroPaddedHalfword : PatternClass PatternNumber 4 where
  isPattern := MaskedValuePattern.isPattern 4 0 0x0000FFFF
  make bytes _ := MaskedValuePattern.construct .zeroPaddedHalfword 4 3 (-1) 0 0x0000FFFF bytes false

/-- This function compares a signed halfword with an unsigned one, so that a negative halfword never matches. -/
def matchesExtended (halfword : BitVec 16) : Bool :=
  halfword.toInt == (((szext 8 (halfword.signExtend 64)).truncate 16).toNat : Int)

def signExtendedTwoHalfwords : PatternClass PatternNumber 4 where
  isPattern bytes _ _ :=
    let data : BitVec (8 * 4) := fromDictionaryEntry bytes
    matchesExtended (data.truncate 16) && matchesExtended ((data >>> 16).truncate 16)
  make bytes _ :=
    let data : BitVec (8 * 4) := fromDictionaryEntry bytes
    { patternNumber := .signExtendedTwoHalfwords
      code := 5
      length := 3
      numUnmatchedBits := 16
      matchLocation := -1
      allocate := false
      data := .signExtendedTwoHalfwords (data.truncate 8) ((data >>> 16).truncate 8) }

def repBytes : PatternClass PatternNumber 4 where
  isPattern := RepeatedValuePattern.isPattern 4 1
  make bytes _ := RepeatedValuePattern.construct .repBytes 6 3 (-1) 1 bytes false

def uncompressed : PatternClass PatternNumber 4 where
  isPattern := UncompressedPattern.isPattern
  make bytes _ := UncompressedPattern.construct .uncompressed 7 3 (-1) bytes

/-- This function sets the size of the first word of a zero run. -/
def setRealSize (pattern : Pattern PatternNumber 4) (bits : Nat) : Pattern PatternNumber 4 :=
  { pattern with zeroRun := pattern.zeroRun.map fun run => { run with realSize := pattern.length + bits } }

def setRunLength (pattern : Pattern PatternNumber 4) (length : Nat) : Pattern PatternNumber 4 :=
  { pattern with zeroRun := pattern.zeroRun.map fun run => { run with runLength := length } }

def getRunLength (pattern : Pattern PatternNumber 4) : Nat := (pattern.zeroRun.map (·.runLength)).getD 0

/-- This function starts a zero run or extends the run of the last entry. -/
def sizedPattern (zeroRunSizeBits : Nat) (entries : List (Pattern PatternNumber 4))
    (pattern : Pattern PatternNumber 4) : Pattern PatternNumber 4 :=
  if pattern.patternNumber = .zeroRun then
    match entries.getLast? with
    | none => setRealSize pattern zeroRunSizeBits
    | some last =>
      if last.patternNumber ≠ .zeroRun then setRealSize pattern zeroRunSizeBits
      else if getRunLength last = (mask zeroRunSizeBits).toNat then setRealSize pattern zeroRunSizeBits
      else setRunLength pattern (getRunLength last + 1)
  else pattern

def addEntry (zeroRunSizeBits : Nat) (data : DictionaryData PatternNumber 4) (pattern : Pattern PatternNumber 4) :
    DictionaryData PatternNumber 4 :=
  data.addEntry (sizedPattern zeroRunSizeBits data.entries pattern)

end FPC

/-- This compressor has no dictionary, and insertions do nothing. -/
def fpc (zeroRunSizeBits : Nat) : DictionaryCompressor FPC.PatternNumber 4 where
  divides := by decide
  factory := [FPC.zeroRun, FPC.signExtended4Bits, FPC.signExtended1Byte, FPC.signExtendedHalfword,
    FPC.zeroPaddedHalfword, FPC.signExtendedTwoHalfwords, FPC.repBytes]
  uncompressed := FPC.uncompressed
  resetDictionary := .ok (Dictionary.reset 4 1)
  addToDictionary dictionary _ := .ok dictionary
  addEntry := FPC.addEntry zeroRunSizeBits
  finish _ _ data := data

namespace FPCD

inductive PatternNumber where
  | zzzz | ffff | mmmmPenultimate | mmmmPrevious | zzzx | xzzz | rrrr | mmmxPenultimate | mmmxPrevious | zzxx | zxzx
  | ffxx | xxzz | mmxxPenultimate | mmxxPrevious | xxxx
deriving DecidableEq, Repr

def prefixSize : Nat := 4

def previousIndex : Nat := 1

def penultimateIndex : Nat := 0

/-- A class that compares words with a fixed value. -/
def valueClass (number : PatternNumber) (code : BitVec 8) (value mask : BitVec (8 * 4)) : PatternClass PatternNumber 4 where
  isPattern := MaskedValuePattern.isPattern 4 value mask
  make bytes matchLocation := MaskedValuePattern.construct number code prefixSize matchLocation value mask bytes true

/-- A class that compares words with one dictionary entry. -/
def locatedClass (number : PatternNumber) (code : BitVec 8) (mask : BitVec (8 * 4)) (location : Nat) :
    PatternClass PatternNumber 4 where
  isPattern := LocatedMaskedPattern.isPattern 4 mask location
  make bytes matchLocation := MaskedPattern.construct number code prefixSize matchLocation mask bytes true

def patternZZZZ : PatternClass PatternNumber 4 := valueClass .zzzz 0x0 0 0xFFFFFFFF

def patternFFFF : PatternClass PatternNumber 4 := valueClass .ffff 0x1 0xFFFFFFFF 0xFFFFFFFF

def patternMMMMPrevious : PatternClass PatternNumber 4 := locatedClass .mmmmPrevious 0x2 0xFFFFFFFF previousIndex

def patternMMMMPenultimate : PatternClass PatternNumber 4 :=
  locatedClass .mmmmPenultimate 0x3 0xFFFFFFFF penultimateIndex

def patternZZZX : PatternClass PatternNumber 4 := valueClass .zzzx 0x4 0 0xFFFFFF00

def patternXZZZ : PatternClass PatternNumber 4 := valueClass .xzzz 0x5 0 0x00FFFFFF

def patternRRRR : PatternClass PatternNumber 4 where
  isPattern := RepeatedValuePattern.isPattern 4 1
  make bytes matchLocation := RepeatedValuePattern.construct .rrrr 0x6 prefixSize matchLocation 1 bytes true

def patternMMMXPrevious : PatternClass PatternNumber 4 := locatedClass .mmmxPrevious 0x7 0xFFFFFF00 previousIndex

def patternMMMXPenultimate : PatternClass PatternNumber 4 :=
  locatedClass .mmmxPenultimate 0x8 0xFFFFFF00 penultimateIndex

def patternZZXX : PatternClass PatternNumber 4 := valueClass .zzxx 0x9 0 0xFFFF0000

def patternZXZX : PatternClass PatternNumber 4 := valueClass .zxzx 0xA 0 0xFF00FF00

def patternFFXX : PatternClass PatternNumber 4 := valueClass .ffxx 0xB 0xFFFFFFFF 0xFFFF0000

def patternXXZZ : PatternClass PatternNumber 4 := valueClass .xxzz 0xC 0 0x0000FFFF

def patternMMXXPrevious : PatternClass PatternNumber 4 := locatedClass .mmxxPrevious 0xD 0xFFFF0000 previousIndex

def patternMMXXPenultimate : PatternClass PatternNumber 4 :=
  locatedClass .mmxxPenultimate 0xE 0xFFFF0000 penultimateIndex

def patternXXXX : PatternClass PatternNumber 4 where
  isPattern := UncompressedPattern.isPattern
  make bytes matchLocation := UncompressedPattern.construct .xxxx 0xF prefixSize matchLocation bytes

/-- This function replaces the older of two entries. -/
def addToDictionary (dictionary : Dictionary) (data : DictionaryEntry) : Except Fault Dictionary :=
  if dictionary.numEntries = 2 then
    .ok { dictionary with
      entries := (dictionary.entries.set penultimateIndex (dictionary.entries.getD previousIndex [])).set
        previousIndex data }
  else
    .ok { entries := dictionary.entries.set dictionary.numEntries data, numEntries := dictionary.numEntries + 1 }

end FPCD

def fpcd : DictionaryCompressor FPCD.PatternNumber 4 where
  divides := by decide
  factory := [FPCD.patternZZZZ, FPCD.patternFFFF, FPCD.patternMMMMPrevious, FPCD.patternMMMMPenultimate,
    FPCD.patternZZZX, FPCD.patternXZZZ, FPCD.patternRRRR, FPCD.patternMMMXPrevious, FPCD.patternMMMXPenultimate,
    FPCD.patternZZXX, FPCD.patternZXZX, FPCD.patternFFXX, FPCD.patternXXZZ, FPCD.patternMMXXPrevious,
    FPCD.patternMMXXPenultimate]
  uncompressed := FPCD.patternXXXX
  resetDictionary := .ok (Dictionary.reset 4 2)
  addToDictionary := FPCD.addToDictionary
  addEntry := DictionaryData.addEntry
  finish _ _ data := data

namespace BaseDelta

inductive PatternNumber where
  | x | m
deriving DecidableEq, Repr

def defaultMaxNumBases : Nat := 2

variable (size deltaSizeBits : Nat)

def patternX : PatternClass PatternNumber size where
  isPattern := UncompressedPattern.isPattern
  make bytes matchLocation :=
    UncompressedPattern.construct .x 0 (Nat.clog 2 defaultMaxNumBases + deltaSizeBits) matchLocation bytes

def patternM : PatternClass PatternNumber size where
  isPattern := DeltaPattern.isPattern deltaSizeBits size
  make bytes matchLocation :=
    DeltaPattern.construct .m 1 (Nat.clog 2 defaultMaxNumBases) matchLocation deltaSizeBits bytes

/-- This function adds the zero base for the immediate values. -/
def resetDictionary (dictionarySize : Nat) : Except Fault Dictionary :=
  Dictionary.append dictionarySize (Dictionary.reset size dictionarySize) (toDictionaryEntry (0 : BitVec (8 * size)))

/-- This function accounts for the bases that are not used or fails if there are too many. -/
def finish (words : Nat) (dictionary : Dictionary) (data : DictionaryData PatternNumber size) :
    DictionaryData PatternNumber size :=
  if defaultMaxNumBases < dictionary.numEntries then { data with sizeBits := words * 8 * 8 }
  else { data with sizeBits := data.sizeBits + 8 * size * (defaultMaxNumBases - dictionary.numEntries) }

end BaseDelta

/-- This compressor stores the differences to bases of some bytes. -/
def baseDelta (size deltaSizeBits dictionarySize : Nat) (divides : 64 % (8 * size) = 0) :
    DictionaryCompressor BaseDelta.PatternNumber size where
  divides := divides
  factory := [BaseDelta.patternM size deltaSizeBits]
  uncompressed := BaseDelta.patternX size deltaSizeBits
  resetDictionary := BaseDelta.resetDictionary size dictionarySize
  addToDictionary := Dictionary.append dictionarySize
  addEntry := DictionaryData.addEntry
  finish := BaseDelta.finish size

def base64Delta8 (dictionarySize : Nat) : DictionaryCompressor BaseDelta.PatternNumber 8 :=
  baseDelta 8 8 dictionarySize (by decide)

def base64Delta16 (dictionarySize : Nat) : DictionaryCompressor BaseDelta.PatternNumber 8 :=
  baseDelta 8 16 dictionarySize (by decide)

def base64Delta32 (dictionarySize : Nat) : DictionaryCompressor BaseDelta.PatternNumber 8 :=
  baseDelta 8 32 dictionarySize (by decide)

def base32Delta8 (dictionarySize : Nat) : DictionaryCompressor BaseDelta.PatternNumber 4 :=
  baseDelta 4 8 dictionarySize (by decide)

def base32Delta16 (dictionarySize : Nat) : DictionaryCompressor BaseDelta.PatternNumber 4 :=
  baseDelta 4 16 dictionarySize (by decide)

def base16Delta8 (dictionarySize : Nat) : DictionaryCompressor BaseDelta.PatternNumber 2 :=
  baseDelta 2 8 dictionarySize (by decide)

end Gem5.Compression
