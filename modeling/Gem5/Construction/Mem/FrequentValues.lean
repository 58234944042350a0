import Gem5.Construction.Mem.Compressor
import Gem5.Construction.Mem.Huffman

namespace Gem5.Compression

/-- The phases follow each other once. -/
inductive FrequentValuesPhase where
  | sampling
  | codeGeneration
  | compressing
deriving DecidableEq, Repr

/-- An entry of the table that estimates how often each value occurs. -/
structure VFTEntry where
  valid : Bool
  value : BitVec 64
  counter : Nat
deriving DecidableEq, Repr

namespace VFTEntry

/-- An invalidated entry has no value and a reset counter. -/
def invalid : VFTEntry := { valid := false, value := 0, counter := 0 }

def increment (counterBits : Nat) (entry : VFTEntry) : VFTEntry :=
  { entry with counter := if entry.counter < 2 ^ counterBits - 1 then entry.counter + 1 else entry.counter }

def decrement (entry : VFTEntry) : VFTEntry := { entry with counter := entry.counter - 1 }

def isSaturated (counterBits : Nat) (entry : VFTEntry) : Bool := entry.counter == 2 ^ counterBits - 1

def halve (entry : VFTEntry) : VFTEntry := { entry with counter := entry.counter >>> 1 }

end VFTEntry

/-- This structure contains the parameters that the constructors of the compressor, its encoder and its counters accept.
The loop variable of `generateCodes` is an `int`. -/
structure FrequentValuesParams where
  maxCodeLength : Nat
  counterBits : Nat
  checkSaturation : Bool
  numVFTEntries : Nat
  numSamples : BitVec 32
  codeFits : maxCodeLength ≤ 64
  counterFits : counterBits ≤ 32
  entriesFit : numVFTEntries < 2 ^ 31

namespace FrequentValuesParams

def useHuffmanEncoding (params : FrequentValuesParams) : Bool := params.maxCodeLength != 0

end FrequentValuesParams

/-- All values of the compressor have 32 bits. -/
def frequentChunk : ChunkSize := { bits := 32, divides := by decide }

/-- The state of a compressor. -/
structure FrequentValues where
  indexEncoder : Huffman
  takenSamples : BitVec 32
  phase : FrequentValuesPhase
  vft : List VFTEntry
  uncompressedValue : BitVec 64

/-- A codeword next to the value it stands for. -/
structure CompressedValue where
  code : Code
  value : BitVec 64
deriving DecidableEq, Repr

/-- A compressed line and its size in bits. -/
structure FrequentValuesData where
  compressedValues : List CompressedValue
  size : Nat
deriving DecidableEq, Repr

namespace FrequentValues

/-- The constructor. -/
def construct (params : FrequentValuesParams) : Except Fault FrequentValues := do
  let indexEncoder ← Huffman.construct params.maxCodeLength
  .ok {
    indexEncoder
    takenSamples := 0
    phase := .sampling
    vft := List.replicate params.numVFTEntries .invalid
    uncompressedValue := 0 }

/-- The position that `findEntry` of the table finds. -/
def findEntry (vft : List VFTEntry) (value : BitVec 64) : Option Nat :=
  vft.findIdx? fun entry => entry.valid && entry.value == value

/-- A replacement policy selects a victim for a value. -/
abbrev VictimPolicy := List VFTEntry → BitVec 64 → Nat

variable (params : FrequentValuesParams) (policy : VictimPolicy) (state : FrequentValues)

/-- This function changes the entry of one sampled value. -/
def sampleEntry (isInvalidation : Bool) (vft : List VFTEntry) (chunk : BitVec 64) : List VFTEntry × Bool :=
  match findEntry vft chunk, isInvalidation with
  | some position, true => (vft.modify position VFTEntry.decrement, false)
  | none, true => (vft, false)
  | some position, false =>
    let entry := (vft.getD position .invalid).increment params.counterBits
    (vft.set position entry, entry.isSaturated params.counterBits)
  | none, false =>
    let entry := ({ valid := true, value := chunk, counter := 0 } : VFTEntry).increment params.counterBits
    (vft.set (policy vft chunk) entry, entry.isSaturated params.counterBits)

/-- This function samples one value and rescales the counters after one saturates. -/
def sampleChunk (isInvalidation : Bool) (vft : List VFTEntry) (chunk : BitVec 64) : List VFTEntry :=
  let sampled := sampleEntry params policy isInvalidation vft chunk
  if params.checkSaturation && sampled.2 then sampled.1.map .halve else sampled.1

def sampleValues (data : List (BitVec 64)) (isInvalidation : Bool) : FrequentValues :=
  let chunks := frequentChunk.toChunks data
  { state with
    vft := chunks.foldl (sampleChunk params policy isInvalidation) state.vft
    takenSamples := state.takenSamples + BitVec.ofNat 32 chunks.length }

/-- This function finds the smallest number that is not a value of the table. -/
def pseudoValue (vft : List VFTEntry) : Option (BitVec 64) :=
  ((List.range (params.numVFTEntries + 1)).map (BitVec.ofNat 64)).find? fun value =>
    vft.all fun entry => entry.value != value

/-- This function samples the table and the pseudo value with the largest frequency. -/
def sampleTable (vft : List VFTEntry) (uncompressedValue : BitVec 64) (encoder : Huffman) : Huffman :=
  (vft.foldl (fun encoder entry => encoder.sample entry.value (BitVec.ofNat 64 entry.counter)) encoder).sample
    uncompressedValue (BitVec.allOnes 64)

/-- This function generates the codes with a choice of the tree for each queue. -/
def generateCodes (build : List HuffmanNode → HuffmanNode) (state : FrequentValues) : Except Fault FrequentValues :=
  match pseudoValue params state.vft with
  | none => .error (.assertion "uncompressed_values.size() >= 1")
  | some uncompressedValue => do
    assert (findEntry state.vft uncompressedValue = none) "VFT.findEntry(uncompressedValue) == nullptr"
    let sampled := sampleTable state.vft uncompressedValue state.indexEncoder
    let indexEncoder :=
      if params.useHuffmanEncoding then sampled.generateCodeMaps (build sampled.trees) else state.indexEncoder
    .ok { state with indexEncoder, uncompressedValue, phase := .codeGeneration }

/-- This function handles a notification with the old and the new contents of a block. -/
def probeNotify (build : List HuffmanNode → HuffmanNode)
    (state : FrequentValues) (oldData newData : List (BitVec 64)) : Except Fault FrequentValues :=
  if state.phase = .sampling then
    let removed := if oldData.length > 0 then state.sampleValues params policy oldData true else state
    let added := if newData.length > 0 then removed.sampleValues params policy newData false else removed
    if params.numSamples ≤ added.takenSamples then added.generateCodes params build else .ok added
  else .ok state

/-- This function selects the code of a value while the compressor compresses. -/
def compressChunk (chunk : BitVec 64) : Except Fault Code :=
  let entry := findEntry state.vft chunk
  let uncompressedIndex := (state.uncompressedValue.truncate 32).zeroExtend 64
  let index := if entry.isSome then (chunk.truncate 32).zeroExtend 64 else uncompressedIndex
  if params.useHuffmanEncoding then
    let code := state.indexEncoder.encode index
    if index = uncompressedIndex then .ok { code with length := code.length + frequentChunk.bits }
    else if code.length > 64 then do
      let code := state.indexEncoder.encode uncompressedIndex
      assert (code.length ≤ 64) "code.length <= 64"
      .ok { code with length := code.length + frequentChunk.bits }
    else .ok code
  else
    let codeSize := params.numVFTEntries.log2
    if entry.isSome then .ok { code := index, length := codeSize }
    else .ok { code := uncompressedIndex, length := codeSize + frequentChunk.bits }

/-- This function copies the value before the compressor compresses. -/
def selectCode (chunk : BitVec 64) : Except Fault Code :=
  if state.phase = .compressing then state.compressChunk params chunk
  else .ok { code := chunk, length := frequentChunk.bits }

def compressValue (chunk : BitVec 64) : Except Fault CompressedValue := do
  let code ← state.selectCode params chunk
  .ok { code, value := chunk }

def compress (chunks : List (BitVec 64)) : Except Fault FrequentValuesData := do
  let compressedValues ← chunks.mapM (state.compressValue params)
  .ok { compressedValues, size := (compressedValues.map (·.code.length)).sum }

/-- This function compares a code with the table. -/
def checkCode (compressed : CompressedValue) : Except Fault Unit :=
  if state.phase = .compressing then
    if params.useHuffmanEncoding then
      let code := state.indexEncoder.encode compressed.value
      assert ((code.length ≤ 64 ∧ code.code = compressed.code.code) ∨
        compressed.code.code = (state.indexEncoder.encode state.uncompressedValue).code)
        "((code.length <= 64) && (code.code == comp_chunk.code.code)) || (comp_chunk.code.code == indexEncoder.encode(uncompressedValue).code)"
    else
      assert (compressed.code.code = state.uncompressedValue ∨ (findEntry state.vft compressed.value).isSome)
        "(comp_chunk.code.code == uncompressedValue) || VFT.findEntry(comp_chunk.value)"
  else .ok ()

def decompressValue (compressed : CompressedValue) : Except Fault (BitVec 64) := do
  state.checkCode params compressed
  .ok compressed.value

/-- This function writes the decompressed line into a number of words. -/
def decompress (words : Nat) (data : FrequentValuesData) : Except Fault (List (BitVec 64)) := do
  let chunks ← data.compressedValues.mapM (state.decompressValue params)
  .ok (frequentChunk.fromChunks words chunks)

/-- The cache notifies the compressor, and the event of the code generation fires. -/
inductive Op where
  | probeNotify (policy : VictimPolicy) (build : List HuffmanNode → HuffmanNode) (oldData newData : List (BitVec 64))
  | codeGenerationEvent

def Op.apply : Op → Except Fault FrequentValues
  | .probeNotify policy build oldData newData => state.probeNotify params policy build oldData newData
  | .codeGenerationEvent => .ok { state with phase := .compressing }

/-- The event is scheduled in the code generation phase only, a policy selects an entry of the table, and a queue is
merged into one tree. -/
def Op.Allowed : Op → Prop
  | .probeNotify policy build _ _ =>
    (∀ vft chunk, vft ≠ [] → policy vft chunk < vft.length) ∧ ∀ queue, queue ≠ [] → BuildsTree queue (build queue)
  | .codeGenerationEvent => state.phase = .codeGeneration

def machine : ToMathlib.Machine FrequentValues Op Fault where
  guard := Op.Allowed
  step state op := op.apply params state

end FrequentValues
end Gem5.Compression
