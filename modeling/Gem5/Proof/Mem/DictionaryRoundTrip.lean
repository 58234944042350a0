import Gem5.Construction.Mem.PatternCompressors
import Gem5.Proof.Mem.Chunks

namespace Gem5.Compression

section
open Bitfield PatternData RepeatedValuePattern FPCD BitVec List

section Bytes
variable {size width : Nat}

theorem join_split (value : BitVec width) (low : Nat) :
    (value >>> low) <<< low ||| (value.truncate low).zeroExtend width = value := by
  apply eq_of_getLsbD_eq
  intro index inside
  simp only [truncate_eq_setWidth, getLsbD_or, getLsbD_shiftLeft, getLsbD_setWidth, getLsbD_ushiftRight]
  by_cases lower : index < low
  · simp [lower, inside]
  · have position : low + (index - low) = index := by omega
    simp [lower, inside, position]

theorem ushiftRight_lt {low count : Nat} {value : BitVec width} (fits : value.toNat < 2 ^ (low * (count + 1))) :
    (value >>> low).toNat < 2 ^ (low * count) := by
  rw [toNat_ushiftRight, Nat.shiftRight_eq_div_pow]
  apply Nat.div_lt_of_lt_mul
  rwa [← Nat.pow_add, Nat.add_comm, ← Nat.mul_add_one]

theorem foldr_toBytes {count : Nat} {value : BitVec width} (fits : value.toNat < 2 ^ (8 * count)) :
    (toBytes count value).foldr (fun (byte : BitVec 8) (value : BitVec width) =>
      value <<< 8 ||| byte.zeroExtend width) 0 = value := by
  induction count generalizing value with
  | zero =>
    apply eq_of_toNat_eq
    simp at fits
    simp [toBytes, fits]
  | succ count ih =>
    have byte : (value &&& 0xFF).truncate 8 = value.truncate 8 := by
      apply eq_of_getLsbD_eq
      intro index inside
      have bits : Nat.testBit 255 index = true := (Nat.testBit_two_pow_sub_one 8 index).trans (decide_eq_true inside)
      simpa [inside, getLsbD_ofNat, bits] using lt_of_getLsbD
    rw [toBytes, foldr_cons, ih (ushiftRight_lt fits), byte, join_split]

@[simp] theorem fromDictionaryEntry_toDictionaryEntry (value : BitVec (8 * size)) :
    fromDictionaryEntry (toDictionaryEntry value) = value :=
  foldr_toBytes value.isLt

end Bytes

/-- A pattern restores a word from any entry or from the entry at its location. -/
def Pattern.Restores {Number : Type} {size : Nat} (pattern : Pattern Number size) (bytes dictBytes : DictionaryEntry)
    (location : Int) : Prop :=
  (∀ entry, pattern.decompress entry = bytes) ∨
    (0 ≤ location ∧ pattern.matchLocation = location ∧ pattern.decompress dictBytes = bytes)

/-- A class restores the words that it matches. -/
def PatternClass.Lossless {Number : Type} {size : Nat} (pattern : PatternClass Number size) : Prop :=
  ∀ (data : BitVec (8 * size)) (dictBytes : DictionaryEntry) (location : Int),
    pattern.isPattern (toDictionaryEntry data) dictBytes location = true →
      (pattern.make (toDictionaryEntry data) location).Restores (toDictionaryEntry data) dictBytes location

/-- A class stores every word itself. -/
def PatternClass.Stores {Number : Type} {size : Nat} (pattern : PatternClass Number size) : Prop :=
  ∀ (data : BitVec (8 * size)) (location : Int) (entry : DictionaryEntry),
    (pattern.make (toDictionaryEntry data) location).decompress entry = toDictionaryEntry data

section Classes
variable {Number : Type} {size : Nat} {pattern : PatternClass Number size}

theorem join_masked {width : Nat} {value other mask : BitVec width} (same : value &&& mask = other &&& mask) :
    (value &&& ~~~mask) ||| (other &&& mask) = value := by
  rw [← same]
  apply eq_of_getLsbD_eq
  intro index inside
  simp only [getLsbD_or, getLsbD_and, getLsbD_not, decide_eq_true inside, Bool.true_and]
  cases value.getLsbD index <;> cases mask.getLsbD index <;> rfl

section Repeated
variable {repSize : Nat} {repValue : BitVec (8 * repSize)}

/-- A value that passes the comparison is copies of the part. -/
theorem repeatValue_of_repeats {count : Nat} {value : BitVec (8 * size)} (fits : value.toNat < 2 ^ (8 * repSize * count))
    (repeated : repeats repSize repValue count value = true) : repeatValue repValue count = value := by
  induction count generalizing value with
  | zero =>
    apply eq_of_toNat_eq
    simp at fits
    simp [repeatValue, fits]
  | succ count ih =>
    rw [repeats, Bool.and_eq_true, beq_iff_eq] at repeated
    obtain ⟨rfl, rest⟩ := repeated
    rw [repeatValue, ih (ushiftRight_lt fits) rest, join_split]

end Repeated

/-- A halfword that matches is the extension of its lowest byte. -/
theorem extendedHalfword_of_matches {halfword : BitVec 16} (extended : FPC.matchesExtended halfword = true) :
    extendedHalfword (halfword.truncate 8) = halfword := by
  rw [FPC.matchesExtended, beq_iff_eq] at extended
  have lowest : ((halfword.truncate 8).signExtend 64).truncate 8 = (halfword.signExtend 64).truncate 8 := by
    apply eq_of_getLsbD_eq
    intro index inside
    have below : index < 16 := by omega
    have word : index < 64 := by omega
    simp only [truncate_eq_setWidth, getLsbD_setWidth, getLsbD_signExtend]
    simp [inside, below, word]
  have same : extendedHalfword (halfword.truncate 8) = (szext 8 (halfword.signExtend 64)).truncate 16 := by
    rw [extendedHalfword, szext_eq (by decide) (by decide), szext_eq (by decide) (by decide), lowest]
  rw [same]
  apply eq_of_toNat_eq
  rw [toInt_eq_toNat_cond] at extended
  split at extended <;> omega

section Families
variable {mask value : BitVec (8 * size)}

/-- A class that compares words with a dictionary entry restores them from the entry. -/
theorem lossless_of_masked
    (compares : ∀ bytes dictBytes location, pattern.isPattern bytes dictBytes location = true →
      MaskedPattern.isPattern size mask bytes dictBytes location = true)
    (stores : ∀ bytes location, (pattern.make bytes location).matchLocation = location ∧
      (pattern.make bytes location).data = .masked mask (fromDictionaryEntry bytes &&& ~~~mask)) :
    pattern.Lossless := by
  intro data dictBytes location matched
  have compared := compares _ _ _ matched
  rw [MaskedPattern.isPattern, Bool.and_eq_true, decide_eq_true_eq, beq_iff_eq,
    fromDictionaryEntry_toDictionaryEntry] at compared
  obtain ⟨located, stored⟩ := stores (toDictionaryEntry data) location
  refine .inr ⟨compared.1, located, ?_⟩
  rw [Pattern.decompress, stored, decompress, fromDictionaryEntry_toDictionaryEntry, join_masked compared.2]

/-- A class that compares words with a fixed value restores them from the value. -/
theorem lossless_of_maskedValue
    (compares : ∀ bytes dictBytes location, pattern.isPattern bytes dictBytes location = true →
      MaskedValuePattern.isPattern size value mask bytes dictBytes location = true)
    (stores : ∀ bytes location,
      (pattern.make bytes location).data = .maskedValue value mask (fromDictionaryEntry bytes &&& ~~~mask)) :
    pattern.Lossless := by
  intro data dictBytes location matched
  have compared := compares _ _ _ matched
  rw [MaskedValuePattern.isPattern, beq_iff_eq, fromDictionaryEntry_toDictionaryEntry] at compared
  refine .inl fun entry => ?_
  rw [Pattern.decompress, stores, decompress, fromDictionaryEntry_toDictionaryEntry,
    fromDictionaryEntry_toDictionaryEntry, join_masked compared.symm]

theorem lossless_of_repeatedValue {repSize : Nat} (divides : repSize ∣ size)
    (compares : pattern.isPattern = isPattern size repSize)
    (stores : ∀ bytes location, (pattern.make bytes location).data =
      .repeatedValue repSize ((fromDictionaryEntry bytes : BitVec (8 * size)).truncate (8 * repSize))) :
    pattern.Lossless := by
  intro data dictBytes location matched
  rw [compares, isPattern, fromDictionaryEntry_toDictionaryEntry] at matched
  refine .inl fun entry => ?_
  have fits : data.toNat < 2 ^ (8 * repSize * (size / repSize)) := by
    rw [Nat.mul_assoc, Nat.mul_div_cancel' divides]
    exact data.isLt
  rw [Pattern.decompress, stores, decompress, fromDictionaryEntry_toDictionaryEntry, repeatValue_of_repeats fits matched]

theorem lossless_of_signExtended {nbits : Nat} (positive : 0 < nbits) (fits : nbits ≤ 64)
    (compares : pattern.isPattern = SignExtendedPattern.isPattern nbits size)
    (stores : ∀ bytes location, (pattern.make bytes location).data = .signExtended nbits
      (((fromDictionaryEntry bytes : BitVec (8 * size)).zeroExtend 64 &&& Bitfield.mask nbits).truncate nbits)) :
    pattern.Lossless := by
  intro data dictBytes location matched
  rw [compares, SignExtendedPattern.isPattern, fromDictionaryEntry_toDictionaryEntry, beq_iff_eq] at matched
  refine .inl fun entry => ?_
  rw [Pattern.decompress, stores, decompress, fromDictionaryEntry_toDictionaryEntry]
  congr 1
  have stored : ((data.zeroExtend 64 &&& Bitfield.mask nbits).truncate nbits).zeroExtend 64 &&& Bitfield.mask nbits =
      ((data.zeroExtend 64 &&& Bitfield.mask nbits).truncate nbits).zeroExtend 64 := by
    apply eq_of_getLsbD_eq
    intro index inside
    simp only [truncate_eq_setWidth, getLsbD_and, getLsbD_setWidth, getLsbD_mask]
    by_cases low : index < nbits <;> simp [low, inside]
  have lowest : (((data.zeroExtend 64 &&& Bitfield.mask nbits).truncate nbits).zeroExtend 64).truncate nbits =
      (data.zeroExtend 64).truncate nbits := by
    apply eq_of_getLsbD_eq
    intro index inside
    have below : index < 64 := by omega
    simp [truncate_eq_setWidth, getLsbD_mask, inside, below]
  rw [sext_eq_szext stored, szext_eq positive fits, lowest, ← szext_eq positive fits]
  exact matched.symm

end Families
end Classes

theorem signExtendedTwoHalfwords_lossless : FPC.signExtendedTwoHalfwords.Lossless := by
  intro data dictBytes location matched
  simp only [FPC.signExtendedTwoHalfwords, fromDictionaryEntry_toDictionaryEntry, Bool.and_eq_true] at matched
  obtain ⟨low, high⟩ := matched
  refine .inl fun entry => ?_
  have first := extendedHalfword_of_matches low
  have second := extendedHalfword_of_matches high
  rw [truncate_eq_setWidth, truncate_eq_setWidth, setWidth_setWidth_of_le _ (by decide)] at first second
  simp only [FPC.signExtendedTwoHalfwords, Pattern.decompress, decompress,
    fromDictionaryEntry_toDictionaryEntry, first, second]
  have upper : ((data >>> 16).setWidth 16).zeroExtend (8 * 4) = data >>> 16 := by
    apply eq_of_toNat_eq
    have below := data.isLt
    simp [toNat_ushiftRight, Nat.shiftRight_eq_div_pow]
    omega
  rw [upper]
  exact congrArg toDictionaryEntry (join_split data 16)

theorem cpack_lossless {dictionarySize : Nat} : ∀ pattern ∈ (cpack dictionarySize).factory, pattern.Lossless := by
  simp only [cpack, forall_mem_cons, not_mem_nil, false_imp_iff, implies_true, and_true]
  refine ⟨?_, ?_, ?_, ?_, ?_⟩
  · exact lossless_of_maskedValue (fun _ _ _ matched => matched) fun _ _ => rfl
  · exact lossless_of_masked (fun _ _ _ matched => matched) fun _ _ => ⟨rfl, rfl⟩
  · exact lossless_of_maskedValue (fun _ _ _ matched => matched) fun _ _ => rfl
  · exact lossless_of_masked (fun _ _ _ matched => matched) fun _ _ => ⟨rfl, rfl⟩
  · exact lossless_of_masked (fun _ _ _ matched => matched) fun _ _ => ⟨rfl, rfl⟩

theorem fpc_lossless {zeroRunSizeBits : Nat} : ∀ pattern ∈ (fpc zeroRunSizeBits).factory, pattern.Lossless := by
  simp only [fpc, forall_mem_cons, not_mem_nil, false_imp_iff, implies_true, and_true]
  refine ⟨?_, ?_, ?_, ?_, ?_, signExtendedTwoHalfwords_lossless, ?_⟩
  · exact lossless_of_maskedValue (fun _ _ _ matched => matched) fun _ _ => rfl
  · exact lossless_of_signExtended (by decide) (by decide) rfl fun _ _ => rfl
  · exact lossless_of_signExtended (by decide) (by decide) rfl fun _ _ => rfl
  · exact lossless_of_signExtended (by decide) (by decide) rfl fun _ _ => rfl
  · exact lossless_of_maskedValue (fun _ _ _ matched => matched) fun _ _ => rfl
  · exact lossless_of_repeatedValue (by decide) rfl fun _ _ => rfl

theorem FPCD.valueClass_lossless (number : FPCD.PatternNumber) (code : BitVec 8) (value mask : BitVec (8 * 4)) :
    (valueClass number code value mask).Lossless :=
  lossless_of_maskedValue (fun _ _ _ matched => matched) fun _ _ => rfl

theorem FPCD.locatedClass_lossless (number : FPCD.PatternNumber) (code : BitVec 8) (mask : BitVec (8 * 4))
    (location : Nat) : (locatedClass number code mask location).Lossless := by
  refine lossless_of_masked (fun bytes dictBytes location matched => ?_) fun _ _ => ⟨rfl, rfl⟩
  exact (Bool.and_eq_true_iff.mp matched).2

theorem fpcd_lossless : ∀ pattern ∈ fpcd.factory, pattern.Lossless := by
  have repeated : patternRRRR.Lossless := lossless_of_repeatedValue (by decide) rfl fun _ _ => rfl
  simp only [fpcd, forall_mem_cons, not_mem_nil, false_imp_iff, implies_true, and_true]
  exact ⟨valueClass_lossless _ _ _ _, valueClass_lossless _ _ _ _, locatedClass_lossless _ _ _ _,
    locatedClass_lossless _ _ _ _, valueClass_lossless _ _ _ _, valueClass_lossless _ _ _ _, repeated,
    locatedClass_lossless _ _ _ _, locatedClass_lossless _ _ _ _, valueClass_lossless _ _ _ _,
    valueClass_lossless _ _ _ _, valueClass_lossless _ _ _ _, valueClass_lossless _ _ _ _,
    locatedClass_lossless _ _ _ _, locatedClass_lossless _ _ _ _⟩

end

open ToMathlib List

/-- A pattern restores a value from the entry that the decompressor reads. -/
def Pattern.Recovers {Number : Type} {size : Nat} (pattern : Pattern Number size) (memory : Nat → DictionaryEntry)
    (dictionary : Dictionary) (bytes : DictionaryEntry) : Prop :=
  pattern.decompress (dictionary.entries.getD pattern.getMatchLocation (memory pattern.getMatchLocation)) = bytes

namespace DictionaryCompressor
variable {Number : Type} {size : Nat} {compressor : DictionaryCompressor Number size} {dictionary next : Dictionary}
  {memory : Nat → DictionaryEntry} {value : BitVec (8 * size)} {values done rest : List (BitVec (8 * size))}
  {data final : DictionaryData Number size} {line : List (BitVec 64)} {count limit : Nat}

section
variable (compressor)

theorem perWord_eq : compressor.chunkSize.perWord = 8 / size := Nat.mul_div_mul_left 8 size (by decide : 0 < 8)

/-- Each bit of a word comes from the value that contains it. -/
theorem getLsbD_concatenate (values : List (BitVec (8 * size)))
    (i : Nat) {r : Nat} (inside : r < 64) : (concatenate values i).getLsbD r =
      (values.getD (compressor.chunkSize.chunkOf i r) 0).getLsbD (r % (8 * size)) := by
  have positive : 0 < 8 * size := compressor.chunkSize.positive
  have part : r / (8 * size) < 8 / size := by
    have bound : r / compressor.chunkSize.bits < compressor.chunkSize.perWord := ChunkSize.div_bits_lt inside
    rwa [compressor.perWord_eq] at bound
  have only : ∀ j, ((values.getD (8 / size * i + j) 0).zeroExtend 64 <<< (j * (8 * size))).getLsbD r =
      (decide (j = r / (8 * size)) && (values.getD (8 / size * i + j) 0).getLsbD (r % (8 * size))) := by
    intro j
    simp only [BitVec.getLsbD_shiftLeft, BitVec.truncate_eq_setWidth, BitVec.getLsbD_setWidth, decide_eq_true inside,
      decide_eq_true (by omega : r - j * (8 * size) < 64), Bool.true_and]
    by_cases here : j = r / (8 * size)
    · subst here
      have split := Nat.div_add_mod' r (8 * size)
      have offset : r - r / (8 * size) * (8 * size) = r % (8 * size) := by omega
      rw [decide_eq_true rfl, decide_eq_false (by omega), offset]
      rfl
    · by_cases before : r < j * (8 * size)
      · simp [before, here]
      · have outside := mt (Nat.div_eq_iff positive).mpr (Ne.symm here)
        rw [BitVec.getLsbD_of_ge _ _ (by omega)]
        simp [here]
  rw [concatenate, getLsbD_foldl_or]
  simp only [only]
  have found : ((range (8 / size)).reverse.any fun j => decide (j = r / (8 * size)) &&
      (values.getD (8 / size * i + j) 0).getLsbD (r % (8 * size))) =
      (values.getD (8 / size * i + r / (8 * size)) 0).getLsbD (r % (8 * size)) := by
    rw [Bool.eq_iff_iff]
    simp only [any_reverse, any_eq_true, mem_range, Bool.and_eq_true, decide_eq_true_eq]
    constructor
    · rintro ⟨j, _, rfl, bit⟩
      exact bit
    · intro bit
      exact ⟨_, part, rfl, bit⟩
  have chunk : compressor.chunkSize.chunkOf i r = 8 / size * i + r / (8 * size) := by
    rw [ChunkSize.chunkOf, compressor.perWord_eq]
    rfl
  rw [found, chunk]
  simp

theorem concatenate_values (line : List (BitVec 64)) :
    (range line.length).map (concatenate (compressor.values line)) = line := by
  apply ext_getElem
  · simp
  intro i before bounded
  rw [getElem_map, getElem_range]
  apply BitVec.eq_of_getLsbD_eq
  intro r inside
  obtain ⟨chunk, found, bit⟩ := compressor.chunkSize.getLsbD_toChunks bounded inside
  have lower : r % (8 * size) < 8 * size := Nat.mod_lt r compressor.chunkSize.positive
  rw [getLsbD_concatenate compressor _ _ inside, values, getD_eq_getElem?_getD, getElem?_map, found]
  simp only [Option.map_some, Option.getD_some, BitVec.truncate_eq_setWidth, BitVec.getLsbD_setWidth,
    decide_eq_true lower, Bool.true_and]
  exact bit

theorem length_values (line : List (BitVec 64)) : (compressor.values line).length = 8 / size * line.length := by
  rw [values, length_map, ChunkSize.length_toChunks, compressor.perWord_eq]

theorem values_concatenate {values : List (BitVec (8 * size))}
    {words : Nat} (full : values.length = 8 / size * words) :
    compressor.values ((range words).map (concatenate values)) = values := by
  have positive : 0 < 8 / size := compressor.perWord_eq ▸ compressor.chunkSize.perWord_pos
  apply ext_getElem
  · rw [length_values, length_map, length_range, full]
  intro k before bounded
  apply BitVec.eq_of_getLsbD_eq
  intro b inside
  have bits : compressor.chunkSize.bits = 8 * size := rfl
  have width := compressor.chunkSize.width_eq k
  have highest := compressor.chunkSize.highest_lt k
  have bit : compressor.chunkSize.lowest k + b < 64 := by omega
  have chunk := (ChunkSize.covers_iff bit).mp ⟨rfl, Nat.le_add_right _ _, by omega⟩
  have remainder : (compressor.chunkSize.lowest k + b) % (8 * size) = b := by
    rw [ChunkSize.lowest, bits, Nat.mul_add_mod_self_right, Nat.mod_eq_of_lt inside]
  have word : k / compressor.chunkSize.perWord < ((range words).map (concatenate values)).length := by
    rw [length_map, length_range, compressor.perWord_eq, Nat.div_lt_iff_lt_mul positive, Nat.mul_comm, ← full]
    exact bounded
  simp only [DictionaryCompressor.values, ChunkSize.toChunks, getElem_map, getElem_range, BitVec.truncate_eq_setWidth,
    BitVec.getLsbD_setWidth, decide_eq_true inside, Bool.true_and]
  rw [Bitfield.getLsbD_bits, width, bits, decide_eq_true inside, Bool.and_true, getD_eq_getElem _ _ word, getElem_map,
    getElem_range, getLsbD_concatenate compressor values _ bit, chunk, remainder, getD_eq_getElem _ _ bounded]

end

theorem getPattern_induct (Holds : Pattern Number size → Prop) {bytes dictBytes : DictionaryEntry} {location : Int}
    (factory : ∀ pattern ∈ compressor.factory, pattern.isPattern bytes dictBytes location = true →
      Holds (pattern.make bytes location))
    (uncompressed : Holds (compressor.uncompressed.make bytes location)) :
    Holds (compressor.getPattern bytes dictBytes location) := by
  unfold getPattern
  split
  · rename_i pattern found
    have matched := find?_some found
    exact factory pattern (mem_of_find?_eq_some found) matched
  · exact uncompressed

theorem selectPattern_induct (Holds : Pattern Number size → Prop)
    (start : Holds (compressor.getPattern (toDictionaryEntry value) (toDictionaryEntry (0 : BitVec (8 * size))) (-1)))
    (located : ∀ i < dictionary.numEntries,
      Holds (compressor.getPattern (toDictionaryEntry value) (dictionary.entries.getD i []) i)) :
    Holds (compressor.selectPattern dictionary value) := by
  unfold selectPattern
  apply foldlRecOn _ _ start
  intro pattern held i member
  unfold betterPattern
  dsimp only
  split
  · exact located i (mem_range.mp member)
  · exact held

/-- The locations of a small dictionary fit a byte. -/
theorem recovers_of_lossless (lossless : ∀ pattern ∈ compressor.factory, pattern.Lossless)
    (stores : compressor.uncompressed.Stores) (small : dictionary.numEntries ≤ 256)
    (valid : dictionary.numEntries ≤ dictionary.entries.length) (memory : Nat → DictionaryEntry)
    (value : BitVec (8 * size)) :
    (compressor.selectPattern dictionary value).Recovers memory dictionary (toDictionaryEntry value) := by
  have restores : ∀ dictBytes location, (compressor.getPattern (toDictionaryEntry value) dictBytes location).Restores
      (toDictionaryEntry value) dictBytes location := by
    intro dictBytes location
    apply getPattern_induct fun pattern => pattern.Restores (toDictionaryEntry value) dictBytes location
    · exact fun pattern member matched => lossless pattern member value dictBytes location matched
    · exact .inl (stores value location)
  apply selectPattern_induct fun pattern => pattern.Recovers memory dictionary (toDictionaryEntry value)
  · rcases restores (toDictionaryEntry (0 : BitVec (8 * size))) (-1) with any | ⟨negative, _, _⟩
    · exact any _
    · omega
  · intro i below
    rcases restores (dictionary.entries.getD i []) i with any | ⟨_, here, restored⟩
    · exact any _
    have location : (compressor.getPattern (toDictionaryEntry value) (dictionary.entries.getD i []) i).getMatchLocation =
        i := by
      rw [Pattern.getMatchLocation, here]
      omega
    have inside : i < dictionary.entries.length := by omega
    simp only [getD_eq_getElem _ _ inside] at restored location
    simp only [Pattern.Recovers, getD_eq_getElem _ _ inside, location]
    exact restored

theorem recovers_of_stores (factory : ∀ pattern ∈ compressor.factory, pattern.Stores)
    (stores : compressor.uncompressed.Stores) (memory : Nat → DictionaryEntry) (dictionary : Dictionary)
    (value : BitVec (8 * size)) :
    (compressor.selectPattern dictionary value).Recovers memory dictionary (toDictionaryEntry value) := by
  have always : ∀ dictBytes location, (compressor.getPattern (toDictionaryEntry value) dictBytes location).Recovers
      memory dictionary (toDictionaryEntry value) := by
    intro dictBytes location
    apply getPattern_induct fun pattern => pattern.Recovers memory dictionary (toDictionaryEntry value)
    · exact fun pattern member _ => factory pattern member value location _
    · exact stores value location _
  exact selectPattern_induct (fun pattern => pattern.Recovers memory dictionary (toDictionaryEntry value)) (always _ _)
    fun i _ => always _ _

/-- Two patterns decompress in the same way. -/
def SameContent (pattern other : Pattern Number size) : Prop :=
  pattern.matchLocation = other.matchLocation ∧ pattern.allocate = other.allocate ∧ pattern.data = other.data

/-- What a compressor guarantees for its dictionary after a number of values. -/
structure Sound (compressor : DictionaryCompressor Number size) (limit : Nat) (Inv : Nat → Dictionary → Prop) :
    Prop where
  reset : ∃ start, compressor.resetDictionary = .ok start ∧ Inv 0 start
  recovers : ∀ {count dictionary}, Inv count dictionary → count < limit → ∀ memory value,
    (compressor.selectPattern dictionary value).Recovers memory dictionary (toDictionaryEntry value)
  grow : ∀ {count dictionary}, Inv count dictionary → count < limit → ∀ entry,
    ∃ next, compressor.addToDictionary dictionary entry = .ok next ∧ Inv (count + 1) next
  skip : ∀ {count dictionary}, Inv count dictionary → Inv (count + 1) dictionary
  appends : ∀ data pattern, ∃ sized, (compressor.addEntry data pattern).entries = data.entries ++ [sized] ∧
    SameContent sized pattern
  finishes : ∀ words dictionary data, (compressor.finish words dictionary data).entries = data.entries

section Loops
variable {Inv : Nat → Dictionary → Prop}

theorem decompressValue_congr {pattern other : Pattern Number size} (same : SameContent pattern other) :
    compressor.decompressValue memory dictionary pattern = compressor.decompressValue memory dictionary other := by
  obtain ⟨location, allocates, data⟩ := same
  simp only [decompressValue, Pattern.getMatchLocation, Pattern.decompress, allocateEntry, location, allocates, data]

/-- One value keeps the two dictionaries the same. -/
theorem Sound.step (sound : compressor.Sound limit Inv) (held : Inv count dictionary) (below : count < limit)
    (memory : Nat → DictionaryEntry) (value : BitVec (8 * size)) :
    ∃ pattern next, compressor.compressValue dictionary value = .ok (pattern, next) ∧
      compressor.decompressValue memory dictionary pattern = .ok (value, next) ∧ Inv (count + 1) next := by
  have recovered := sound.recovers held below memory value
  have allocated : ∃ next, compressor.allocateEntry dictionary (compressor.selectPattern dictionary value)
      (toDictionaryEntry value) = .ok next ∧ Inv (count + 1) next := by
    unfold allocateEntry
    split
    · exact sound.grow held below _
    · exact ⟨dictionary, rfl, sound.skip held⟩
  obtain ⟨next, added, kept⟩ := allocated
  refine ⟨compressor.selectPattern dictionary value, next, ?_, ?_, kept⟩
  · rw [compressValue, added, ok_bind]
  · rw [decompressValue, recovered, added, ok_bind, fromDictionaryEntry_toDictionaryEntry]

theorem decompressValues_append (start : Dictionary) (first second : List (Pattern Number size)) :
    compressor.decompressValues memory start (first ++ second) = (do
      let before ← compressor.decompressValues memory start first
      let later ← compressor.decompressValues memory before.2 second
      .ok (before.1 ++ later.1, later.2)) := by
  induction first generalizing start with
  | nil =>
    simp only [nil_append, decompressValues, ok_bind]
    cases compressor.decompressValues memory start second <;> rfl
  | cons head rest ih => simp only [cons_append, decompressValues, ih, bind_assoc, ok_bind]

/-- The decompressor follows the compressor value by value. -/
theorem Sound.run (sound : compressor.Sound limit Inv) {start : Dictionary} (held : Inv done.length dictionary)
    (fits : done.length + rest.length ≤ limit)
    (followed : compressor.decompressValues memory start data.entries = .ok (done, dictionary)) :
    ∃ final next, compressor.compressValues dictionary data rest = .ok (final, next) ∧
      compressor.decompressValues memory start final.entries = .ok (done ++ rest, next) := by
  induction rest generalizing done dictionary data with
  | nil => exact ⟨data, dictionary, rfl, by rwa [append_nil]⟩
  | cons value rest ih =>
    rw [length_cons] at fits
    obtain ⟨pattern, next, compressed, decompressed, kept⟩ := sound.step held (by omega) memory value
    obtain ⟨sized, appended, same⟩ := sound.appends data pattern
    have continued : compressor.decompressValues memory start (compressor.addEntry data pattern).entries =
        .ok (done ++ [value], next) := by
      rw [appended, decompressValues_append, followed, ok_bind, decompressValues, decompressValue_congr same,
        decompressed]
      rfl
    have longer : (done ++ [value]).length = done.length + 1 := length_append
    obtain ⟨final, last, loop, restored⟩ := ih (by rwa [longer]) (by rw [longer]; omega) continued
    refine ⟨final, last, ?_, ?_⟩
    · rw [compressValues, compressed, ok_bind, loop]
    · rw [restored, append_assoc, singleton_append]

theorem Sound.entries (sound : compressor.Sound limit Inv)
    (compressed : compressor.compressValues dictionary data values = .ok (final, next)) :
    ∃ later, final.entries = data.entries ++ later ∧ later.length = values.length := by
  induction values generalizing dictionary data with
  | nil =>
    cases compressed
    exact ⟨[], by simp, rfl⟩
  | cons value rest ih =>
    obtain ⟨⟨pattern, after⟩, _, loop⟩ := bind_eq_ok.mp compressed
    obtain ⟨later, entries, length⟩ := ih loop
    obtain ⟨sized, appended, _⟩ := sound.appends data pattern
    refine ⟨sized :: later, ?_, by rw [length_cons, length_cons, length]⟩
    rw [entries, appended, append_assoc, singleton_append]

/-- A line is returned, and after each value the decompressor has the dictionary of the compressor. -/
def Lossless (compressor : DictionaryCompressor Number size) (memory : Nat → DictionaryEntry) (line : List (BitVec 64)) :
    Prop :=
  ∃ start data, compressor.resetDictionary = .ok start ∧ compressor.compress line = .ok data ∧
    compressor.decompress memory line.length data = .ok line ∧
    ∀ count, ∃ compressed dictionary,
      compressor.compressValues start .empty ((compressor.values line).take count) = .ok (compressed, dictionary) ∧
        compressed.entries = data.entries.take count ∧
        compressor.decompressValues memory start (data.entries.take count) =
          .ok ((compressor.values line).take count, dictionary)

theorem compressValues_append (first second : List (BitVec (8 * size))) :
    compressor.compressValues dictionary data (first ++ second) = (do
      let before ← compressor.compressValues dictionary data first
      compressor.compressValues before.2 before.1 second) := by
  induction first generalizing dictionary data with
  | nil => rfl
  | cons value rest ih => simp only [cons_append, compressValues, ih, bind_assoc]

/-- A sound compressor is lossless for every line within its limit. -/
theorem Sound.lossless (sound : compressor.Sound limit Inv) (memory : Nat → DictionaryEntry)
    (fits : (compressor.values line).length ≤ limit) : compressor.Lossless memory line := by
  obtain ⟨start, reset, initial⟩ := sound.reset
  have loop : ∀ values : List (BitVec (8 * size)), values.length ≤ limit → ∃ final next,
      compressor.compressValues start .empty values = .ok (final, next) ∧
        compressor.decompressValues memory start final.entries = .ok (values, next) := by
    intro values few
    have followed : compressor.decompressValues memory start DictionaryData.empty.entries = .ok ([], start) := rfl
    have held : Inv ([] : List (BitVec (8 * size))).length start := initial
    exact sound.run held (by simpa using few) followed
  obtain ⟨final, next, compressed, restored⟩ := loop _ fits
  refine ⟨start, compressor.finish line.length next final, reset, ?_, ?_, ?_⟩
  · rw [compress, reset, ok_bind, compressed, ok_bind]
  · rw [decompress, reset, ok_bind, sound.finishes, restored, ok_bind, concatenate_values]
  · intro count
    have few : ((compressor.values line).take count).length ≤ limit := by
      rw [length_take]
      omega
    obtain ⟨shorter, dictionary, first, followed⟩ := loop _ few
    have taken : shorter.entries = final.entries.take count := by
      obtain ⟨before, entries, length⟩ := sound.entries first
      have whole := compressed
      rw [← take_append_drop count (compressor.values line), compressValues_append, first, ok_bind] at whole
      obtain ⟨later, longer, laterLength⟩ := sound.entries whole
      rw [length_take] at length
      rw [length_drop] at laterLength
      dsimp only at longer
      have start : shorter.entries.length = min count (compressor.values line).length := by
        rw [entries, length_append, length]
        exact Nat.zero_add _
      rw [longer]
      rcases Nat.le_total count (compressor.values line).length with inside | beyond
      · rw [take_left' (by omega)]
      · have none : later = [] := eq_nil_of_length_eq_zero (by omega)
        rw [none, append_nil, take_of_length_le (by omega)]
    rw [sound.finishes, ← taken]
    exact ⟨shorter, dictionary, first, rfl, followed⟩

end Loops

end DictionaryCompressor
end Gem5.Compression
