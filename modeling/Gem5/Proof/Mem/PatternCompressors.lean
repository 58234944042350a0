import Gem5.Proof.Mem.DictionaryRoundTrip

namespace Gem5.Compression
open ToMathlib List

namespace DictionaryCompressor
variable {Number : Type} {size : Nat} {dictionary : Dictionary} {line : List (BitVec 64)} {count limit : Nat}
  {dictionarySize : Nat}

theorem append_ok (room : dictionary.numEntries < dictionarySize) (entry : DictionaryEntry) :
    Dictionary.append dictionarySize dictionary entry = .ok
      { entries := dictionary.entries.set dictionary.numEntries entry, numEntries := dictionary.numEntries + 1 } := by
  rw [Dictionary.append, assert_of room, ok_bind]

theorem appends_self (data : DictionaryData Number size) (pattern : Pattern Number size) :
    ∃ sized, (data.addEntry pattern).entries = data.entries ++ [sized] ∧ SameContent sized pattern :=
  ⟨pattern, rfl, rfl, rfl, rfl⟩

/-- After some values a growing dictionary has at most as many entries beyond the first ones. -/
structure Grown (dictionarySize first count : Nat) (dictionary : Dictionary) : Prop where
  length : dictionary.entries.length = dictionarySize
  entries : dictionary.numEntries ≤ count + first

theorem Grown.append {first : Nat} (grown : Grown dictionarySize first count dictionary)
    (room : count + first < dictionarySize) (entry : DictionaryEntry) :
    ∃ next, Dictionary.append dictionarySize dictionary entry = .ok next ∧
      Grown dictionarySize first (count + 1) next := by
  have few := grown.entries
  refine ⟨_, append_ok (by omega) entry, ?_, ?_⟩
  · rw [length_set, grown.length]
  · dsimp only
    omega

theorem Grown.skip {first : Nat} (grown : Grown dictionarySize first count dictionary) :
    Grown dictionarySize first (count + 1) dictionary :=
  ⟨grown.length, by have few := grown.entries; omega⟩

theorem cpack_sound (small : limit ≤ 256) (room : limit ≤ dictionarySize) :
    (cpack dictionarySize).Sound limit (Grown dictionarySize 0) where
  reset := ⟨_, rfl, length_replicate, Nat.le_refl _⟩
  recovers := fun {count dictionary} grown below memory value => by
    have few := grown.entries
    have length := grown.length
    exact recovers_of_lossless cpack_lossless (fun _ _ _ => rfl) (by omega) (by omega) memory value
  grow := fun grown below entry => grown.append (by omega) entry
  skip := Grown.skip
  appends := appends_self
  finishes := fun _ _ _ => rfl

theorem sizedPattern_sameContent (zeroRunSizeBits : Nat) (entries : List (Pattern FPC.PatternNumber 4))
    (pattern : Pattern FPC.PatternNumber 4) : SameContent (FPC.sizedPattern zeroRunSizeBits entries pattern) pattern := by
  unfold FPC.sizedPattern
  split
  · split
    · exact ⟨rfl, rfl, rfl⟩
    · split
      · exact ⟨rfl, rfl, rfl⟩
      · split <;> exact ⟨rfl, rfl, rfl⟩
  · exact ⟨rfl, rfl, rfl⟩

theorem fpc_sound (zeroRunSizeBits : Nat) :
    (fpc zeroRunSizeBits).Sound limit fun _ dictionary => dictionary.numEntries = 0 where
  reset := ⟨_, rfl, rfl⟩
  recovers := fun {_ dictionary} empty _ memory value =>
    recovers_of_lossless fpc_lossless (fun _ _ _ => rfl) (by omega) (by omega) memory value
  grow := fun empty _ _ => ⟨_, rfl, empty⟩
  skip := id
  appends := fun data pattern =>
    ⟨_, rfl, sizedPattern_sameContent zeroRunSizeBits data.entries pattern⟩
  finishes := fun _ _ _ => rfl

theorem fpcd_sound :
    fpcd.Sound limit fun _ dictionary => dictionary.entries.length = 2 ∧ dictionary.numEntries ≤ 2 where
  reset := ⟨_, rfl, rfl, Nat.zero_le 2⟩
  recovers := fun {_ dictionary} held _ memory value =>
    recovers_of_lossless fpcd_lossless (fun _ _ _ => rfl) (by omega) (by omega) memory value
  grow := by
    intro count dictionary held _ entry
    obtain ⟨length, few⟩ := held
    by_cases full : dictionary.numEntries = 2
    · refine ⟨_, if_pos full, ?_, few⟩
      rw [length_set, length_set, length]
    · refine ⟨_, if_neg full, ?_, ?_⟩
      · rw [length_set, length]
      · dsimp only
        omega
  skip := id
  appends := appends_self
  finishes := fun _ _ _ => rfl

theorem baseDelta_sound {deltaSizeBits : Nat} (divides : 64 % (8 * size) = 0) (room : limit < dictionarySize) :
    (baseDelta size deltaSizeBits dictionarySize divides).Sound limit (Grown dictionarySize 1) where
  reset := by
    refine ⟨_, append_ok (Nat.zero_lt_of_lt room) _, ?_, Nat.le_refl _⟩
    rw [length_set]
    exact length_replicate
  recovers := fun {_ dictionary} _ _ memory value => by
    refine recovers_of_stores ?_ (fun _ _ _ => rfl) memory dictionary value
    intro pattern member
    obtain rfl := mem_singleton.mp member
    exact fun _ _ _ => rfl
  grow := fun grown below entry => grown.append (by omega) entry
  skip := Grown.skip
  appends := appends_self
  finishes := by
    intro words dictionary data
    simp only [baseDelta, BaseDelta.finish]
    split <;> rfl

theorem baseDelta_lossless {deltaSizeBits : Nat} (divides : 64 % (8 * size) = 0) (several : 2 ≤ size)
    (memory : Nat → DictionaryEntry) (some : line ≠ []) :
    (baseDelta size deltaSizeBits (8 * line.length) divides).Lossless memory line := by
  have positive : 0 < line.length := length_pos_of_ne_nil some
  have few : 8 / size ≤ 4 := Nat.div_le_div_left several (by decide)
  have bound : 8 / size * line.length ≤ 4 * line.length := Nat.mul_le_mul_right _ few
  have sound : (baseDelta size deltaSizeBits (8 * line.length) divides).Sound (4 * line.length)
      (Grown (8 * line.length) 1) := baseDelta_sound divides (by omega)
  apply sound.lossless memory
  rw [length_values]
  exact bound

end DictionaryCompressor

namespace CPack
open DictionaryCompressor

/-- These words differ in their upper halves. -/
def word (i : Nat) : BitVec (8 * 4) := BitVec.ofNat 32 (i + 1) <<< 16

/-- The dictionary after some of the words. -/
def wordDictionary (words count : Nat) : Dictionary where
  entries := (range count).map (fun i => toDictionaryEntry (word i)) ++
    replicate (8 * words - count) (toDictionaryEntry (0 : BitVec (8 * 4)))
  numEntries := count

/-- A line of more than 1024 bytes has 257 such words, one of them again and zeros. -/
def wideValues (words last : Nat) : List (BitVec (8 * 4)) :=
  (range 257).map word ++ word last :: replicate (2 * words - 258) 0

def wideLine (words last : Nat) : List (BitVec 64) := (range words).map (concatenate (wideValues words last))

variable {words i j count : Nat} {dictBytes : DictionaryEntry} {location : Int}

theorem values_wideLine (wide : 129 ≤ words) (last : Nat) :
    (cpack (8 * words)).values (wideLine words last) = wideValues words last :=
  values_concatenate (cpack (8 * words)) (by
    rw [wideValues, length_append, length_cons, length_map, length_range, length_replicate]
    omega)

theorem word_and (i : Nat) : word i &&& 0xFFFF0000 = word i := by
  have upper : (0xFFFF0000 : BitVec (8 * 4)) = BitVec.allOnes 32 <<< 16 := rfl
  rw [word, upper, ← BitVec.shiftLeft_and_distrib, BitVec.and_allOnes]

theorem word_injective (small : i ≤ 256) (otherSmall : j ≤ 256) (same : word i = word j) : i = j := by
  have values := congrArg BitVec.toNat same
  simp only [word, BitVec.toNat_shiftLeft, BitVec.toNat_ofNat, Nat.shiftLeft_eq] at values
  omega

theorem word_ne_zero (small : i ≤ 256) : word i ≠ 0 := by
  intro zero
  have values : (word i).toNat = 0 := congrArg BitVec.toNat zero
  simp only [word, BitVec.toNat_shiftLeft, BitVec.toNat_ofNat, Nat.shiftLeft_eq] at values
  omega

/-- Words that agree under a wider mask agree in their upper halves. -/
theorem upper_eq {value other mask : BitVec (8 * 4)} (wide : mask &&& 0xFFFF0000 = 0xFFFF0000)
    (same : value &&& mask = other &&& mask) : value &&& 0xFFFF0000 = other &&& 0xFFFF0000 := by
  rw [← wide, ← BitVec.and_assoc, same, BitVec.and_assoc]

/-- A word that agrees with no entry in its upper half stays uncompressed. -/
theorem getPattern_word (small : i ≤ 256)
    (differs : location < 0 ∨ word i &&& 0xFFFF0000 ≠ fromDictionaryEntry dictBytes &&& 0xFFFF0000) :
    (cpack (8 * words)).getPattern (toDictionaryEntry (word i)) dictBytes location =
      patternXXXX.make (toDictionaryEntry (word i)) location := by
  have value : ∀ mask : BitVec (8 * 4), mask &&& 0xFFFF0000 = 0xFFFF0000 →
      MaskedValuePattern.isPattern 4 0 mask (toDictionaryEntry (word i)) dictBytes location = false := by
    intro mask wide
    rw [MaskedValuePattern.isPattern, fromDictionaryEntry_toDictionaryEntry, beq_eq_false_iff_ne]
    intro same
    have upper := upper_eq wide same
    rw [word_and] at upper
    exact word_ne_zero small (upper.symm.trans (by decide))
  have masked : ∀ mask : BitVec (8 * 4), mask &&& 0xFFFF0000 = 0xFFFF0000 →
      MaskedPattern.isPattern 4 mask (toDictionaryEntry (word i)) dictBytes location = false := by
    intro mask wide
    rw [MaskedPattern.isPattern, fromDictionaryEntry_toDictionaryEntry, Bool.and_eq_false_iff, decide_eq_false_iff_not,
      beq_eq_false_iff_ne]
    rcases differs with negative | upper
    · exact .inl (by omega)
    · exact .inr fun same => upper (upper_eq wide same)
  have unmatched : (cpack (8 * words)).factory.find? (fun pattern =>
      pattern.isPattern (toDictionaryEntry (word i)) dictBytes location) = none := by
    rw [find?_eq_none]
    simp only [cpack, forall_mem_cons, not_mem_nil, false_imp_iff, implies_true, and_true]
    simp only [patternZZZZ, patternMMMM, patternZZZX, patternMMMX, patternMMXX]
    rw [value _ (by decide), value _ (by decide), masked _ (by decide), masked _ (by decide), masked _ (by decide)]
    simp
  rw [getPattern, unmatched]
  rfl

/-- The pattern of a word that stays uncompressed. -/
def wordPattern (i : Nat) : Pattern PatternNumber 4 := patternXXXX.make (toDictionaryEntry (word i)) (-1)

/-- The pattern of the word that is repeated. -/
def repeatedPattern : Pattern PatternNumber 4 := patternMMMM.make (toDictionaryEntry (word 256)) 256

/-- The pattern of a zero word. -/
def zeroPattern : Pattern PatternNumber 4 := patternZZZZ.make (toDictionaryEntry (0 : BitVec (8 * 4))) (-1)

theorem wordDictionary_getD (below : j < count) (other : DictionaryEntry) :
    (wordDictionary words count).entries.getD j other = toDictionaryEntry (word j) := by
  have inside : j < ((range count).map fun i => toDictionaryEntry (word i)).length := by simpa using below
  rw [wordDictionary, getD_eq_getElem?_getD, getElem?_append_left inside, getElem?_map, getElem?_range below]
  rfl

theorem wordDictionary_append (below : count < 8 * words) :
    Dictionary.append (8 * words) (wordDictionary words count) (toDictionaryEntry (word count)) =
      .ok (wordDictionary words (count + 1)) := by
  have entries : (wordDictionary words count).entries.set count (toDictionaryEntry (word count)) =
      (wordDictionary words (count + 1)).entries := by
    rw [wordDictionary, wordDictionary, set_append_right _ _ (by simp), length_map, length_range,
      Nat.sub_self, show 8 * words - count = 8 * words - (count + 1) + 1 by omega, replicate_succ, set_cons_zero,
      range_succ, map_append, append_assoc]
    rfl
  rw [append_ok (by exact below)]
  exact congrArg Except.ok (congrArg (Dictionary.mk · (count + 1)) entries)

/-- The other words of the dictionary do not improve the pattern of a word. -/
theorem foldl_wordPattern (small : i ≤ 256) (large : count ≤ 257) (positions : List Nat)
    (others : ∀ j ∈ positions, j < count ∧ j ≠ i) :
    positions.foldl ((cpack (8 * words)).betterPattern (wordDictionary words count) (toDictionaryEntry (word i)))
      (wordPattern i) = wordPattern i := by
  apply foldlRecOn (motive := (· = wordPattern i)) _ _ rfl
  rintro _ rfl j member
  obtain ⟨below, different⟩ := others j member
  have upper : word i &&& 0xFFFF0000 ≠ fromDictionaryEntry (toDictionaryEntry (word j)) &&& 0xFFFF0000 := by
    rw [fromDictionaryEntry_toDictionaryEntry, word_and, word_and]
    exact fun same => different (word_injective small (by omega) same).symm
  rw [betterPattern, wordDictionary_getD below, getPattern_word small (.inr upper)]
  exact if_neg (Nat.lt_irrefl _)

theorem selectPattern_word (small : count ≤ 256) :
    (cpack (8 * words)).selectPattern (wordDictionary words count) (word count) = wordPattern count := by
  rw [selectPattern, getPattern_word small (.inl (by decide))]
  apply foldl_wordPattern small (by omega)
  intro j member
  have below : j < count := mem_range.mp member
  exact ⟨below, by omega⟩

/-- The repeated word matches at its location. -/
theorem selectPattern_repeated :
    (cpack (8 * words)).selectPattern (wordDictionary words 257) (word 256) = repeatedPattern := by
  have others : ∀ j ∈ range 256, j < 257 ∧ j ≠ 256 := by
    intro j member
    have below := mem_range.mp member
    omega
  have found : (cpack (8 * words)).getPattern (toDictionaryEntry (word 256)) (toDictionaryEntry (word 256)) 256 =
      repeatedPattern := rfl
  rw [selectPattern, getPattern_word (Nat.le_refl _) (.inl (by decide)),
    show (wordDictionary words 257).numEntries = 256 + 1 from rfl, range_succ, foldl_append]
  have first := @foldl_wordPattern words _ _ (Nat.le_refl 256) (Nat.le_refl 257) (range 256) others
  unfold wordPattern at first
  rw [first, foldl_cons, foldl_nil, betterPattern, wordDictionary_getD (by decide)]
  rw [show ((256 : Nat) : Int) = 256 from rfl, found]
  exact if_pos (by decide)

theorem selectPattern_zero (dictionary : Dictionary) :
    (cpack (8 * words)).selectPattern dictionary 0 = zeroPattern := by
  apply foldlRecOn (motive := (· = zeroPattern)) _ _ rfl
  rintro _ rfl i _
  rfl

theorem allocateEntry_word (wide : 129 ≤ words) (small : i ≤ 256) :
    (cpack (8 * words)).allocateEntry (wordDictionary words i) (wordPattern i) (toDictionaryEntry (word i)) =
      .ok (wordDictionary words (i + 1)) :=
  wordDictionary_append (by omega)

theorem compressValue_word (wide : 129 ≤ words) (small : i ≤ 256) :
    (cpack (8 * words)).compressValue (wordDictionary words i) (word i) =
      .ok (wordPattern i, wordDictionary words (i + 1)) := by
  rw [compressValue, selectPattern_word small, allocateEntry_word wide small, ok_bind]

theorem allocateEntry_repeated (wide : 129 ≤ words) (entry : DictionaryEntry) :
    ∃ next, (cpack (8 * words)).allocateEntry (wordDictionary words 257) repeatedPattern entry = .ok next := by
  have room : (wordDictionary words 257).numEntries < 8 * words := by
    change 257 < _
    omega
  exact ⟨_, append_ok room entry⟩

theorem compressValue_repeated (wide : 129 ≤ words) : ∃ next,
    (cpack (8 * words)).compressValue (wordDictionary words 257) (word 256) = .ok (repeatedPattern, next) := by
  obtain ⟨next, added⟩ := allocateEntry_repeated wide (toDictionaryEntry (word 256))
  exact ⟨next, by rw [compressValue, selectPattern_repeated, added, ok_bind]⟩

theorem compressValue_zero (dictionary : Dictionary) :
    (cpack (8 * words)).compressValue dictionary 0 = .ok (zeroPattern, dictionary) := by
  rw [compressValue, selectPattern_zero]
  rfl

variable {memory : Nat → DictionaryEntry} {values : Nat → BitVec (8 * 4)} {patterns : Nat → Pattern PatternNumber 4}
  {dictionaries : Nat → Dictionary}

theorem decompressValue_word (wide : 129 ≤ words) (small : i ≤ 256) :
    (cpack (8 * words)).decompressValue memory (wordDictionary words i) (wordPattern i) =
      .ok (word i, wordDictionary words (i + 1)) := by
  have stored : ∀ entry, (wordPattern i).decompress entry = toDictionaryEntry (word i) := fun _ => rfl
  rw [decompressValue, stored, allocateEntry_word wide small, ok_bind, fromDictionaryEntry_toDictionaryEntry]

theorem decompressValue_repeated (wide : 129 ≤ words) (memory : Nat → DictionaryEntry) : ∃ next,
    (cpack (8 * words)).decompressValue memory (wordDictionary words 257) repeatedPattern = .ok (word 0, next) := by
  have location : repeatedPattern.getMatchLocation = 0 := by decide
  have restored : repeatedPattern.decompress (toDictionaryEntry (word 0)) = toDictionaryEntry (word 0) := by decide
  obtain ⟨next, added⟩ := allocateEntry_repeated wide (toDictionaryEntry (word 0))
  exact ⟨next, by rw [decompressValue, location, wordDictionary_getD (by decide), restored, added, ok_bind,
    fromDictionaryEntry_toDictionaryEntry]⟩

/-- Values with known patterns are compressed one after another. -/
theorem compressValues_range' (data : DictionaryData PatternNumber 4) (rest : List (BitVec (8 * 4)))
    (turns : ∀ j < i + count, (cpack (8 * words)).compressValue (dictionaries j) (values j) =
      .ok (patterns j, dictionaries (j + 1))) :
    ∃ filled, (cpack (8 * words)).compressValues (dictionaries i) data ((range' i count).map values ++ rest) =
        (cpack (8 * words)).compressValues (dictionaries (i + count)) filled rest ∧
      filled.entries = data.entries ++ (range' i count).map patterns := by
  induction count generalizing i data with
  | zero => exact ⟨data, rfl, by simp⟩
  | succ count ih =>
    have first := turns i (by omega)
    rw [Nat.add_comm count, ← Nat.add_assoc] at turns ⊢
    obtain ⟨filled, loop, entries⟩ := ih (data.addEntry (patterns i)) turns
    refine ⟨filled, ?_, ?_⟩
    · rw [Nat.add_comm 1, range'_succ, map_cons, cons_append, compressValues, first, ok_bind]
      exact loop
    · rw [entries, DictionaryData.addEntry, Nat.add_comm 1, range'_succ, map_cons, append_assoc]
      rfl

theorem decompressValues_range' (turns : ∀ j < i + count, (cpack (8 * words)).decompressValue memory (dictionaries j)
      (patterns j) = .ok (values j, dictionaries (j + 1))) :
    (cpack (8 * words)).decompressValues memory (dictionaries i) ((range' i count).map patterns) =
      .ok ((range' i count).map values, dictionaries (i + count)) := by
  induction count generalizing i with
  | zero => rfl
  | succ count ih =>
    have first := turns i (by omega)
    rw [Nat.add_comm count, ← Nat.add_assoc] at turns ⊢
    rw [Nat.add_comm 1, range'_succ, map_cons, decompressValues, first, ok_bind, ih turns, ok_bind, map_cons]

/-- In a line of more than 1024 bytes the location 256 is read back as the location 0, and another line is returned. -/
theorem decompress_wideLine (wide : 129 ≤ words) :
    ∃ data, (cpack (8 * words)).compress (wideLine words 256) = .ok data ∧
    (∀ memory : Nat → DictionaryEntry, (cpack (8 * words)).decompress memory words data = .ok (wideLine words 0)) ∧
    wideLine words 0 ≠ wideLine words 256 := by
  have start : (cpack (8 * words)).resetDictionary = .ok (wordDictionary words 0) := rfl
  obtain ⟨next, compressed⟩ := compressValue_repeated wide
  have blank : replicate (2 * words - 258) (0 : BitVec (8 * 4)) =
      (range' 0 (2 * words - 258)).map (fun _ => 0) ++ [] := by
    rw [map_const', length_range', append_nil]
  obtain ⟨filled, stored, entries⟩ := compressValues_range' .empty (word 256 :: replicate (2 * words - 258) 0)
    fun j (below : j < 0 + 257) => compressValue_word wide (i := j) (by omega)
  obtain ⟨final, zeros, finalEntries⟩ := compressValues_range'
    (filled.addEntry repeatedPattern) []
    fun j (_ : j < 0 + (2 * words - 258)) => compressValue_zero next
  have patterns : final.entries = (range' 0 257).map wordPattern ++
      repeatedPattern :: (range' 0 (2 * words - 258)).map fun _ => zeroPattern := by
    rw [finalEntries, DictionaryData.addEntry, entries, append_assoc, append_assoc]
    rfl
  have positions : range 257 = range' 0 257 := range_eq_range'
  refine ⟨final, ?_, ?_, ?_⟩
  · rw [compress, start, ok_bind, values_wideLine wide, wideValues, positions, stored, compressValues,
      compressed, ok_bind, blank]
    exact congrArg (· >>= _) zeros
  · intro memory
    obtain ⟨other, restored⟩ := decompressValue_repeated wide memory
    have zero : (cpack (8 * words)).decompressValue memory other zeroPattern = .ok (0, other) := rfl
    rw [decompress, start, ok_bind, patterns, decompressValues_append,
      decompressValues_range' fun j (below : j < 0 + 257) => decompressValue_word wide (i := j) (by omega), ok_bind,
      decompressValues, restored, ok_bind, decompressValues_range' fun j (_ : j < 0 + (2 * words - 258)) => zero,
      ok_bind, ok_bind, ok_bind, wideLine, wideValues, positions, blank, append_nil]
  · intro same
    have values := congrArg (cpack (8 * words)).values same
    rw [values_wideLine wide, values_wideLine wide, wideValues, wideValues] at values
    have first := (cons.inj (append_cancel_left values)).1
    cases word_injective (by decide) (by decide) first

end CPack

open DictionaryCompressor in
/-- The compressor `CPack` returns every line of a size exactly if the locations of such a line fit a byte, and the
others return every line. -/
theorem dictionary_lossless (memory : Nat → DictionaryEntry) {words : Nat} (some : 0 < words) :
    ((∀ line : List (BitVec 64), line.length = words → (cpack (8 * words)).Lossless memory line) ↔ words * 8 ≤ 1024) ∧
      ∀ line : List (BitVec 64), line.length = words →
        (∀ zeroRunSizeBits, (fpc zeroRunSizeBits).Lossless memory line) ∧ fpcd.Lossless memory line ∧
        (base64Delta8 (8 * words)).Lossless memory line ∧ (base64Delta16 (8 * words)).Lossless memory line ∧
        (base64Delta32 (8 * words)).Lossless memory line ∧ (base32Delta8 (8 * words)).Lossless memory line ∧
        (base32Delta16 (8 * words)).Lossless memory line ∧ (base16Delta8 (8 * words)).Lossless memory line := by
  refine ⟨⟨fun lossless => ?_, fun small line length => ?_⟩, ?_⟩
  · by_contra wide
    have length : (CPack.wideLine words 256).length = words := by rw [CPack.wideLine, length_map, length_range]
    obtain ⟨data, compressed, restored, different⟩ := @CPack.decompress_wideLine words (by omega)
    obtain ⟨_, _, _, same, returned, _⟩ := lossless _ length
    cases same.symm.trans compressed
    rw [length, restored] at returned
    exact different (Except.ok.inj returned)
  · have count := length_values (cpack (8 * words)) line
    exact (cpack_sound (by omega) (by omega)).lossless memory (Nat.le_refl _)
  · rintro line rfl
    have filled : line ≠ [] := length_pos_iff.mp some
    refine ⟨fun zeroRunSizeBits => (fpc_sound zeroRunSizeBits).lossless memory (Nat.le_refl _),
      fpcd_sound.lossless memory (Nat.le_refl _), ?_⟩
    refine ⟨?_, ?_, ?_, ?_, ?_, ?_⟩ <;> exact baseDelta_lossless _ (by decide) memory filled

open DictionaryCompressor in
theorem dictionary_lossless_word :
    (cpack 8).Lossless (fun _ => []) [0x0001000200010003] ∧ (base16Delta8 8).Lossless (fun _ => []) [0x0001000200010003] :=
  have lossless := dictionary_lossless (fun _ => []) (by decide : 0 < 1)
  ⟨lossless.1.mpr (by decide) _ rfl, (lossless.2 _ rfl).2.2.2.2.2.2.2⟩

open CPack in
/-- A line of 2048 bytes is not returned. -/
theorem cpack_wide_line : ∃ data, (cpack 2048).compress (wideLine 256 256) = .ok data ∧
    (∀ memory : Nat → DictionaryEntry, (cpack 2048).decompress memory 256 data = .ok (wideLine 256 0)) ∧
    wideLine 256 0 ≠ wideLine 256 256 :=
  @decompress_wideLine 256 (by decide)

end Gem5.Compression
