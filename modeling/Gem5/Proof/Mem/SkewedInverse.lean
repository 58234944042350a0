import Gem5.Proof.Base.Bitfield
import Gem5.Proof.Base.Intmath
import Gem5.Construction.Mem.SkewedAssociative

namespace Gem5
open ToMathlib Bitfield Intmath Function BitVec

namespace SkewedAssociative
variable {policy : SkewedAssociative}

/-- The number of sets is a power of two above two, and two set indices fit above the block offset. -/
structure Proper (policy : SkewedAssociative) : Prop where
  sets : policy.numSets.toNat = 2 ^ (policy.msbShift + 1)
  several : 1 ≤ policy.msbShift
  fits : policy.setShift + 2 * (policy.msbShift + 1) ≤ 64
  shift : policy.tagShift = policy.setShift + (policy.msbShift + 1)

theorem construct_proper {size entrySize assoc : BitVec 64} (made : construct size entrySize assoc = .ok policy) :
    policy.Proper := by
  unfold construct at made
  split at made
  · cases made
  obtain ⟨_, nonzero, made⟩ := bind_eq_ok.mp made
  split_ifs at made with power fits several
  rw [Bool.not_eq_false] at power
  have built := Except.ok.inj made
  generalize (size / entrySize).setWidth 32 / assoc.setWidth 32 = numSets at *
  have sets := eq_two_pow_of_isPowerOf2 power
  have wide : (numSets.setWidth 64).toNat = numSets.toNat := by
    rw [toNat_setWidth, Nat.mod_eq_of_lt (numSets.isLt.trans (by decide))]
  have large : 2 < numSets.toNat := by simpa [le_def] using several
  have logarithm : floorLog2 (numSets.setWidth 64) = Nat.log 2 numSets.toNat := by
    rw [floorLog2_eq (by omega), wide]
  rw [wide] at sets
  have atLeast : 1 < Nat.log 2 numSets.toNat := (Nat.pow_lt_pow_iff_right (a := 2) (by decide)).mp (large.trans_eq sets)
  have shift : policy.msbShift + 1 = Nat.log 2 numSets.toNat := by
    rw [← built]
    simp only [msbShift, logarithm]
    omega
  refine ⟨?_, by omega, ?_, ?_⟩
  · rw [shift, ← built]
    exact sets
  · rw [built] at fits
    omega
  · rw [shift, ← built]
    simp only [tagShift, logarithm]

/-- The word has no bits above the set bits. -/
def Narrow (policy : SkewedAssociative) (word : Addr) : Prop :=
  ∀ index, policy.msbShift < index → word.getLsbD index = false

theorem Narrow.xor {left right : Addr} (leftNarrow : policy.Narrow left) (rightNarrow : policy.Narrow right) :
    policy.Narrow (left ^^^ right) := by
  intro index above
  rw [getLsbD_xor, leftNarrow index above, rightNarrow index above]
  rfl

/-- Narrow words are equal if they have the same set bits. -/
theorem Narrow.eq {left right : Addr} (leftNarrow : policy.Narrow left) (rightNarrow : policy.Narrow right)
    (same : ∀ index, index ≤ policy.msbShift → left.getLsbD index = right.getLsbD index) : left = right := by
  apply eq_of_getLsbD_eq
  intro index _
  by_cases inside : index ≤ policy.msbShift
  · exact same index inside
  · rw [leftNarrow index (by omega), rightNarrow index (by omega)]

theorem narrow_addr1 (policy : SkewedAssociative) (word : Addr) : policy.Narrow (policy.addr1 word) := by
  intro index above
  rw [addr1, getLsbD_bits, decide_eq_false (by omega), Bool.and_false]

theorem getLsbD_addr1 {word : Addr} {index : Nat} (inside : index ≤ policy.msbShift) :
    (policy.addr1 word).getLsbD index = word.getLsbD index := by
  rw [addr1, getLsbD_bits, decide_eq_true (by omega), Bool.and_true, Nat.zero_add]

theorem narrow_addr2 (policy : SkewedAssociative) (word : Addr) : policy.Narrow (policy.addr2 word) := by
  intro index above
  rw [addr2, getLsbD_bits, decide_eq_false (by omega), Bool.and_false]

theorem getLsbD_addr2 {word : Addr} {index : Nat} (inside : index ≤ policy.msbShift) :
    (policy.addr2 word).getLsbD index = word.getLsbD (policy.msbShift + 1 + index) := by
  rw [addr2, getLsbD_bits, decide_eq_true (by omega), Bool.and_true]

/-- The address of a block with a tag and a conventional set. -/
def blockAddr (policy : SkewedAssociative) (tag : Addr) (set : BitVec 32) : Addr :=
  tag <<< policy.tagShift ||| set.setWidth 64 <<< policy.setShift

namespace Proper
variable {word left right : Addr} {index : Nat} (proper : policy.Proper)
include proper

theorem msbShift_lt : policy.msbShift < 32 := by
  have fits := proper.fits
  omega

theorem getLsbD_hash : (policy.hash word).getLsbD index =
    if index = policy.msbShift then word.getLsbD policy.msbShift ^^ word.getLsbD 0 else word.getLsbD (index + 1) := by
  have bound := proper.msbShift_lt
  by_cases inside : index < 64
  · rw [hash, getLsbD_insertBits _ inside, Nat.mod_eq_of_lt (by omega)]
    by_cases top : index = policy.msbShift
    · rw [if_pos (by omega), if_pos top, getLsbD_xor, getLsbD_bits, getLsbD_bits]
      simp [top]
    · rw [if_neg (by omega), if_neg top, getLsbD_ushiftRight, Nat.add_comm]
  · rw [if_neg (by omega), getLsbD_of_ge _ _ (by omega), getLsbD_of_ge _ _ (by omega)]

theorem getLsbD_dehash : (policy.dehash word).getLsbD index =
    if index = 0 then word.getLsbD (policy.msbShift - 1) ^^ word.getLsbD policy.msbShift
    else word.getLsbD (index - 1) && decide (index ≤ policy.msbShift) := by
  have bound := proper.msbShift_lt
  have several := proper.several
  by_cases inside : index < 64
  · rw [dehash, getLsbD_insertBits _ inside, Nat.mod_eq_of_lt (by decide)]
    by_cases bottom : index = 0
    · rw [if_pos (by omega), if_pos bottom, getLsbD_xor, getLsbD_bits, getLsbD_bits]
      simp [bottom]
    · rw [if_neg (by omega), if_neg bottom, getLsbD_shiftLeft, getLsbD_mbits]
      have same : index - 1 < policy.msbShift - 1 + 1 ↔ index ≤ policy.msbShift := by omega
      have notZero : ¬ index < 1 := by omega
      simp [inside, same, notZero]
  · rw [if_neg (by omega), getLsbD_of_ge _ _ (by omega)]
    simp [show ¬ index ≤ policy.msbShift by omega]

theorem narrow_hash (narrow : policy.Narrow word) : policy.Narrow (policy.hash word) := by
  intro index above
  rw [proper.getLsbD_hash, if_neg (by omega), narrow _ (by omega)]

theorem narrow_dehash : policy.Narrow (policy.dehash word) := by
  intro index above
  rw [proper.getLsbD_dehash, if_neg (by omega)]
  simp [show ¬ index ≤ policy.msbShift by omega]

theorem hash_xor : policy.hash (left ^^^ right) = policy.hash left ^^^ policy.hash right := by
  have swapped : ∀ first second third fourth : Bool,
      ((first ^^ second) ^^ (third ^^ fourth)) = ((first ^^ third) ^^ (second ^^ fourth)) := by decide
  apply eq_of_getLsbD_eq
  intro index _
  rw [getLsbD_xor, proper.getLsbD_hash, proper.getLsbD_hash, proper.getLsbD_hash]
  simp only [getLsbD_xor]
  split
  · exact swapped _ _ _ _
  · rfl

section
variable (narrow : policy.Narrow word)
include narrow

theorem dehash_hash : policy.dehash (policy.hash word) = word := by
  have several := proper.several
  refine proper.narrow_dehash.eq narrow ?_
  intro index inside
  rw [proper.getLsbD_dehash, proper.getLsbD_hash, proper.getLsbD_hash, proper.getLsbD_hash]
  by_cases bottom : index = 0
  · rw [if_pos bottom, if_neg (by omega), if_pos rfl, Nat.sub_add_cancel several, bottom]
    simp
  · rw [if_neg bottom, if_neg (by omega), Nat.sub_add_cancel (by omega)]
    simp [inside]

theorem hash_dehash : policy.hash (policy.dehash word) = word := by
  have several := proper.several
  refine (proper.narrow_hash proper.narrow_dehash).eq narrow ?_
  intro index inside
  rw [proper.getLsbD_hash, proper.getLsbD_dehash, proper.getLsbD_dehash, proper.getLsbD_dehash]
  by_cases top : index = policy.msbShift
  · rw [if_pos top, if_neg (by omega), if_pos rfl, top]
    simp
  · rw [if_neg top, if_neg (by omega)]
    simp [show index + 1 ≤ policy.msbShift by omega]

theorem narrow_iterate_hash (count : Nat) : policy.Narrow (policy.hash^[count] word) :=
  Set.MapsTo.iterate (s := {word | policy.Narrow word}) (fun _ => proper.narrow_hash) count narrow

theorem iterate_dehash_hash (count : Nat) : policy.dehash^[count] (policy.hash^[count] word) = word := by
  induction count with
  | zero => rfl
  | succ count ih =>
    rw [iterate_succ_apply, iterate_succ_apply' policy.hash,
      proper.dehash_hash (proper.narrow_iterate_hash narrow count), ih]

end

/-- Each hash of the sum of a word and its hash moves one more bit of the word to its place. -/
theorem getLsbD_iterate_hash {count : Nat} (few : count ≤ policy.msbShift) (inside : index ≤ policy.msbShift) :
    (policy.hash^[count] (policy.hash word ^^^ word)).getLsbD index =
      if index + count < policy.msbShift then word.getLsbD (index + count + 1) ^^ word.getLsbD (index + count)
      else word.getLsbD (index + count - policy.msbShift) := by
  induction count generalizing index with
  | zero =>
    rw [iterate_zero_apply, getLsbD_xor, proper.getLsbD_hash]
    by_cases top : index = policy.msbShift
    · rw [if_pos top, if_neg (by omega), top, Nat.add_zero, Nat.sub_self]
      cases word.getLsbD policy.msbShift <;> simp
    · rw [if_neg top, if_pos (by omega)]
      rfl
  | succ count ih =>
    rw [iterate_succ_apply', proper.getLsbD_hash]
    by_cases top : index = policy.msbShift
    · rw [if_pos top, ih (by omega) (Nat.le_refl _), ih (by omega) (Nat.zero_le _), if_neg (by omega),
        if_pos (by omega), if_neg (by omega), top, Nat.zero_add, Nat.add_sub_cancel_left, Nat.add_sub_cancel_left]
      cases word.getLsbD count <;> simp
    · rw [if_neg top, ih (by omega) (by omega), show index + 1 + count = index + (count + 1) by omega]

/-- The hash `H` of the set bits satisfies `H ^ (N - 1) * (H + 1) = 1`. -/
theorem iterate_hash_xor (narrow : policy.Narrow word) :
    policy.hash^[policy.msbShift] (policy.hash word ^^^ word) = word := by
  refine (proper.narrow_iterate_hash ((proper.narrow_hash narrow).xor narrow) _).eq narrow ?_
  intro index inside
  rw [proper.getLsbD_iterate_hash (Nat.le_refl _) inside, if_neg (by omega), Nat.add_sub_cancel]

theorem iterate_dehash_xor (narrow : policy.Narrow word) :
    policy.hash^[policy.msbShift + 1] (policy.dehash word ^^^ word) = word := by
  rw [iterate_succ_apply, proper.hash_xor, proper.hash_dehash narrow, BitVec.xor_comm, proper.iterate_hash_xor narrow]

theorem narrow_skewSelect (leftNarrow : policy.Narrow left) (rightNarrow : policy.Narrow right) (choice : Fin 8) :
    policy.Narrow (policy.skewSelect left right choice) := by
  have hashLeft := proper.narrow_hash leftNarrow
  have hashRight := proper.narrow_hash rightNarrow
  have dehashLeft : policy.Narrow (policy.dehash left) := proper.narrow_dehash
  have dehashRight : policy.Narrow (policy.dehash right) := proper.narrow_dehash
  match choice with
  | 0 | 1 | 2 | 3 | 4 | 5 | 6 | 7 => exact .xor (.xor ‹_› ‹_›) ‹_›

theorem deskewSelect_skewSelect (leftNarrow : policy.Narrow left) (choice : Fin 8) :
    policy.deskewSelect (policy.skewSelect left right choice) right choice = left := by
  have once : ∀ first second third : Addr, first ^^^ second ^^^ third ^^^ second = first ^^^ third := by
    intro first second third
    rw [BitVec.xor_assoc first second third, BitVec.xor_comm second third, ← BitVec.xor_assoc, BitVec.xor_assoc,
      BitVec.xor_self, BitVec.xor_zero]
  have twice : ∀ first second third : Addr, first ^^^ second ^^^ third ^^^ second ^^^ third = first := by
    intro first second third
    rw [once, BitVec.xor_assoc, BitVec.xor_self, BitVec.xor_zero]
  match choice with
  | 0 | 2 => rw [skewSelect, deskewSelect, twice, proper.dehash_hash leftNarrow]
  | 1 | 3 => rw [skewSelect, deskewSelect, once, proper.iterate_hash_xor leftNarrow]
  | 4 | 6 => rw [skewSelect, deskewSelect, twice, proper.hash_dehash leftNarrow]
  | 5 | 7 => rw [skewSelect, deskewSelect, once, proper.iterate_dehash_xor leftNarrow]

theorem narrow_skew (word : Addr) (way : Nat) : policy.Narrow (policy.skew word way) :=
  proper.narrow_iterate_hash (proper.narrow_skewSelect (narrow_addr1 policy _) (narrow_addr2 policy _) _) _

/-- The set bits come back from the skewed set and the tag bits. -/
theorem deskew_eq {skewed : Addr} {way : Nat} (set : policy.addr1 skewed = policy.skew word way)
    (tag : policy.addr2 skewed = policy.addr2 word) : policy.deskew skewed way = policy.addr1 word := by
  have chosen := proper.narrow_skewSelect (narrow_addr1 policy word) (narrow_addr2 policy word) (Fin.ofNat 8 (way % 8))
  have unpiled : (if way ≥ numSkewingFunctions then policy.dehash^[way / numSkewingFunctions] (policy.addr1 skewed)
      else policy.addr1 skewed) =
      policy.skewSelect (policy.addr1 word) (policy.addr2 word) (Fin.ofNat 8 (way % 8)) := by
    rw [set, skew]
    split
    · exact proper.iterate_dehash_hash chosen _
    · rename_i few
      rw [Nat.div_eq_of_lt (Nat.lt_of_not_le few)]
      rfl
  simp only [deskew]
  rw [unpiled, tag, proper.deskewSelect_skewSelect (narrow_addr1 policy word)]

theorem getLsbD_setMask : policy.setMask.getLsbD index = decide (index ≤ policy.msbShift) := by
  have positive := Nat.two_pow_pos (policy.msbShift + 1)
  have value : policy.setMask.toNat = 2 ^ (policy.msbShift + 1) - 1 := by
    have least : 1 ≤ policy.numSets.toNat := by rw [proper.sets]; exact positive
    rw [setMask, toNat_setWidth, toNat_sub_of_le (by simpa [le_def] using least),
      Nat.mod_eq_of_lt (Nat.lt_of_le_of_lt (Nat.sub_le _ _) (policy.numSets.isLt.trans (by decide))), proper.sets]
    rfl
  rw [getLsbD, value, Nat.testBit_two_pow_sub_one]
  exact decide_eq_decide.mpr (by omega)

/-- The mask of the sets keeps a narrow word, and so does the type of a set index. -/
theorem and_setMask (narrow : policy.Narrow word) : word &&& policy.setMask = word := by
  apply eq_of_getLsbD_eq
  intro index _
  rw [getLsbD_and, proper.getLsbD_setMask]
  by_cases inside : index ≤ policy.msbShift
  · simp [inside]
  · simp [narrow index (by omega)]

theorem setWidth_setWidth (narrow : policy.Narrow word) : (word.setWidth 32).setWidth 64 = word := by
  have bound := proper.msbShift_lt
  apply eq_of_getLsbD_eq
  intro index inside
  rw [getLsbD_setWidth, getLsbD_setWidth]
  by_cases low : index < 32
  · simp [low, inside]
  · simp [narrow index (by omega)]

theorem extractSet_eq (addr : Addr) (way : Nat) :
    (policy.extractSet addr way).setWidth 64 = policy.skew (addr >>> policy.setShift) way := by
  have narrow := proper.narrow_skew (addr >>> policy.setShift) way
  rw [extractSet, proper.and_setMask narrow, proper.setWidth_setWidth narrow]

theorem narrow_setWidth {set : BitVec 32} (below : set.toNat < policy.numSets.toNat) :
    policy.Narrow (set.setWidth 64) := by
  intro index above
  rw [getLsbD_setWidth]
  rw [proper.sets] at below
  have clear : set.getLsbD index = false :=
    Nat.testBit_lt_two_pow (below.trans_le (Nat.pow_le_pow_right (by decide) (by omega)))
  simp [clear]

theorem extractSet_lt (addr : Addr) (way : Nat) : (policy.extractSet addr way).toNat < policy.numSets.toNat := by
  have narrow := proper.narrow_skew (addr >>> policy.setShift) way
  rw [proper.sets]
  apply Nat.lt_pow_two_of_testBit
  intro index above
  change (policy.extractSet addr way).getLsbD index = false
  rw [extractSet, proper.and_setMask narrow, getLsbD_setWidth, narrow index above, Bool.and_false]

/-- The address of a block comes back from its tag and its skewed set. -/
theorem regenerateAddr_extractSet (addr : Addr) (way : Nat) :
    policy.regenerateAddr (policy.extractTag addr) (policy.extractSet addr way) way =
      (addr >>> policy.setShift) <<< policy.setShift := by
  have fits := proper.fits
  have shift := proper.shift
  have narrow := proper.narrow_skew (addr >>> policy.setShift) way
  have regenerated : policy.deskew (policy.extractTag addr <<< (policy.msbShift + 1) |||
      (policy.extractSet addr way).setWidth 64) way = policy.addr1 (addr >>> policy.setShift) := by
    rw [proper.extractSet_eq]
    apply proper.deskew_eq
    · refine (narrow_addr1 policy _).eq narrow ?_
      intro index inside
      rw [getLsbD_addr1 inside, getLsbD_or, getLsbD_shiftLeft]
      simp [show index < policy.msbShift + 1 by omega]
    · refine (narrow_addr2 policy _).eq (narrow_addr2 policy _) ?_
      intro index inside
      rw [getLsbD_addr2 inside, getLsbD_addr2 inside, getLsbD_or, narrow _ (by omega), Bool.or_false,
        getLsbD_shiftLeft, getLsbD_ushiftRight, extractTag, getLsbD_ushiftRight, shift,
        Nat.add_sub_cancel_left, decide_eq_true (by omega : policy.msbShift + 1 + index < 64),
        decide_eq_false (by omega : ¬ policy.msbShift + 1 + index < policy.msbShift + 1), Nat.add_assoc]
      rfl
  simp only [regenerateAddr]
  rw [regenerated, proper.and_setMask (narrow_addr1 policy _)]
  apply eq_of_getLsbD_eq
  intro index inside
  rw [getLsbD_or, getLsbD_shiftLeft, getLsbD_shiftLeft, getLsbD_shiftLeft, extractTag,
    getLsbD_ushiftRight, getLsbD_ushiftRight]
  by_cases offset : index < policy.setShift
  · simp [offset, show index < policy.tagShift by omega]
  by_cases low : index < policy.tagShift
  · rw [getLsbD_addr1 (by omega), getLsbD_ushiftRight]
    simp [low]
  · rw [narrow_addr1 policy _ _ (by omega), Nat.add_sub_cancel' (Nat.le_of_not_lt low),
      Nat.add_sub_cancel' (Nat.le_of_not_lt offset)]
    simp [low, offset, inside]

/-- The tag does not depend on the set of a block. -/
theorem extractTag_blockAddr {set : BitVec 32} (below : set.toNat < policy.numSets.toNat) (tag : Addr) :
    policy.extractTag (policy.blockAddr tag set) = (tag <<< policy.tagShift) >>> policy.tagShift := by
  have shift := proper.shift
  apply eq_of_getLsbD_eq
  intro index inside
  rw [extractTag, getLsbD_ushiftRight, getLsbD_ushiftRight, blockAddr, getLsbD_or,
    getLsbD_shiftLeft (set.setWidth 64), proper.narrow_setWidth below _ (by omega), Bool.and_false, Bool.or_false]

/-- The set of a block comes back from its address. -/
theorem getLsbD_blockAddr (tag : Addr) (set : BitVec 32) (inside : index ≤ policy.msbShift) :
    (policy.blockAddr tag set >>> policy.setShift <<< policy.setShift).getLsbD (policy.setShift + index) =
      set.getLsbD index := by
  have fits := proper.fits
  have shift := proper.shift
  rw [getLsbD_shiftLeft, getLsbD_ushiftRight, Nat.add_sub_cancel_left, blockAddr, getLsbD_or,
    getLsbD_shiftLeft, getLsbD_shiftLeft, Nat.add_sub_cancel_left, getLsbD_setWidth]
  simp [show policy.setShift + index < 64 by omega, show policy.setShift + index < policy.tagShift by omega,
    show index < 64 by omega]

theorem injOn_extractSet (tag : Addr) (way : Nat) :
    Set.InjOn (fun set => policy.extractSet (policy.blockAddr tag set) way) {set | set.toNat < policy.numSets.toNat} := by
  intro first firstBelow second secondBelow same
  have regenerated := proper.regenerateAddr_extractSet (policy.blockAddr tag first) way
  rw [proper.extractTag_blockAddr firstBelow, ← proper.extractTag_blockAddr secondBelow] at regenerated
  have again := proper.regenerateAddr_extractSet (policy.blockAddr tag second) way
  simp only at same
  rw [same, again] at regenerated
  have wide : first.setWidth 64 = second.setWidth 64 := by
    refine (proper.narrow_setWidth firstBelow).eq (proper.narrow_setWidth secondBelow) ?_
    intro index inside
    rw [getLsbD_setWidth, getLsbD_setWidth, ← proper.getLsbD_blockAddr tag first inside,
      ← proper.getLsbD_blockAddr tag second inside, regenerated]
  have values := congrArg BitVec.toNat wide
  exact eq_of_toNat_eq values

end Proper

/-- The tag, the skewed set and the way of a block determine its address, and each skewing function permutes the
sets. -/
theorem skewed_invertible {size entrySize assoc : BitVec 64} (made : construct size entrySize assoc = .ok policy) :
    (∀ (addr : Addr) (way : Nat), policy.regenerateAddr (policy.extractTag addr) (policy.extractSet addr way) way =
        (addr >>> policy.setShift) <<< policy.setShift) ∧
    ∀ (tag : Addr) (way : Nat), Set.BijOn (fun set => policy.extractSet (policy.blockAddr tag set) way)
        {set | set.toNat < policy.numSets.toNat} {set | set.toNat < policy.numSets.toNat} := by
  have proper := construct_proper made
  refine ⟨proper.regenerateAddr_extractSet, ?_⟩
  intro tag way
  have stays : Set.MapsTo (fun set => policy.extractSet (policy.blockAddr tag set) way)
      {set | set.toNat < policy.numSets.toNat} {set | set.toNat < policy.numSets.toNat} :=
    fun _ _ => proper.extractSet_lt _ way
  have finite : {set : BitVec 32 | set.toNat < policy.numSets.toNat}.Finite :=
    (Set.finite_lt_nat policy.numSets.toNat).preimage fun _ _ _ _ same => eq_of_toNat_eq same
  exact (finite.injOn_iff_bijOn_of_mapsTo stays).mp (proper.injOn_extractSet tag way)

/-- A cache of 1024 blocks of 64 bytes with four ways has 256 skewed sets. -/
theorem skewed_invertible_four : ∃ policy, construct 65536 64 4 = .ok policy ∧
    policy.regenerateAddr (policy.extractTag 0x123456789) (policy.extractSet 0x123456789 3) 3 = 0x123456780 := by
  obtain ⟨policy, made, shift⟩ : ∃ policy, construct 65536 64 4 = .ok policy ∧ policy.setShift = 6 := ⟨_, rfl, by decide⟩
  refine ⟨policy, made, ?_⟩
  rw [(skewed_invertible made).1, shift]
  decide

end SkewedAssociative
end Gem5
