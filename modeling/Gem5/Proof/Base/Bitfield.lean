import Gem5.ToMathlib.Bits
import Gem5.Construction.Base.Bitfield

namespace Gem5.Bitfield
variable {val : BitVec 64} {first index : Nat}
open ToMathlib BitVec List

theorem getLsbD_mask (nbits index : Nat) : (mask nbits).getLsbD index = decide (index < nbits ∧ index < 64) := by
  unfold mask
  split
  · rename_i wide
    have all : (-1 : BitVec 64) = allOnes 64 := by decide
    rw [all, getLsbD_allOnes]
    apply decide_eq_decide.mpr
    omega
  · rename_i narrow
    have power : ((1 : BitVec 64) <<< nbits).toNat = 2 ^ nbits := toNat_twoPow_of_lt (by omega)
    have positive : 0 < 2 ^ nbits := Nat.two_pow_pos nbits
    have value : ((1 : BitVec 64) <<< nbits - 1).toNat = 2 ^ nbits - 1 := by
      rw [toNat_sub_of_le (le_def.mpr (power ▸ positive)), power]
      rfl
    rw [getLsbD, value, Nat.testBit_two_pow_sub_one]
    apply decide_eq_decide.mpr
    omega

theorem getLsbD_insertBits {bitVal : BitVec 64} {last : Nat} (ordered : last ≤ first) (inside : index < 64) :
    (insertBits val first last ordered bitVal).getLsbD index =
      if last ≤ index ∧ index < (first + 1) % 2 ^ 32 then bitVal.getLsbD (index - last) else val.getLsbD index := by
  simp only [insertBits, maskBetween, getLsbD_or, getLsbD_and, getLsbD_not,
    getLsbD_shiftLeft, getLsbD_mask, inside, and_true, decide_true, Bool.true_and]
  generalize (first + 1) % 2 ^ 32 = limit
  by_cases low : index < last
  · simp [low]
  · by_cases high : index < limit
    · simp [low, high, Nat.le_of_not_lt low]
    · simp [low, high]

theorem getLsbD_bits {last : Nat} (ordered : last ≤ first) : (bits val first last ordered).getLsbD index =
      (val.getLsbD (last + index) && decide (index < first - last + 1)) := by
  rw [bits, getLsbD_and, getLsbD_ushiftRight, getLsbD_mask]
  by_cases inside : index < 64
  · simp [inside]
  · simp [getLsbD_of_ge val (last + index) (by omega)]

theorem getLsbD_mbits : (mbits val first 0).getLsbD index = (val.getLsbD index && decide (index < first + 1)) := by
  rw [mbits, getLsbD_and, getLsbD_and, getLsbD_not, getLsbD_mask, getLsbD_mask]
  by_cases inside : index < 64
  · simp only [inside, decide_true, Nat.not_lt_zero, decide_false, Bool.not_false, and_true,
      Bool.and_true]
  · simp [getLsbD_of_ge val index (by omega)]

section Lowest
variable {value : BitVec 64}

theorem ctz64_lt (nonzero : value ≠ 0) : ctz64 value < 64 ∧ value.getLsbD (ctz64 value) = true := by
  unfold ctz64
  cases found : (range 64).find? value.getLsbD with
  | some index =>
    have member := mem_of_find?_eq_some found
    have holds := find?_some found
    exact ⟨mem_range.mp member, holds⟩
  | none =>
    rw [find?_eq_none] at found
    exfalso
    apply nonzero
    apply eq_of_getLsbD_eq
    intro index inside
    simpa using found index (mem_range.mpr inside)

theorem getLsbD_of_lt_ctz64 {index : Nat} (below : index < ctz64 value) : value.getLsbD index = false := by
  unfold ctz64 at below
  cases found : (range 64).find? value.getLsbD with
  | some first =>
    rw [found, Option.getD_some] at below
    rw [find?_range_eq_some] at found
    simpa using found.2.2 index below
  | none =>
    rw [found, Option.getD_none] at below
    rw [find?_eq_none] at found
    simpa using found index (mem_range.mpr below)

/-- The lowest bit is the only one that is set with nothing below it. -/
theorem ctz64_eq {index : Nat} (set : value.getLsbD index = true)
    (below : ∀ lower, lower < index → value.getLsbD lower = false) : ctz64 value = index := by
  have nonzero : value ≠ 0 := by
    rintro rfl
    simp at set
  obtain ⟨_, holds⟩ := ctz64_lt nonzero
  rcases Nat.lt_trichotomy (ctz64 value) index with less | equal | greater
  · rw [below _ less] at holds
    cases holds
  · exact equal
  · rw [getLsbD_of_lt_ctz64 greater] at set
    cases set

end Lowest

theorem popCount_zero : popCount 0 = 0 := by
  decide

/-- Words that agree on a mask have the same number of set bits in it. -/
theorem popCount_congr {left right mask : BitVec 64}
    (agree : ∀ index, mask.getLsbD index = true → left.getLsbD index = right.getLsbD index) :
    popCount (left &&& mask) = popCount (right &&& mask) := by
  have same : left &&& mask = right &&& mask := by
    apply eq_of_getLsbD_eq
    intro index _
    rw [getLsbD_and, getLsbD_and]
    cases set : mask.getLsbD index with
    | false => simp
    | true => rw [agree index set]
  rw [same]

/-- Words that differ in one bit have set bits whose numbers differ by one. -/
theorem popCount_of_differ {left right : BitVec 64} {place : Nat} (inside : place < 64)
    (agree : ∀ index, index ≠ place → left.getLsbD index = right.getLsbD index) (holds : left.getLsbD place = true)
    (fails : right.getLsbD place = false) : popCount left = popCount right + 1 :=
  (countP_add_one_of_eq nodup_range (mem_range.mpr inside) (fun index _ other => (agree index other).symm) holds
    fails).symm

theorem szext_eq {nbits : Nat} (positive : 0 < nbits) (fits : nbits ≤ 64) (val : BitVec 64) :
    szext nbits val = (val.truncate nbits).signExtend 64 := by
  apply eq_of_getLsbD_eq
  intro index inside
  have top : (val.truncate nbits).msb = val.getLsbD (nbits - 1) := by
    rw [msb_eq_getLsbD_last, truncate_eq_setWidth, getLsbD_setWidth,
      decide_eq_true (by omega : nbits - 1 < nbits), Bool.true_and]
  rw [getLsbD_signExtend, top, szext, truncate_eq_setWidth, getLsbD_setWidth]
  by_cases low : index < nbits
  · split <;> simp only [getLsbD_or, getLsbD_and, getLsbD_not, getLsbD_mask] <;> simp [low, inside]
  · split
    · rename_i negative
      simp only [getLsbD_or, getLsbD_not, getLsbD_mask]
      simp [low, inside, negative]
    · rename_i positive
      simp only [getLsbD_and, getLsbD_mask]
      simp [low, positive]

/-- A value without bits past the sign needs no clearing. -/
theorem sext_eq_szext {nbits : Nat} (clear : val &&& mask nbits = val) : sext nbits val = szext nbits val := by
  rw [sext, szext, clear]

end Gem5.Bitfield
