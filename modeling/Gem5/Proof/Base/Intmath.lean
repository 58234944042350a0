import Gem5.Construction.Base.Intmath

namespace Gem5.Intmath
open BitVec

/-- A word below twice a shift has a bit above the shift exactly when it is that large. -/
theorem and_ne_zero_iff {value mask : BitVec 64} {shift : Nat}
    (masked : ∀ index < 64, mask.getLsbD index = decide (shift ≤ index ∧ index < 2 * shift))
    (bounded : value.toNat < 2 ^ (2 * shift)) : value &&& mask ≠ 0 ↔ 2 ^ shift ≤ value.toNat := by
  have bit : ∀ index, (value &&& mask).getLsbD index = (value.getLsbD index && decide (shift ≤ index)) := by
    intro index
    rw [getLsbD_and]
    by_cases inside : index < 64
    · rw [masked index inside]
      by_cases low : index < 2 * shift
      · simp [low]
      · have clear : value.getLsbD index = false :=
          Nat.testBit_lt_two_pow (bounded.trans_le (Nat.pow_le_pow_right (by decide) (by omega)))
        simp [clear]
    · simp [getLsbD_of_ge value index (by omega)]
  constructor
  · intro nonzero
    by_contra small
    apply nonzero
    apply eq_of_getLsbD_eq
    intro index _
    rw [bit index, ofNat_eq_ofNat, getLsbD_zero]
    by_cases high : shift ≤ index
    · have clear : value.getLsbD index = false :=
        Nat.testBit_lt_two_pow ((Nat.lt_of_not_le small).trans_le (Nat.pow_le_pow_right (by decide) high))
      simp [clear]
    · simp [high]
  · intro large zero
    obtain ⟨index, above, set⟩ := Nat.exists_ge_and_testBit_of_ge_two_pow large
    have clear := bit index
    rw [zero, ofNat_eq_ofNat, getLsbD_zero, getLsbD, set] at clear
    simp [above] at clear

/-- The state of the search has a part of the logarithm and the bits that are left. -/
structure Searching (x : BitVec 64) (width : Nat) (state : Nat × BitVec 64) : Prop where
  nonzero : 0 < state.2.toNat
  bounded : state.2.toNat < 2 ^ width
  total : state.1 + Nat.log 2 state.2.toNat = Nat.log 2 x.toNat

theorem Searching.step {x : BitVec 64} {state : Nat × BitVec 64} (mask : BitVec 64) (shift : Nat)
    (held : Searching x (2 * shift) state)
    (masked : ∀ index < 64, mask.getLsbD index = decide (shift ≤ index ∧ index < 2 * shift)) :
    Searching x shift (floorLog2Step mask shift state) := by
  unfold floorLog2Step
  split
  · rename_i set
    have large := (and_ne_zero_iff masked held.bounded).mp set
    have shifted : (state.2 >>> shift).toNat = state.2.toNat / 2 ^ shift := by
      rw [toNat_ushiftRight, Nat.shiftRight_eq_div_pow]
    refine ⟨?_, ?_, ?_⟩
    · rw [shifted]
      exact Nat.div_pos large (Nat.two_pow_pos shift)
    · rw [shifted]
      apply Nat.div_lt_of_lt_mul
      rw [← Nat.pow_add, ← Nat.two_mul]
      exact held.bounded
    · have atLeast : shift ≤ Nat.log 2 state.2.toNat := Nat.le_log_of_pow_le (by decide) large
      have total := held.total
      simp only [shifted, Nat.log_div_base_pow]
      omega
  · rename_i clear
    refine { held with bounded := ?_ }
    by_contra large
    exact clear ((and_ne_zero_iff masked held.bounded).mpr (Nat.le_of_not_lt large))

theorem floorLog2_eq {x : BitVec 64} (positive : 0 < x.toNat) : floorLog2 x = Nat.log 2 x.toNat := by
  have start : Searching x (2 * 32) (0, x) := ⟨positive, x.isLt, Nat.zero_add _⟩
  have below32 := start.step 0xffffffff00000000 32 (by decide)
  have below16 := below32.step 0xffff0000 16 (by decide)
  have below8 := below16.step 0xff00 8 (by decide)
  have below4 := below8.step 0xf0 4 (by decide)
  have below2 := below4.step 0xc 2 (by decide)
  have done := below2.step 0x2 1 (by decide)
  have total := done.total
  rw [Nat.log_of_lt (show _ < 2 from done.bounded), Nat.add_zero] at total
  exact total

theorem eq_two_pow_of_isPowerOf2 {n : BitVec 64} (power : isPowerOf2 n = true) : n.toNat = 2 ^ Nat.log 2 n.toNat := by
  obtain ⟨nonzero, clear⟩ : n ≠ 0 ∧ n &&& (n - 1) = 0 := by simpa [isPowerOf2] using power
  have positive : n.toNat ≠ 0 := fun zero => nonzero (eq_of_toNat_eq zero)
  have least : 2 ^ Nat.log 2 n.toNat ≤ n.toNat := Nat.pow_log_le_self 2 positive
  have below : n.toNat < 2 ^ (Nat.log 2 n.toNat + 1) := Nat.lt_pow_succ_log_self (by decide) n.toNat
  by_contra different
  have previous : (n - 1).toNat = n.toNat - 1 := by
    rw [toNat_sub_of_le (by simpa [le_def] using Nat.one_le_iff_ne_zero.mpr positive)]
    rfl
  have highest : n.toNat.testBit (Nat.log 2 n.toNat) = true :=
    Nat.testBit_of_two_pow_le_and_two_pow_add_one_gt least below
  have second : (n - 1).toNat.testBit (Nat.log 2 n.toNat) = true := by
    rw [previous]
    exact Nat.testBit_of_two_pow_le_and_two_pow_add_one_gt (by omega) (by omega)
  have both : (n &&& (n - 1)).getLsbD (Nat.log 2 n.toNat) = true := by
    rw [getLsbD_and, getLsbD, getLsbD, highest, second]
    rfl
  rw [clear] at both
  simp at both

theorem toNat_lowHalf (value : BitVec 64) : (lowHalf value).toNat = value.toNat % 2 ^ 32 := by
  simp only [lowHalf, toNat_setWidth]
  omega

theorem toNat_highHalf (value : BitVec 64) : (highHalf value).toNat = value.toNat / 2 ^ 32 := by
  rw [highHalf, toNat_lowHalf, toNat_ushiftRight, Nat.shiftRight_eq_div_pow]
  omega

theorem toNat_mul_halves {left right : BitVec 64} (low : left.toNat < 2 ^ 32) (narrow : right.toNat < 2 ^ 32) :
    (left * right).toNat = left.toNat * right.toNat ∧ left.toNat * right.toNat ≤ (2 ^ 32 - 1) * (2 ^ 32 - 1) := by
  have bound : left.toNat * right.toNat ≤ (2 ^ 32 - 1) * (2 ^ 32 - 1) := Nat.mul_le_mul (by omega) (by omega)
  exact ⟨by rw [toNat_mul]; omega, bound⟩

theorem toNat_halfCarry {c1 hiLo loHi : BitVec 64} (carried : c1.toNat < 2 ^ 32)
    (first : hiLo.toNat ≤ (2 ^ 32 - 1) * (2 ^ 32 - 1)) (second : loHi.toNat ≤ (2 ^ 32 - 1) * (2 ^ 32 - 1)) :
    (halfCarry c1 hiLo loHi).toNat = (c1.toNat + hiLo.toNat + loHi.toNat) / 2 := by
  have lowest (value : BitVec 64) : (value &&& 1).toNat = value.toNat % 2 := by
    rw [toNat_and]
    exact Nat.and_one_is_mod _
  simp only [halfCarry, toNat_add, toNat_ushiftRight, lowest, Nat.shiftRight_eq_div_pow]
  omega

/-- The high word of the product receives the whole carry. -/
theorem mulUnsignedManual_exact (valA valB : BitVec 64) :
    let c1 := highHalf (lowHalf valA * lowHalf valB)
    let c2 := halfCarry c1 (highHalf valA * lowHalf valB) (lowHalf valA * highHalf valB)
    let product := mulUnsignedManual valA valB
    c2.toNat = (c1.toNat + (highHalf valA * lowHalf valB).toNat + (lowHalf valA * highHalf valB).toNat) / 2 ∧
      product.1.toNat = (highHalf valA * highHalf valB).toNat + c2.toNat / 2 ^ 31 ∧
      product.1.toNat * 2 ^ 64 + product.2.toNat = valA.toNat * valB.toNat := by
  have lowA : (lowHalf valA).toNat < 2 ^ 32 := by rw [toNat_lowHalf]; omega
  have lowB : (lowHalf valB).toNat < 2 ^ 32 := by rw [toNat_lowHalf]; omega
  have highA : (highHalf valA).toNat < 2 ^ 32 := by rw [toNat_highHalf]; omega
  have highB : (highHalf valB).toNat < 2 ^ 32 := by rw [toNat_highHalf]; omega
  obtain ⟨lowLow, lowLowBound⟩ := toNat_mul_halves lowA lowB
  obtain ⟨highLow, highLowBound⟩ := toNat_mul_halves highA lowB
  obtain ⟨lowHigh, lowHighBound⟩ := toNat_mul_halves lowA highB
  obtain ⟨highHigh, highHighBound⟩ := toNat_mul_halves highA highB
  have carried := toNat_highHalf (lowHalf valA * lowHalf valB)
  have carry := toNat_halfCarry (by omega : (highHalf (lowHalf valA * lowHalf valB)).toNat < 2 ^ 32)
    (highLow.trans_le highLowBound) (lowHigh.trans_le lowHighBound)
  have product : valA.toNat * valB.toNat = (highHalf valA).toNat * (highHalf valB).toNat * 2 ^ 64 +
      ((highHalf valA).toNat * (lowHalf valB).toNat + (lowHalf valA).toNat * (highHalf valB).toNat) * 2 ^ 32 +
      (lowHalf valA).toNat * (lowHalf valB).toNat := by
    simp only [toNat_highHalf, toNat_lowHalf]
    conv_lhs => rw [← Nat.div_add_mod valA.toNat (2 ^ 32), ← Nat.div_add_mod valB.toNat (2 ^ 32)]
    ring
  refine ⟨carry, ?_, ?_⟩
  · rw [mulUnsignedManual, toNat_add, toNat_ushiftRight, Nat.shiftRight_eq_div_pow]
    omega
  · rw [mulUnsignedManual, toNat_add, toNat_ushiftRight, Nat.shiftRight_eq_div_pow, toNat_mul valA]
    omega

theorem mulUnsigned_exact (int128 : Bool) (valA valB : BitVec 64) :
    (mulUnsigned int128 valA valB).1.toNat * 2 ^ 64 + (mulUnsigned int128 valA valB).2.toNat =
      valA.toNat * valB.toNat := by
  cases int128 with
  | false => exact (mulUnsignedManual_exact valA valB).2.2
  | true =>
    have bound : valA.toNat * valB.toNat < 2 ^ 64 * 2 ^ 64 := Nat.mul_lt_mul'' valA.isLt valB.isLt
    have wide (value : BitVec 64) : value.toNat % 2 ^ 128 = value.toNat := Nat.mod_eq_of_lt (by omega)
    simp only [mulUnsigned, if_true, toNat_setWidth, toNat_ushiftRight, Nat.shiftRight_eq_div_pow, toNat_mul, wide]
    omega

/-- The corrected high word and the low word are the signed product. -/
theorem mulSignedManual_exact (int128 : Bool) (valA valB : BitVec 64) :
    (mulSignedManual int128 valA valB).1.toInt * 2 ^ 64 + (mulSignedManual int128 valA valB).2.toNat =
      valA.toInt * valB.toInt := by
  have unsigned := mulUnsigned_exact int128 valA valB
  have bound : valA.toInt.natAbs * valB.toInt.natAbs ≤ 2 ^ 63 * 2 ^ 63 := by
    have limits (value : BitVec 64) : value.toInt.natAbs ≤ 2 ^ 63 := by
      have upper := value.toInt_lt
      have lower := value.le_toInt
      omega
    exact Nat.mul_le_mul (limits valA) (limits valB)
  have signed (value : BitVec 64) : value.toInt = value.toNat - 2 ^ 64 * (value.slt 0).toNat := by
    rw [show value.slt 0 = value.msb from slt_zero_eq_msb, toInt_eq_msb_cond]
    cases value.msb <;> simp
  have product : valA.toInt * valB.toInt = valA.toNat * valB.toNat - 2 ^ 64 * ((valA.slt 0).toNat * valB.toNat +
      (valB.slt 0).toNat * valA.toNat) + 2 ^ 128 * ((valA.slt 0).toNat * (valB.slt 0).toNat) := by
    rw [signed, signed]
    ring
  rw [← Int.natAbs_mul, product] at bound
  rw [product, mulSignedManual]
  clear product signed
  generalize valA.slt 0 = negA at *
  generalize valB.slt 0 = negB at *
  cases negA <;> cases negB <;> simp [toInt_eq_toNat_cond] at bound ⊢ <;> omega

/-- The manual multiplications lose no carry and return the words of the exact product. -/
theorem mulManual_exact (int128 : Bool) (valA valB : BitVec 64) :
    (mulUnsignedManual valA valB).1.toNat * 2 ^ 64 + (mulUnsignedManual valA valB).2.toNat = valA.toNat * valB.toNat ∧
      (mulSignedManual int128 valA valB).1.toInt * 2 ^ 64 + (mulSignedManual int128 valA valB).2.toNat =
        valA.toInt * valB.toInt ∧
      let c1 := highHalf (lowHalf valA * lowHalf valB)
      let c2 := halfCarry c1 (highHalf valA * lowHalf valB) (lowHalf valA * highHalf valB)
      c2.toNat = (c1.toNat + (highHalf valA * lowHalf valB).toNat + (lowHalf valA * highHalf valB).toNat) / 2 ∧
        (mulUnsignedManual valA valB).1.toNat = (highHalf valA * highHalf valB).toNat + c2.toNat / 2 ^ 31 :=
  have exact := mulUnsignedManual_exact valA valB
  ⟨exact.2.2, mulSignedManual_exact int128 valA valB, exact.1, exact.2.1⟩

end Gem5.Intmath
