import Mathlib

namespace Gem5.ToMathlib.Folding
open BitVec
variable {width length : Nat} {value : Bool} {place : Nat}

/-- This word holds one bit at a place. -/
def single (width : Nat) (value : Bool) (place : Nat) : BitVec width := (ofBool value).setWidth width <<< place

/-- This function places the first `count` bits of a sequence around a ring of `length` places. -/
def fold (width length : Nat) (bits : Nat → Bool) : Nat → BitVec width
  | 0 => 0
  | count + 1 => fold width length bits count ^^^ single width (bits count) (count % length)

/-- This function moves the bits past the ring to its start. -/
def wrap (length : Nat) (word : BitVec width) : BitVec width :=
  (word ^^^ (word >>> length)) &&& (allOnes length).setWidth width

theorem getLsbD_single {index : Nat} :
    (single width value place).getLsbD index = (decide (index < width) && decide (index = place) && value) := by
  unfold single
  rw [getLsbD_shiftLeft, getLsbD_setWidth]
  by_cases below : index < place
  · simp [below, Nat.ne_of_lt below]
  · by_cases same : index = place
    · subst same
      by_cases inside : index < width
      · simp [inside, Nat.zero_lt_of_lt inside]
      · simp [inside]
    · have positive : index - place ≠ 0 := by omega
      simp [same, positive, getLsbD_ofBool]

theorem wrap_xor {first second : BitVec width} :
    wrap length (first ^^^ second) = wrap length first ^^^ wrap length second := by
  apply eq_of_getLsbD_eq
  intro index _
  simp only [wrap, getLsbD_and, getLsbD_xor, getLsbD_ushiftRight]
  cases first.getLsbD index <;> cases second.getLsbD index <;> cases first.getLsbD (length + index) <;>
    cases second.getLsbD (length + index) <;> simp

theorem wrap_single (inside : place < length) : wrap length (single width value place) = single width value place := by
  apply eq_of_getLsbD_eq
  intro index _
  simp only [wrap, getLsbD_and, getLsbD_xor, getLsbD_ushiftRight, getLsbD_single, getLsbD_setWidth, getLsbD_allOnes]
  by_cases same : index = place
  · subst same
    have positive : length ≠ 0 := by omega
    simp [positive, inside]
    tauto
  · have past : ¬length + index = place := by omega
    simp [past, same]

/-- A bit that moves one place further moves around the ring. -/
theorem wrap_single_shift (inside : place < length) (room : length < width) :
    wrap length (single width value place <<< 1) = single width value ((place + 1) % length) := by
  apply eq_of_getLsbD_eq
  intro index _
  have shifted : single width value place <<< 1 = single width value (place + 1) := by
    unfold single
    rw [← shiftLeft_add]
  rw [shifted]
  by_cases last : place + 1 < length
  · rw [wrap_single last, Nat.mod_eq_of_lt last]
  have ends : place + 1 = length := by omega
  rw [ends, Nat.mod_self]
  simp only [wrap, getLsbD_and, getLsbD_xor, getLsbD_ushiftRight, getLsbD_single, getLsbD_setWidth, getLsbD_allOnes]
  by_cases first : index = 0
  · subst first
    have positive : 0 < length := by omega
    simp [positive, Nat.ne_of_lt positive, room, Nat.lt_trans positive room]
  · by_cases inRing : index < length
    · simp [first, Nat.ne_of_lt inRing]
    · simp [first, inRing]

/-- A shift of the folded word and a new first bit fold the longer sequence. -/
theorem wrap_fold_shift {bits : Nat → Bool} {count : Nat} (positive : 0 < length) (room : length < width) :
    wrap length (fold width length (fun index => bits (index + 1)) count <<< 1) ^^^ single width (bits 0) 0 =
      fold width length bits (count + 1) := by
  induction count with
  | zero =>
    simp [fold, wrap]
  | succ count ih =>
    rw [fold, shiftLeft_xor_distrib, wrap_xor, wrap_single_shift (Nat.mod_lt _ positive) room, fold, ← ih]
    rw [Nat.mod_add_mod]
    ac_rfl

/-- The last bit leaves the folded word. -/
theorem fold_single_cancel {bits : Nat → Bool} {count : Nat} :
    fold width length bits (count + 1) ^^^ single width (bits count) (count % length) = fold width length bits count := by
  rw [fold, BitVec.xor_assoc, BitVec.xor_self, BitVec.xor_zero]

end Gem5.ToMathlib.Folding
