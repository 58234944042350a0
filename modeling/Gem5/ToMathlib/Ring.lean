import Mathlib

namespace Gem5.ToMathlib
variable {T : Type*} {size : Nat}

/-- This function overwrites consecutive entries of a vector. -/
def copyInto (buffer : Vector T size) (position : Nat) (data : List T) : Vector T size :=
  Vector.ofFn fun index =>
    if position ≤ index.val then (data[index.val - position]?).getD (buffer.get index) else buffer.get index

/-- This function reads consecutive entries of a vector. -/
def copyFrom (buffer : Vector T size) (position count : Nat) : List T := (buffer.toList.drop position).take count

/-- This function overwrites entries of a ring and continues at its front behind the last entry. -/
def writeRing (buffer : Vector T size) (position : Nat) (data : List T) : Vector T size :=
  if size - position < data.length then
    copyInto (copyInto buffer position (data.take (size - position))) 0 (data.drop (size - position))
  else copyInto buffer position data

/-- This function reads entries of a ring and continues at its front behind the last entry. -/
def readRing (buffer : Vector T size) (position count : Nat) : List T :=
  if size - position < count then
    copyFrom buffer position (size - position) ++ copyFrom buffer 0 (count - (size - position))
  else copyFrom buffer position count

variable {buffer : Vector T size} {position count index : Nat} {data : List T}

theorem getElem?_copyInto : (copyInto buffer position data)[index]? =
    if position ≤ index ∧ index < position + data.length ∧ index < size then data[index - position]?
    else buffer[index]? := by
  unfold copyInto
  by_cases inside : index < size
  · rw [Vector.getElem?_eq_getElem inside, Vector.getElem?_eq_getElem inside, Vector.getElem_ofFn]
    by_cases behind : position ≤ index
    · by_cases last : index < position + data.length
      · have here : index - position < data.length := by omega
        rw [if_pos behind, if_pos ⟨behind, last, inside⟩, List.getElem?_eq_getElem here]
        rfl
      · have beyond : data.length ≤ index - position := by omega
        rw [if_pos behind, if_neg (by omega), List.getElem?_eq_none beyond]
        rfl
    · rw [if_neg behind, if_neg (by omega)]
      rfl
  · rw [Vector.getElem?_eq_none (by omega), Vector.getElem?_eq_none (by omega), if_neg (by omega)]

theorem getElem?_copyFrom : (copyFrom buffer position count)[index]? =
    if index < count then buffer[position + index]? else none := by
  unfold copyFrom
  rw [List.getElem?_take]
  split
  · rw [List.getElem?_drop, Vector.getElem?_toList]
  · rfl

theorem length_copyFrom (inside : position + count ≤ size) : (copyFrom buffer position count).length = count := by
  unfold copyFrom
  rw [List.length_take, List.length_drop, Vector.length_toList]
  omega

section
variable (start : position < size)
include start

/-- An entry of a ring lies at the position of its distance from the front. -/
theorem add_mod_ring (inside : index < size) :
    (position + index) % size = if position + index < size then position + index else position + index - size := by
  split
  · rename_i before
    exact Nat.mod_eq_of_lt before
  · rename_i behind
    rw [Nat.mod_eq_sub_mod (Nat.le_of_not_lt behind), Nat.mod_eq_of_lt (by omega)]

theorem getElem?_writeRing (fits : data.length ≤ size) (inside : index < data.length) :
    (writeRing buffer position data)[(position + index) % size]? = data[index]? := by
  rw [add_mod_ring start (by omega)]
  unfold writeRing
  split
  · rename_i wraps
    rw [getElem?_copyInto, getElem?_copyInto, List.length_drop, List.length_take]
    split
    · rename_i before
      rw [if_neg (by omega), if_pos (by omega), List.getElem?_take, if_pos (by omega)]
      congr 1
      omega
    · rw [if_pos (by omega), List.getElem?_drop]
      congr 1
      omega
  · rw [if_pos (by omega), getElem?_copyInto, if_pos (by omega)]
    congr 1
    omega

/-- The entries behind the data are kept. -/
theorem getElem?_writeRing_kept (behind : data.length ≤ index) (inside : index < size) :
    (writeRing buffer position data)[(position + index) % size]? = buffer[(position + index) % size]? := by
  rw [add_mod_ring start inside]
  unfold writeRing
  split
  · rename_i wraps
    rw [getElem?_copyInto, getElem?_copyInto, List.length_drop, List.length_take]
    split <;> rw [if_neg (by omega), if_neg (by omega)]
  · rw [getElem?_copyInto]
    split <;> rw [if_neg (by omega)]

theorem getElem?_readRing (fits : count ≤ size) (inside : index < count) :
    (readRing buffer position count)[index]? = buffer[(position + index) % size]? := by
  rw [add_mod_ring start (by omega)]
  unfold readRing
  split
  · rename_i wraps
    rw [List.getElem?_append, length_copyFrom (by omega), getElem?_copyFrom, getElem?_copyFrom]
    split
    · rw [if_pos (by omega)]
    · rw [if_pos (by omega), if_neg (by omega)]
      congr 1
      omega
  · rw [if_pos (by omega), getElem?_copyFrom, if_pos inside]

theorem length_readRing (fits : count ≤ size) : (readRing buffer position count).length = count := by
  unfold readRing
  split
  · rw [List.length_append, length_copyFrom (by omega), length_copyFrom (by omega)]
    omega
  · exact length_copyFrom (by omega)

end

end Gem5.ToMathlib
