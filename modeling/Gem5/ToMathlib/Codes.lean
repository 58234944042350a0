import Mathlib

namespace Gem5.ToMathlib
open Function List

/-- This function reads a string of bits as a number with the highest bit first. -/
def number (bits : List Bool) : Nat := bits.foldl (fun value bit => 2 * value + bit.toNat) 0

/-- This function drops the leading zeros of a string of bits. -/
def strip (bits : List Bool) : List Bool := bits.dropWhile (! ·)

section Numbers
variable {bits other : List Bool} {bit : Bool}

@[simp] theorem number_nil : number [] = 0 := rfl

@[simp] theorem number_concat : number (bits ++ [bit]) = 2 * number bits + bit.toNat := by
  simp [number, foldl_append]

theorem number_lt (bits : List Bool) : number bits < 2 ^ bits.length := by
  induction bits using reverseRecOn with
  | nil => decide
  | append_singleton bits bit ih =>
    have small : bit.toNat ≤ 1 := Bool.toNat_le bit
    rw [number_concat, length_append, length_singleton, pow_succ]
    omega

/-- The bits of the number are the bits of the string. -/
theorem testBit_number (bits : List Bool) {index : Nat} (inside : index < bits.length) :
    (number bits).testBit (bits.length - 1 - index) = bits[index] := by
  induction bits using reverseRecOn with
  | nil => simp at inside
  | append_singleton bits bit ih =>
    rw [length_append, length_singleton] at inside
    simp only [number_concat, length_append, length_singleton, Nat.add_sub_cancel]
    by_cases last : index = bits.length
    · subst last
      rw [Nat.sub_self, getElem_concat_length rfl]
      cases bit <;> simp [Nat.testBit_zero]
    · have before : index < bits.length := by omega
      have half : (2 * number bits + bit.toNat) / 2 = number bits := by
        have small : bit.toNat ≤ 1 := Bool.toNat_le bit
        omega
      rw [show bits.length - index = bits.length - 1 - index + 1 by omega, Nat.testBit_succ, half, ih before,
        getElem_append_left before]

theorem number_strip (bits : List Bool) : number (strip bits) = number bits := by
  induction bits with
  | nil => rfl
  | cons bit rest ih =>
    cases bit with
    | true => rfl
    | false => exact ih

theorem strip_concat : strip (bits ++ [bit]) = if strip bits = [] ∧ bit = false then [] else strip bits ++ [bit] := by
  unfold strip
  rw [dropWhile_append]
  cases found : bits.dropWhile (! ·) with
  | nil => cases bit <;> simp
  | cons first rest => simp

/-- Two strings write the same number exactly when they agree after their leading zeros. -/
theorem number_eq_iff : number bits = number other ↔ strip bits = strip other := by
  constructor
  · intro same
    induction bits using reverseRecOn generalizing other with
    | nil =>
      induction other using reverseRecOn with
      | nil => rfl
      | append_singleton other last ih =>
        rw [number_concat, number_nil] at same
        have zero : number other = 0 := by omega
        have off : last = false := by
          cases last with
          | false => rfl
          | true => simp at same
        have rest := ih zero.symm
        rw [strip_concat, if_pos ⟨rest.symm, off⟩]
        rfl
    | append_singleton bits bit ih =>
      induction other using reverseRecOn with
      | nil =>
        rw [number_concat, number_nil] at same
        have zero : number bits = number [] := by
          rw [number_nil]
          omega
        have off : bit = false := by
          cases bit with
          | false => rfl
          | true => simp at same
        rw [strip_concat, if_pos ⟨ih zero, off⟩]
        rfl
      | append_singleton other last _ =>
        rw [number_concat, number_concat] at same
        have lastSmall : last.toNat ≤ 1 := Bool.toNat_le last
        have bitSmall : bit.toNat ≤ 1 := Bool.toNat_le bit
        have front : number bits = number other := by omega
        have final : bit = last := by
          have equal : bit.toNat = last.toNat := by omega
          cases bit <;> cases last <;> simp_all
        rw [strip_concat, strip_concat, ih front, final]
  · intro same
    rw [← number_strip bits, same, number_strip]

end Numbers

section Tables
variable {Item Key Value : Type*} [DecidableEq Key] (key : Item → Key) (value : Item → Value)

/-- This loop enters the value of each item under its key. -/
def fill : List Item → (Key → Option Value) → Key → Option Value
  | [], table => table
  | item :: rest, table => fill rest (update table (key item) (some (value item)))

variable {key value} {items : List Item} {table : Key → Option Value} {item : Item} {found : Value} {place : Key}

theorem fill_append (first second : List Item) (table : Key → Option Value) :
    fill key value (first ++ second) table = fill key value second (fill key value first table) := by
  induction first generalizing table with
  | nil => rfl
  | cons item rest ih => exact ih _

/-- An entry of a filled table comes from an item or was there before. -/
theorem fill_cases (entry : fill key value items table place = some found) :
    (∃ item ∈ items, key item = place ∧ value item = found) ∨ table place = some found := by
  induction items generalizing table with
  | nil => exact .inr entry
  | cons first rest ih =>
    rcases ih entry with ⟨item, member, same⟩ | before
    · exact .inl ⟨item, mem_cons_of_mem _ member, same⟩
    · by_cases here : place = key first
      · subst here
        rw [update_self] at before
        exact .inl ⟨first, mem_cons_self, rfl, Option.some.inj before⟩
      · rw [update_of_ne here] at before
        exact .inr before

theorem fill_isSome_of_table (present : (table place).isSome) : (fill key value items table place).isSome := by
  induction items generalizing table with
  | nil => exact present
  | cons first rest ih =>
    apply ih
    by_cases here : place = key first
    · rw [here, update_self]
      rfl
    · rwa [update_of_ne here]

theorem fill_isSome (member : item ∈ items) : (fill key value items table (key item)).isSome := by
  induction items generalizing table with
  | nil => simp at member
  | cons first rest ih =>
    rcases mem_cons.mp member with rfl | later
    · rw [fill]
      apply fill_isSome_of_table
      rw [update_self]
      rfl
    · exact ih later

end Tables
end Gem5.ToMathlib
