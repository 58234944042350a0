import Mathlib

namespace Gem5.ToMathlib
open List
variable {index : Nat} {positions : List Nat}

/-- This function enumerates the positions other than one. -/
def skip (position index : Nat) : Nat := if index < position then index else index + 1

theorem skip_strictMono (position : Nat) : StrictMono (skip position) := by
  intro left right less
  unfold skip
  split <;> split <;> omega

theorem mem_range_skip {position : Nat} : index ∈ Set.range (skip position) ↔ index ≠ position := by
  constructor
  · rintro ⟨source, rfl⟩
    unfold skip
    split <;> omega
  · intro different
    by_cases below : index < position
    · exact ⟨index, by simp [skip, below]⟩
    · refine ⟨index - 1, ?_⟩
      unfold skip
      split <;> omega

/-- This function enumerates the positions outside a sorted list that is lowered by one for each earlier position. -/
def skipLowered : Nat → List Nat → Nat → Nat
  | _, [], index => index
  | lowered, position :: rest, index => skip (position - lowered) (skipLowered (lowered + 1) rest index)

/-- This function enumerates the positions outside a sorted list from its last position on. -/
def skipAll : List Nat → Nat → Nat
  | [], index => index
  | position :: rest, index => skipAll rest (skip position index)

theorem skipLowered_strictMono (lowered : Nat) (positions : List Nat) : StrictMono (skipLowered lowered positions) := by
  induction positions generalizing lowered with
  | nil => exact strictMono_id
  | cons position rest ih => exact (skip_strictMono _).comp (ih (lowered + 1))

theorem skipAll_strictMono (positions : List Nat) : StrictMono (skipAll positions) := by
  induction positions with
  | nil => exact strictMono_id
  | cons position rest ih => exact ih.comp (skip_strictMono position)

/-- The lowered enumeration reaches the positions that are not in the list. -/
theorem mem_range_skipLowered {lowered : Nat} (sorted : positions.Pairwise (· < ·))
    (above : ∀ position ∈ positions, lowered ≤ position) :
    index ∈ Set.range (skipLowered lowered positions) ↔ index + lowered ∉ positions := by
  induction positions generalizing lowered index with
  | nil => simp [skipLowered]
  | cons position rest ih =>
    rw [pairwise_cons] at sorted
    obtain ⟨first, sortedRest⟩ := sorted
    have start : lowered ≤ position := above position mem_cons_self
    have aboveRest : ∀ later ∈ rest, lowered + 1 ≤ later := by
      intro later member
      have larger := first later member
      omega
    have reached : ∀ {index}, index ∈ Set.range (skipLowered (lowered + 1) rest) ↔ index + (lowered + 1) ∉ rest :=
      ih sortedRest aboveRest
    constructor
    · rintro ⟨source, rfl⟩ member
      have outside := reached.mp ⟨source, rfl⟩
      simp only [skipLowered] at member
      generalize skipLowered (lowered + 1) rest source = value at outside member
      rw [mem_cons] at member
      unfold skip at member
      split at member
      · rcases member with equal | member
        · omega
        · have larger := first _ member
          omega
      · rcases member with equal | member
        · omega
        · apply outside
          rwa [show value + (lowered + 1) = value + 1 + lowered by omega]
    · intro outside
      rw [mem_cons, not_or] at outside
      obtain ⟨different, outside⟩ := outside
      have other : index ≠ position - lowered := by omega
      obtain ⟨middle, rfl⟩ := mem_range_skip.mpr other
      suffices found : middle ∈ Set.range (skipLowered (lowered + 1) rest) by
        obtain ⟨source, rfl⟩ := found
        exact ⟨source, rfl⟩
      rw [reached]
      intro member
      unfold skip at outside
      split at outside
      · have larger := first _ member
        omega
      · apply outside
        rwa [show middle + 1 + lowered = middle + (lowered + 1) by omega]

/-- A position below the whole list is not moved. -/
theorem skipAll_of_lt (below : ∀ position ∈ positions, index < position) : skipAll positions index = index := by
  induction positions with
  | nil => rfl
  | cons position rest ih =>
    have first : index < position := below position mem_cons_self
    rw [skipAll, skip, if_pos first]
    exact ih fun later member => below later (mem_cons_of_mem position member)

/-- The enumeration reaches the positions that are not in the list. -/
theorem mem_range_skipAll (sorted : positions.Pairwise (· < ·)) :
    index ∈ Set.range (skipAll positions) ↔ index ∉ positions := by
  induction positions with
  | nil => simp [skipAll]
  | cons position rest ih =>
    rw [pairwise_cons] at sorted
    obtain ⟨first, sortedRest⟩ := sorted
    have fixed : skipAll rest position = position := skipAll_of_lt first
    constructor
    · rintro ⟨source, rfl⟩ member
      rw [skipAll, mem_cons] at member
      rcases member with equal | member
      · have same := (skipAll_strictMono rest).injective (equal.trans fixed.symm)
        exact mem_range_skip.mp ⟨source, rfl⟩ same
      · exact (ih sortedRest).mp ⟨_, rfl⟩ member
    · intro outside
      rw [mem_cons, not_or] at outside
      obtain ⟨middle, rfl⟩ := (ih sortedRest).mpr outside.2
      have other : middle ≠ position := by
        rintro rfl
        exact outside.1 fixed
      obtain ⟨source, rfl⟩ := mem_range_skip.mpr other
      exact ⟨source, rfl⟩

/-- Both enumerations of the positions outside a sorted list are the same. -/
theorem skipAll_eq_skipLowered (sorted : positions.Pairwise (· < ·)) : skipAll positions = skipLowered 0 positions := by
  rw [← StrictMono.range_inj (skipAll_strictMono positions) (skipLowered_strictMono 0 positions)]
  ext index
  rw [mem_range_skipAll sorted, mem_range_skipLowered sorted fun _ _ => Nat.zero_le _, Nat.add_zero]

/-- The enumeration of the positions above the list moves by the length of the list. -/
theorem skipLowered_of_le {lowered bound : Nat} (bounded : ∀ position ∈ positions, position < bound)
    (above : bound ≤ index + lowered + positions.length) :
    skipLowered lowered positions index = index + positions.length := by
  induction positions generalizing lowered with
  | nil => rfl
  | cons position rest ih =>
    have first : position < bound := bounded position mem_cons_self
    rw [length_cons] at above
    have later := ih (fun position member => bounded position (mem_cons_of_mem _ member))
      (show bound ≤ index + (lowered + 1) + rest.length by omega)
    rw [skipLowered, later, skip, if_neg (by omega), length_cons, Nat.add_assoc]

theorem skipLowered_le (lowered index : Nat) (positions : List Nat) :
    skipLowered lowered positions index ≤ index + positions.length := by
  induction positions generalizing lowered with
  | nil => exact Nat.le_refl index
  | cons position rest ih =>
    have later := ih (lowered + 1)
    rw [skipLowered, length_cons]
    unfold skip
    split <;> omega

/-- The larger of two numbers has the highest bit at which they differ. -/
theorem exists_highest_difference {left right : Nat} (less : left < right) :
    ∃ index, left.testBit index = false ∧ right.testBit index = true ∧
      ∀ higher, index < higher → left.testBit higher = right.testBit higher := by
  have different : left ^^^ right ≠ 0 := by
    intro same
    exact less.ne (Nat.xor_eq_zero_iff.mp same)
  obtain ⟨index, set, above⟩ := Nat.exists_most_significant_bit different
  have agree : ∀ higher, index < higher → left.testBit higher = right.testBit higher := by
    intro higher larger
    simpa [Nat.testBit_xor] using above higher larger
  refine ⟨index, ?_, ?_, agree⟩
  all_goals
    rw [Nat.testBit_xor] at set
    cases atLeft : left.testBit index with
    | false => simp_all
    | true =>
      have atRight : right.testBit index = false := by simpa [atLeft] using set
      have greater := Nat.lt_of_testBit index atRight atLeft fun higher larger => (agree higher larger).symm
      omega

theorem getLsbD_one_shiftLeft {width amount : Nat} (inside : amount < width) (index : Nat) :
    (BitVec.ofNat width 1 <<< amount).getLsbD index = decide (index = amount) := by
  rw [show BitVec.ofNat width 1 <<< amount = BitVec.twoPow width amount from rfl, BitVec.getLsbD_twoPow,
    decide_eq_true inside, Bool.true_and]
  exact decide_eq_decide.mpr eq_comm

/-- A disjunction of parts has the bits of all of them. -/
theorem getLsbD_foldl_or {Item : Type*} {width : Nat} (items : List Item) (part : Item → BitVec width)
    (start : BitVec width) (index : Nat) : (items.foldl (fun word item => word ||| part item) start).getLsbD index =
      (start.getLsbD index || items.any fun item => (part item).getLsbD index) := by
  induction items generalizing start with
  | nil => simp
  | cons item rest ih => rw [foldl_cons, ih, BitVec.getLsbD_or, any_cons, Bool.or_assoc]

end Gem5.ToMathlib
