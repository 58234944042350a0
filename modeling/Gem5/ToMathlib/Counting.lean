import Mathlib

namespace Gem5.ToMathlib
open List Finset Function

section Sum
variable {Index Value : Type*} [Fintype Index] [DecidableEq Index]

section
variable (measure : Value → Nat) (values : Index → Value)
include measure values

/-- An update of one place changes the sum by that place only. -/
theorem sum_update (index : Index) (value : Value) :
    (∑ place, measure (update values index value place)) + measure (values index) =
      (∑ place, measure (values place)) + measure value := by
  have changed := sum_erase_add univ (fun place => measure (update values index value place))
    (mem_univ index)
  have before := sum_erase_add univ (fun place => measure (values place)) (mem_univ index)
  have same : ∑ place ∈ univ.erase index, measure (update values index value place) =
      ∑ place ∈ univ.erase index, measure (values place) := by
    apply sum_congr rfl
    intro place member
    rw [update_of_ne (ne_of_mem_erase member)]
  rw [update_self] at changed
  omega

omit [DecidableEq Index] in
/-- One place is at most the whole sum. -/
theorem le_sum (index : Index) : measure (values index) ≤ ∑ place, measure (values place) :=
  single_le_sum (fun place _ => Nat.zero_le (measure (values place))) (mem_univ index)

end

end Sum

section Count
variable {Item : Type*} [DecidableEq Item] {items : List Item} {item : Item}

/-- A replaced place loses its old item and gains the new one. -/
theorem count_set {index : Nat} {old : Item} (new item : Item) (found : items[index]? = some old) :
    (items.set index new).count item + (if old = item then 1 else 0) =
      items.count item + (if new = item then 1 else 0) := by
  obtain ⟨inside, rfl⟩ := List.getElem?_eq_some_iff.mp found
  have present : (if items[index] = item then 1 else 0) ≤ items.count item := by
    split
    next same => exact count_pos_iff.mpr (same ▸ getElem_mem inside)
    next => exact Nat.zero_le _
  rw [List.count_set inside]
  simp only [beq_iff_eq]
  omega

theorem two_le_count_of_ne {index place : Nat} (different : index ≠ place) (here : items[index]? = some item)
    (there : items[place]? = some item) : 2 ≤ items.count item := by
  obtain ⟨inside, rfl⟩ := List.getElem?_eq_some_iff.mp here
  obtain ⟨outside, same⟩ := List.getElem?_eq_some_iff.mp there
  rw [← duplicate_iff_two_le_count, duplicate_iff_exists_distinct_get]
  rcases Nat.lt_or_gt_of_ne different with less | more
  · exact ⟨⟨index, inside⟩, ⟨place, outside⟩, less, rfl, same.symm⟩
  · exact ⟨⟨place, outside⟩, ⟨index, inside⟩, more, same.symm, rfl⟩

/-- An item that does not occur may be excluded from a count. -/
theorem countP_notMem_cons_of_notMem {excluded : List Item} (absent : item ∉ items) :
    items.countP (fun other => other ∉ item :: excluded) = items.countP fun other => other ∉ excluded := by
  apply countP_congr
  intro other inside
  have different : other ≠ item := fun equal => absent (equal ▸ inside)
  simp [different]

omit [DecidableEq Item] in
/-- A test that fails for one item more counts one item less. -/
theorem countP_add_one_of_eq {before after : Item → Bool} (once : items.Nodup) (member : item ∈ items)
    (others : ∀ other ∈ items, other ≠ item → after other = before other) (passed : before item = true)
    (fails : after item = false) : items.countP after + 1 = items.countP before := by
  induction items with
  | nil => simp at member
  | cons head rest ih =>
    obtain ⟨fresh, once⟩ := nodup_cons.mp once
    rcases mem_cons.mp member with rfl | later
    · rw [countP_cons_of_neg (by simp [fails]), countP_cons_of_pos passed]
      congr 1
      apply countP_congr
      intro other inside
      have different : other ≠ item := fun equal => fresh (equal ▸ inside)
      rw [others other (mem_cons_of_mem _ inside) different]
    · have different : head ≠ item := fun equal => fresh (equal ▸ later)
      have tail := ih once later fun other inside => others other (mem_cons_of_mem _ inside)
      rw [countP_cons, countP_cons, others head mem_cons_self different]
      omega

/-- An item that is excluded from a count is excluded once in a list without repetitions. -/
theorem countP_notMem_cons {excluded : List Item} (once : items.Nodup) (member : item ∈ items)
    (included : item ∉ excluded) :
    items.countP (fun other => other ∉ item :: excluded) + 1 = items.countP fun other => other ∉ excluded := by
  refine countP_add_one_of_eq once member (fun other _ different => ?_) (by simpa using included) (by simp)
  simp [different]

end Count
end Gem5.ToMathlib
