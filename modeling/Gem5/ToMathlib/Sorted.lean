import Gem5.ToMathlib.Counting

namespace Gem5.ToMathlib
open List

/-- A predicate that holds on a front part of a list fails on the rest. -/
theorem eq_false_of_mem_dropWhile {Item : Type*} {holds : Item → Bool} {items : List Item} {item : Item}
    (closed : items.Pairwise fun first second => holds second = true → holds first = true)
    (member : item ∈ items.dropWhile holds) : holds item = false := by
  induction items with
  | nil => simp at member
  | cons head rest ih =>
    rw [pairwise_cons] at closed
    rw [dropWhile_cons] at member
    split at member
    · exact ih closed.2 member
    · rename_i fails
      rcases mem_cons.mp member with rfl | later
      · simpa using fails
      · by_contra met
        exact fails (closed.1 item later (by simpa using met))

variable {Item : Type*} [LinearOrder Item]

/-- A smaller bound counts at least one more item if there is an item between the bounds. -/
theorem countP_lt_of_mem {items : List Item} {bound item : Item} (member : item ∈ items) (below : bound < item) :
    items.countP (fun other => item < other) < items.countP (fun other => bound < other) := by
  have weaker : ∀ rest : List Item,
      rest.countP (fun other => item < other) ≤ rest.countP (fun other => bound < other) := by
    intro rest
    apply countP_mono_left
    intro other _ above
    simp only [decide_eq_true_eq] at above ⊢
    exact below.trans above
  obtain ⟨before, after, rfl⟩ := append_of_mem member
  have first := weaker before
  have second := weaker after
  simp only [countP_append, countP_cons, lt_irrefl, decide_false, below, decide_true]
  simp only [Bool.false_eq_true, if_false, if_true]
  omega

theorem head_le_of_mem {items : List Item} {first item : Item} (sorted : items.Pairwise (· < ·))
    (head : items.head? = some first) (member : item ∈ items) : first ≤ item := by
  cases items with
  | nil => simp at member
  | cons smallest rest =>
    cases head
    rcases mem_cons.mp member with rfl | later
    · exact le_rfl
    · exact ((pairwise_cons.mp sorted).1 item later).le

theorem le_getLast_of_mem {items : List Item} {item : Item} (sorted : items.Pairwise (· < ·)) (nonempty : items ≠ [])
    (member : item ∈ items) : item ≤ items.getLast nonempty := by
  obtain ⟨first, last, rfl⟩ := (eq_nil_or_concat items).resolve_left nonempty
  simp only [concat_eq_append, getLast_concat, mem_append, mem_singleton] at member ⊢
  rw [concat_eq_append] at sorted
  rcases member with early | rfl
  · exact ((pairwise_append.mp sorted).2.2 item early last (by simp)).le
  · exact le_rfl

/-- An item after the first one of a sorted list has a largest smaller item, which stands right before it. -/
theorem exists_previous {items : List Item} {item : Item} (sorted : items.Pairwise (· < ·)) (member : item ∈ items)
    (later : items.head? ≠ some item) :
    ∃ previous, (items.takeWhile fun other => other ≠ item).getLast? = some previous ∧ previous ∈ items ∧
      previous < item ∧ (∀ other ∈ items, previous < other → item ≤ other) ∧
      items.countP (fun other => previous < other) = items.countP (fun other => item < other) + 1 := by
  obtain ⟨before, after, rfl⟩ := append_of_mem member
  obtain ⟨_, laterSorted, apart⟩ := pairwise_append.mp sorted
  obtain ⟨above, _⟩ := pairwise_cons.mp laterSorted
  rcases eq_nil_or_concat before with rfl | ⟨first, previous, rfl⟩
  · simp at later
  have smaller : ∀ other ∈ first.concat previous, other < item := fun other inside => apart other inside item (by simp)
  rw [concat_eq_append] at *
  have below := (pairwise_append.mp (pairwise_append.mp sorted).1).2.2
  have step := smaller previous (by simp)
  have least : ∀ other ∈ first ++ [previous] ++ item :: after, previous < other → item ≤ other := by
    intro other inside larger
    rcases mem_append.mp inside with early | late
    · rcases mem_append.mp early with early | same
      · exact absurd (below other early previous (by simp)) larger.not_gt
      · exact absurd (mem_singleton.mp same) larger.ne'
    · rcases mem_cons.mp late with rfl | late
      · exact le_rfl
      · exact (above other late).le
  refine ⟨previous, ?_, by simp, step, least,
    (countP_add_one_of_eq (sorted.imp ne_of_lt) member ?_ (by simpa) (by simp)).symm⟩
  · rw [takeWhile_append_of_pos, takeWhile_cons_of_neg (by simp), append_nil, getLast?_concat]
    intro other inside
    simpa using (smaller other inside).ne
  · intro other inside different
    rw [decide_eq_decide]
    exact ⟨step.trans, fun larger => (least other inside larger).lt_of_ne different.symm⟩

end Gem5.ToMathlib
