import Gem5.Proof.Base.AddrRangeMapCache

namespace Gem5.AddrRange
open ToMathlib Bitfield BitVec AddrRangeMap
variable {first second range : AddrRange} {a b : Addr} {answer : Bool} {lowest : Nat}

theorem bounds_of_contains (inside : range.contains a = .ok true) :
    (range.start ≤ a ∧ a < range.stop) ∧ range.select a = .ok (range.intlvMatch.setWidth 32) := by
  unfold contains at inside
  split at inside
  · next bounds =>
    obtain ⟨sel, done, same⟩ := bind_ok_eq_ok.mp inside
    rw [done, of_decide_eq_true same]
    exact ⟨bounds, rfl⟩
  · contradiction

theorem proper_of_contains (plain : range.interleaved = false) (inside : range.contains a = .ok true) :
    range.Proper := by
  have empty : range.masks = [] := by simpa [interleaved] using plain
  obtain ⟨⟨above, below⟩, selected⟩ := (contains_iff (by simp [empty])).mp inside
  refine ⟨empty, ?_, lt_def.mpr (Nat.lt_of_le_of_lt above below)⟩
  apply eq_of_getLsbD_eq
  intro index _
  simp [← selected index, empty]

/-- A range whose size is one has one address at most. -/
theorem contains_unique (counted : range.interleaved = true → {a | range.contains a = .ok true}.ncard = range.size.toNat)
    (single : range.size = 1) (inside : range.contains a = .ok true) (other : range.contains b = .ok true) : a = b := by
  cases interleaved : range.interleaved with
  | true =>
    obtain ⟨only, equal⟩ := Set.ncard_eq_one.mp ((counted interleaved).trans (congrArg BitVec.toNat single))
    have member : ∀ b, range.contains b = .ok true ↔ b = only := fun b => Set.ext_iff.mp equal b
    rw [(member a).mp inside, (member b).mp other]
  | false =>
    have proper := proper_of_contains interleaved inside
    rw [size, proper.plain, List.length_nil, ushiftRight_zero] at single
    have distance := congrArg BitVec.toNat single
    rw [toNat_sub_of_le (BitVec.le_of_lt proper.nonempty)] at distance
    rw [proper.contains_iff, le_def, lt_def] at inside other
    rw [← toNat_inj]
    simp only [reduceToNat] at distance
    omega

theorem intlvMatch_eq (masks : second.masks = first.masks) (inFirst : first.contains a = .ok true)
    (inSecond : second.contains a = .ok true) : first.intlvMatch = second.intlvMatch := by
  have selected := (bounds_of_contains inSecond).2
  rw [select, masks] at selected
  have equal := Except.ok.inj ((bounds_of_contains inFirst).2.symm.trans selected)
  simpa using congrArg (setWidth 8) equal

/-- The test for common addresses can be right. The bounds are apart, or neither range is empty or their match values
differ. For a second range of size one that is compared by its start, the first range has the start exactly if it has
the address of the second range. -/
def Comparable (first second : AddrRange) : Prop :=
  (second.stop ≤ first.start ∨ first.stop ≤ second.start) ∨
  if second.size = 1 ∧ (first.interleaved = true ∨ second.interleaved = true) then
    (∃ a, second.contains a = .ok true ∧
      (first.contains a = .ok true ↔ first.contains second.start = .ok true)) ∨
    (∀ a, second.contains a ≠ .ok true) ∧ first.contains second.start ≠ .ok true
  else (first.interleaved = true ∧ first.intlvMatch ≠ second.intlvMatch) ∨
    (∃ a, first.contains a = .ok true) ∧ ∃ a, second.contains a = .ok true

/-- The test for common addresses is right exactly if the ranges are comparable by it. -/
theorem intersects_exact
    (counted : second.interleaved = true → {a | second.contains a = .ok true}.ncard = second.size.toNat)
    (done : first.intersects second = .ok answer) :
    (answer = true ↔ ∃ a, first.contains a = .ok true ∧ second.contains a = .ok true) ↔ first.Comparable second := by
  unfold intersects at done
  unfold Comparable
  split at done
  · next apart =>
    cases done
    refine iff_of_true (iff_of_false Bool.false_ne_true ?_) (.inl apart)
    rintro ⟨a, inFirst, inSecond⟩
    have firstBounds := (bounds_of_contains inFirst).1
    have secondBounds := (bounds_of_contains inSecond).1
    simp only [le_def, lt_def] at apart firstBounds secondBounds
    omega
  next meets =>
  rw [or_iff_right meets]
  split at done
  · next plain =>
    cases done
    simp only [Bool.and_eq_true, Bool.not_eq_true'] at plain
    simp only [plain, Bool.false_eq_true, false_or, and_false, if_false, false_and, true_iff]
    refine ⟨fun ⟨a, inFirst, inSecond⟩ => ⟨⟨a, inFirst⟩, a, inSecond⟩, fun ⟨⟨a, inFirst⟩, b, inSecond⟩ => ?_⟩
    have firstProper := proper_of_contains plain.1 inFirst
    have secondProper := proper_of_contains plain.2 inSecond
    rw [← overlaps_iff firstProper secondProper, overlaps, decide_eq_true_eq]
    simp only [le_def, lt_def] at meets ⊢
    omega
  next either =>
  have interleaves : first.interleaved = true ∨ second.interleaved = true := by
    by_contra! plain
    exact either (by simp [plain])
  split at done
  · next single =>
    rw [if_pos ⟨single, interleaves⟩, done, Except.ok.injEq]
    by_cases empty : ∃ a, second.contains a = .ok true
    · obtain ⟨b, inSecond⟩ := empty
      have only : ∀ a, second.contains a = .ok true ↔ a = b :=
        fun a => ⟨fun inside => contains_unique counted single inside inSecond, fun same => same ▸ inSecond⟩
      simp [only, iff_comm]
    · simp only [not_exists] at empty
      simp [empty]
  next several =>
  rw [if_neg fun single => several single.1]
  split at done
  · next merges =>
    cases done
    obtain ⟨start, stop, masks⟩ := of_decide_eq_true merges
    rw [decide_eq_true_eq]
    by_cases same : first.intlvMatch = second.intlvMatch
    · obtain rfl : first = second := by
        cases first
        cases second
        simp_all
      simp
    · refine iff_of_true (iff_of_false same ?_) (.inl ⟨?_, same⟩)
      · exact fun ⟨a, inFirst, inSecond⟩ => same (intlvMatch_eq masks inFirst inSecond)
      · simpa [interleaved, masks] using interleaves
  · contradiction

/-- The even addresses meet the range of one of them. -/
theorem intersects_exact_even : ∃ a, (AddrRange.mk 0 16 [1] 0).contains a = .ok true ∧
    (ofBounds 4 5).contains a = .ok true := by
  have comparable : (AddrRange.mk 0 16 [1] 0).Comparable (ofBounds 4 5) := by
    refine .inr ?_
    rw [if_pos (by decide)]
    exact .inl ⟨4, rfl, .rfl⟩
  exact ((intersects_exact (by simp [ofBounds, interleaved]) rfl).mpr comparable).mp rfl

/-- The only address of an interleaved range is 1, but the test looks at its start. -/
theorem intersects_start : (ofBounds 0 1).intersects ⟨0, 2, [1], 1⟩ = .ok true ∧
    ¬∃ a, (ofBounds 0 1).contains a = .ok true ∧ (AddrRange.mk 0 2 [1] 1).contains a = .ok true := by
  refine ⟨rfl, ?_⟩
  rintro ⟨a, inFirst, inSecond⟩
  obtain rfl : a = 0 := eq_of_toNat_eq (Nat.lt_one_iff.mp (bounds_of_contains inFirst).1.2)
  cases inSecond

/-- A plain range that ends at zero has all addresses from its start on. -/
def HasAddr (range : AddrRange) (a : Addr) : Prop := range.start ≤ a ∧ (a < range.stop ∨ range.stop = 0)

theorem selectLoop_short {masks : List Addr} {i : Nat} {sel result : BitVec 32}
    (done : selectLoop a i masks sel = .ok result) : masks = [] ∨ i + masks.length ≤ 32 := by
  induction masks generalizing i sel with
  | nil => exact .inl rfl
  | cons mask rest ih =>
    rw [selectLoop] at done
    obtain ⟨inside, done⟩ := ite_else_error_eq_ok.mp done
    rcases ih done with rfl | short
    · exact .inr inside
    · exact .inr (by rw [List.length_cons]; omega)

theorem masks_short (inside : range.contains a = .ok true) : range.masks.length ≤ 32 := by
  rcases selectLoop_short (bounds_of_contains inside).2 with empty | short
  · simp [empty]
  · simpa using short

/-- No mask has a bit below the granularity. -/
theorem granularity_eq {limit : Addr} (interleaved : range.interleaved = true) (done : range.granularity = .ok limit) :
    ∃ lowest, limit.toNat = 2 ^ lowest ∧ ∀ mask ∈ range.masks, ∀ index < lowest, mask.getLsbD index = false := by
  rw [granularity, if_pos interleaved] at done
  generalize combining : range.masks.foldl (fun combined mask => combined ||| mask.setWidth 32) 0 = combined at done
  obtain ⟨narrow, done⟩ := ite_else_error_eq_ok.mp done
  refine ⟨ctz64 (combined.signExtend 64), ?_, ?_⟩
  · rw [← Except.ok.inj done]
    exact toNat_twoPow_of_lt narrow
  · have low : ∀ index < 32, index < ctz64 (combined.signExtend 64) → combined.getLsbD index = false := by
      intro index inside below
      have clear := getLsbD_of_lt_ctz64 below
      rwa [getLsbD_signExtend, decide_eq_true (by omega), Bool.true_and, if_pos inside] at clear
    have small : ctz64 (combined.signExtend 64) < 32 := by
      by_contra wide
      have zero : combined = 0 := by
        apply eq_of_getLsbD_eq
        intro index inside
        rw [low index inside (by omega)]
        simp
      rw [zero] at narrow
      contradiction
    intro mask member index below
    have clear := low index (by omega) below
    simp only [← combining, getLsbD_foldl_or, Bool.or_eq_false_iff, List.any_eq_false] at clear
    simpa [show index < 32 by omega] using clear.2 mask member

/-- Addresses with the same bits above the granularity have the same parities. -/
theorem matches_of_div (clear : ∀ mask ∈ range.masks, ∀ index < lowest, mask.getLsbD index = false)
    (same : a.toNat / 2 ^ lowest = b.toNat / 2 ^ lowest) (selected : range.Matches b) : range.Matches a := by
  have parities : range.masks.map (parity · a) = range.masks.map (parity · b) := by
    apply List.map_congr_left
    intro mask member
    unfold parity
    rw [popCount_congr]
    intro index set
    have above : lowest ≤ index := by
      by_contra below
      rw [clear mask member index (by omega)] at set
      contradiction
    have bits := congrArg (Nat.testBit · (index - lowest)) same
    simp only [Nat.testBit_div_two_pow, Nat.sub_add_cancel above] at bits
    exact bits
  intro index
  rw [parities]
  exact selected index

/-- An address between two others that are less than a granule apart is in the granule of one of them. -/
theorem div_eq_or_of_near {low middle high granule : Nat} (positive : 0 < granule) (above : low ≤ middle)
    (below : middle ≤ high) (near : high < low + granule) :
    middle / granule = low / granule ∨ middle / granule = high / granule := by
  have first := Nat.div_le_div_right (c := granule) above
  have second := Nat.div_le_div_right (c := granule) below
  have third : high / granule ≤ low / granule + 1 := by
    rw [← Nat.add_div_right low positive]
    exact Nat.div_le_div_right (Nat.le_of_lt near)
  omega

theorem toNat_last (first : AddrRange) : (first.stop - 1).toNat = (first.stop.toNat + 2 ^ 64 - 1) % 2 ^ 64 := by
  have bound := first.stop.isLt
  rw [toNat_sub]
  simp only [reduceToNat]
  omega

/-- A plain range that is a subset of an interleaved one has all its addresses in it. -/
theorem contains_of_isSubset (plain : first.interleaved = false) (nonempty : first.start < first.stop ∨ first.stop = 0)
    (interleaved : second.interleaved = true) (done : first.isSubset second = .ok true) (inside : first.HasAddr a) :
    second.contains a = .ok true := by
  have masks : first.masks = [] := by simpa [AddrRange.interleaved] using plain
  have bound := first.stop.isLt
  have last := first.toNat_last
  obtain ⟨above, below⟩ := inside
  simp only [← toNat_inj, lt_def, le_def, reduceToNat] at nonempty above below
  rw [isSubset, if_neg (by simp [plain]), if_pos interleaved] at done
  obtain ⟨hasStart, atStart, done⟩ := bind_eq_ok.mp done
  cases hasStart with
  | false => cases done
  | true =>
    obtain ⟨hasLast, atLast, done⟩ := bind_eq_ok.mp done
    cases hasLast with
    | false => cases done
    | true =>
      obtain ⟨limit, granule, small⟩ := bind_ok_eq_ok.mp done
      obtain ⟨lowest, power, clear⟩ := granularity_eq interleaved granule
      have short := masks_short atStart
      rw [contains_iff short] at atStart atLast ⊢
      rw [decide_eq_true_eq, size, masks, List.length_nil, ushiftRight_zero, le_def, toNat_sub, power] at small
      simp only [le_def, lt_def, last] at atStart atLast ⊢
      have top := second.stop.isLt
      have start := first.start.isLt
      refine ⟨by omega, ?_⟩
      rcases div_eq_or_of_near (Nat.two_pow_pos lowest) above (show a.toNat ≤ (first.stop - 1).toNat by omega)
        (by omega) with same | same
      · exact matches_of_div clear same atStart.2
      · exact matches_of_div clear same atLast.2

/-- The bounds of a plain range are not within those of another one, also if one of them wraps around. -/
def Outside (first second : AddrRange) : Prop :=
  first.start < second.start ∨ (first.stop = 0 ∧ second.stop ≠ 0) ∨
    (second.start < second.stop ∧ second.stop < first.stop)

/-- For a plain range the answer compares the bounds. -/
theorem isSubset_plain (plain : first.interleaved = false) (nonempty : first.start < first.stop ∨ first.stop = 0)
    (other : second.interleaved = false) (done : first.isSubset second = .ok answer) :
    answer = true ↔ ¬ first.Outside second := by
  rw [isSubset, if_neg (by simp [plain]), if_neg (by simp [other])] at done
  have bound := first.stop.isLt
  have top := second.stop.isLt
  simp only [Outside, ← toNat_inj, lt_def, le_def, ne_eq, reduceToNat] at nonempty done ⊢
  split_ifs at done
  all_goals
    cases done
    rw [decide_eq_true_eq]
    omega

/-- A proper range has the addresses of a range exactly if the bounds are within its own. -/
theorem Proper.contains_all_iff (proper : second.Proper) (nonempty : first.start < first.stop ∨ first.stop = 0) :
    (∀ a, first.HasAddr a → second.contains a = .ok true) ↔ ¬ first.Outside second := by
  have bounds := lt_def.mp proper.nonempty
  have bound := first.stop.isLt
  have top := second.stop.isLt
  simp only [HasAddr, proper.contains_iff, Outside, ← toNat_inj, lt_def, le_def, ne_eq, reduceToNat] at nonempty ⊢
  constructor
  · intro all
    have start := all first.start (by omega)
    have last := all (first.stop - 1)
    rw [toNat_last] at last
    omega
  · intro within a inside
    omega

/-- The test for subsets is sound, and complete for plain ranges, exactly if the other range is interleaved, is a proper
one or does not have the bounds of the range within its own. -/
theorem isSubset_exact (plain : first.interleaved = false) (nonempty : first.start < first.stop ∨ first.stop = 0)
    (done : first.isSubset second = .ok answer) :
    ((answer = true → ∀ a, first.HasAddr a → second.contains a = .ok true) ∧
      (second.interleaved = false → (∀ a, first.HasAddr a → second.contains a = .ok true) → answer = true)) ↔
    second.interleaved = true ∨ second.Proper ∨ first.Outside second := by
  cases interleaved : second.interleaved with
  | true =>
    refine iff_of_true ⟨?_, by simp⟩ (.inl rfl)
    rintro rfl a inside
    exact contains_of_isSubset plain nonempty interleaved done inside
  | false =>
    have compared := isSubset_plain plain nonempty interleaved done
    constructor
    · rintro ⟨sound, _⟩
      by_cases outside : first.Outside second
      · exact .inr (.inr outside)
      · have atStart := sound (compared.mpr outside) first.start ⟨BitVec.le_refl _, nonempty⟩
        exact .inr (.inl (proper_of_contains interleaved atStart))
    · rintro (wrong | proper | outside)
      · cases wrong
      · have within := proper.contains_all_iff nonempty
        exact ⟨fun yes => within.mpr (compared.mp yes), fun _ all => compared.mpr (within.mp all)⟩
      · refine ⟨fun yes => absurd outside (compared.mp yes), fun _ all => ?_⟩
        have proper := proper_of_contains interleaved (all first.start ⟨BitVec.le_refl _, nonempty⟩)
        exact absurd outside ((proper.contains_all_iff nonempty).mp all)

/-- A range of two addresses is in a stripe of two addresses. -/
theorem isSubset_exact_stripe : (AddrRange.mk 0 16 [2] 0).contains 5 = .ok true :=
  ((isSubset_exact (show (ofBounds 4 6).interleaved = false from rfl) (.inl (by decide)) rfl).mpr (.inl rfl)).1 rfl 5
    ⟨by decide, .inl (by decide)⟩

/-- A range that ends at the largest address contains no address. -/
theorem isSubset_wrapping : (ofBounds 5 0).isSubset (ofBounds 0 0) = .ok true ∧ (ofBounds 5 0).HasAddr 7 ∧
    (ofBounds 0 0).contains 7 = .ok false :=
  ⟨rfl, ⟨by decide, .inr rfl⟩, rfl⟩

end Gem5.AddrRange
