import Gem5.Proof.Base.Bitfield
import Gem5.Construction.Base.AddrRange

namespace Gem5
open ToMathlib Bitfield

namespace AddrRange
variable {a : Addr} {i intlvBit index : Nat}

/-- The removal of one bit keeps the other bits in their order. -/
theorem getLsbD_removeBit (lowered : i ≤ intlvBit) (inside : intlvBit < 64) :
    (removeBit i intlvBit a).getLsbD index = a.getLsbD (skip (intlvBit - i) index) := by
  by_cases within : index < 64
  · unfold removeBit
    split
    · rename_i positive
      rw [getLsbD_insertBits _ within, Nat.sub_zero, BitVec.getLsbD_ushiftRight]
      have limit : ((intlvBit + 2 ^ 32 - i - 1) % 2 ^ 32 + 1) % 2 ^ 32 = intlvBit - i := by omega
      rw [limit, skip]
      by_cases low : index < intlvBit - i
      · rw [if_pos ⟨Nat.zero_le _, low⟩, if_pos low]
      · rw [if_neg (fun both => low both.2), if_neg low, Nat.add_comm]
    · rw [BitVec.getLsbD_ushiftRight, skip, if_neg (by omega), Nat.add_comm]
  · rw [BitVec.getLsbD_of_ge _ _ (by omega), BitVec.getLsbD_of_ge]
    unfold skip
    split <;> omega

theorem getLsbD_removeLoop {positions : List Nat} (sorted : positions.Pairwise (· < ·))
    (above : ∀ position ∈ positions, i ≤ position) (inside : ∀ position ∈ positions, position < 64) :
    (removeLoop i positions a).getLsbD index = a.getLsbD (skipLowered i positions index) := by
  induction positions generalizing i a with
  | nil => rfl
  | cons position rest ih =>
    rw [List.pairwise_cons] at sorted
    rw [List.forall_mem_cons] at above inside
    have aboveRest : ∀ later ∈ rest, i + 1 ≤ later := by
      intro later member
      have larger := sorted.1 later member
      omega
    rw [removeLoop, ih sorted.2 aboveRest inside.2, getLsbD_removeBit above.1 inside.1]
    rfl

/-- The insertion of one bit moves the bits above it. -/
theorem getLsbD_insertBit (bounded : intlvBit < 64) (inside : skip intlvBit index < 64) :
    (insertBit intlvBit a).getLsbD (skip intlvBit index) = a.getLsbD index := by
  unfold insertBit
  split
  · rename_i positive
    have limit : (intlvBit - 1 + 1) % 2 ^ 32 = intlvBit := by omega
    rw [getLsbD_insertBits _ inside, limit, Nat.sub_zero, BitVec.getLsbD_shiftLeft]
    unfold skip at inside ⊢
    by_cases low : index < intlvBit
    · rw [if_pos low] at inside ⊢
      rw [if_pos ⟨Nat.zero_le _, low⟩]
    · rw [if_neg low] at inside ⊢
      rw [if_neg (by omega)]
      simp [inside]
  · have first : intlvBit = 0 := by omega
    subst first
    simp only [skip, Nat.not_lt_zero, if_false] at inside ⊢
    rw [BitVec.getLsbD_shiftLeft]
    simp [inside]

theorem getLsbD_insertLoop {positions : List Nat} (sorted : positions.Pairwise (· < ·))
    (bounded : ∀ position ∈ positions, position < 64) (inside : skipAll positions index < 64) :
    (positions.foldl (fun a intlvBit => insertBit intlvBit a) a).getLsbD (skipAll positions index) =
      a.getLsbD index := by
  induction positions generalizing index a with
  | nil => rfl
  | cons position rest ih =>
    rw [List.pairwise_cons] at sorted
    rw [List.forall_mem_cons] at bounded
    rw [skipAll] at inside ⊢
    have first : skip position index < 64 := Nat.lt_of_le_of_lt ((skipAll_strictMono rest).le_apply) inside
    rw [List.foldl_cons, ih sorted.2 bounded.2 inside]
    exact getLsbD_insertBit bounded.1 first

end AddrRange

open List

/-- The masks have lowest bits that are distinct and that no other mask contains. -/
structure Separated (masks : List Addr) : Prop where
  nonzero : ∀ mask ∈ masks, mask ≠ 0
  distinct : (masks.map ctz64).Nodup
  apart : masks.Pairwise fun first second =>
    first.getLsbD (ctz64 second) = false ∧ second.getLsbD (ctz64 first) = false

theorem Separated.length_le {masks : List Addr} {width : Nat} (separated : Separated masks)
    (covers : ∀ mask ∈ masks, ctz64 mask < width) : masks.length ≤ width := by
  have inside : masks.map ctz64 ⊆ range width := by
    intro position among
    obtain ⟨mask, member, rfl⟩ := mem_map.mp among
    exact mem_range.mpr (covers mask member)
  simpa using (subperm_of_subset separated.distinct inside).length_le

/-- The parity of the bits of a mask. -/
def parity (mask a : Addr) : Bool := popCount (a &&& mask) % 2 = 1

namespace AddrRange
variable {range : AddrRange} {a b : Addr} {masks : List Addr}

theorem shiftOne_le_iff {count : Nat} {intlvMatch : BitVec 8} (narrow : count < 64) :
    1#64 <<< count ≤ intlvMatch.setWidth 64 ↔ 2 ^ count ≤ intlvMatch.toNat := by
  have power : (1#64 <<< count).toNat = 2 ^ count := BitVec.toNat_twoPow_of_lt narrow
  rw [BitVec.le_def, power, BitVec.toNat_setWidth, Nat.mod_eq_of_lt (by omega)]

/-- The check accepts the match values that fit in the interleaving bits. -/
theorem checkMatch_eq_ok {count : Nat} {intlvMatch : BitVec 8} {value : Unit} :
    checkMatch intlvMatch count = .ok value ↔ count = 0 ∨ count < 64 ∧ intlvMatch.toNat < 2 ^ count := by
  unfold checkMatch shiftOne
  by_cases empty : count = 0
  · simp only [empty, ne_eq, not_true_eq_false, if_false, true_or, iff_true]
    rfl
  · by_cases narrow : count < 64
    · by_cases fits : intlvMatch.toNat < 2 ^ count
      · simp [empty, narrow, fits, shiftOne_le_iff narrow, Nat.not_le.mpr fits]
        rfl
      · simp [empty, narrow, fits, shiftOne_le_iff narrow, Nat.not_lt.mp fits]
    · simp [empty, narrow]

theorem mem_masksLsb {position : Nat} : position ∈ range.masksLsb ↔ ∃ mask ∈ range.masks, ctz64 mask = position := by
  rw [masksLsb, mem_insertionSort, mem_map]

theorem length_masksLsb : range.masksLsb.length = range.masks.length := by
  rw [masksLsb, length_insertionSort, length_map]

theorem masksLsb_sorted (separated : Separated range.masks) : range.masksLsb.Pairwise (· < ·) := by
  have ordered : range.masksLsb.Pairwise (· ≤ ·) := pairwise_insertionSort (· ≤ ·) _
  have distinct : range.masksLsb.Nodup := (perm_insertionSort (· ≤ ·) _).nodup_iff.mpr separated.distinct
  exact (ordered.and distinct).imp fun both => Nat.lt_of_le_of_ne both.1 both.2

theorem masksLsb_lt (separated : Separated range.masks) : ∀ position ∈ range.masksLsb, position < 64 := by
  intro position member
  obtain ⟨mask, among, rfl⟩ := mem_masksLsb.mp member
  exact (ctz64_lt (separated.nonzero mask among)).1

/-- This function enumerates the positions of an address that the removal keeps. -/
def keptAt (range : AddrRange) : Nat → Nat := skipLowered 0 range.masksLsb

theorem keptAt_strictMono : StrictMono range.keptAt := skipLowered_strictMono 0 _

theorem mem_range_keptAt (separated : Separated range.masks) {position : Nat} :
    position ∈ Set.range range.keptAt ↔ ∀ mask ∈ range.masks, position ≠ ctz64 mask := by
  rw [keptAt, mem_range_skipLowered (masksLsb_sorted separated) fun _ _ => Nat.zero_le _, Nat.add_zero, mem_masksLsb]
  simp only [not_exists, not_and, ne_eq, eq_comm]

theorem masksLsb_of_not_interleaved (plain : range.interleaved = false) : range.masksLsb = [] := by
  have empty : range.masks = [] := by simpa [interleaved] using plain
  simp [masksLsb, empty]

section
variable (separated : Separated range.masks)
include separated

/-- The removal keeps the bits at the enumerated positions. -/
theorem getLsbD_removeIntlvBits (index : Nat) :
    (range.removeIntlvBits a).getLsbD index = a.getLsbD (range.keptAt index) := by
  unfold removeIntlvBits
  split
  · exact getLsbD_removeLoop (masksLsb_sorted separated) (fun _ _ => Nat.zero_le _) (masksLsb_lt separated)
  · rename_i plain
    rw [keptAt, masksLsb_of_not_interleaved (by simpa using plain)]
    rfl

theorem removeIntlvBits_lt (less : a < b) (same : ∀ mask ∈ range.masks, parity mask a = parity mask b) :
    range.removeIntlvBits a < range.removeIntlvBits b := by
  obtain ⟨position, lower, upper, above⟩ := exists_highest_difference (BitVec.lt_def.mp less)
  have kept : position ∈ Set.range range.keptAt := by
    rw [mem_range_keptAt separated]
    rintro mask member rfl
    have inside := ctz64_lt (separated.nonzero mask member)
    have more : popCount (b &&& mask) = popCount (a &&& mask) + 1 := by
      apply popCount_of_differ inside.1
      · intro index different
        rw [BitVec.getLsbD_and, BitVec.getLsbD_and]
        rcases Nat.lt_or_gt_of_ne different with below | higher
        · rw [getLsbD_of_lt_ctz64 below, Bool.and_false, Bool.and_false]
        · have agree : b.getLsbD index = a.getLsbD index := (above index higher).symm
          rw [agree]
      · have set : b.getLsbD (ctz64 mask) = true := upper
        rw [BitVec.getLsbD_and, set, inside.2, Bool.and_self]
      · have clear : a.getLsbD (ctz64 mask) = false := lower
        rw [BitVec.getLsbD_and, clear, Bool.false_and]
    have parities := same mask member
    unfold parity at parities
    rw [more, decide_eq_decide] at parities
    omega
  obtain ⟨index, rfl⟩ := kept
  have bits (word : Addr) : ∀ place, (range.removeIntlvBits word).toNat.testBit place =
    word.toNat.testBit (range.keptAt place) := getLsbD_removeIntlvBits separated
  rw [BitVec.lt_def]
  apply Nat.lt_of_testBit index
  · rw [bits, lower]
  · rw [bits, upper]
  · intro higher larger
    rw [bits, bits, above _ (keptAt_strictMono larger)]

theorem eq_of_removeIntlvBits (same : ∀ mask ∈ range.masks, parity mask a = parity mask b)
    (equal : range.removeIntlvBits a = range.removeIntlvBits b) : a = b := by
  rcases Nat.lt_trichotomy a.toNat b.toNat with less | same | greater
  · have smaller := removeIntlvBits_lt separated (BitVec.lt_def.mpr less) same
    exact absurd equal (BitVec.ne_of_lt smaller)
  · exact BitVec.eq_of_toNat_eq same
  · have larger := removeIntlvBits_lt separated (BitVec.lt_def.mpr greater) fun mask member => (same mask member).symm
    exact absurd equal.symm (BitVec.ne_of_lt larger)

end

theorem getLsbD_selectBit {count i index : Nat} (inside : i < 32) :
    (BitVec.ofNat 32 (count % 2) <<< i).getLsbD index = decide (index = i ∧ count % 2 = 1) := by
  rcases Nat.mod_two_eq_zero_or_one count with even | odd
  · simp [even]
  · rw [odd, getLsbD_one_shiftLeft inside]
    simp

theorem selectLoop_eq {i : Nat} {sel : BitVec 32} (short : i + masks.length ≤ 32) :
    ∃ result, selectLoop a i masks sel = .ok result ∧ ∀ index, result.getLsbD index =
      (sel.getLsbD index || decide (i ≤ index) && (masks.map (parity · a))[index - i]?.getD false) := by
  induction masks generalizing i sel with
  | nil => exact ⟨sel, rfl, by simp⟩
  | cons mask rest ih =>
    rw [length_cons] at short
    have inside : i < 32 := by omega
    rw [selectLoop, if_pos inside]
    obtain ⟨result, done, bits⟩ := ih (show i + 1 + rest.length ≤ 32 by omega)
    refine ⟨result, done, ?_⟩
    intro index
    rw [bits, BitVec.getLsbD_or, getLsbD_selectBit inside]
    rcases Nat.lt_trichotomy index i with below | same | above
    · have different : index ≠ i := by omega
      have early : ¬i + 1 ≤ index := by omega
      simp [different, early, Nat.not_le.mpr below]
    · subst same
      simp [parity]
    · have different : index ≠ i := by omega
      have later : index - i = index - (i + 1) + 1 := by omega
      rw [later, map_cons, getElem?_cons_succ]
      simp [different, Nat.le_of_lt above, Nat.succ_le_of_lt above]

/-- The parities of an address are the bits of the match value. -/
def Matches (range : AddrRange) (a : Addr) : Prop :=
  ∀ index, (range.masks.map (parity · a))[index]?.getD false = range.intlvMatch.getLsbD index

section
variable (short : range.masks.length ≤ 32)
include short

/-- The selector collects the parities of the masks. -/
theorem select_eq : ∃ sel, range.select a = .ok sel ∧
    ∀ index, sel.getLsbD index = (range.masks.map (parity · a))[index]?.getD false := by
  have loop : ∃ sel, selectLoop a 0 range.masks 0 = .ok sel ∧ ∀ index, sel.getLsbD index =
      ((0 : BitVec 32).getLsbD index || decide (0 ≤ index) &&
        (range.masks.map (parity · a))[index - 0]?.getD false) := selectLoop_eq (by omega)
  simpa [select] using loop

theorem select_eq_iff : range.select a = .ok (range.intlvMatch.setWidth 32) ↔ range.Matches a := by
  obtain ⟨sel, done, bits⟩ := select_eq short (a := a)
  rw [done]
  constructor
  · intro equal index
    cases equal
    rw [← bits, BitVec.getLsbD_setWidth]
    by_cases inside : index < 32
    · simp [inside]
    · rw [BitVec.getLsbD_of_ge range.intlvMatch _ (by omega), Bool.and_false]
  · intro agree
    congr 1
    apply BitVec.eq_of_getLsbD_eq
    intro index inside
    rw [bits, agree, BitVec.getLsbD_setWidth]
    simp [inside]

/-- A range contains the addresses between its bounds whose parities match. -/
theorem contains_iff : range.contains a = .ok true ↔ (range.start ≤ a ∧ a < range.stop) ∧ range.Matches a := by
  obtain ⟨sel, done, _⟩ := select_eq short (a := a)
  have selected := select_eq_iff short (a := a)
  unfold contains
  rw [done] at selected ⊢
  by_cases inside : range.start ≤ a ∧ a < range.stop
  · rw [if_pos inside]
    simp [← selected, inside]
  · rw [if_neg inside]
    simp [inside]

end

end AddrRange

end Gem5
