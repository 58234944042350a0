import Gem5.Proof.Base.AddrRangeSelection

namespace Gem5
open ToMathlib Bitfield List

namespace AddrRange
variable {range : AddrRange} {a b result : Addr} {masks : List Addr} {intlvMatch : BitVec 8} {i : Nat} {index : Nat}
  {mask : Addr}

/-- This word keeps the bits of a mask that the signed complement leaves. -/
def keptBits (lsb : Nat) : Addr := (~~~((1 : BitVec 32) <<< lsb)).signExtend 64

theorem getLsbD_keptBits {lsb : Nat} (low : lsb < 32) (inside : index < 64) :
    (keptBits lsb).getLsbD index = if index < 32 then decide (index ≠ lsb) else decide (lsb ≠ 31) := by
  rw [keptBits, BitVec.getLsbD_signExtend, BitVec.msb_eq_getLsbD_last, BitVec.getLsbD_not, BitVec.getLsbD_not,
    BitVec.ofNat_eq_ofNat, getLsbD_one_shiftLeft low, getLsbD_one_shiftLeft low]
  by_cases narrow : index < 32
  · simp [inside, narrow]
  · simp [inside, narrow, eq_comm]

/-- This function sets the lowest bit of a mask. -/
def placed (intlvMatch : BitVec 8) (i : Nat) (mask a : Addr) : Addr :=
  insertBits a (ctz64 mask) (ctz64 mask) (Nat.le_refl _)
    (((intlvMatch.setWidth 32 >>> i).setWidth 64 &&& Bitfield.mask 1) ^^^
      BitVec.ofNat 64 (popCount (a &&& mask &&& keptBits (ctz64 mask))))

theorem placeLoop_cons (mask : Addr) (rest : List Addr) : placeLoop intlvMatch i (mask :: rest) a =
      if i < 32 ∧ ctz64 mask < 32 then placeLoop intlvMatch (i + 1) rest (placed intlvMatch i mask a)
      else .error .arithmetic := by
  rw [placeLoop, matchBit, clearLsb]
  by_cases index : i < 32
  · by_cases low : ctz64 mask < 32
    · simp only [index, low, if_true, and_self]
      rfl
    · simp only [index, low, if_true, if_false, and_false]
      rfl
  · simp only [index, if_false, false_and]
    rfl

theorem getLsbD_placed (mask : Addr) (inside : index < 64) (different : index ≠ ctz64 mask) :
    (placed intlvMatch i mask a).getLsbD index = a.getLsbD index := by
  rw [placed, getLsbD_insertBits _ inside, if_neg]
  omega

theorem getLsbD_placed_lowest (nonzero : mask ≠ 0) (index : i < 32) :
    (placed intlvMatch i mask a).getLsbD (ctz64 mask) =
      (intlvMatch.getLsbD i ^^ decide (popCount (a &&& mask &&& keptBits (ctz64 mask)) % 2 = 1)) := by
  have inside := (ctz64_lt nonzero).1
  rw [placed, getLsbD_insertBits _ inside, if_pos (by omega), Nat.sub_self, BitVec.getLsbD_xor, BitVec.getLsbD_and,
    getLsbD_mask, BitVec.getLsbD_setWidth, BitVec.getLsbD_ushiftRight, BitVec.getLsbD_setWidth, BitVec.getLsbD_ofNat]
  simp [index, Nat.testBit_zero]

theorem placeLoop_eq_ok (low : ∀ mask ∈ masks, ctz64 mask < 32) (short : i + masks.length ≤ 32) :
    ∃ result, placeLoop intlvMatch i masks a = .ok result := by
  induction masks generalizing i a with
  | nil => exact ⟨a, rfl⟩
  | cons mask rest ih =>
    rw [forall_mem_cons] at low
    rw [length_cons] at short
    rw [placeLoop_cons, if_pos ⟨by omega, low.1⟩]
    exact ih low.2 (by omega)

theorem ctz64_lt_of_placeLoop (done : placeLoop intlvMatch i masks a = .ok result) :
    ∀ mask ∈ masks, ctz64 mask < 32 := by
  induction masks generalizing i a with
  | nil => simp
  | cons mask rest ih =>
    rw [placeLoop_cons] at done
    obtain ⟨inside, done⟩ := ite_else_error_eq_ok.mp done
    exact forall_mem_cons.mpr ⟨inside.2, ih done⟩

/-- The placement changes the lowest bits of the masks only. -/
theorem getLsbD_placeLoop (done : placeLoop intlvMatch i masks a = .ok result) (inside : index < 64)
    (different : ∀ mask ∈ masks, index ≠ ctz64 mask) : result.getLsbD index = a.getLsbD index := by
  induction masks generalizing i a with
  | nil =>
    obtain rfl : a = result := by simpa [placeLoop] using done
    rfl
  | cons mask rest ih =>
    rw [forall_mem_cons] at different
    rw [placeLoop_cons] at done
    obtain ⟨_, done⟩ := ite_else_error_eq_ok.mp done
    rw [ih done different.2, getLsbD_placed mask inside different.1]

/-- The lowest bit of a mask is set from the bits that the complement leaves. -/
theorem getLsbD_placeLoop_lowest (separated : Separated masks) (done : placeLoop intlvMatch i masks a = .ok result)
    (found : masks[index]? = some mask) :
    result.getLsbD (ctz64 mask) = (intlvMatch.getLsbD (i + index) ^^
      decide (popCount (result &&& mask &&& keptBits (ctz64 mask)) % 2 = 1)) := by
  induction masks generalizing i a index with
  | nil => simp at found
  | cons head rest ih =>
    have distinct := nodup_cons.mp (map_cons ▸ separated.distinct)
    have apart := pairwise_cons.mp separated.apart
    have nonzero := forall_mem_cons.mp separated.nonzero
    have separatedRest : Separated rest := ⟨nonzero.2, distinct.2, apart.2⟩
    rw [placeLoop_cons] at done
    obtain ⟨inside, done⟩ := ite_else_error_eq_ok.mp done
    cases index with
    | succ index =>
      rw [show i + (index + 1) = i + 1 + index by omega]
      exact ih separatedRest done (by simpa using found)
    | zero =>
      obtain rfl : head = mask := by simpa using found
      have lowest := (ctz64_lt nonzero.1).1
      have fixed : ∀ other ∈ rest, ctz64 head ≠ ctz64 other := by
        intro other member same
        exact distinct.1 (mem_map.mpr ⟨other, member, same.symm⟩)
      rw [getLsbD_placeLoop done lowest fixed, getLsbD_placed_lowest nonzero.1 inside.1, Nat.add_zero,
        BitVec.and_assoc, BitVec.and_assoc]
      congr 3
      rw [popCount_congr]
      intro position set
      rw [BitVec.getLsbD_and, Bool.and_eq_true] at set
      have within : position < 64 := BitVec.lt_of_getLsbD set.1
      have notLowest : position ≠ ctz64 head := by
        rintro rfl
        have kept := set.2
        rw [getLsbD_keptBits inside.2 within, if_pos inside.2] at kept
        simp at kept
      have notOther : ∀ other ∈ rest, position ≠ ctz64 other := by
        rintro other member rfl
        rw [(apart.1 other member).1] at set
        cases set.1
      rw [getLsbD_placeLoop done within notOther, getLsbD_placed head within notLowest]

/-- The signed complement clears no bit of the mask but the lowest one. -/
def Placeable (mask : Addr) : Prop :=
  ctz64 mask < 31 ∨ ctz64 mask = 31 ∧ ∀ index, mask.getLsbD index = true → index = 31

theorem Placeable.ctz64_lt (placeable : Placeable mask) : ctz64 mask < 32 := by
  rcases placeable with low | ⟨last, _⟩ <;> omega

theorem Placeable.getLsbD_keptBits (placeable : Placeable mask) (set : mask.getLsbD index = true) :
    (keptBits (ctz64 mask)).getLsbD index = decide (index ≠ ctz64 mask) := by
  rw [AddrRange.getLsbD_keptBits placeable.ctz64_lt (BitVec.lt_of_getLsbD set)]
  split
  · rfl
  · rename_i wide
    rcases placeable with low | ⟨last, only⟩
    · have notLast : ctz64 mask ≠ 31 := by omega
      have different : index ≠ ctz64 mask := by omega
      simp [notLast, different]
    · have same := only index set
      omega

/-- The parity of a mask splits into one of its bits and the others. -/
theorem parity_split {rest : Addr} (set : mask.getLsbD index = true) (cleared : rest.getLsbD index = false)
    (agree : ∀ other, other ≠ index → mask.getLsbD other = rest.getLsbD other) :
    parity mask a = (a.getLsbD index ^^ parity rest a) := by
  have masked : ∀ other, other ≠ index → (a &&& mask).getLsbD other = (a &&& rest).getLsbD other := by
    intro other different
    rw [BitVec.getLsbD_and, BitVec.getLsbD_and, agree other different]
  unfold parity
  cases bit : a.getLsbD index with
  | true =>
    have more : popCount (a &&& mask) = popCount (a &&& rest) + 1 :=
      popCount_of_differ (BitVec.lt_of_getLsbD set) masked (by simp [bit, set]) (by simp [cleared])
    rw [more, Bool.true_xor, ← decide_not, decide_eq_decide]
    omega
  | false =>
    have same : a &&& mask = a &&& rest := by
      apply BitVec.eq_of_getLsbD_eq
      intro other _
      by_cases different : other = index
      · simp [different, bit]
      · exact masked other different
    rw [same, Bool.false_xor]

/-- The parity of a mask splits into its lowest bit and the bits that the complement leaves. -/
theorem Placeable.parity_eq (placeable : Placeable mask) (nonzero : mask ≠ 0) :
    parity mask a = (a.getLsbD (ctz64 mask) ^^
      decide (popCount (a &&& mask &&& keptBits (ctz64 mask)) % 2 = 1)) := by
  have lowest := (Bitfield.ctz64_lt nonzero).2
  rw [BitVec.and_assoc]
  apply parity_split lowest
  · rw [BitVec.getLsbD_and, placeable.getLsbD_keptBits lowest]
    simp
  · intro index different
    rw [BitVec.getLsbD_and]
    cases set : mask.getLsbD index with
    | false => simp
    | true => simp [placeable.getLsbD_keptBits set, different]

/-- The insertion makes room for the interleaving bits and places them. -/
theorem addIntlvBits_eq : range.addIntlvBits b = placeLoop range.intlvMatch 0 range.masks
    (range.masksLsb.foldl (fun a intlvBit => insertBit intlvBit a) b) := by
  unfold addIntlvBits
  split
  · rfl
  · rename_i plain
    have empty : range.masks = [] := by simpa [interleaved] using plain
    rw [masksLsb_of_not_interleaved (by simpa using plain), empty]
    rfl

/-- What the insertion makes of a small word is removed again. -/
theorem removeIntlvBits_of_addIntlvBits (separated : Separated range.masks) (done : range.addIntlvBits b = .ok a)
    (small : b.toNat < 2 ^ (64 - range.masks.length)) : range.removeIntlvBits a = b := by
  rw [addIntlvBits_eq] at done
  apply BitVec.eq_of_getLsbD_eq
  intro index _
  rw [getLsbD_removeIntlvBits separated]
  by_cases inside : range.keptAt index < 64
  · have outside : ∀ mask ∈ range.masks, range.keptAt index ≠ ctz64 mask := (mem_range_keptAt separated).mp ⟨index, rfl⟩
    have same : skipAll range.masksLsb index = range.keptAt index :=
      congrFun (skipAll_eq_skipLowered (masksLsb_sorted separated)) index
    rw [getLsbD_placeLoop done inside outside, ← same]
    exact getLsbD_insertLoop (masksLsb_sorted separated) (masksLsb_lt separated) (same ▸ inside)
  · have bound : range.keptAt index ≤ index + range.masksLsb.length := skipLowered_le 0 index _
    rw [length_masksLsb] at bound
    rw [BitVec.getLsbD_of_ge _ _ (by omega), BitVec.getLsbD]
    exact (Nat.testBit_lt_two_pow (Nat.lt_of_lt_of_le small (Nat.pow_le_pow_right (by decide) (by omega)))).symm

/-- The removal and the insertion of interleaving bits undo each other. -/
structure Inverse (range : AddrRange) : Prop where
  add_remove : ∀ a, range.contains a = .ok true → range.addIntlvBits (range.removeIntlvBits a) = .ok a
  remove_add : ∀ b : Addr, b.toNat < 2 ^ (64 - range.masks.length) → ∃ a, range.addIntlvBits b = .ok a ∧
    range.removeIntlvBits a = b ∧ range.select a = .ok (range.intlvMatch.setWidth 32)

/-- The removal leaves as many high bits clear as there are masks. -/
theorem removeIntlvBits_lt_two_pow (separated : Separated range.masks) (count : range.masks.length ≤ 64) :
    (range.removeIntlvBits a).toNat < 2 ^ (64 - range.masks.length) := by
  apply Nat.lt_pow_two_of_testBit
  intro index high
  have kept := getLsbD_removeIntlvBits separated (a := a) index
  have moved : range.keptAt index = index + range.masks.length := by
    rw [keptAt, skipLowered_of_le (masksLsb_lt separated) (by rw [length_masksLsb]; omega), length_masksLsb]
  rw [moved, BitVec.getLsbD_of_ge a _ (by omega)] at kept
  exact kept

/-- The insertion undoes the removal when the signed complement clears the lowest bits only. -/
theorem inverse_of_placeable (separated : Separated range.masks)
    (fits : range.intlvMatch.toNat < 2 ^ range.masks.length) (placeable : ∀ mask ∈ range.masks, Placeable mask) :
    range.Inverse := by
  have short := separated.length_le fun mask member => (placeable mask member).ctz64_lt
  have round : ∀ b : Addr, b.toNat < 2 ^ (64 - range.masks.length) → ∃ a, range.addIntlvBits b = .ok a ∧
      range.removeIntlvBits a = b ∧ range.Matches a := by
    intro b small
    obtain ⟨a, done⟩ : ∃ a, range.addIntlvBits b = .ok a := by
      rw [addIntlvBits_eq]
      exact placeLoop_eq_ok (fun mask member => (placeable mask member).ctz64_lt) (by omega)
    refine ⟨a, done, removeIntlvBits_of_addIntlvBits separated done small, ?_⟩
    rw [addIntlvBits_eq] at done
    intro index
    rw [List.getElem?_map]
    cases found : range.masks[index]? with
    | some mask =>
      have member := mem_of_getElem? found
      have lowest := getLsbD_placeLoop_lowest separated done found
      rw [Option.map_some, Option.getD_some, (placeable mask member).parity_eq (separated.nonzero mask member),
        lowest, Bool.xor_assoc, Bool.xor_self, Bool.xor_false, Nat.zero_add]
    | none =>
      have outside := List.getElem?_eq_none_iff.mp found
      rw [Option.map_none, Option.getD_none, BitVec.getLsbD]
      exact (Nat.testBit_lt_two_pow (Nat.lt_of_lt_of_le fits (Nat.pow_le_pow_right (by decide) outside))).symm
  constructor
  · intro a inside
    obtain ⟨_, agree⟩ := (contains_iff short).mp inside
    obtain ⟨other, done, removed, otherAgree⟩ := round _ (removeIntlvBits_lt_two_pow separated (by omega) (a := a))
    have same : ∀ mask ∈ range.masks, parity mask other = parity mask a := by
      intro mask member
      obtain ⟨index, found⟩ := List.mem_iff_getElem?.mp member
      have bits := (otherAgree index).trans (agree index).symm
      simpa [found] using bits
    rw [done, eq_of_removeIntlvBits separated same removed]
  · intro b small
    obtain ⟨a, done, removed, agree⟩ := round b small
    exact ⟨a, done, removed, (select_eq_iff short).mpr agree⟩

section Legacy
variable {start stop : Addr} {intlvHighBit xorHighBit intlvBits : BitVec 8} {high xor count : Nat}

theorem shiftOne_eq_ok {amount : Nat} {value : Addr} :
    shiftOne amount = .ok value ↔ amount < 64 ∧ 1#64 <<< amount = value := by
  unfold shiftOne
  split <;> simp_all

/-- A mask of the legacy constructor has one interleaving bit and at most one hashed bit. -/
theorem legacyMask_eq_ok {mask : Addr} (done : legacyMask intlvHighBit xorHighBit i = .ok mask) :
    (intlvHighBit - BitVec.ofNat 8 i).toNat < 64 ∧ (xorHighBit ≠ 0 → (xorHighBit - BitVec.ofNat 8 i).toNat < 64) ∧
      ∀ index, mask.getLsbD index = decide (index = (intlvHighBit - BitVec.ofNat 8 i).toNat ∨
        xorHighBit ≠ 0 ∧ index = (xorHighBit - BitVec.ofNat 8 i).toNat) := by
  simp only [legacyMask, bind_eq_ok, shiftOne_eq_ok] at done
  obtain ⟨first, ⟨firstInside, rfl⟩, done⟩ := done
  split at done
  · rename_i hashed
    simp only [bind_eq_ok, shiftOne_eq_ok, Except.ok.injEq] at done
    obtain ⟨second, ⟨secondInside, rfl⟩, rfl⟩ := done
    refine ⟨firstInside, fun _ => secondInside, ?_⟩
    intro index
    rw [BitVec.getLsbD_or, getLsbD_one_shiftLeft firstInside, getLsbD_one_shiftLeft secondInside, ← Bool.decide_or,
      decide_eq_decide, and_iff_right hashed]
  · rename_i plain
    cases done
    refine ⟨firstInside, fun hashed => absurd hashed plain, ?_⟩
    intro index
    rw [getLsbD_one_shiftLeft firstInside, decide_eq_decide, or_iff_left fun both => plain both.1]

/-- The loop puts the mask of the last pass in front. -/
theorem legacyMasks_eq_ok {length passes : Nat} {done : List Addr}
    (made : legacyMasks intlvHighBit xorHighBit length passes done = .ok masks) :
    ∃ added, masks = added ++ done ∧ added.length = passes ∧ ∀ index mask, added[index]? = some mask →
      legacyMask intlvHighBit xorHighBit (length - 1 - index) = .ok mask := by
  induction passes generalizing done with
  | zero =>
    cases made
    exact ⟨[], rfl, rfl, by simp⟩
  | succ passes ih =>
    simp only [legacyMasks, bind_eq_ok] at made
    obtain ⟨mask, pass, made⟩ := made
    obtain ⟨added, rfl, size, passesOf⟩ := ih made
    refine ⟨added ++ [mask], by simp, by simp [size], ?_⟩
    intro index other found
    by_cases early : index < passes
    · rw [List.getElem?_append_left (by omega)] at found
      exact passesOf index other found
    rw [List.getElem?_append_right (by omega)] at found
    have last : index = passes := by
      have inside : index - added.length < 1 := (List.getElem?_eq_some_iff.mp found).1
      omega
    subst last
    rw [size, Nat.sub_self] at found
    cases found
    rwa [show length - 1 - index = length - (index + 1) by omega]

/-- This structure gives the positions of the bits of each mask. -/
structure LegacyMasks (high xor count : Nat) (masks : List Addr) : Prop where
  length : masks.length = count
  intlv : count ≤ high + 1 ∧ high < 64
  hashed : xor ≠ 0 → (count ≤ xor + 1 ∧ xor < 64) ∧ (xor + count ≤ high ∨ high + count ≤ xor)
  bits : ∀ index mask, masks[index]? = some mask → ∀ position, mask.getLsbD position =
    decide (position = high + 1 + index - count ∨ xor ≠ 0 ∧ position = xor + 1 + index - count)

theorem checkXor_eq_ok {value : Unit} (interleaved : intlvBits ≠ 0)
    (checked : checkXor intlvHighBit xorHighBit intlvBits = .ok value) (hashed : xorHighBit ≠ 0) :
    xorHighBit.toNat + intlvBits.toNat ≤ intlvHighBit.toNat ∨
      intlvHighBit.toNat + intlvBits.toNat ≤ xorHighBit.toNat := by
  unfold checkXor at checked
  rw [if_pos ⟨interleaved, hashed⟩] at checked
  obtain ⟨different, checked⟩ := ite_error_eq_ok.mp checked
  split at checked
  · rename_i less
    obtain ⟨_, checked⟩ := ite_error_eq_ok.mp checked
    omega
  · rename_i notLess
    obtain ⟨_, checked⟩ := ite_error_eq_ok.mp checked
    omega

/-- The distance from a high bit stays in the byte when the lowest position is in a word. -/
theorem toNat_sub_ofNat {highBit : BitVec 8} (bounded : highBit.toNat < 64) (short : i < 64)
    (inside : (highBit - BitVec.ofNat 8 i).toNat < 64) :
    i ≤ highBit.toNat ∧ (highBit - BitVec.ofNat 8 i).toNat = highBit.toNat - i := by
  rw [BitVec.toNat_sub, BitVec.toNat_ofNat] at inside ⊢
  omega

theorem legacy_eq_ok (built : legacy start stop intlvHighBit xorHighBit intlvBits intlvMatch = .ok range)
    (interleaved : intlvBits ≠ 0) :
    LegacyMasks intlvHighBit.toNat xorHighBit.toNat intlvBits.toNat range.masks ∧
      range.intlvMatch.toNat < 2 ^ range.masks.length := by
  have positive : intlvBits.toNat ≠ 0 := fun zero => interleaved (BitVec.eq_of_toNat_eq zero)
  simp only [legacy, bind_eq_ok, checkMatch_eq_ok, Except.ok.injEq] at built
  obtain ⟨_, fits, _, checked, masks, made, rfl⟩ := built
  obtain ⟨narrow, fits⟩ := fits.resolve_left positive
  obtain ⟨added, equal, size, passes⟩ := legacyMasks_eq_ok made
  rw [append_nil] at equal
  subst equal
  have pass : ∀ index, index < intlvBits.toNat → ∃ mask, masks[index]? = some mask ∧
      legacyMask intlvHighBit xorHighBit (intlvBits.toNat - 1 - index) = .ok mask := by
    intro index inside
    have found : masks[index]? = some (masks.get ⟨index, by omega⟩) := List.getElem?_eq_getElem _
    exact ⟨_, found, passes index _ found⟩
  obtain ⟨top, _, topPass⟩ := pass (intlvBits.toNat - 1) (by omega)
  obtain ⟨bottom, _, bottomPass⟩ := pass 0 (by omega)
  obtain ⟨topHigh, topXor, _⟩ := legacyMask_eq_ok topPass
  obtain ⟨bottomHigh, bottomXor, _⟩ := legacyMask_eq_ok bottomPass
  rw [Nat.sub_self, BitVec.sub_zero] at topHigh topXor
  have highBound := (toNat_sub_ofNat topHigh (by omega) bottomHigh).1
  have nonzero : xorHighBit.toNat ≠ 0 ↔ xorHighBit ≠ 0 := by
    rw [ne_eq, ne_eq, ← BitVec.toNat_inj]
    rfl
  refine ⟨⟨size, ⟨by omega, topHigh⟩, ?_, ?_⟩, by rwa [size]⟩
  · intro hashed
    rw [nonzero] at hashed
    have xorBound := (toNat_sub_ofNat (topXor hashed) (by omega) (bottomXor hashed)).1
    exact ⟨⟨by omega, topXor hashed⟩, checkXor_eq_ok interleaved checked hashed⟩
  · intro index mask found position
    have inside : index < intlvBits.toNat := by
      have bound : index < masks.length := (List.getElem?_eq_some_iff.mp found).1
      omega
    obtain ⟨maskHigh, maskXor, bits⟩ := legacyMask_eq_ok (passes index mask found)
    have highAt := (toNat_sub_ofNat topHigh (by omega) maskHigh).2
    rw [bits, decide_eq_decide, highAt, nonzero]
    apply or_congr
    · omega
    · apply and_congr_right
      intro hashed
      rw [(toNat_sub_ofNat (topXor hashed) (by omega) (maskXor hashed)).2]
      omega

/-- The highest of the lowest bits. -/
def lowestBit (high xor : Nat) : Nat := if xor = 0 then high else min high xor

section
variable (legacy : LegacyMasks high xor count masks)
include legacy

theorem LegacyMasks.ctz64_eq {index : Nat} {mask : Addr} (found : masks[index]? = some mask) :
    ctz64 mask = lowestBit high xor + 1 + index - count := by
  apply Bitfield.ctz64_eq
  · rw [legacy.bits index mask found, decide_eq_true_eq]
    unfold lowestBit
    split <;> omega
  · intro lower below
    rw [legacy.bits index mask found, decide_eq_false_iff_not]
    unfold lowestBit at below
    split at below <;> omega

theorem LegacyMasks.separated : Separated masks := by
  have hashed := legacy.hashed
  have intlv := legacy.intlv
  constructor
  · rintro mask member rfl
    obtain ⟨index, found⟩ := List.mem_iff_getElem?.mp member
    have bit := legacy.bits index 0 found (high + 1 + index - count)
    simp at bit
  · rw [List.Nodup, pairwise_iff_getElem]
    intro first second firstInside secondInside less
    rw [getElem_map, getElem_map, legacy.ctz64_eq (List.getElem?_eq_getElem _),
      legacy.ctz64_eq (List.getElem?_eq_getElem _)]
    unfold lowestBit
    split <;> omega
  · rw [pairwise_iff_getElem]
    intro first second firstInside secondInside less
    rw [legacy.length] at secondInside
    rw [legacy.ctz64_eq (List.getElem?_eq_getElem _), legacy.ctz64_eq (List.getElem?_eq_getElem _),
      legacy.bits first _ (List.getElem?_eq_getElem _), legacy.bits second _ (List.getElem?_eq_getElem _),
      decide_eq_false_iff_not, decide_eq_false_iff_not]
    unfold lowestBit
    split <;> omega

/-- The signed complement serves the masks whose lowest bits are below the sign, and a single sign bit. -/
theorem LegacyMasks.placeable (low : xor = 0 ∧ high ≤ 31 ∨ xor ≠ 0 ∧ (high ≤ 30 ∨ xor ≤ 30)) :
    ∀ mask ∈ masks, Placeable mask := by
  intro mask member
  obtain ⟨index, found⟩ := List.mem_iff_getElem?.mp member
  have inside := (List.getElem?_eq_some_iff.mp found).1
  rw [legacy.length] at inside
  have lowest := legacy.ctz64_eq found
  unfold lowestBit at lowest
  by_cases below : ctz64 mask < 31
  · exact .inl below
  right
  have plain : xor = 0 := by
    by_contra hashed
    rw [if_neg hashed] at lowest
    omega
  rw [if_pos plain] at lowest
  refine ⟨by omega, ?_⟩
  intro position set
  rw [legacy.bits index mask found, decide_eq_true_eq] at set
  omega

end

theorem parity_pair {mask : Addr} {first second : Nat} (different : first ≠ second) (inside : second < 64)
    (bits : ∀ position, mask.getLsbD position = decide (position = first ∨ position = second)) :
    parity mask a = (a.getLsbD first ^^ a.getLsbD second) := by
  have alone : parity (1#64 <<< second) a = (a.getLsbD second ^^ parity 0 a) := by
    apply parity_split
    · simp [getLsbD_one_shiftLeft inside]
    · simp
    · intro position other
      simp [getLsbD_one_shiftLeft inside, other]
  have none : parity 0 a = false := by
    rw [parity, show a &&& 0 = 0 from BitVec.and_zero, popCount_zero]
    rfl
  rw [none, Bool.xor_false] at alone
  rw [← alone]
  apply parity_split
  · simp [bits]
  · simp [getLsbD_one_shiftLeft inside, different]
  · intro position other
    simp [bits, getLsbD_one_shiftLeft inside, other]

/-- A hashed bit above the sign bit is lost. -/
theorem LegacyMasks.not_inverse (legacy : LegacyMasks high xor count range.masks) (positive : count ≠ 0)
    (hashed : xor ≠ 0) (sign : lowestBit high xor = 31) : ¬range.Inverse := by
  intro inverse
  have separated := legacy.separated
  have length := legacy.length
  have spread := legacy.hashed hashed
  have intlv := legacy.intlv
  rw [lowestBit, if_neg hashed] at sign
  obtain ⟨mask, found⟩ : ∃ mask, range.masks[count - 1]? = some mask :=
    ⟨_, List.getElem?_eq_getElem (show count - 1 < range.masks.length by omega)⟩
  have lowest : ctz64 mask = 31 := by
    rw [legacy.ctz64_eq found, lowestBit, if_neg hashed]
    omega
  obtain ⟨upper, upperValue⟩ : ∃ upper, upper = max high xor := ⟨_, rfl⟩
  have bits : ∀ position, mask.getLsbD position = decide (position = 31 ∨ position = upper) := by
    intro position
    rw [legacy.bits _ mask found, decide_eq_decide]
    omega
  have wide : 31 < upper ∧ upper < 64 := by omega
  have power : (1#64 <<< (upper - count)).toNat = 2 ^ (upper - count) := BitVec.toNat_twoPow_of_lt (by omega)
  have small : (1#64 <<< (upper - count)).toNat < 2 ^ (64 - range.masks.length) := by
    rw [power]
    exact Nat.pow_lt_pow_right (by decide) (by omega)
  obtain ⟨a, done, removed, selected⟩ := inverse.remove_add _ small
  have agree := (select_eq_iff (by omega)).mp selected (count - 1)
  rw [List.getElem?_map, found, Option.map_some, Option.getD_some] at agree
  have upperSet : a.getLsbD upper = true := by
    have kept : range.keptAt (upper - count) = upper := by
      have bounded : ∀ position ∈ range.masksLsb, position < 32 := by
        intro position member
        obtain ⟨other, among, rfl⟩ := mem_masksLsb.mp member
        rw [addIntlvBits_eq] at done
        exact ctz64_lt_of_placeLoop done other among
      rw [keptAt, skipLowered_of_le bounded (by rw [length_masksLsb]; omega), length_masksLsb]
      omega
    have bit := getLsbD_removeIntlvBits separated (a := a) (upper - count)
    rw [removed, kept, getLsbD_one_shiftLeft (by omega)] at bit
    simpa using bit.symm
  have signBit : a.getLsbD 31 = range.intlvMatch.getLsbD (count - 1) := by
    rw [addIntlvBits_eq] at done
    have placedBit := getLsbD_placeLoop_lowest separated done found
    have lost : a &&& mask &&& keptBits 31 = 0 := by
      apply BitVec.eq_of_getLsbD_eq
      intro position inside
      rw [BitVec.getLsbD_and, BitVec.getLsbD_and, bits, getLsbD_keptBits (by decide) inside]
      by_cases here : position = 31 ∨ position = upper
      · rcases here with rfl | rfl
        · simp
        · have high : ¬position < 32 := by omega
          simp [high]
      · simp [here]
    rw [lowest, lost, Nat.zero_add, popCount_zero] at placedBit
    simpa using placedBit
  rw [parity_pair (by omega) wide.2 bits, upperSet, signBit] at agree
  simp at agree

/-- The removal and the insertion of the bits of a legacy range are inverse exactly when the signed complement reaches
the lowest bits and a hashed bit is not cut off. -/
theorem legacy_inverse_iff (built : legacy start stop intlvHighBit xorHighBit intlvBits intlvMatch = .ok range)
    (interleaved : intlvBits ≠ 0) : range.Inverse ↔ xorHighBit.toNat = 0 ∧ intlvHighBit.toNat ≤ 31 ∨
        xorHighBit.toNat ≠ 0 ∧ (intlvHighBit.toNat ≤ 30 ∨ xorHighBit.toNat ≤ 30) := by
  obtain ⟨legacy, fits⟩ := legacy_eq_ok built interleaved
  have positive : intlvBits.toNat ≠ 0 := fun zero => interleaved (BitVec.eq_of_toNat_eq zero)
  constructor
  · intro inverse
    have length := legacy.length
    obtain ⟨mask, found⟩ : ∃ mask, range.masks[intlvBits.toNat - 1]? = some mask :=
      ⟨_, List.getElem?_eq_getElem (show intlvBits.toNat - 1 < range.masks.length by omega)⟩
    obtain ⟨a, done, _⟩ := inverse.remove_add 0 (Nat.two_pow_pos _)
    rw [addIntlvBits_eq] at done
    have lowest := ctz64_lt_of_placeLoop done mask (mem_of_getElem? found)
    rw [legacy.ctz64_eq found] at lowest
    by_cases hashed : xorHighBit.toNat = 0
    · rw [lowestBit, if_pos hashed] at lowest
      omega
    · have sign : lowestBit intlvHighBit.toNat xorHighBit.toNat ≠ 31 :=
        fun last => legacy.not_inverse positive hashed last inverse
      rw [lowestBit, if_neg hashed] at lowest sign
      omega
  · intro low
    exact inverse_of_placeable legacy.separated fits (legacy.placeable low)

/-- The insertion undoes the removal for one hashed bit at a low position. -/
theorem legacy_inverse_low : ∃ range, legacy 0 0x10000 8 12 1 1 = .ok range ∧ range.Inverse := by
  have built : legacy 0 0x10000 8 12 1 1 =
      .ok { start := 0, stop := 0x10000, masks := [0x1100], intlvMatch := 1 } := rfl
  exact ⟨_, built, (legacy_inverse_iff built (by decide)).mpr (by decide)⟩

/-- An address with the interleaving bit 31 and the hashed bit 40 loses its interleaving bit. -/
theorem legacy_inverse_lost : ∃ range, legacy 0 0x20000000000 31 40 1 0 = .ok range ∧
    range.contains 0x10080000000 = .ok true ∧
    range.addIntlvBits (range.removeIntlvBits 0x10080000000) = .ok 0x10000000000 ∧ ¬range.Inverse := by
  refine ⟨_, rfl, and_of_imp (by decide +kernel) fun inside => and_of_imp (by decide +kernel) fun added inverse => ?_⟩
  have kept := inverse.add_remove _ inside
  cases added.symm.trans kept

end Legacy

end AddrRange

end Gem5
