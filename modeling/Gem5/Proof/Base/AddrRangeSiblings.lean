import Gem5.Proof.Base.AddrRangeSelection

namespace Gem5
open ToMathlib Bitfield BitVec Finset

namespace AddrRange
variable {range : AddrRange} {start stop a b : Addr} {masks : List Addr} {width : Nat}

/-- This range belongs to the interleaving of the masks and has the match value `intlvMatch`. -/
def sibling (start stop : Addr) (masks : List Addr) (intlvMatch : BitVec 8) : AddrRange :=
  { start, stop, masks, intlvMatch }

/-- The match value of the sibling that selects an address. -/
def owner (masks : List Addr) (a : Addr) : BitVec 8 :=
  match selectLoop a 0 masks 0 with
  | .ok sel => sel.setWidth 8
  | .error _ => 0

section
variable (few : masks.length ≤ 8)
include few

theorem getLsbD_owner (index : Nat) : (owner masks a).getLsbD index = (masks.map (parity · a))[index]?.getD false := by
  have short : (sibling 0 0 masks 0).masks.length ≤ 32 := by
    change masks.length ≤ 32
    omega
  obtain ⟨sel, done, bits⟩ := select_eq short (a := a)
  have loop : selectLoop a 0 masks 0 = .ok sel := done
  rw [owner, loop, getLsbD_setWidth, bits]
  by_cases inside : index < 8
  · simp [inside, sibling]
  · have outside : masks.length ≤ index := by omega
    simp [inside, outside]

theorem matches_sibling (intlvMatch : BitVec 8) :
    (sibling start stop masks intlvMatch).Matches a ↔ intlvMatch = owner masks a := by
  constructor
  · intro agree
    apply eq_of_getLsbD_eq
    intro index _
    rw [getLsbD_owner few]
    exact (agree index).symm
  · rintro rfl index
    exact (getLsbD_owner few index).symm

/-- An address belongs to the sibling of its owner and to no other one. -/
theorem contains_sibling (intlvMatch : BitVec 8) : (sibling start stop masks intlvMatch).contains a = .ok true ↔
      (start ≤ a ∧ a < stop) ∧ intlvMatch = owner masks a := by
  rw [contains_iff, matches_sibling few]
  · rfl
  · change masks.length ≤ 32
    omega

theorem parity_eq_of_owner (same : owner masks a = owner masks b) : ∀ mask ∈ masks, parity mask a = parity mask b := by
  intro mask member
  obtain ⟨index, found⟩ := List.mem_iff_getElem?.mp member
  have left := getLsbD_owner few index (a := a)
  have right := getLsbD_owner few index (a := b)
  rw [same, right] at left
  simpa [found] using left.symm

theorem owner_lt : (owner masks a).toNat < 2 ^ masks.length := by
  apply Nat.lt_pow_two_of_testBit
  intro index outside
  have bit := getLsbD_owner few index (a := a)
  rw [List.getElem?_eq_none (by simpa using outside), Option.getD_none] at bit
  exact bit

theorem ofMasks_eq {intlvMatch : BitVec 8} (fits : intlvMatch.toNat < 2 ^ masks.length) :
    ofMasks start stop masks intlvMatch = .ok (sibling start stop masks intlvMatch) := by
  have checked : checkMatch intlvMatch masks.length = .ok () := checkMatch_eq_ok.mpr (.inr ⟨by omega, fits⟩)
  rw [ofMasks, checked]
  rfl

end

theorem getOffset_eq (inside : range.start ≤ a ∧ a < range.stop) :
    range.getOffset a = range.removeIntlvBits a - range.removeIntlvBits range.start := by
  rw [getOffset, if_pos inside]
  split
  · rfl
  · rename_i plain
    simp [removeIntlvBits, plain]

/-- The width covers the interleaving bits, and the bounds are multiples of its power of two. -/
structure Aligned (range : AddrRange) (width : Nat) : Prop where
  covers : ∀ mask ∈ range.masks, ctz64 mask < width
  count : range.masks.length ≤ width
  start : 2 ^ width ∣ range.start.toNat
  stop : 2 ^ width ∣ range.stop.toNat

/-- The addresses between aligned bounds are blocks, each of which has as many addresses of every match value. -/
theorem stop_sub_start (aligned : range.Aligned width) : range.stop.toNat - range.start.toNat = 2 ^ range.masks.length *
    ((range.stop.toNat / 2 ^ width - range.start.toNat / 2 ^ width) * 2 ^ (width - range.masks.length)) := by
  rw [Nat.mul_left_comm, ← Nat.pow_add, Nat.add_sub_of_le aligned.count, Nat.sub_mul, Nat.div_mul_cancel aligned.stop,
    Nat.div_mul_cancel aligned.start]

/-- The size counts the aligned blocks between the bounds. -/
theorem size_eq (aligned : range.Aligned width) (ordered : range.start ≤ range.stop) :
    range.size.toNat = (range.stop.toNat / 2 ^ width - range.start.toNat / 2 ^ width) *
      2 ^ (width - range.masks.length) := by
  rw [size, toNat_ushiftRight, Nat.shiftRight_eq_div_pow, toNat_sub_of_le ordered, stop_sub_start aligned,
    Nat.mul_div_cancel_left _ (Nat.two_pow_pos _)]

section
variable (separated : Separated range.masks)
include separated

/-- The bounds are aligned above the highest of the lowest bits. -/
theorem exists_aligned
    (aligned : ∀ mask ∈ range.masks, 2 ^ (ctz64 mask + 1) ∣ range.start.toNat ∧ 2 ^ (ctz64 mask + 1) ∣ range.stop.toNat) :
    ∃ width, range.Aligned width := by
  by_cases empty : range.masks = []
  · exact ⟨0, by simp [empty], by simp [empty], by simp, by simp⟩
  obtain ⟨mask, member, largest⟩ := exists_max_image range.masks.toFinset ctz64
    (by simpa [nonempty_iff_ne_empty] using empty)
  have covers : ∀ other ∈ range.masks, ctz64 other < ctz64 mask + 1 := by
    intro other among
    have bound := largest other (List.mem_toFinset.mpr among)
    omega
  have bounds := aligned mask (List.mem_toFinset.mp member)
  exact ⟨ctz64 mask + 1, covers, separated.length_le covers, bounds.1, bounds.2⟩

variable (aligned : range.Aligned width)
include aligned

/-- The removal leaves the bits above the width as they are. -/
theorem removeIntlvBits_div :
    (range.removeIntlvBits a).toNat / 2 ^ (width - range.masks.length) = a.toNat / 2 ^ width := by
  apply Nat.eq_of_testBit_eq
  intro index
  rw [Nat.testBit_div_two_pow, Nat.testBit_div_two_pow]
  have kept := getLsbD_removeIntlvBits separated (a := a) (index + (width - range.masks.length))
  have moved : range.keptAt (index + (width - range.masks.length)) = index + width := by
    have count := aligned.count
    have bounded : ∀ position ∈ range.masksLsb, position < width := by
      intro position member
      obtain ⟨mask, among, rfl⟩ := mem_masksLsb.mp member
      exact aligned.covers mask among
    rw [keptAt, skipLowered_of_le bounded (by rw [length_masksLsb]; omega), length_masksLsb]
    omega
  rw [moved] at kept
  exact kept

theorem removeIntlvBits_aligned (multiple : 2 ^ width ∣ a.toNat) :
    (range.removeIntlvBits a).toNat = a.toNat / 2 ^ width * 2 ^ (width - range.masks.length) := by
  have high := removeIntlvBits_div separated aligned (a := a)
  have low : (range.removeIntlvBits a).toNat % 2 ^ (width - range.masks.length) = 0 := by
    apply Nat.eq_of_testBit_eq
    intro index
    rw [Nat.testBit_mod_two_pow, Nat.zero_testBit]
    by_cases inside : index < width - range.masks.length
    · have kept := getLsbD_removeIntlvBits separated (a := a) index
      have below : range.keptAt index < width := by
        have bound := skipLowered_le 0 index range.masksLsb
        rw [length_masksLsb] at bound
        change skipLowered 0 range.masksLsb index < width
        omega
      obtain ⟨quotient, value⟩ := multiple
      have zero : a.getLsbD (range.keptAt index) = false := by
        rw [getLsbD, value, Nat.testBit_two_pow_mul]
        simp [below]
      rw [zero] at kept
      simpa [testBit_toNat] using fun _ => kept
    · simp [inside]
  have split := Nat.div_add_mod (range.removeIntlvBits a).toNat (2 ^ (width - range.masks.length))
  rw [low, high, Nat.add_zero, Nat.mul_comm] at split
  exact split.symm

theorem getOffset_lt (inside : range.start ≤ a ∧ a < range.stop) :
    range.removeIntlvBits range.start ≤ range.removeIntlvBits a ∧ range.getOffset a < range.size := by
  have lower := le_def.mp inside.1
  have upper := lt_def.mp inside.2
  have positive : 0 < 2 ^ (width - range.masks.length) := Nat.two_pow_pos _
  have high := removeIntlvBits_div separated aligned (a := a)
  have first := removeIntlvBits_aligned separated aligned aligned.start
  have above : range.start.toNat / 2 ^ width ≤ a.toNat / 2 ^ width := Nat.div_le_div_right lower
  have below : a.toNat / 2 ^ width < range.stop.toNat / 2 ^ width := Nat.div_lt_div_of_lt_of_dvd aligned.stop upper
  have start : (range.removeIntlvBits range.start).toNat ≤ (range.removeIntlvBits a).toNat := by
    rw [first]
    exact (Nat.le_div_iff_mul_le positive).mp (high ▸ above)
  have stop : (range.removeIntlvBits a).toNat < range.stop.toNat / 2 ^ width * 2 ^ (width - range.masks.length) :=
    (Nat.div_lt_iff_lt_mul positive).mp (high ▸ below)
  have ordered : range.start ≤ range.stop := le_def.mpr (Nat.le_of_lt (Nat.lt_of_le_of_lt lower upper))
  refine ⟨le_def.mpr start, ?_⟩
  rw [getOffset_eq inside, lt_def, toNat_sub_of_le (le_def.mpr start), size_eq aligned ordered, Nat.sub_mul, first]
  omega

/-- The offsets follow the order of the addresses with the same parities. -/
theorem getOffset_increasing
    (insideA : range.start ≤ a ∧ a < range.stop) (insideB : range.start ≤ b ∧ b < range.stop) (less : a < b)
    (same : ∀ mask ∈ range.masks, parity mask a = parity mask b) : range.getOffset a < range.getOffset b := by
  have kept := removeIntlvBits_lt separated less same
  have lowerA := (getOffset_lt separated aligned insideA).1
  have lowerB := (getOffset_lt separated aligned insideB).1
  rw [getOffset_eq insideA, getOffset_eq insideB, lt_def, toNat_sub_of_le lowerA, toNat_sub_of_le lowerB]
  rw [lt_def] at kept
  rw [le_def] at lowerA
  omega

end

/-- Each address between the bounds belongs to one sibling, the siblings share the addresses out without a gap, and the
offsets follow the order of the addresses. -/
structure Tiles (start stop : Addr) (masks : List Addr) (owner : Addr → BitVec 8) : Prop where
  built : ∀ intlvMatch : BitVec 8, intlvMatch.toNat < 2 ^ masks.length →
    ofMasks start stop masks intlvMatch = .ok (sibling start stop masks intlvMatch)
  owned : ∀ a, start ≤ a → a < stop → ∀ intlvMatch,
    (sibling start stop masks intlvMatch).contains a = .ok true ↔ intlvMatch = owner a
  bijective : Set.BijOn (fun a => (owner a, (sibling start stop masks (owner a)).getOffset a))
    {a | start ≤ a ∧ a < stop}
    {pair | pair.1.toNat < 2 ^ masks.length ∧ pair.2 < (sibling start stop masks pair.1).size}
  increasing : ∀ intlvMatch a b, (sibling start stop masks intlvMatch).contains a = .ok true →
    (sibling start stop masks intlvMatch).contains b = .ok true → a < b →
    (sibling start stop masks intlvMatch).getOffset a < (sibling start stop masks intlvMatch).getOffset b

theorem eq_of_getOffset (few : masks.length ≤ 8) (separated : Separated masks) (insideA : start ≤ a ∧ a < stop)
    (insideB : start ≤ b ∧ b < stop) (same : owner masks a = owner masks b)
    (equal : (sibling start stop masks 0).getOffset a = (sibling start stop masks 0).getOffset b) : a = b := by
  rw [getOffset_eq insideA, getOffset_eq insideB] at equal
  have kept := (BitVec.sub_left_inj _).mp equal
  exact eq_of_removeIntlvBits separated (parity_eq_of_owner few same) kept

/-- Each pair of a match value and an offset comes from an address. -/
theorem exists_getOffset (few : masks.length ≤ 8) (separated : Separated masks)
    (aligned : (sibling start stop masks 0).Aligned width) (ordered : start ≤ stop) {intlvMatch : BitVec 8}
    {offset : Addr} (fits : intlvMatch.toNat < 2 ^ masks.length) (small : offset < (sibling start stop masks 0).size) :
    ∃ a, (start ≤ a ∧ a < stop) ∧ owner masks a = intlvMatch ∧ (sibling start stop masks 0).getOffset a = offset := by
  let pairOf : Nat → Nat × Nat := fun value => ((owner masks (BitVec.ofNat 64 value)).toNat,
    ((sibling start stop masks 0).getOffset (BitVec.ofNat 64 value)).toNat)
  have word : ∀ value ∈ Finset.Ico start.toNat stop.toNat, (BitVec.ofNat 64 value).toNat = value ∧
      start ≤ BitVec.ofNat 64 value ∧ BitVec.ofNat 64 value < stop := by
    intro value member
    rw [mem_Ico] at member
    have bounded : value < 2 ^ 64 := Nat.lt_trans member.2 stop.isLt
    have same : (BitVec.ofNat 64 value).toNat = value := by
      rw [toNat_ofNat, Nat.mod_eq_of_lt bounded]
    refine ⟨same, ?_, ?_⟩
    · rw [le_def, same]
      exact member.1
    · rw [lt_def, same]
      exact member.2
  have maps : Set.MapsTo pairOf (Finset.Ico start.toNat stop.toNat)
      (range (2 ^ masks.length) ×ˢ range (sibling start stop masks 0).size.toNat : Finset (Nat × Nat)) := by
    intro value member
    obtain ⟨_, inside⟩ := word value (mem_coe.mp member)
    rw [mem_coe, mem_product, mem_range, mem_range]
    exact ⟨owner_lt few, lt_def.mp (getOffset_lt separated aligned inside).2⟩
  have injective : Set.InjOn pairOf (Finset.Ico start.toNat stop.toNat) := by
    intro first firstMember second secondMember equal
    obtain ⟨firstValue, firstInside⟩ := word first (mem_coe.mp firstMember)
    obtain ⟨secondValue, secondInside⟩ := word second (mem_coe.mp secondMember)
    have owners : owner masks (BitVec.ofNat 64 first) = owner masks (BitVec.ofNat 64 second) :=
      BitVec.eq_of_toNat_eq (congrArg Prod.fst equal)
    have offsets := BitVec.eq_of_toNat_eq (congrArg Prod.snd equal)
    have words := eq_of_getOffset few separated firstInside secondInside owners offsets
    rw [← firstValue, ← secondValue, words]
  have surjective := surjOn_of_injOn_of_card_le pairOf maps injective (by
    rw [card_product, card_range, card_range, Nat.card_Ico, size_eq aligned ordered]
    exact (stop_sub_start aligned).ge)
  have target : (intlvMatch.toNat, offset.toNat) ∈ (range (2 ^ masks.length) ×ˢ
      range (sibling start stop masks 0).size.toNat : Finset (Nat × Nat)) := by
    rw [mem_product, mem_range, mem_range]
    exact ⟨fits, lt_def.mp small⟩
  obtain ⟨value, member, equal⟩ := surjective (mem_coe.mpr target)
  obtain ⟨_, inside⟩ := word value (mem_coe.mp member)
  exact ⟨BitVec.ofNat 64 value, inside, BitVec.eq_of_toNat_eq (congrArg Prod.fst equal),
    BitVec.eq_of_toNat_eq (congrArg Prod.snd equal)⟩

/-- Interleaved siblings with aligned bounds tile the addresses between the bounds. -/
theorem siblings_tile (few : masks.length ≤ 8) (separated : Separated masks) (ordered : start ≤ stop)
    (aligned : ∀ mask ∈ masks, 2 ^ (ctz64 mask + 1) ∣ start.toNat ∧ 2 ^ (ctz64 mask + 1) ∣ stop.toNat) :
    Tiles start stop masks (owner masks) := by
  have wide : ∃ width, (sibling start stop masks 0).Aligned width := exists_aligned separated aligned
  obtain ⟨width, alignedBounds⟩ := wide
  constructor
  · intro intlvMatch fits
    exact ofMasks_eq few fits
  · intro a lower upper intlvMatch
    rw [contains_sibling few]
    exact and_iff_right ⟨lower, upper⟩
  · refine ⟨?_, ?_, ?_⟩
    · intro a inside
      exact ⟨owner_lt few, (getOffset_lt separated alignedBounds inside).2⟩
    · intro a insideA b insideB equal
      exact eq_of_getOffset few separated insideA insideB (congrArg Prod.fst equal) (congrArg Prod.snd equal)
    · rintro ⟨intlvMatch, offset⟩ ⟨fits, small⟩
      obtain ⟨a, inside, rfl, rfl⟩ := exists_getOffset few separated alignedBounds ordered fits small
      exact ⟨a, inside, rfl⟩
  · intro intlvMatch a b containsA containsB less
    obtain ⟨insideA, ownerA⟩ := (contains_sibling few intlvMatch).mp containsA
    obtain ⟨insideB, ownerB⟩ := (contains_sibling few intlvMatch).mp containsB
    apply getOffset_increasing separated alignedBounds insideA insideB less
    exact parity_eq_of_owner few (ownerA.symm.trans ownerB)

/-- Two hashed interleaving bits share out the first 64 KiB. -/
theorem siblings_tile_hashed : Tiles 0 0x10000 [0x4100, 0x8200] (owner [0x4100, 0x8200]) := by
  have first : ctz64 0x4100#64 = 8 := by decide
  have second : ctz64 0x8200#64 = 9 := by decide
  apply siblings_tile
  · decide
  · constructor
    · simp
    · simp [first, second]
    · simp [first, second]
  · decide
  · simp [first, second]

end AddrRange

end Gem5
