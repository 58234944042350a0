import Gem5.Construction.Mem.SuperBlk

namespace Gem5
open ToMathlib Bitfield SuperBlk Function

namespace SuperBlk
variable {Key : Type} {numBlocks blkSize : Nat} {superblock next : SuperBlk Key numBlocks}
  {offset : Fin numBlocks}

/-- This function counts the valid blocks. -/
def numValid (superblock : SuperBlk Key numBlocks) : Nat := ∑ offset, if (superblock.blks offset).valid then 1 else 0

/-- This function adds the sizes of the valid blocks. -/
def usedBits (superblock : SuperBlk Key numBlocks) : Nat :=
  ∑ offset, if (superblock.blks offset).valid then (superblock.blks offset).size else 0

/-- The blocks of a superblock share its space in equal parts. -/
structure Fits (blkSize : Nat) (superblock : SuperBlk Key numBlocks) : Prop where
  sized : superblock.blkSize = blkSize
  counted : superblock.validCounter = superblock.numValid
  factor : superblock.compressionFactor < 2 ^ 8
  several : 2 ≤ superblock.validCounter → superblock.validCounter ≤ superblock.compressionFactor
  small : ∀ offset, (superblock.blks offset).valid = true → (superblock.blks offset).size ≤ 8 * blkSize
  shared : ∀ offset, (superblock.blks offset).valid = true →
    (superblock.blks offset).size * superblock.compressionFactor ≤ 8 * blkSize

theorem Fits.init (blkSize : Nat) : (init blkSize : SuperBlk Key numBlocks).Fits blkSize where
  sized := rfl
  counted := by simp [SuperBlk.init, numValid]
  factor := by simp [SuperBlk.init]
  several := by simp [SuperBlk.init]
  small := by simp [SuperBlk.init]
  shared := by simp [SuperBlk.init]

theorem usedBits_le {bound : Nat}
    (small : ∀ offset, (superblock.blks offset).valid = true → (superblock.blks offset).size ≤ bound) :
    superblock.usedBits ≤ superblock.numValid * bound := by
  rw [usedBits, numValid, Finset.sum_mul]
  refine Finset.sum_le_sum fun offset _ => ?_
  split
  · next valid =>
      rw [Nat.one_mul]
      exact small offset valid
  · exact Nat.zero_le _

theorem Fits.usedBits_le (held : superblock.Fits blkSize) : superblock.usedBits ≤ blkSize * 8 := by
  by_cases few : superblock.validCounter < 2
  · have bound := SuperBlk.usedBits_le held.small
    rw [← held.counted] at bound
    have product : superblock.validCounter * (8 * blkSize) ≤ 1 * (8 * blkSize) := Nat.mul_le_mul_right _ (by omega)
    omega
  · have several := held.several (by omega)
    have positive : 0 < superblock.compressionFactor := by omega
    have bound : superblock.usedBits ≤ superblock.numValid * (8 * blkSize / superblock.compressionFactor) :=
      SuperBlk.usedBits_le fun offset valid => (Nat.le_div_iff_mul_le positive).mpr (held.shared offset valid)
    have product : superblock.validCounter * (8 * blkSize / superblock.compressionFactor) ≤
        superblock.compressionFactor * (8 * blkSize / superblock.compressionFactor) := Nat.mul_le_mul_right _ several
    have whole : superblock.compressionFactor * (8 * blkSize / superblock.compressionFactor) ≤ 8 * blkSize :=
      Nat.mul_div_le _ _
    rw [← held.counted] at bound
    omega

/-- A changed block changes the number of valid blocks by itself only. -/
theorem numValid_setBlk (superblock : SuperBlk Key numBlocks) (offset : Fin numBlocks) (blk : CompressionBlk) :
    (superblock.setBlk offset blk).numValid + (if (superblock.blks offset).valid then 1 else 0) =
      superblock.numValid + (if blk.valid then 1 else 0) :=
  sum_update (fun blk : CompressionBlk => if blk.valid then 1 else 0) superblock.blks offset blk

section
variable (held : superblock.Fits blkSize)
include held

theorem Fits.invalidate (done : superblock.invalidate offset = .ok next) :
    next.Fits blkSize ∧ (next.blks offset).valid = false ∧
      ∀ other, (superblock.blks other).valid = false → (next.blks other).valid = false := by
  obtain ⟨valid, made⟩ := assert_bind_eq_ok.mp done
  let cleared := { superblock.blks offset with valid := false, compressed := false }
  have fewer := numValid_setBlk superblock offset cleared
  rw [if_pos valid, if_neg (show ¬ cleared.valid = true from nofun), ← held.counted] at fewer
  have factor := held.factor
  have several := held.several
  have lower : (superblock.validCounter + 2 ^ 8 - 1) % 2 ^ 8 = superblock.validCounter - 1 := by omega
  have count := (Nat.eq_sub_of_add_eq fewer).symm
  have invalid : (update superblock.blks offset cleared offset).valid = false := by rw [update_self]
  have small := (forall_update_iff superblock.blks (a := offset) (b := cleared)
    (p := fun _ blk => blk.valid = true → blk.size ≤ 8 * blkSize)).mpr ⟨nofun, fun other _ => held.small other⟩
  have shared := (forall_update_iff superblock.blks (a := offset) (b := cleared)
    (p := fun _ blk => blk.valid = true → blk.size * superblock.compressionFactor ≤ 8 * blkSize)).mpr
      ⟨nofun, fun other _ => held.shared other⟩
  have stays := (forall_update_iff superblock.blks (a := offset) (b := cleared)
    (p := fun other blk => (superblock.blks other).valid = false → blk.valid = false)).mpr
      ⟨fun _ => rfl, fun _ _ invalid => invalid⟩
  simp only [lower] at made
  split at made
  · cases made
    refine ⟨⟨held.sized, count, by simp, ?_, small, ?_⟩, invalid, stays⟩
    · simp only
      omega
    · intro other valid
      rw [Nat.mul_one]
      exact small other valid
  · cases made
    refine ⟨⟨held.sized, count, factor, ?_, small, shared⟩, invalid, stays⟩
    simp only [setBlk]
    omega

theorem Fits.evict {offsets : List (Fin numBlocks)} (done : superblock.evict offsets = .ok next) :
    next.Fits blkSize ∧ (∀ offset ∈ offsets, (next.blks offset).valid = false) ∧
      ∀ other, (superblock.blks other).valid = false → (next.blks other).valid = false := by
  induction offsets generalizing superblock with
  | nil =>
    cases done
    exact ⟨held, by simp, fun _ invalid => invalid⟩
  | cons offset rest ih =>
    unfold evict at done
    split at done
    · obtain ⟨middle, invalidated, done⟩ := bind_eq_ok.mp done
      obtain ⟨kept, cleared, stays⟩ := held.invalidate invalidated
      obtain ⟨final, empty, later⟩ := ih kept done
      refine ⟨final, ?_, fun other invalid => later other (stays other invalid)⟩
      exact List.forall_mem_cons.mpr ⟨later offset cleared, empty⟩
    · rename_i invalid
      rw [Bool.not_eq_true] at invalid
      obtain ⟨final, empty, later⟩ := ih held done
      exact ⟨final, List.forall_mem_cons.mpr ⟨later offset invalid, empty⟩, later⟩

end

/-- The block gets its size, and a block that is alone sets the factor. -/
theorem setSizeBits_eq_ok {size : Nat} (done : superblock.setSizeBits offset size = .ok next) :
    ∃ compressed, next = { superblock with
      blks := update superblock.blks offset { superblock.blks offset with size, compressed }
      compressionFactor :=
        if superblock.validCounter ≤ 1 then superblock.calculateCompressionFactor size
        else superblock.compressionFactor } := by
  obtain ⟨_, _, made⟩ := bind_eq_ok.mp done
  refine ⟨(next.blks offset).compressed, ?_⟩
  cases made
  by_cases alone : superblock.validCounter ≤ 1
  · simp only [setCompressionFactor, setBlk, alone, if_true, update_self, update_idem]
    rfl
  · simp only [setCompressionFactor, setBlk, alone, if_false, update_self, update_idem]

theorem insert_eq_ok [DecidableEq Key] {key : Key} (done : superblock.insert offset key = .ok next) :
    (superblock.blks offset).valid = false ∧ next.blkSize = superblock.blkSize ∧
      next.compressionFactor = superblock.compressionFactor ∧
      next.validCounter = (superblock.validCounter + 1) % 2 ^ 8 ∧
      next.blks = update superblock.blks offset { superblock.blks offset with valid := true } := by
  obtain ⟨invalid, made⟩ := assert_bind_eq_ok.mp done
  refine ⟨invalid, ?_⟩
  split at made
  · cases made
  · cases made
    cases superblock.isValid <;> exact ⟨rfl, rfl, rfl, rfl⟩

/-- A new block that gets at most its part keeps the parts of a superblock. -/
theorem Fits.place [DecidableEq Key] {key : Key} {size factor : Nat} {inserted : SuperBlk Key numBlocks}
    (held : superblock.Fits blkSize)
    (filled : superblock.insert offset key = .ok inserted) (done : inserted.setSizeBits offset size = .ok next)
    (chosen : (if inserted.validCounter ≤ 1 then inserted.calculateCompressionFactor size
      else inserted.compressionFactor) = factor)
    (bounded : factor < 2 ^ 8) (room : superblock.validCounter = 0 ∨ superblock.validCounter < factor)
    (small : size ≤ 8 * blkSize) (part : size * factor ≤ 8 * blkSize)
    (others : ∀ other, (superblock.blks other).valid = true → (superblock.blks other).size * factor ≤ 8 * blkSize) :
    next.Fits blkSize := by
  obtain ⟨invalid, sized, _, counter, blks⟩ := insert_eq_ok filled
  obtain ⟨compressed, rfl⟩ := setSizeBits_eq_ok done
  rw [chosen]
  have fits : superblock.validCounter + 1 < 2 ^ 8 := by omega
  rw [Nat.mod_eq_of_lt fits] at counter
  have newBlks : update inserted.blks offset { inserted.blks offset with size, compressed } =
      update superblock.blks offset { valid := true, size, compressed } := by
    rw [blks, update_self, update_idem]
  rw [newBlks]
  refine ⟨sized.trans held.sized, ?_, bounded, ?_, ?_, ?_⟩
  · have more := numValid_setBlk superblock offset { valid := true, size, compressed }
    rw [if_neg (by simp [invalid]), if_pos rfl, ← held.counted, Nat.add_zero] at more
    exact counter.trans more.symm
  · simp only [counter]
    omega
  · exact (forall_update_iff superblock.blks (p := fun _ blk => blk.valid = true → blk.size ≤ 8 * blkSize)).mpr
      ⟨fun _ => small, fun other _ => held.small other⟩
  · exact (forall_update_iff superblock.blks (p := fun _ blk => blk.valid = true → blk.size * factor ≤ 8 * blkSize)).mpr
      ⟨fun _ => part, fun other _ => others other⟩

theorem alignToPowerOfTwo_two_pow_le (exponent : Nat) :
    (alignToPowerOfTwo (BitVec.ofNat 64 (2 ^ exponent))).toNat ≤ 2 ^ exponent := by
  by_cases inside : exponent < 64
  · have aligned : ∀ exponent < 64, (alignToPowerOfTwo (BitVec.ofNat 64 (2 ^ exponent))).toNat ≤ 2 ^ exponent := by
      decide
    exact aligned exponent inside
  · exact (BitVec.isLt _).le.trans (Nat.pow_le_pow_right (by decide) (Nat.le_of_not_lt inside))

/-- The factor of a block leaves room for it, if the superblock holds a power of two of such blocks. -/
theorem mul_calculateCompressionFactor_le {size : Nat} (small : size ≤ superblock.blkSizeBits)
    (aligned : size = 0 ∨ (∃ exponent, superblock.blkSizeBits / size = 2 ^ exponent) ∨
      numBlocks ≤ superblock.blkSizeBits / size) :
    size * superblock.calculateCompressionFactor size ≤ superblock.blkSizeBits := by
  by_cases zero : size = 0
  · rw [zero, Nat.zero_mul]
    exact Nat.zero_le _
  have factor : superblock.calculateCompressionFactor size ≤ superblock.blkSizeBits / size := by
    refine (Nat.mod_le _ _).trans ?_
    rcases aligned.resolve_left zero with ⟨exponent, power⟩ | wide
    · refine (Nat.min_le_left _ _).trans ?_
      rw [if_neg (by omega), if_neg zero, power]
      exact alignToPowerOfTwo_two_pow_le exponent
    · exact (Nat.min_le_right _ _).trans wide
  exact (Nat.mul_le_mul_left size factor).trans (Nat.mul_div_le _ _)

end SuperBlk

namespace CompressedTags
variable {Key : Type} [DecidableEq Key] {numSectors numBlocks blkSize : Nat}
  {tags next : CompressedTags Key numSectors numBlocks} {op : Op Key numSectors numBlocks}

/-- The replacement policy chooses one of the possible entries. -/
def Allowed (_ : CompressedTags Key numSectors numBlocks) : Op Key numSectors numBlocks → Prop
  | .allocateBlock entries _ _ _ choice => entries = [] ∨ choice ∈ entries
  | .invalidate _ _ => True

/-- A block that does not share a superblock is not larger than an uncompressed one, and a superblock holds a power of
two of such blocks or as many of them as it has places. -/
def Aligned (tags : CompressedTags Key numSectors numBlocks) : Op Key numSectors numBlocks → Prop
  | .allocateBlock entries key offset size choice =>
    entries.find? (tags.coAllocates key offset size) = none → size ≤ (tags.superBlks choice).blkSizeBits ∧
        (size = 0 ∨ (∃ exponent, (tags.superBlks choice).blkSizeBits / size = 2 ^ exponent) ∨
          numBlocks ≤ (tags.superBlks choice).blkSizeBits / size)
  | .invalidate _ _ => True

/-- A block that shares a superblock leaves room in it. -/
theorem place_coAllocates {key : Key} {offset : Fin numBlocks} {size : Nat} {sector : Fin numSectors}
    {placed : SuperBlk Key numBlocks} (held : (tags.superBlks sector).Fits blkSize)
    (shares : tags.coAllocates key offset size sector = true)
    (done : place (tags.superBlks sector) key offset size true = .ok placed) : placed.Fits blkSize := by
  simp only [coAllocates, canCoAllocate, matchKey, isValid, Bool.and_eq_true, decide_eq_true_eq] at shares
  obtain ⟨⟨⟨⟨occupied, _⟩, _⟩, _⟩, room, part⟩ := shares
  generalize tags.superBlks sector = superblock at *
  obtain ⟨_, unchanged, done⟩ := bind_eq_ok.mp done
  cases unchanged
  obtain ⟨inserted, filled, sized⟩ := bind_eq_ok.mp done
  obtain ⟨_, _, factor, counter, _⟩ := insert_eq_ok filled
  have bounded := held.factor
  have positive : 0 < superblock.compressionFactor := by omega
  have within : size * superblock.compressionFactor ≤ 8 * blkSize := by
    rw [blkSizeBits, held.sized] at part
    exact (Nat.le_div_iff_mul_le positive).mp part
  refine held.place filled sized ?_ bounded (.inr room) ?_ within held.shared
  · rw [if_neg (by omega), factor]
  · exact (Nat.le_mul_of_pos_right size positive).trans within

/-- A block that is alone in a superblock has room in it. -/
theorem place_alone {key : Key} {offset : Fin numBlocks} {size : Nat} {superblock placed : SuperBlk Key numBlocks}
    (held : superblock.Fits blkSize) (small : size ≤ superblock.blkSizeBits)
    (aligned : size = 0 ∨ (∃ exponent, superblock.blkSizeBits / size = 2 ^ exponent) ∨
      numBlocks ≤ superblock.blkSizeBits / size)
    (done : place superblock key offset size false = .ok placed) : placed.Fits blkSize := by
  obtain ⟨room, evicted, done⟩ := bind_eq_ok.mp done
  obtain ⟨inserted, filled, sized⟩ := bind_eq_ok.mp done
  obtain ⟨kept, empty, _⟩ := held.evict evicted
  have cleared : ∀ other, (room.blks other).valid = false := fun other => empty other (List.mem_finRange other)
  have zero : room.validCounter = 0 := by
    rw [kept.counted, numValid]
    exact Finset.sum_eq_zero fun other _ => by rw [cleared other]; rfl
  obtain ⟨_, same, _, counter, _⟩ := insert_eq_ok filled
  have size8 : inserted.blkSizeBits = superblock.blkSizeBits := by
    rw [blkSizeBits, blkSizeBits, same, kept.sized, held.sized]
  have part : size * inserted.calculateCompressionFactor size ≤ inserted.blkSizeBits :=
    mul_calculateCompressionFactor_le (size8 ▸ small) (size8 ▸ aligned)
  have bits : inserted.blkSizeBits = 8 * blkSize := by rw [size8, blkSizeBits, held.sized]
  refine kept.place filled sized (if_pos (by omega)) (Nat.mod_lt _ (by decide)) (.inl zero) ?_ ?_ ?_
  · rw [← bits, size8]
    exact small
  · rw [← bits]
    exact part
  · intro other valid
    rw [cleared other] at valid
    cases valid

theorem step_fits (held : ∀ sector, (tags.superBlks sector).Fits blkSize) (aligned : tags.Aligned op)
    (done : tags.step op = .ok next) : ∀ sector, (next.superBlks sector).Fits blkSize := by
  have updated : ∀ (changed : Fin numSectors) (superblock : SuperBlk Key numBlocks), superblock.Fits blkSize →
      ∀ sector, (update tags.superBlks changed superblock sector).Fits blkSize := by
    intro changed superblock fits
    exact (forall_update_iff tags.superBlks (p := fun _ superblock => superblock.Fits blkSize)).mpr
      ⟨fits, fun other _ => held other⟩
  cases op with
  | allocateBlock entries key offset size choice =>
    simp only [step, allocateBlock, findVictim] at done
    cases found : entries.find? (tags.coAllocates key offset size) with
    | some sector =>
      simp only [found] at done
      obtain ⟨placed, filled, rfl⟩ := bind_ok_eq_ok.mp done
      exact updated sector placed (place_coAllocates (held sector) (List.find?_some found) filled)
    | none =>
      simp only [found] at done
      obtain ⟨small, parts⟩ := aligned found
      by_cases empty : entries = []
      · simp only [empty, if_true] at done
        cases done
        exact held
      · simp only [empty, if_false] at done
        obtain ⟨placed, filled, rfl⟩ := bind_ok_eq_ok.mp done
        exact updated choice placed (place_alone (held choice) small parts filled)
  | invalidate sector offset =>
    obtain ⟨superblock, invalidated, rfl⟩ := bind_ok_eq_ok.mp done
    exact updated sector superblock ((held sector).invalidate invalidated).1

/-- These are the tag stores under all operations. -/
def tagStores (Key : Type) [DecidableEq Key] (numSectors numBlocks : Nat) :
    Machine (CompressedTags Key numSectors numBlocks) (Op Key numSectors numBlocks) Fault where
  guard := Allowed
  step := step

/-- These are the tag stores whose superblocks start with aligned blocks. -/
def alignedTagStores (Key : Type) [DecidableEq Key] (numSectors numBlocks : Nat) :
    Machine (CompressedTags Key numSectors numBlocks) (Op Key numSectors numBlocks) Fault where
  guard := fun tags op => tags.Allowed op ∧ tags.Aligned op
  step := step

/-- The blocks that share a superblock fit into one uncompressed block, if superblocks start with aligned blocks. -/
theorem superblock_capacity {history : List (Op Key numSectors numBlocks)}
    (run : (alignedTagStores Key numSectors numBlocks).Run (.init blkSize) history tags) (sector : Fin numSectors) :
    (tags.superBlks sector).usedBits ≤ blkSize * 8 := by
  have held := run.invariant (fun tags => ∀ sector, (tags.superBlks sector).Fits blkSize)
    (fun _ => SuperBlk.Fits.init blkSize) ?_
  · exact (held sector).usedBits_le
  · intro before op after held allowed stepped
    exact step_fits held allowed.2 stepped

/-- Four blocks of a quarter of the space share a superblock. -/
theorem superblock_capacity_four : ∃ tags, (alignedTagStores Nat 1 4).Run (.init 64)
      [.allocateBlock [0] 7 3 128 0, .allocateBlock [0] 7 2 128 0, .allocateBlock [0] 7 1 128 0,
        .allocateBlock [0] 7 0 128 0] tags ∧
    (tags.superBlks 0).usedBits = 512 ∧ (tags.superBlks 0).usedBits ≤ 64 * 8 := by
  refine ⟨_, and_of_imp (.cons (.cons (.cons (.cons .nil ⟨.inr (by decide), ?_⟩ rfl) ⟨.inr (by decide), ?_⟩ rfl)
    ⟨.inr (by decide), ?_⟩ rfl) ⟨.inr (by decide), ?_⟩ rfl) fun run => ⟨by decide, superblock_capacity run 0⟩⟩
  all_goals exact fun _ => ⟨by decide, .inr (.inl ⟨2, rfl⟩)⟩

/-- A block of a third of the space gets the factor four, and three blocks of a quarter of the space join it. -/
theorem superblock_capacity_exceeded : ∃ tags, (tagStores Nat 1 4).Run (.init 64)
      [.allocateBlock [0] 7 3 128 0, .allocateBlock [0] 7 2 128 0, .allocateBlock [0] 7 1 128 0,
        .allocateBlock [0] 7 0 170 0] tags ∧
    (tags.superBlks 0).usedBits = 554 ∧ 64 * 8 < (tags.superBlks 0).usedBits :=
  ⟨_, .cons (.cons (.cons (.cons .nil (.inr (by decide)) rfl) (.inr (by decide)) rfl) (.inr (by decide)) rfl)
    (.inr (by decide)) rfl, by decide, by decide⟩

end CompressedTags
end Gem5
