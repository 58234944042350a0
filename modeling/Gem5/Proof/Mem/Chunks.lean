import Gem5.Proof.Base.Bitfield
import Gem5.Construction.Mem.Compressor

namespace Gem5.Compression.ChunkSize
open Bitfield List
variable {size : ChunkSize} {chunk word : BitVec 64} {chunks data : List (BitVec 64)} {i j r words : Nat}

theorem perWord_mul (size : ChunkSize) : size.perWord * size.bits = 64 :=
  Nat.div_mul_cancel (Nat.dvd_of_mod_eq_zero size.divides)

theorem perWord_pos (size : ChunkSize) : 0 < size.perWord := by
  rcases Nat.eq_zero_or_pos size.perWord with zero | positive
  · have product := size.perWord_mul
    simp [zero] at product
  · exact positive

/-- This function finds the chunk that contains a bit of a word. -/
def chunkOf (size : ChunkSize) (j r : Nat) : Nat := size.perWord * j + r / size.bits

theorem div_bits_lt (inside : r < 64) : r / size.bits < size.perWord := by
  rw [Nat.div_lt_iff_lt_mul size.positive, size.perWord_mul]
  exact inside

theorem chunkOf_div (inside : r < 64) : size.chunkOf j r / size.perWord = j := by
  rw [chunkOf, Nat.mul_add_div size.perWord_pos, Nat.div_eq_of_lt (div_bits_lt inside), Nat.add_zero]

theorem chunkOf_mod (inside : r < 64) : size.chunkOf j r % size.perWord = r / size.bits := by
  rw [chunkOf, Nat.mul_add_mod, Nat.mod_eq_of_lt (div_bits_lt inside)]

theorem highest_add_one (size : ChunkSize) (i : Nat) : size.highest i + 1 = (i % size.perWord + 1) * size.bits := by
  have positive := size.positive
  rw [highest, Nat.add_one_mul]
  omega

theorem highest_lt (size : ChunkSize) (i : Nat) : size.highest i < 64 := by
  have above := size.highest_add_one i
  have bound : (i % size.perWord + 1) * size.bits ≤ size.perWord * size.bits :=
    Nat.mul_le_mul_right _ (Nat.mod_lt i size.perWord_pos)
  rw [size.perWord_mul] at bound
  omega

theorem width_eq (size : ChunkSize) (i : Nat) : size.highest i - size.lowest i + 1 = size.bits := by
  have above := size.highest_add_one i
  rw [Nat.add_one_mul] at above
  have ordered := size.lowest_le_highest i
  unfold lowest at ordered ⊢
  omega

theorem getLsbD_of_mem_toChunks (member : chunk ∈ size.toChunks data) (above : size.bits ≤ r) :
    chunk.getLsbD r = false := by
  obtain ⟨i, _, rfl⟩ := mem_map.mp member
  rw [getLsbD_bits, size.width_eq, decide_eq_false (Nat.not_lt.mpr above), Bool.and_false]

/-- A chunk covers exactly the bits of its word that it contains. -/
theorem covers_iff (inside : r < 64) :
    (i / size.perWord = j ∧ size.lowest i ≤ r ∧ r < size.highest i + 1) ↔ size.chunkOf j r = i := by
  have quotient : (size.lowest i ≤ r ∧ r < size.highest i + 1) ↔ r / size.bits = i % size.perWord := by
    rw [size.highest_add_one, lowest, Nat.div_eq_iff size.positive]
    rw [Nat.add_one_mul]
    have positive := size.positive
    omega
  rw [quotient]
  constructor
  · rintro ⟨rfl, part⟩
    rw [chunkOf, part, Nat.div_add_mod]
  · rintro rfl
    exact ⟨chunkOf_div inside, (chunkOf_mod inside).symm⟩

/-- A written chunk changes the bits that it covers only. -/
theorem getLsbD_modify (bounded : j < data.length) (inside : r < 64) : ((data.modify (i / size.perWord) fun word =>
        insertBits word (size.highest i) (size.lowest i) (size.lowest_le_highest i) chunk).getD j 0).getLsbD r =
      if size.chunkOf j r = i then chunk.getLsbD (r % size.bits) else (data.getD j 0).getLsbD r := by
  have highest := size.highest_lt i
  have entry : (data.modify (i / size.perWord) fun word =>
        insertBits word (size.highest i) (size.lowest i) (size.lowest_le_highest i) chunk).getD j 0 =
      if i / size.perWord = j then
        insertBits (data.getD j 0) (size.highest i) (size.lowest i) (size.lowest_le_highest i) chunk
      else data.getD j 0 := by
    rw [getD_eq_getElem?_getD, getElem?_modify, getD_eq_getElem?_getD, getElem?_eq_getElem bounded]
    split <;> rfl
  rw [entry]
  by_cases covered : size.chunkOf j r = i
  · obtain ⟨same, low, high⟩ := (covers_iff inside).mpr covered
    rw [if_pos same, if_pos covered, getLsbD_insertBits _ inside, Nat.mod_eq_of_lt (by omega), if_pos ⟨low, high⟩]
    congr 1
    rw [lowest, ← covered, chunkOf_mod inside]
    have split := Nat.div_add_mod' r size.bits
    omega
  · rw [if_neg covered]
    split
    · rename_i same
      have outside : ¬ (size.lowest i ≤ r ∧ r < size.highest i + 1) :=
        fun within => covered ((covers_iff inside).mp ⟨same, within⟩)
      rw [getLsbD_insertBits _ inside, Nat.mod_eq_of_lt (by omega), if_neg outside]
    · rfl

theorem length_writeChunks (size : ChunkSize) (i : Nat) (chunks data : List (BitVec 64)) :
    (size.writeChunks i chunks data).length = data.length := by
  induction chunks generalizing i data with
  | nil => rfl
  | cons chunk rest ih => rw [writeChunks, ih, length_modify]

/-- Each bit of the written words comes from the chunk that contains it. -/
theorem getLsbD_writeChunks (bounded : j < data.length) (inside : r < 64) (later : i ≤ size.chunkOf j r)
    (found : chunks[size.chunkOf j r - i]? = some chunk) :
    ((size.writeChunks i chunks data).getD j 0).getLsbD r = chunk.getLsbD (r % size.bits) := by
  have untouched : ∀ (chunks data : List (BitVec 64)) (i : Nat), j < data.length → size.chunkOf j r < i →
      ((size.writeChunks i chunks data).getD j 0).getLsbD r = (data.getD j 0).getLsbD r := by
    intro chunks
    induction chunks with
    | nil => exact fun _ _ _ _ => rfl
    | cons chunk rest ih =>
      intro data i bounded before
      rw [writeChunks, ih _ _ (by rwa [length_modify]) (by omega), getLsbD_modify bounded inside, if_neg (by omega)]
  induction chunks generalizing i data with
  | nil => simp at found
  | cons first rest ih =>
    rw [writeChunks]
    by_cases here : size.chunkOf j r = i
    · rw [here, Nat.sub_self, getElem?_cons_zero] at found
      cases found
      rw [untouched rest _ _ (by rwa [length_modify]) (by omega), getLsbD_modify bounded inside, if_pos here]
    · apply ih (by rwa [length_modify]) (by omega)
      rw [← found, show size.chunkOf j r - i = size.chunkOf j r - (i + 1) + 1 by omega, getElem?_cons_succ]

theorem length_toChunks (size : ChunkSize) (data : List (BitVec 64)) :
    (size.toChunks data).length = size.perWord * data.length := by
  have count : ∀ length, length * 64 / size.bits = size.perWord * length := by
    intro length
    rw [← size.perWord_mul, ← Nat.mul_assoc, Nat.mul_div_cancel _ size.positive, Nat.mul_comm]
  rw [toChunks, length_map, length_range, count]

/-- Each bit of a line is a bit of the chunk that contains it. -/
theorem getLsbD_toChunks (size : ChunkSize) (bounded : j < data.length) (inside : r < 64) :
    ∃ chunk, (size.toChunks data)[size.chunkOf j r]? = some chunk ∧
      chunk.getLsbD (r % size.bits) = data[j].getLsbD r := by
  have chunkBound : size.chunkOf j r < (size.toChunks data).length := by
    rw [length_toChunks, chunkOf]
    have part : r / size.bits < size.perWord := div_bits_lt inside
    calc size.perWord * j + r / size.bits < size.perWord * j + size.perWord := by omega
      _ = size.perWord * (j + 1) := by rw [Nat.mul_add, Nat.mul_one]
      _ ≤ size.perWord * data.length := Nat.mul_le_mul_left _ bounded
  refine ⟨_, getElem?_eq_getElem chunkBound, ?_⟩
  have width := size.width_eq (size.chunkOf j r)
  simp only [toChunks, getElem_map, getElem_range]
  rw [getLsbD_bits, width, chunkOf_div inside, lowest, chunkOf_mod inside, Nat.div_add_mod',
    decide_eq_true (Nat.mod_lt r size.positive), Bool.and_true, getD_eq_getElem _ _ bounded]

theorem fromChunks_toChunks (size : ChunkSize) (data : List (BitVec 64)) :
    size.fromChunks data.length (size.toChunks data) = data := by
  apply ext_getElem
  · rw [fromChunks, length_writeChunks, length_replicate]
  intro j before bounded
  apply BitVec.eq_of_getLsbD_eq
  intro r inside
  obtain ⟨chunk, found, bit⟩ := size.getLsbD_toChunks bounded inside
  have room : j < (replicate data.length (0 : BitVec 64)).length := by rwa [length_replicate]
  have written := getLsbD_writeChunks room inside (Nat.zero_le _) (by rwa [Nat.sub_zero])
  rw [← getD_eq_getElem _ 0 before, fromChunks, written, bit]

end Gem5.Compression.ChunkSize
