import Gem5.Proof.Mem.FaLruStack

namespace Gem5
open ToMathlib Bitfield Intmath List Function

namespace FALRUParams
variable {params : FALRUParams} {i j : Nat}

/-- The cache has several blocks, and each tracked cache consists of at least two whole blocks. -/
def SeveralBlocks (params : FALRUParams) : Prop :=
  2 ≤ params.numBlocks ∧ (params.size ≤ params.minTrackedSize ∨
      params.blkSize ∣ params.minTrackedSize ∧ 2 * params.blkSize ≤ params.minTrackedSize)

instance : Decidable params.SeveralBlocks := inferInstanceAs (Decidable (_ ∧ _))

/-- What the checks of the constructor ensure. -/
structure Accepted (params : FALRUParams) : Prop where
  blkSize : isPowerOf2 (BitVec.ofNat 64 params.blkSize) = true
  size : isPowerOf2 (BitVec.ofNat 64 params.size) = true
  minTrackedSize : params.minTrackedSize < params.size → 0 < params.minTrackedSize
  few : params.numTrackedCaches ≤ 32

theorem toNat_word {bytes : Nat} (fits : bytes < 2 ^ 32) : (BitVec.ofNat 64 bytes).toNat = bytes := by
  rw [BitVec.toNat_ofNat, Nat.mod_eq_of_lt (fits.trans (by decide))]

section
variable (accepted : params.Accepted)
include accepted

theorem Accepted.size_eq : params.size = 2 ^ Nat.log 2 params.size := by
  have power := eq_two_pow_of_isPowerOf2 accepted.size
  rwa [toNat_word params.sizeFits] at power

theorem Accepted.blkSize_eq : params.blkSize = 2 ^ Nat.log 2 params.blkSize := by
  have power := eq_two_pow_of_isPowerOf2 accepted.blkSize
  rwa [toNat_word params.blkSizeFits] at power

theorem Accepted.blkSize_pos : 0 < params.blkSize := by
  rw [accepted.blkSize_eq]
  exact Nat.two_pow_pos _

/-- The whole cache is smaller than the sizes that the type allows, also when it is doubled. -/
theorem Accepted.double_size_le : 2 * params.size ≤ 2 ^ 32 := by
  have fits := params.sizeFits
  rw [accepted.size_eq] at fits ⊢
  have exponent : Nat.log 2 params.size < 32 := (Nat.pow_lt_pow_iff_right (by decide)).mp fits
  rw [← Nat.pow_succ']
  exact Nat.pow_le_pow_right (by decide) exponent

/-- The blocks fill the cache unless it is smaller than a block. -/
theorem Accepted.numBlocks_mul (nonempty : 0 < params.numBlocks) : params.numBlocks * params.blkSize = params.size := by
  have whole : params.blkSize ∣ params.size := by
    have larger : params.blkSize ≤ params.size := by
      by_contra smaller
      rw [numBlocks, Nat.div_eq_of_lt (by omega)] at nonempty
      exact absurd nonempty (Nat.lt_irrefl 0)
    rw [accepted.blkSize_eq, accepted.size_eq] at larger ⊢
    exact Nat.pow_dvd_pow 2 ((Nat.pow_le_pow_iff_right (by decide)).mp larger)
  exact Nat.div_mul_cancel whole

theorem Accepted.numTrackedCaches_eq (tracking : params.minTrackedSize < params.size) :
    params.numTrackedCaches + Nat.log 2 params.minTrackedSize = Nat.log 2 params.size := by
  have positive := accepted.minTrackedSize tracking
  rw [numTrackedCaches, if_pos tracking,
    floorLog2_eq (by rw [toNat_word params.sizeFits]; omega), toNat_word params.sizeFits,
    floorLog2_eq (by rwa [toNat_word params.minTrackedSizeFits]), toNat_word params.minTrackedSizeFits]
  exact Nat.sub_add_cancel (Nat.log_mono_right (Nat.le_of_lt tracking))

/-- Each tracked cache is smaller than the cache, and the next one would not be. -/
theorem Accepted.shift_lt_iff (tracking : params.minTrackedSize < params.size) :
    params.minTrackedSize <<< i < params.size ↔ i < params.numTrackedCaches := by
  have count := accepted.numTrackedCaches_eq tracking
  have positive := accepted.minTrackedSize tracking
  have least := Nat.pow_log_le_self 2 (Nat.ne_of_gt positive)
  have most := Nat.lt_pow_succ_log_self (b := 2) (by decide) params.minTrackedSize
  rw [Nat.shiftLeft_eq, accepted.size_eq]
  constructor
  · intro below
    have bound : 2 ^ (Nat.log 2 params.minTrackedSize + i) < 2 ^ Nat.log 2 params.size := by
      rw [Nat.pow_add]
      exact (Nat.mul_le_mul_right _ least).trans_lt below
    have exponent := (Nat.pow_lt_pow_iff_right (by decide)).mp bound
    omega
  · intro inside
    calc params.minTrackedSize * 2 ^ i < 2 ^ (Nat.log 2 params.minTrackedSize + 1) * 2 ^ i :=
          Nat.mul_lt_mul_of_pos_right most (Nat.two_pow_pos i)
      _ = 2 ^ (Nat.log 2 params.minTrackedSize + 1 + i) := (Nat.pow_add 2 _ _).symm
      _ ≤ 2 ^ Nat.log 2 params.size := Nat.pow_le_pow_right (by decide) (by omega)

end

theorem capacity_mul (whole : params.blkSize ∣ params.minTrackedSize) (i : Nat) :
    params.capacity i * params.blkSize = params.minTrackedSize <<< i := by
  apply Nat.div_mul_cancel
  rw [Nat.shiftLeft_eq]
  exact whole.mul_right _

section
variable (accepted : params.Accepted) (whole : params.blkSize ∣ params.minTrackedSize)
include accepted whole

theorem capacity_succ (i : Nat) : params.capacity (i + 1) = 2 * params.capacity i := by
  apply Nat.eq_of_mul_eq_mul_right accepted.blkSize_pos
  rw [capacity_mul whole, Nat.mul_assoc, capacity_mul whole, Nat.shiftLeft_succ]

theorem capacity_lt_iff (nonempty : 0 < params.numBlocks) (tracking : params.minTrackedSize < params.size) :
    params.capacity i < params.numBlocks ↔ i < params.numTrackedCaches := by
  rw [← accepted.shift_lt_iff tracking, ← capacity_mul whole, ← accepted.numBlocks_mul nonempty]
  exact (Nat.mul_lt_mul_right accepted.blkSize_pos).symm

theorem capacity_lt_capacity (positive : 0 < params.capacity i) (less : i < j) :
    params.capacity i < params.capacity j := by
  induction j, less using Nat.le_induction with
  | base | succ j _ ih =>
    rw [capacity_succ accepted whole]
    omega

theorem two_le_capacity (two : 2 * params.blkSize ≤ params.minTrackedSize) (i : Nat) : 2 ≤ params.capacity i := by
  induction i with
  | zero =>
    rw [capacity, Nat.shiftLeft_zero]
    exact (Nat.le_div_iff_mul_le accepted.blkSize_pos).mpr two
  | succ i ih =>
    rw [capacity_succ accepted whole]
    omega

end

theorem numTrackedCaches_eq_zero (small : params.size ≤ params.minTrackedSize) : params.numTrackedCaches = 0 :=
  if_neg (Nat.not_lt.mpr small)

theorem SeveralBlocks.tracks (several : params.SeveralBlocks) (accepted : params.Accepted) : params.Tracks := by
  by_cases tracking : params.minTrackedSize < params.size
  · obtain ⟨whole, two⟩ := several.2.resolve_left (by omega)
    refine ⟨accepted.few, fun i _ => two_le_capacity accepted whole two i, fun i inside => ?_⟩
    exact (capacity_lt_iff accepted whole (by have least := several.1; omega) tracking).mpr inside
  · have none : params.numTrackedCaches = 0 := numTrackedCaches_eq_zero (by omega)
    refine ⟨accepted.few, fun i inside => ?_, fun i inside => ?_⟩ <;> omega

end FALRUParams

namespace FALRU
open FALRUParams
variable {params : FALRUParams} {tags start : FALRU} {fuel position j : Nat} {mask : BitVec 32}

/-- The masks of the blocks before a position and the boundaries of the caches that end there are set. -/
structure Initializing (params : FALRUParams) (start : FALRU) (position j : Nat) (mask : BitVec 32) (tags : FALRU) :
    Prop where
  unmoved : Unmoved start tags
  atMost : position ≤ params.numBlocks
  reached : ∀ i < params.numTrackedCaches, i < j ↔ params.capacity i ≤ position
  bound : j ≤ params.numTrackedCaches
  mask : ∀ i, mask.getLsbD i = decide (i < params.numTrackedCaches ∧ j ≤ i)
  masks : ∀ blk < position, ∀ i, (tags.blks blk).inCachesMask.getLsbD i =
    decide (i < params.numTrackedCaches ∧ blk < params.capacity i)
  boundaries : ∀ i < j, tags.boundaries i = some (params.capacity i - 1)

/-- The blocks are linked in the order of their indices. -/
structure Consecutive (params : FALRUParams) (tags : FALRU) : Prop where
  next : ∀ blk < params.numBlocks, (tags.blks blk).next = if blk + 1 < params.numBlocks then some (blk + 1) else none
  tail : tags.tail = params.numBlocks - 1

section
variable (held : Initializing params start position j mask tags)
include held

theorem Initializing.setMask :
    ∀ blk < position + 1, ∀ i, ((tags.setMask position mask).blks blk).inCachesMask.getLsbD i =
      decide (i < params.numTrackedCaches ∧ blk < params.capacity i) := by
  intro blk below i
  rw [inCachesMask_setMask]
  by_cases here : blk = position
  · rw [if_pos here, held.mask i, here]
    apply decide_eq_decide.mpr
    refine and_congr_right fun tracked => ?_
    have reached := held.reached i tracked
    omega
  · rw [if_neg here, held.masks blk (by omega) i]

/-- A step that does not end a cache keeps the loop in order. -/
theorem Initializing.step (inside : position < params.numBlocks)
    (increasing : ∀ i, j < i → params.capacity j < params.capacity i)
    (inner : j < params.numTrackedCaches → position + 1 ≠ params.capacity j) :
    Initializing params start (position + 1) j mask (tags.setMask position mask) := by
  refine ⟨held.unmoved.setMask _ _, inside, fun i tracked => ?_, held.bound, held.mask, held.setMask, held.boundaries⟩
  have reached := held.reached i tracked
  have different : j ≤ i → position + 1 ≠ params.capacity i := by
    intro above
    rcases Nat.eq_or_lt_of_le above with rfl | less
    · exact inner tracked
    · have here := held.reached j (by omega)
      have larger := increasing i less
      omega
  omega

/-- A step at the last block of a cache sets its boundary. -/
theorem Initializing.stepBoundary (inside : position < params.numBlocks) (tracked : j < params.numTrackedCaches)
    (small : j < 32) (increasing : ∀ i, j < i → params.capacity j < params.capacity i)
    (ends : position + 1 = params.capacity j) :
    Initializing params start (position + 1) (j + 1) (mask &&& ~~~((1 : BitVec 32) <<< j))
      ((tags.setMask position mask).setBoundary j (some position)) := by
  refine ⟨(held.unmoved.setMask _ _).setBoundary _ _, inside, fun i other => ?_, tracked, fun i => ?_, held.setMask,
    fun i below => ?_⟩
  · have reached := held.reached i other
    have larger := increasing i
    by_cases here : i = j
    · subst here
      omega
    · omega
  · rw [getLsbD_clear small, held.mask i]
    by_cases here : i = j
    · simp [here]
    · have same : j ≤ i ↔ j + 1 ≤ i := by omega
      simp [here, same]
  · rw [boundaries_setBoundary]
    by_cases here : i = j
    · rw [if_pos here, here, ← ends, Nat.add_sub_cancel]
    · rw [if_neg here]
      exact held.boundaries i (by omega)

end

theorem Initializing.initLoop_ok (accepted : params.Accepted) (whole : params.blkSize ∣ params.minTrackedSize)
    (two : 2 * params.blkSize ≤ params.minTrackedSize) (tracking : params.minTrackedSize < params.size)
    (consecutive : Consecutive params start) (held : Initializing params start position j mask tags)
    (enough : params.numBlocks = position + fuel) (nonempty : 0 < params.numBlocks) :
    ∃ after last, initLoop params fuel (if position < params.numBlocks then some position else none)
        (position * params.blkSize) (params.minTrackedSize <<< j) mask j tags = .ok after ∧
      Initializing params start params.numBlocks params.numTrackedCaches last after := by
  have below : ∀ i, params.capacity i < params.numBlocks ↔ i < params.numTrackedCaches :=
    fun i => capacity_lt_iff accepted whole nonempty tracking
  induction fuel generalizing position j mask tags with
  | zero =>
    obtain rfl : position = params.numBlocks := by omega
    have all : j = params.numTrackedCaches := by
      apply Nat.le_antisymm held.bound
      by_contra early
      have tracked : j < params.numTrackedCaches := by omega
      have reached := (held.reached j tracked).mpr (Nat.le_of_lt ((below j).mpr tracked))
      exact Nat.lt_irrefl j reached
    rw [if_neg (Nat.lt_irrefl _)]
    exact ⟨tags, mask, rfl, all ▸ held⟩
  | succ fuel ih =>
    have inside : position < params.numBlocks := by omega
    have increasing : ∀ i, j < i → params.capacity j < params.capacity i := fun i =>
      capacity_lt_capacity accepted whole (lt_of_lt_of_le (by decide) (two_le_capacity accepted whole two j))
    have next : (tags.blks position).next = if position + 1 < params.numBlocks then some (position + 1) else none := by
      have same : tags.next position = start.next position := by rw [held.unmoved.next]
      exact same.trans (consecutive.next position inside)
    have tail : tags.tail = params.numBlocks - 1 := held.unmoved.tail.trans consecutive.tail
    have bytes : (position * params.blkSize + params.blkSize) % 2 ^ 32 = (position + 1) * params.blkSize := by
      rw [← Nat.succ_mul]
      apply Nat.mod_eq_of_lt
      have most : (position + 1) * params.blkSize ≤ params.numBlocks * params.blkSize := Nat.mul_le_mul_right _ inside
      rw [accepted.numBlocks_mul nonempty] at most
      exact most.trans_lt params.sizeFits
    have ends : (position + 1) * params.blkSize = params.minTrackedSize <<< j ↔ position + 1 = params.capacity j := by
      rw [← capacity_mul whole]
      exact Nat.mul_left_inj (Nat.ne_of_gt accepted.blkSize_pos)
    rw [if_pos inside, initLoop]
    rw [bytes, next, tail]
    simp only [ends]
    by_cases last : position + 1 = params.capacity j ∧ position ≠ params.numBlocks - 1
    · have tracked : j < params.numTrackedCaches := (below j).mp (by omega)
      have small : j < 32 := tracked.trans_le accepted.few
      have doubled : (params.minTrackedSize <<< j) <<< 1 % 2 ^ 32 = params.minTrackedSize <<< (j + 1) := by
        rw [← Nat.shiftLeft_add]
        apply Nat.mod_eq_of_lt
        have half := (accepted.shift_lt_iff tracking).mpr tracked
        have fits := accepted.double_size_le
        rw [Nat.shiftLeft_succ]
        omega
      rw [if_pos last, if_pos tracked, doubled]
      exact ih (held.stepBoundary inside tracked small increasing last.1) (by omega)
    · rw [if_neg last]
      refine ih (held.step inside increasing fun tracked ended => last ⟨ended, ?_⟩) (by omega)
      have fewer := (below j).mpr tracked
      omega

/-- The inner blocks are linked one after the other. -/
theorem linkInner_apply (indices : List Nat) (blks : Nat → FALRUBlk) (blk : Nat) :
    (indices.foldl (fun blks i => update blks i { blks i with prev := some (i - 1), next := some (i + 1) })
      blks) blk =
      if blk ∈ indices then { blks blk with prev := some (blk - 1), next := some (blk + 1) } else blks blk := by
  induction indices generalizing blks with
  | nil => rfl
  | cons first rest ih =>
    rw [foldl_cons, ih]
    by_cases here : blk = first
    · subst here
      simp only [update_self, mem_cons_self, if_true]
      split <;> rfl
    · rw [update_of_ne here]
      simp only [mem_cons, here, false_or]

/-- The state that the initialization starts from. -/
def linkedTags (params : FALRUParams) : FALRU where
  blks := linkBlks params.numBlocks
  head := 0
  tail := params.numBlocks - 1
  tagHash := fun _ => none
  boundaries := fun _ => none
  hits := fun _ => 0
  misses := fun _ => 0
  accesses := 0

theorem linkedTags_blks {blk : Nat} (two : 2 ≤ params.numBlocks) (inside : blk < params.numBlocks) :
    (linkedTags params).blks blk = { FALRUBlk.fresh with
      prev := if blk = 0 then none else some (blk - 1)
      next := if blk + 1 < params.numBlocks then some (blk + 1) else none } := by
  have fits : params.numBlocks < 2 ^ 32 := (Nat.div_le_self _ _).trans_lt params.sizeFits
  rw [linkedTags, linkBlks]
  set numBlocks := params.numBlocks
  have before : (numBlocks + 2 ^ 32 - 2) % 2 ^ 32 = numBlocks - 2 := by omega
  simp only [update_apply, linkInner_apply, mem_range'_1, before]
  by_cases last : blk = numBlocks - 1
  · have outer : ¬ (1 ≤ numBlocks - 1 ∧ numBlocks - 1 < 1 + (numBlocks - 2)) := by omega
    have later : numBlocks - 1 ≠ 0 := by omega
    have ends : ¬ numBlocks - 1 + 1 < numBlocks := by omega
    simp only [last, if_true, outer, later, ends, if_false]
    rw [Nat.sub_sub]
  · by_cases first : blk = 0
    · subst first
      have outer : ¬ (1 ≤ 0 ∧ 0 < 1 + (numBlocks - 2)) := by omega
      have more : 0 + 1 < numBlocks := by omega
      simp only [last, outer, more, if_true, if_false]
    · have inner : 1 ≤ blk ∧ blk < 1 + (numBlocks - 2) := by omega
      have more : blk + 1 < numBlocks := by omega
      simp only [last, inner, first, more, and_self, if_true, if_false]

theorem eq_of_getElem?_range {numBlocks blk : Nat} (found : (range numBlocks)[position]? = some blk) :
    position = blk ∧ blk < numBlocks := by
  obtain ⟨inside, rfl⟩ := List.getElem?_eq_some_iff.mp found
  rw [length_range] at inside
  exact ⟨getElem_range _ |>.symm, by rwa [getElem_range]⟩

/-- The linked blocks are in the order of their indices. -/
theorem linkedTags_links (two : 2 ≤ params.numBlocks) :
    Links (linkedTags params) (range params.numBlocks) ∧ Consecutive params (linkedTags params) := by
  refine ⟨⟨Linked.of_getElem (fun position blk found => ?_) fun position blk found => ?_, ?_, ?_⟩,
    fun blk inside => by rw [linkedTags_blks two inside], rfl⟩
  · obtain ⟨rfl, inside⟩ := eq_of_getElem?_range found
    rw [prev, linkedTags_blks two inside]
    by_cases first : position = 0
    · rw [if_pos first, if_pos first]
    · rw [if_neg first, if_neg first, List.getElem?_range (by omega)]
  · obtain ⟨rfl, inside⟩ := eq_of_getElem?_range found
    rw [next, linkedTags_blks two inside, Option.or_none]
    by_cases more : position + 1 < params.numBlocks
    · rw [if_pos more, List.getElem?_range more]
    · rw [if_neg more, List.getElem?_eq_none (by rw [length_range]; omega)]
  · rw [head?_eq_getElem?, List.getElem?_range (by omega)]
    rfl
  · rw [getLast?_eq_getElem?, length_range, List.getElem?_range (by omega)]
    rfl

/-- The constructor has checked the sizes when it returns. -/
theorem accepted_of_construct (constructed : construct params = .ok start) :
    params.Accepted ∧ init params (linkedTags params) = .ok start := by
  obtain ⟨_, constructed⟩ := ite_error_eq_ok.mp constructed
  obtain ⟨positive, constructed⟩ := ite_error_eq_ok.mp constructed
  obtain ⟨few, constructed⟩ := ite_error_eq_ok.mp constructed
  obtain ⟨blkPower, constructed⟩ := ite_error_eq_ok.mp constructed
  obtain ⟨sizePower, constructed⟩ := ite_error_eq_ok.mp constructed
  obtain ⟨_, constructed⟩ := ite_error_eq_ok.mp constructed
  refine ⟨⟨by simpa using blkPower, by simpa using sizePower, fun tracking => ?_, by omega⟩, constructed⟩
  by_contra zero
  exact positive ⟨tracking, by omega⟩

/-- The initialization only sets the masks and the boundaries of the linked blocks. -/
theorem stack_init (several : params.SeveralBlocks) (accepted : params.Accepted) :
    ∃ after, init params (linkedTags params) = .ok after ∧ Stack params after (range params.numBlocks) ∧
      after.SameContents (linkedTags params) := by
  have two := several.1
  obtain ⟨links, consecutive⟩ := linkedTags_links two
  by_cases tracking : params.minTrackedSize < params.size
  · obtain ⟨whole, large⟩ := several.2.resolve_left (by omega)
    have start : Initializing params (linkedTags params) 0 0 params.inAllCachesMask (linkedTags params) := by
      have tracks := several.tracks accepted
      refine ⟨.refl _, Nat.zero_le _, fun i inside => ?_, Nat.zero_le _, fun i => ?_, fun blk below => ?_,
        fun i below => ?_⟩
      · have capacity := tracks.two i inside
        omega
      · rw [getLsbD_inAllCachesMask tracks]
        simp
      · exact absurd below (Nat.not_lt_zero blk)
      · exact absurd below (Nat.not_lt_zero i)
    obtain ⟨after, last, loop, done⟩ := start.initLoop_ok accepted whole large tracking consecutive
      (Nat.zero_add params.numBlocks).symm (by omega)
    have tracked : params.numTrackedCaches ≠ 0 := by
      have first : params.minTrackedSize <<< 0 < params.size ↔ 0 < params.numTrackedCaches :=
        accepted.shift_lt_iff tracking
      exact Nat.ne_of_gt (first.mp tracking)
    refine ⟨after, ?_, ⟨⟨fun position blk found i => ?_, fun i inside => ?_⟩, done.unmoved.links links, .refl _⟩,
      done.unmoved.contents⟩
    · rw [init, if_neg tracked]
      rw [if_pos (by omega), Nat.zero_mul, Nat.shiftLeft_zero] at loop
      exact loop
    · obtain ⟨rfl, inside⟩ := eq_of_getElem?_range found
      exact done.masks position inside i
    · have below := (capacity_lt_iff accepted whole (by omega) tracking).mpr inside
      rw [done.boundaries i inside, List.getElem?_range (by omega)]
  · have none : params.numTrackedCaches = 0 := numTrackedCaches_eq_zero (by omega)
    refine ⟨linkedTags params, ?_, ⟨⟨fun position blk found i => ?_, fun i inside => ?_⟩, links, .refl _⟩, .refl _⟩
    · rw [init, if_pos none, initLoop]
    · obtain ⟨rfl, inside⟩ := eq_of_getElem?_range found
      rw [linkedTags_blks two inside]
      simp [none, FALRUBlk.fresh]
    · omega

end FALRU
end Gem5
