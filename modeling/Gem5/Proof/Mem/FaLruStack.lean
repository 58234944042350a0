import Gem5.Proof.Base.Bitfield
import Gem5.Proof.Base.Intmath
import Gem5.Proof.Mem.FaLruLinks

namespace Gem5
open ToMathlib Bitfield Intmath List BitVec

namespace FALRUParams
variable {params : FALRUParams} {i j : Nat}

/-- The number of blocks of a tracked cache. -/
def capacity (params : FALRUParams) (i : Nat) : Nat := (params.minTrackedSize <<< i) / params.blkSize

/-- What the sizes of tracked caches of at least two blocks satisfy. -/
structure Tracks (params : FALRUParams) : Prop where
  few : params.numTrackedCaches ≤ 32
  two : ∀ i < params.numTrackedCaches, 2 ≤ params.capacity i
  below : ∀ i < params.numTrackedCaches, params.capacity i < params.numBlocks

end FALRUParams

namespace FALRU
variable {params : FALRUParams} {tags : FALRU} {order : List Nat} {blk other : Nat} {pointer : Option Nat}

/-- This structure relates the masks and the boundaries to the positions of the blocks. -/
structure Tracked (params : FALRUParams) (tags : FALRU) (order : List Nat) : Prop where
  masks : ∀ position blk, order[position]? = some blk → ∀ i,
    (tags.blks blk).inCachesMask.getLsbD i = decide (i < params.numTrackedCaches ∧ position < params.capacity i)
  boundaries : ∀ i < params.numTrackedCaches, tags.boundaries i = order[params.capacity i - 1]?

/-- This structure relates the state to the order of the blocks from the most to the least recently used one. -/
structure Stack (params : FALRUParams) (tags : FALRU) (order : List Nat) : Prop extends
    Tracked params tags order, Links tags order where
  blocks : order.Perm (range params.numBlocks)

section Bits
variable {i : Nat}

section
variable (small : i < 32) (mask : BitVec 32)
include small mask

/-- The bit of a cache is set in a mask exactly when their conjunction is not empty. -/
theorem single_and_ne_zero : (1 : BitVec 32) <<< i &&& mask ≠ 0 ↔ mask.getLsbD i = true := by
  constructor
  · intro nonzero
    by_contra clear
    apply nonzero
    apply eq_of_getLsbD_eq
    intro index _
    rw [getLsbD_and, ofNat_eq_ofNat, getLsbD_one_shiftLeft small, ofNat_eq_ofNat, getLsbD_zero]
    by_cases here : index = i
    · simp [here, Bool.eq_false_iff.mpr clear]
    · simp [here]
  · intro set zero
    have bit := congrArg (getLsbD · i) zero
    simp only [getLsbD_and, ofNat_eq_ofNat, getLsbD_one_shiftLeft small, set] at bit
    simp at bit

theorem getLsbD_clear (index : Nat) :
    (mask &&& ~~~((1 : BitVec 32) <<< i)).getLsbD index = (mask.getLsbD index && !decide (index = i)) := by
  rw [getLsbD_and, getLsbD_not, ofNat_eq_ofNat, getLsbD_one_shiftLeft small]
  by_cases inside : index < 32
  · rw [decide_eq_true inside, Bool.true_and]
  · rw [getLsbD_of_ge mask index (by omega), Bool.false_and, Bool.false_and]

theorem getLsbD_set (index : Nat) :
    (mask ||| (1 : BitVec 32) <<< i).getLsbD index = (mask.getLsbD index || decide (index = i)) := by
  rw [getLsbD_or, ofNat_eq_ofNat, getLsbD_one_shiftLeft small]

end

theorem getLsbD_inAllCachesMask (tracks : params.Tracks) (index : Nat) :
    params.inAllCachesMask.getLsbD index = decide (index < params.numTrackedCaches) := by
  have few := tracks.few
  rw [FALRUParams.inAllCachesMask, truncate_eq_setWidth, getLsbD_setWidth, getLsbD_mask]
  by_cases inside : index < params.numTrackedCaches
  · have narrow : index < 32 := by omega
    have wide : index < 64 := by omega
    simp [inside, narrow, wide]
  · simp [inside]

end Bits

section Loops
variable {position : Nat} {start : FALRU} {moved : List Nat} {shift : Nat → Nat} {i : Nat}

/-- The part of a state that the tracking of a move does not change. -/
structure Unmoved (start tags : FALRU) : Prop where
  prev : tags.prev = start.prev
  next : tags.next = start.next
  head : tags.head = start.head
  tail : tags.tail = start.tail
  contents : tags.SameContents start

theorem Unmoved.refl (tags : FALRU) : Unmoved tags tags := ⟨rfl, rfl, rfl, rfl, .refl tags⟩

theorem Unmoved.setMask (unmoved : Unmoved start tags) (blk : Nat) (mask : BitVec 32) :
    Unmoved start (tags.setMask blk mask) where
  prev := by
    rw [← unmoved.prev]
    exact funext (part_modifyBlk fun _ => rfl)
  next := by
    rw [← unmoved.next]
    exact funext (part_modifyBlk fun _ => rfl)
  head := unmoved.head
  tail := unmoved.tail
  contents := by
    have kept : (tags.setMask blk mask).SameContents tags := sameContents_modifyBlk fun _ => ⟨rfl, rfl, rfl⟩
    exact kept.trans unmoved.contents

theorem Unmoved.setBoundary (unmoved : Unmoved start tags) (i : Nat) (pointer : Option Nat) :
    Unmoved start (tags.setBoundary i pointer) :=
  { unmoved with contents := { unmoved.contents with } }

/-- The tracking has moved the first boundaries, where the blocks of some caches are at new positions. -/
structure Moving (params : FALRUParams) (start : FALRU) (order moved : List Nat) (shift : Nat → Nat) (count : Nat)
    (tags : FALRU) : Prop where
  unmoved : Unmoved start tags
  masks : ∀ position blk, order[position]? = some blk → ∀ i, (tags.blks blk).inCachesMask.getLsbD i =
    decide (i < params.numTrackedCaches ∧ (if i < count then shift position else position) < params.capacity i)
  boundaries : ∀ i < params.numTrackedCaches, tags.boundaries i =
    if i < count then moved[params.capacity i - 1]? else order[params.capacity i - 1]?

theorem Stack.moving (stack : Stack params tags order) (moved : List Nat) (shift : Nat → Nat) :
    Moving params tags order moved shift 0 tags := by
  refine ⟨.refl tags, fun position blk found i => ?_, fun i inside => ?_⟩
  · rw [stack.masks position blk found i, if_neg (Nat.not_lt_zero i)]
  · rw [stack.boundaries i inside, if_neg (Nat.not_lt_zero i)]

theorem inCachesMask_setMask (mask : BitVec 32) (other : Nat) : ((tags.setMask blk mask).blks other).inCachesMask =
    if other = blk then mask else (tags.blks other).inCachesMask := by
  rw [setMask, blks_modifyBlk]
  split <;> rfl

theorem boundaries_setBoundary (i j : Nat) : (tags.setBoundary i pointer).boundaries j =
    if j = i then pointer else tags.boundaries j := Function.update_apply _ _ _ _

/-- The bit of one cache is that of the new position. -/
def Remasked (params : FALRUParams) (tags : FALRU) (shift : Nat → Nat) (i position blk : Nat) (mask : BitVec 32) : Prop :=
  ∀ j, mask.getLsbD j = if j = i then decide (i < params.numTrackedCaches ∧ shift position < params.capacity i)
    else (tags.blks blk).inCachesMask.getLsbD j

/-- The tracking of one more cache has moved when it has set the new bits and the new boundary of this cache. -/
theorem Moving.succ {after : FALRU} (moving : Moving params start order moved shift i tags)
    (unmoved : Unmoved start after)
    (masks : ∀ position blk, order[position]? = some blk →
      Remasked params tags shift i position blk (after.blks blk).inCachesMask)
    (boundaries : ∀ j, after.boundaries j = if j = i then moved[params.capacity i - 1]? else tags.boundaries j) :
    Moving params start order moved shift (i + 1) after := by
  have earlier : ∀ j, j ≠ i → (j < i ↔ j < i + 1) := by omega
  refine ⟨unmoved, fun position blk found j => ?_, fun j inside => ?_⟩
  · rw [masks position blk found j]
    by_cases here : j = i
    · rw [if_pos here, here, if_pos (Nat.lt_succ_self i)]
    · rw [if_neg here, moving.masks position blk found j]
      simp only [earlier j here]
  · rw [boundaries j]
    by_cases here : j = i
    · rw [if_pos here, here, if_pos (Nat.lt_succ_self i)]
    · rw [if_neg here, moving.boundaries j inside]
      simp only [earlier j here]

section
variable (stack : Stack params tags order)
include stack

theorem Stack.nodup : order.Nodup := stack.blocks.nodup_iff.mpr nodup_range

theorem Stack.length : order.length = params.numBlocks := by
  rw [stack.blocks.length_eq, length_range]

theorem Stack.position_unique {first second : Nat} (here : order[first]? = some blk) (there : order[second]? = some blk) :
    first = second := by
  obtain ⟨inside, _⟩ := List.getElem?_eq_some_iff.mp here
  exact (List.getElem?_inj inside stack.nodup).mp (here.trans there.symm)

end

section
variable (moving : Moving params start order moved shift i tags)
include moving

/-- The mask is that of the new position when the block does not enter or leave the cache. -/
theorem Moving.masks_same (found : order[position]? = some blk)
    (same : shift position < params.capacity i ↔ position < params.capacity i) :
    Remasked params tags shift i position blk (tags.blks blk).inCachesMask := by
  intro j
  by_cases bit : j = i
  · rw [if_pos bit, bit, moving.masks position blk found i, if_neg (Nat.lt_irrefl i)]
    simp only [same]
  · rw [if_neg bit]

/-- The masks are those of the new positions when one block enters or leaves the cache. -/
theorem Moving.masks_changed {place changed : Nat} {mask : BitVec 32} (stack : Stack params start order)
    (there : order[place]? = some changed) (bits : Remasked params tags shift i place changed mask)
    (same : ∀ position, position ≠ place → (shift position < params.capacity i ↔ position < params.capacity i))
    (position blk : Nat) (found : order[position]? = some blk) :
    Remasked params tags shift i position blk ((tags.setMask changed mask).blks blk).inCachesMask := by
  rw [inCachesMask_setMask]
  by_cases here : blk = changed
  · obtain rfl : position = place := stack.position_unique (here ▸ found) there
    rwa [if_pos here, here]
  · rw [if_neg here]
    apply moving.masks_same found (same position _)
    rintro rfl
    exact here (Option.some.inj (found.symm.trans there))

/-- The boundary of a cache is the last of its blocks while the tracking has not reached this cache. -/
theorem Moving.boundary (inside : i < params.numTrackedCaches) : tags.boundaries i = order[params.capacity i - 1]? := by
  rw [moving.boundaries i inside, if_neg (Nat.lt_irrefl i)]

theorem Moving.linked (stack : Stack params start order) : Linked tags.prev tags.next none order none := by
  rw [moving.unmoved.prev, moving.unmoved.next]
  exact stack.linked

end

/-- The position of a block while another block moves to the head. -/
def towardsHead (position other : Nat) : Nat := if other < position then other + 1 else other

/-- The position of a block while another block moves to the tail. -/
def towardsTail (position other : Nat) : Nat := if position < other then other - 1 else other

section
variable (stack : Stack params start order) (tracks : params.Tracks) (found : order[position]? = some blk)
include stack tracks found

/-- Before a block moves to the head, each tracked cache drops its last block unless the moved block is in it. -/
theorem Stack.boundaryToHead_ok (inner : position ≠ 0) (inside : i < params.numTrackedCaches)
    (moving : Moving params start order (blk :: order.eraseIdx position) (towardsHead position) i tags) :
    ∃ after, boundaryToHead blk (params.inAllCachesMask ^^^ (start.blks blk).inCachesMask) tags i = .ok after ∧
      Moving params start order (blk :: order.eraseIdx position) (towardsHead position) (i + 1) after := by
  have small : i < 32 := lt_of_lt_of_le inside tracks.few
  have two := tracks.two i inside
  have boundary := moving.boundary inside
  have linked := moving.linked stack
  have updated : (1 : BitVec 32) <<< i &&& (params.inAllCachesMask ^^^ (start.blks blk).inCachesMask) ≠ 0 ↔
      params.capacity i ≤ position := by
    rw [single_and_ne_zero small, getLsbD_xor, getLsbD_inAllCachesMask tracks, stack.masks position blk found i]
    simp [inside]
  obtain ⟨fits, _⟩ := List.getElem?_eq_some_iff.mp found
  have previous : params.capacity i - 1 = params.capacity i - 2 + 1 := by omega
  have elsewhere : ∀ other, other ≠ params.capacity i - 1 ∨ position < params.capacity i →
      (towardsHead position other < params.capacity i ↔ other < params.capacity i) := by
    intro other apart
    rw [towardsHead]
    split <;> omega
  have moved : (blk :: order.eraseIdx position)[params.capacity i - 1]? =
      if params.capacity i - 2 < position then order[params.capacity i - 2]? else order[params.capacity i - 1]? := by
    rw [previous, List.getElem?_cons_succ, List.getElem?_eraseIdx]
  rw [boundaryToHead]
  by_cases outside : params.capacity i ≤ position
  · -- The last block of the cache leaves it.
    obtain ⟨last, lastAt⟩ : ∃ last, order[params.capacity i - 1]? = some last :=
      ⟨_, List.getElem?_eq_getElem (by omega)⟩
    rw [if_pos (updated.mpr outside), boundary, lastAt, deref, ok_bind]
    refine ⟨_, rfl, moving.succ ((moving.unmoved.setMask _ _).setBoundary _ _) ?_ ?_⟩
    · refine moving.masks_changed stack lastAt (fun j => ?_) fun other apart => elsewhere other (.inl apart)
      have left : ¬ towardsHead position (params.capacity i - 1) < params.capacity i := by
        rw [towardsHead, if_pos (by omega)]
        omega
      rw [getLsbD_clear small]
      by_cases bit : j = i
      · simp [bit, left]
      · simp [bit]
    · intro j
      have before : (tags.blks last).prev = order[params.capacity i - 2]? := linked.prev_getElem (previous ▸ lastAt)
      rw [boundaries_setBoundary, before, moved, if_pos (by omega : params.capacity i - 2 < position)]
      rfl
  · -- The moved block is in the cache.
    have kept := fun other item (found : order[other]? = some item) =>
      moving.masks_same found (elsewhere other (.inr (by omega)))
    rw [if_neg (mt updated.mp outside)]
    by_cases last : tags.boundaries i = some blk
    · rw [if_pos last]
      refine ⟨_, rfl, moving.succ (moving.unmoved.setBoundary _ _) kept fun j => ?_⟩
      have place : position = params.capacity i - 1 := stack.position_unique found (boundary ▸ last)
      have before : (tags.blks blk).prev = order[params.capacity i - 2]? :=
        linked.prev_getElem (previous ▸ place ▸ found)
      rw [boundaries_setBoundary, before, moved, if_pos (by omega : params.capacity i - 2 < position)]
    · rw [if_neg last]
      refine ⟨_, rfl, moving.succ moving.unmoved kept fun j => ?_⟩
      have place : position ≠ params.capacity i - 1 := by
        rintro rfl
        exact last (boundary.trans found)
      rw [moved, if_neg (by omega : ¬ params.capacity i - 2 < position), ← boundary]
      split
      · rename_i bit
        rw [bit]
      · rfl

/-- Before a block moves to the tail, each tracked cache that contains it gets the block behind its last one. -/
theorem Stack.boundaryToTail_ok (inside : i < params.numTrackedCaches)
    (moving : Moving params start order (order.eraseIdx position ++ [blk]) (towardsTail position) i tags) :
    ∃ after, boundaryToTail blk (start.blks blk).inCachesMask tags i = .ok after ∧
      Moving params start order (order.eraseIdx position ++ [blk]) (towardsTail position) (i + 1) after := by
  have small : i < 32 := lt_of_lt_of_le inside tracks.few
  have two := tracks.two i inside
  have below := tracks.below i inside
  have boundary := moving.boundary inside
  have linked := moving.linked stack
  have total := stack.length
  obtain ⟨fits, _⟩ := List.getElem?_eq_some_iff.mp found
  have shorter : (order.eraseIdx position).length = order.length - 1 := length_eraseIdx_of_lt fits
  have updated : (1 : BitVec 32) <<< i &&& (start.blks blk).inCachesMask ≠ 0 ↔ position < params.capacity i := by
    rw [single_and_ne_zero small, stack.masks position blk found i]
    simp [inside]
  have elsewhere : ∀ other, other ≠ params.capacity i ∨ params.capacity i ≤ position →
      (towardsTail position other < params.capacity i ↔ other < params.capacity i) := by
    intro other apart
    rw [towardsTail]
    split <;> omega
  have moved : (order.eraseIdx position ++ [blk])[params.capacity i - 1]? =
      if params.capacity i - 1 < position then order[params.capacity i - 1]? else order[params.capacity i - 1 + 1]? := by
    rw [List.getElem?_append_left (by omega), List.getElem?_eraseIdx]
  rw [boundaryToTail]
  by_cases contained : position < params.capacity i
  · -- The block behind the last one enters the cache.
    obtain ⟨last, lastAt⟩ : ∃ last, order[params.capacity i - 1]? = some last :=
      ⟨_, List.getElem?_eq_getElem (by omega)⟩
    obtain ⟨following, followingAt⟩ : ∃ following, order[params.capacity i - 1 + 1]? = some following :=
      ⟨_, List.getElem?_eq_getElem (by omega)⟩
    have next : (tags.blks last).next = some following := (linked.next_getElem lastAt).trans followingAt
    have after : tags.boundaryAfter blk last = some following := by
      have other : following ≠ blk := by
        rintro rfl
        have place := stack.position_unique found followingAt
        omega
      rw [boundaryAfter, next, if_neg (fun same => other (Option.some.inj same))]
    rw [if_pos (updated.mpr contained), boundary, lastAt, deref, ok_bind, after, deref, ok_bind]
    refine ⟨_, rfl, moving.succ ((moving.unmoved.setBoundary _ _).setMask _ _) ?_ ?_⟩
    · have place : params.capacity i - 1 + 1 = params.capacity i := by omega
      refine moving.masks_changed stack (place ▸ followingAt) (fun j => ?_) fun other apart => elsewhere other (.inl apart)
      have entered : towardsTail position (params.capacity i) < params.capacity i := by
        rw [towardsTail, if_pos contained]
        omega
      rw [getLsbD_set small]
      by_cases bit : j = i
      · simp [bit, entered, inside]
      · simp [bit]
    · intro j
      rw [moved, if_neg (by omega : ¬ params.capacity i - 1 < position), followingAt]
      exact boundaries_setBoundary i j
  · rw [if_neg (mt updated.mp contained)]
    refine ⟨_, rfl, moving.succ moving.unmoved
      (fun other _ found => moving.masks_same found (elsewhere other (.inr (by omega)))) fun j => ?_⟩
    by_cases bit : j = i
    · rw [if_pos bit, bit, boundary, moved, if_pos (by omega)]
    · rw [if_neg bit]

omit tracks in
/-- A block that does not move itself has the mask of its new position. -/
theorem Moving.masks_moved {place target item : Nat} {mask : BitVec 32}
    (moving : Moving params start order moved shift params.numTrackedCaches tags)
    (here : (order.eraseIdx position)[place]? = some item)
    (shifted : shift (if place < position then place else place + 1) = target) (i : Nat) :
    ((tags.setMask blk mask).blks item).inCachesMask.getLsbD i =
      decide (i < params.numTrackedCaches ∧ target < params.capacity i) := by
  rw [List.getElem?_eraseIdx, ← apply_ite (order[·]?)] at here
  have other : item ≠ blk := by
    rintro rfl
    have same := stack.position_unique found here
    split at same <;> omega
  rw [inCachesMask_setMask, if_neg other, moving.masks _ item here i, shifted]
  apply decide_eq_decide.mpr
  constructor
  · rintro ⟨inside, fits⟩
    exact ⟨inside, by rwa [if_pos inside] at fits⟩
  · rintro ⟨inside, fits⟩
    exact ⟨inside, by rwa [if_pos inside]⟩

/-- The tracking of a move to the head succeeds and leaves each block with the mask of its new position. -/
theorem Stack.moveBlockToHead_ok (inner : position ≠ 0) :
    ∃ after, start.moveBlockToHead params blk = .ok after ∧ Unmoved start after ∧
      Tracked params after (blk :: order.eraseIdx position) := by
  obtain ⟨moved, loop, moving⟩ := foldlM_range_ok
    (Moving params start order (blk :: order.eraseIdx position) (towardsHead position)) (stack.moving _ _)
    fun i inside tags moving => stack.boundaryToHead_ok tracks found inner inside moving
  refine ⟨moved.setMask blk params.inAllCachesMask, ?_, moving.unmoved.setMask _ _, ?_, ?_⟩
  · rw [moveBlockToHead, loop, ok_bind]
  · intro place item here i
    cases place with
    | zero =>
      cases here
      rw [inCachesMask_setMask, if_pos rfl, getLsbD_inAllCachesMask tracks]
      apply decide_eq_decide.mpr
      exact ⟨fun inside => ⟨inside, lt_of_lt_of_le (by decide) (tracks.two i inside)⟩, And.left⟩
    | succ place =>
      refine Moving.masks_moved stack found moving here ?_ i
      by_cases before : place < position
      · rw [if_pos before, towardsHead, if_pos before]
      · rw [if_neg before, towardsHead, if_neg (by omega)]
  · intro i inside
    exact (moving.boundaries i inside).trans (if_pos inside)

/-- The tracking of a move to the tail succeeds and leaves each block with the mask of its new position. -/
theorem Stack.moveBlockToTail_ok :
    ∃ after, start.moveBlockToTail params blk = .ok after ∧ Unmoved start after ∧
      Tracked params after (order.eraseIdx position ++ [blk]) := by
  obtain ⟨moved, loop, moving⟩ := foldlM_range_ok
    (Moving params start order (order.eraseIdx position ++ [blk]) (towardsTail position)) (stack.moving _ _)
    fun i inside tags moving => stack.boundaryToTail_ok tracks found inside moving
  obtain ⟨fits, _⟩ := List.getElem?_eq_some_iff.mp found
  have shorter : (order.eraseIdx position).length = order.length - 1 := length_eraseIdx_of_lt fits
  refine ⟨moved.setMask blk 0, ?_, moving.unmoved.setMask _ _, ?_, ?_⟩
  · rw [moveBlockToTail, loop, ok_bind]
  · intro place item here i
    by_cases inner : place < order.length - 1
    · rw [List.getElem?_append_left (by omega)] at here
      refine Moving.masks_moved stack found moving here ?_ i
      by_cases before : place < position
      · rw [if_pos before, towardsTail, if_neg (by omega)]
      · rw [if_neg before, towardsTail, if_pos (by omega), Nat.add_sub_cancel]
    · rw [List.getElem?_append_right (by omega)] at here
      have same : item = blk := by
        have member := mem_of_getElem? here
        simpa using member
      have outside : ¬ (i < params.numTrackedCaches ∧ place < params.capacity i) := by
        rintro ⟨inside, below⟩
        have least := tracks.below i inside
        have total := stack.length
        omega
      rw [inCachesMask_setMask, if_pos same, decide_eq_false outside]
      exact getLsbD_zero
  · intro i inside
    exact (moving.boundaries i inside).trans (if_pos inside)

end
end Loops

section Moves
variable {position : Nat}

theorem Tracked.relinked {start : FALRU} (tracked : Tracked params start order) (relinked : Relinked start tags) :
    Tracked params tags order := by
  refine ⟨fun position blk found i => ?_, fun i inside => ?_⟩
  · rw [relinked.masks blk, tracked.masks position blk found i]
  · rw [relinked.boundaries, tracked.boundaries i inside]

theorem Unmoved.links {start : FALRU} (unmoved : Unmoved start tags) (links : Links start order) : Links tags order := by
  refine ⟨?_, ?_, ?_⟩
  · rw [unmoved.prev, unmoved.next]
    exact links.linked
  · rw [unmoved.head]
    exact links.head
  · rw [unmoved.tail]
    exact links.tail

section
variable {front back : List Nat} (links : Links tags (front ++ blk :: back)) (distinct : (front ++ blk :: back).Nodup)
include links distinct

theorem Links.detachForHead_ok (inner : front ≠ []) :
    ∃ after, tags.detachForHead blk = .ok after ∧ Links after (front ++ back) ∧ Relinked tags after := by
  obtain ⟨before, last, rfl⟩ := (eq_nil_or_concat' front).resolve_left inner
  have tail := links.tail
  rw [detachForHead]
  cases back with
  | nil =>
    have same : blk = tags.tail := by simpa using tail
    obtain ⟨after, detached, kept, relinked⟩ := links.detachTail_ok distinct
    exact ⟨after, by rw [if_pos same, detached], by simpa using kept, relinked⟩
  | cons next back =>
    have other : blk ≠ tags.tail := by
      rintro rfl
      have member : tags.tail ∈ next :: back := by
        apply mem_of_getLast?
        simpa using tail
      exact (nodup_cons.mp (nodup_append.mp distinct).2.1).1 member
    obtain ⟨after, detached, kept, relinked⟩ := Links.detach_ok (by simpa using links) (by simpa using distinct)
    exact ⟨after, by rw [if_neg other, detached], by simpa using kept, relinked⟩

theorem Links.detachForTail_ok (inner : back ≠ []) :
    ∃ after, tags.detachForTail blk = .ok after ∧ Links after (front ++ back) ∧ Relinked tags after := by
  obtain ⟨next, back, rfl⟩ := exists_cons_of_ne_nil inner
  have head := links.head
  rw [detachForTail]
  rcases eq_nil_or_concat' front with rfl | ⟨before, last, rfl⟩
  · have same : blk = tags.head := by simpa using head
    obtain ⟨after, detached, kept, relinked⟩ := Links.detachHead_ok (by simpa using links) (by simpa using distinct)
    exact ⟨after, by rw [if_pos same, detached], by simpa using kept, relinked⟩
  · have other : blk ≠ tags.head := by
      rintro rfl
      have member : tags.head ∈ before ++ [last] := by
        apply mem_of_head?
        rw [head?_append] at head ⊢
        cases before <;> simpa using head
      exact disjoint_of_nodup_append distinct member mem_cons_self
    obtain ⟨after, detached, kept, relinked⟩ := Links.detach_ok (by simpa using links) (by simpa using distinct)
    exact ⟨after, by rw [if_neg other, detached], by simpa using kept, relinked⟩

end

theorem split_at_position (found : order[position]? = some blk) :
    ∃ front back, order = front ++ blk :: back ∧ front.length = position ∧ order.eraseIdx position = front ++ back := by
  obtain ⟨inside, rfl⟩ := List.getElem?_eq_some_iff.mp found
  refine ⟨order.take position, order.drop (position + 1), ?_, ?_, eraseIdx_eq_take_drop_succ _ _⟩
  · rw [getElem_cons_drop, take_append_drop]
  · rw [length_take, Nat.min_eq_left (Nat.le_of_lt inside)]

section
variable (stack : Stack params tags order) (tracks : params.Tracks) (found : order[position]? = some blk)
include stack tracks found

theorem Stack.moveToHead_ok :
    ∃ after, tags.moveToHead params blk = .ok after ∧ Stack params after (blk :: order.eraseIdx position) ∧
      after.SameContents tags := by
  obtain ⟨front, back, whole, place, erased⟩ := split_at_position found
  have first : order[0]? = some tags.head := by
    rw [← head?_eq_getElem?]
    exact stack.head
  rw [moveToHead]
  by_cases here : blk = tags.head
  · obtain rfl : position = 0 := stack.position_unique found (here ▸ first)
    obtain rfl : front = [] := eq_nil_of_length_eq_zero place
    rw [erased, nil_append, ← nil_append (blk :: back), ← whole, if_neg (not_not.mpr here)]
    exact ⟨tags, rfl, stack, .refl tags⟩
  · have inner : position ≠ 0 := by
      rintro rfl
      exact here (Option.some.inj (found.symm.trans first))
    obtain ⟨tracked, ran, unmoved, moved⟩ := stack.moveBlockToHead_ok tracks found inner
    have distinct := stack.nodup
    have links := unmoved.links stack.toLinks
    rw [whole] at distinct links
    obtain ⟨detached, left, kept, relinked⟩ := links.detachForHead_ok distinct
      (fun nil => inner (by rw [← place, nil, length_nil]))
    have fresh : (blk :: (front ++ back)).Nodup := perm_middle.nodup_iff.mp distinct
    obtain ⟨_, rfl, attached, more⟩ := kept.attachHead fresh
    have linksOnly := relinked.trans more
    rw [if_pos here, ran, ok_bind, left, ok_bind]
    refine ⟨_, rfl, ⟨moved.relinked linksOnly, ?_, ?_⟩, linksOnly.contents.trans unmoved.contents⟩
    · rw [erased]
      exact attached
    · rw [erased]
      exact (perm_middle.symm.trans (whole ▸ List.Perm.refl order)).trans stack.blocks

theorem Stack.moveToTail_ok :
    ∃ after, tags.moveToTail params blk = .ok after ∧ Stack params after (order.eraseIdx position ++ [blk]) ∧
      after.SameContents tags := by
  obtain ⟨front, back, whole, place, erased⟩ := split_at_position found
  have last : order[order.length - 1]? = some tags.tail := by
    rw [← getLast?_eq_getElem?]
    exact stack.tail
  have total : order.length = position + 1 + back.length := by
    rw [whole, length_append, length_cons, place]
    omega
  rw [moveToTail, erased]
  by_cases here : blk = tags.tail
  · have ends : position = order.length - 1 := stack.position_unique found (here ▸ last)
    obtain rfl : back = [] := eq_nil_of_length_eq_zero (by omega)
    rw [append_nil, ← whole, if_neg (not_not.mpr here)]
    exact ⟨tags, rfl, stack, .refl tags⟩
  · have inner : back ≠ [] := by
      rintro rfl
      rw [total, length_nil, Nat.add_zero, Nat.add_sub_cancel] at last
      exact here (Option.some.inj (found.symm.trans last))
    obtain ⟨tracked, ran, unmoved, moved⟩ := stack.moveBlockToTail_ok tracks found
    have distinct := stack.nodup
    have links := unmoved.links stack.toLinks
    rw [whole] at distinct links
    obtain ⟨detached, left, kept, relinked⟩ := links.detachForTail_ok distinct inner
    have reordered : (front ++ back ++ [blk]).Perm (front ++ blk :: back) :=
      (perm_append_singleton _ _).trans perm_middle.symm
    obtain ⟨_, rfl, attached, more⟩ := kept.attachTail (reordered.nodup_iff.mpr distinct)
    have linksOnly := relinked.trans more
    rw [if_pos here, ran, ok_bind, left, ok_bind]
    refine ⟨_, rfl, ⟨(erased ▸ moved).relinked linksOnly, attached, ?_⟩, linksOnly.contents.trans unmoved.contents⟩
    exact (reordered.trans (whole ▸ List.Perm.refl order)).trans stack.blocks

end
end Moves
end FALRU
end Gem5
