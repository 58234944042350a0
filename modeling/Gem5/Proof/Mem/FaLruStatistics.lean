import Gem5.Proof.Mem.FaLruInit
import Gem5.ToMathlib.Lru

namespace Gem5
open ToMathlib Function List

namespace FALRU
variable {params : FALRUParams} {tags start after : FALRU} {order : List Nat} {blk position : Nat} {addr : Addr}
  {secure : Bool}

section
variable (stack : Stack params tags order)
include stack

/-- The links, the masks and the boundaries do not depend on the contents of the blocks. -/
theorem Stack.modifyBlk (blk : Nat) (change : FALRUBlk → FALRUBlk)
    (keeps : ∀ entry, (change entry).inCachesMask = entry.inCachesMask ∧ (change entry).prev = entry.prev ∧ (change
      entry).next = entry.next) : Stack params (tags.modifyBlk blk change) order := by
  have prev : (tags.modifyBlk blk change).prev = tags.prev := funext (part_modifyBlk fun entry => (keeps entry).2.1)
  have next : (tags.modifyBlk blk change).next = tags.next := funext (part_modifyBlk fun entry => (keeps entry).2.2)
  refine ⟨⟨fun position other found i => ?_, stack.boundaries⟩, ⟨?_, stack.head, stack.tail⟩, stack.blocks⟩
  · rw [part_modifyBlk fun entry => (keeps entry).1]
    exact stack.masks position other found i
  · rw [prev, next]
    exact stack.linked

theorem Stack.recordAccess (found : Option Nat) : Stack params (tags.recordAccess params found) order := { stack with }

theorem Stack.exists_position (inside : blk < params.numBlocks) : ∃ position : Nat, order[position]? = some blk := by
  have member : blk ∈ order := stack.blocks.mem_iff.mpr (mem_range.mpr inside)
  exact mem_iff_getElem?.mp member

theorem Stack.lt_numBlocks (found : order[position]? = some blk) : blk < params.numBlocks :=
  mem_range.mp (stack.blocks.mem_iff.mp (mem_of_getElem? found))

theorem Stack.victim_position : order[params.numBlocks - 1]? = some tags.findVictim := by
  rw [← stack.length, ← getLast?_eq_getElem?]
  exact stack.tail

theorem Stack.victim_mask (tracks : params.Tracks) : (tags.blks tags.findVictim).inCachesMask = 0 := by
  apply BitVec.eq_of_getLsbD_eq
  intro i _
  rw [stack.masks _ _ stack.victim_position i, BitVec.ofNat_eq_ofNat, BitVec.getLsbD_zero]
  apply decide_eq_false
  rintro ⟨inside, below⟩
  have smaller := tracks.below i inside
  omega

end

/-- Each entry of the hash table is a valid block with the key of the entry. -/
def Hashed (params : FALRUParams) (tags : FALRU) : Prop :=
  ∀ key blk, tags.tagHash key = some blk →
    blk < params.numBlocks ∧ (tags.blks blk).valid = true ∧ ((tags.blks blk).tag, (tags.blks blk).secure) = key

section
variable (hashed : Hashed params tags)
include hashed

theorem Hashed.congr (same : after.SameContents tags) : Hashed params after := by
  intro key blk found
  rw [same.valid, same.tag, same.secure]
  rw [same.tagHash] at found
  exact hashed key blk found

theorem hashed_recordAccess (found : Option Nat) : Hashed params (tags.recordAccess params found) := hashed

theorem Hashed.findBlock_eq (tag : Addr) (secure : Bool) :
    tags.findBlock tag secure = .ok (tags.tagHash (tag, secure)) := by
  rw [findBlock]
  cases found : tags.tagHash (tag, secure) with
  | none => rfl
  | some blk =>
    obtain ⟨_, valid, key⟩ := hashed _ _ found
    obtain ⟨sameTag, sameSecure⟩ := Prod.mk.inj key
    dsimp only
    rw [if_pos valid, assert_of sameTag, assert_of sameSecure]
    rfl

end

section
variable (stack : Stack params tags order)
include stack

/-- An access moves the block that it finds to the head. -/
theorem Stack.accessBlock_ok (tracks : params.Tracks) (hashed : Hashed params tags) :
    (tags.tagHash (extractTag params addr, secure) = none ∧
      tags.accessBlock params addr secure = .ok (none, 0, tags.recordAccess params none)) ∨
    ∃ blk position moved, tags.tagHash (extractTag params addr, secure) = some blk ∧ order[position]? = some blk ∧
      tags.accessBlock params addr secure =
        .ok (some blk, (tags.blks blk).inCachesMask, moved.recordAccess params (some blk)) ∧
      Stack params moved (blk :: order.eraseIdx position) ∧ moved.SameContents tags := by
  rw [accessBlock, hashed.findBlock_eq, ok_bind]
  cases found : tags.tagHash (extractTag params addr, secure) with
  | none => exact .inl ⟨rfl, rfl⟩
  | some blk =>
    obtain ⟨inside, valid, _⟩ := hashed _ _ found
    obtain ⟨position, place⟩ := stack.exists_position inside
    obtain ⟨moved, ran, kept, same⟩ := stack.moveToHead_ok tracks place
    refine .inr ⟨blk, position, moved, rfl, place, ?_, kept, same⟩
    dsimp only
    rw [if_pos valid, ran, ok_bind]

/-- The insertion of a block moves the victim to the head. -/
theorem Stack.insertBlock_ok (tracks : params.Tracks) (addr : Addr) (secure : Bool)
    (invalid : (tags.blks tags.findVictim).valid = false) :
    ∃ moved, Stack params moved (tags.findVictim :: order.eraseIdx (params.numBlocks - 1)) ∧
      moved.SameContents (tags.modifyBlk tags.findVictim (·.insert (extractTag params addr) secure)) ∧
      tags.insertBlock params addr secure tags.findVictim = .ok { moved with
        tagHash := update moved.tagHash (extractTag params addr, secure) (some tags.findVictim) } := by
  have inserted := stack.modifyBlk tags.findVictim (·.insert (extractTag params addr) secure)
    fun _ => ⟨rfl, rfl, rfl⟩
  obtain ⟨moved, ran, kept, same⟩ := inserted.moveToHead_ok tracks stack.victim_position
  refine ⟨moved, kept, same, ?_⟩
  rw [insertBlock, assert_of (stack.victim_mask tracks), assert_of invalid, ran]
  rfl

/-- An invalidation moves the block to the tail. -/
theorem Stack.invalidate_ok (tracks : params.Tracks) (place : order[position]? = some blk)
    (valid : (tags.blks blk).valid = true) (entry : (tags.tagHash ((tags.blks blk).tag, (tags.blks blk).secure)).isSome) :
    ∃ moved, Stack params moved (order.eraseIdx position ++ [blk]) ∧ moved.SameContents (({ tags with
        tagHash := update tags.tagHash ((tags.blks blk).tag, (tags.blks blk).secure) none } : FALRU).modifyBlk
          blk FALRUBlk.invalidate) ∧
      tags.invalidate params blk = .ok moved := by
  have erased : Stack params { tags with
      tagHash := update tags.tagHash ((tags.blks blk).tag, (tags.blks blk).secure) none } order :=
    { stack with }
  obtain ⟨moved, ran, kept, same⟩ :=
    (erased.modifyBlk blk FALRUBlk.invalidate fun _ => ⟨rfl, rfl, rfl⟩).moveToTail_ok tracks place
  refine ⟨moved, kept, same, ?_⟩
  rw [invalidate, assert_of entry, assert_of valid]
  exact ran

end

/-- The invariant of the tag store. -/
structure Sound (params : FALRUParams) (tags : FALRU) : Prop where
  stack : ∃ order, Stack params tags order
  hashed : Hashed params tags

section
variable (sound : Sound params tags) (tracks : params.Tracks)
include sound tracks

theorem Sound.accessBlock (addr : Addr) (secure : Bool) :
    ∃ result, tags.accessBlock params addr secure = .ok result ∧ Sound params result.2.2 := by
  obtain ⟨⟨order, stack⟩, hashed⟩ := sound
  rcases stack.accessBlock_ok tracks hashed with ⟨_, ran⟩ | ⟨blk, position, moved, _, _, ran, kept, same⟩
  · exact ⟨_, ran, ⟨order, stack.recordAccess none⟩, hashed_recordAccess hashed none⟩
  · exact ⟨_, ran, ⟨_, kept.recordAccess (some blk)⟩, hashed_recordAccess (hashed.congr same) (some blk)⟩

theorem Sound.insertBlock (addr : Addr) (secure : Bool) (invalid : (tags.blks tags.findVictim).valid = false) :
    ∃ after, tags.insertBlock params addr secure tags.findVictim = .ok after ∧ Sound params after := by
  obtain ⟨⟨order, stack⟩, hashed⟩ := sound
  obtain ⟨moved, kept, same, ran⟩ := stack.insertBlock_ok tracks addr secure invalid
  refine ⟨_, ran, ⟨_, { kept with }⟩, fun key blk found => ?_⟩
  have entry : moved.tagHash = tags.tagHash := same.tagHash
  dsimp only at found ⊢
  rw [same.valid, same.tag, same.secure, blks_modifyBlk]
  rw [entry, update_apply] at found
  split at found
  · rename_i here
    cases found
    rw [if_pos rfl, here]
    exact ⟨stack.lt_numBlocks stack.victim_position, rfl, rfl⟩
  · obtain ⟨inside, valid, contents⟩ := hashed key blk found
    have other : blk ≠ tags.findVictim := by
      rintro rfl
      rw [invalid] at valid
      cases valid
    rw [if_neg other]
    exact ⟨inside, valid, contents⟩

theorem Sound.invalidate (inside : blk < params.numBlocks) (valid : (tags.blks blk).valid = true)
    (entry : (tags.tagHash ((tags.blks blk).tag, (tags.blks blk).secure)).isSome) :
    ∃ after, tags.invalidate params blk = .ok after ∧ Sound params after := by
  obtain ⟨⟨order, stack⟩, hashed⟩ := sound
  obtain ⟨position, place⟩ := stack.exists_position inside
  obtain ⟨moved, kept, same, ran⟩ := stack.invalidate_ok tracks place valid entry
  refine ⟨moved, ran, ⟨_, kept⟩, fun key other found => ?_⟩
  rw [same.valid, same.tag, same.secure, blks_modifyBlk]
  rw [same.tagHash] at found
  change update tags.tagHash ((tags.blks blk).tag, (tags.blks blk).secure) none key = some other at found
  rw [update_apply] at found
  obtain ⟨different, found⟩ := Option.ite_none_left_eq_some.mp found
  obtain ⟨below, held, contents⟩ := hashed key other found
  have apart : other ≠ blk := by
    rintro rfl
    exact different contents.symm
  rw [if_neg apart]
  exact ⟨below, held, contents⟩

theorem Sound.step {op : Op} (allowed : (machine params).guard tags op)
    (stepped : (machine params).step tags op = .ok after) : Sound params after := by
  cases op with
  | accessBlock addr secure =>
    obtain ⟨result, ran, kept⟩ := sound.accessBlock tracks addr secure
    have same : Op.apply params tags (.accessBlock addr secure) = .ok result.2.2 := by
      rw [Op.apply, ran, ok_bind]
    rw [Except.ok.inj (stepped.symm.trans same)]
    exact kept
  | insertBlock addr secure blk =>
    obtain rfl : blk = tags.findVictim := allowed
    have invalid : (tags.blks tags.findVictim).valid = false := by
      obtain ⟨_, _, rest⟩ := bind_eq_ok.mp stepped
      exact (assert_bind_eq_ok.mp rest).1
    obtain ⟨result, ran, kept⟩ := sound.insertBlock tracks addr secure invalid
    rw [Except.ok.inj (stepped.symm.trans ran)]
    exact kept
  | invalidate blk =>
    obtain ⟨entry, rest⟩ := assert_bind_eq_ok.mp stepped
    obtain ⟨result, ran, kept⟩ := sound.invalidate tracks allowed (assert_bind_eq_ok.mp rest).1 entry
    rw [Except.ok.inj (stepped.symm.trans ran)]
    exact kept

end

theorem sound_construct (several : params.SeveralBlocks) (constructed : construct params = .ok start) :
    Sound params start := by
  obtain ⟨accepted, initialized⟩ := accepted_of_construct constructed
  obtain ⟨first, ran, stack, same⟩ := stack_init several accepted
  cases initialized.symm.trans ran
  refine ⟨⟨_, stack⟩, fun key blk found => ?_⟩
  rw [same.tagHash] at found
  cases found

theorem sound_run {history : List Op} (several : params.SeveralBlocks) (constructed : construct params = .ok start)
    (run : (machine params).Run start history tags) : Sound params tags := by
  have tracks := several.tracks (accepted_of_construct constructed).1
  refine run.invariant (Sound params) (sound_construct several constructed) ?_
  intro before op after held allowed stepped
  exact held.step tracks allowed stepped

/-- In every run the masks and the boundaries are those of the positions in the order of the last uses, the victim is in
no tracked cache, and only the checks of the contents can stop an operation. -/
theorem stack_tracked {history : List Op} (several : params.SeveralBlocks)
    (constructed : construct params = .ok start) (run : (machine params).Run start history tags) :
    (∃ order, Stack params tags order) ∧ (tags.blks tags.findVictim).inCachesMask = 0 ∧
      (∀ addr secure, ∃ result, tags.accessBlock params addr secure = .ok result) ∧
      (∀ addr secure, (tags.blks tags.findVictim).valid = false →
        ∃ after, tags.insertBlock params addr secure tags.findVictim = .ok after) ∧
      ∀ blk < params.numBlocks, (tags.blks blk).valid = true →
        (tags.tagHash ((tags.blks blk).tag, (tags.blks blk).secure)).isSome →
        ∃ after, tags.invalidate params blk = .ok after := by
  have tracks := several.tracks (accepted_of_construct constructed).1
  have sound := sound_run several constructed run
  obtain ⟨order, stack⟩ := sound.stack
  refine ⟨⟨order, stack⟩, stack.victim_mask tracks, fun addr secure => ?_, fun addr secure invalid => ?_,
    fun blk inside valid entry => ?_⟩
  · obtain ⟨result, ran, _⟩ := sound.accessBlock tracks addr secure
    exact ⟨result, ran⟩
  · obtain ⟨result, ran, _⟩ := sound.insertBlock tracks addr secure invalid
    exact ⟨result, ran⟩
  · obtain ⟨result, ran, _⟩ := sound.invalidate tracks inside valid entry
    exact ⟨result, ran⟩

/-- A cache of four blocks tracks one of two blocks. -/
def fourBlocks : FALRUParams where
  size := 256
  blkSize := 64
  minTrackedSize := 128
  sizeFits := by decide
  blkSizeFits := by decide
  minTrackedSizeFits := by decide

theorem stack_tracked_four : ∃ start tags, construct fourBlocks = .ok start ∧
    (machine fourBlocks).Run start [.accessBlock 0 false, .insertBlock 64 false 2, .insertBlock 0 false 3] tags ∧
    (∃ order, Stack fourBlocks tags order) ∧ (tags.blks tags.findVictim).inCachesMask = 0 := by
  refine ⟨_, _, rfl, and_of_imp (.cons (.cons (.cons .nil rfl rfl) rfl rfl) trivial rfl) fun run => ?_⟩
  have tracked := stack_tracked (by decide) rfl run
  exact ⟨tracked.1, tracked.2.1⟩

/-- A cache of four blocks also tracks one of a single block. -/
def singleBlock : FALRUParams where
  size := 256
  blkSize := 64
  minTrackedSize := 64
  sizeFits := by decide
  blkSizeFits := by decide
  minTrackedSizeFits := by decide

/-- The boundary of a tracked cache of one block is lost at the first insertion, and the second insertion uses it. -/
theorem stack_untracked_single : ∃ start tags, construct singleBlock = .ok start ∧
    (machine singleBlock).Run start [.insertBlock 0 false 3] tags ∧ (¬ ∃ order, Stack singleBlock tags order) ∧
    (tags.blks tags.findVictim).valid = false ∧
    tags.insertBlock singleBlock 64 false tags.findVictim = .error .nullDereference := by
  refine ⟨_, _, rfl, .cons .nil rfl rfl, ?_, rfl, rfl⟩
  rintro ⟨order, stack⟩
  have boundary := stack.boundaries 0 (by decide)
  have first : singleBlock.capacity 0 - 1 = 0 := by decide
  rw [first, ← head?_eq_getElem?, stack.head] at boundary
  cases boundary

end FALRU

open ToMathlib.Lru Caches

namespace FALRU
variable {params : FALRUParams} {tags start after moved : FALRU} {order : List Nat} {blk position i : Nat}
  {addr : Addr} {secure : Bool} {full : List (Addr × Bool)} {key : Addr × Bool}

/-- The key of a valid block. -/
def keyOf (tags : FALRU) (blk : Nat) : Option (Addr × Bool) :=
  if (tags.blks blk).valid then some ((tags.blks blk).tag, (tags.blks blk).secure) else none

theorem SameContents.keyOf_eq (same : after.SameContents tags) (blk : Nat) : after.keyOf blk = tags.keyOf blk := by
  rw [keyOf, keyOf, same.valid, same.tag, same.secure]

/-- This structure relates the state to the keys from the most to the least recently used one. -/
structure Contents (params : FALRUParams) (tags : FALRU) (order : List Nat) (full : List (Addr × Bool)) : Prop where
  stack : Stack params tags order
  hash : ∀ key blk, tags.tagHash key = some blk ↔ blk < params.numBlocks ∧ tags.keyOf blk = some key
  keys : ∀ position blk : Nat, order[position]? = some blk → tags.keyOf blk = full[position]?
  most : full.length ≤ params.numBlocks
  distinct : full.Nodup

section
variable (contents : Contents params tags order full)
include contents

theorem Contents.hashed : Hashed params tags := by
  intro key blk found
  obtain ⟨inside, same⟩ := (contents.hash key blk).mp found
  obtain ⟨valid, same⟩ := Option.ite_none_right_eq_some.mp same
  exact ⟨inside, valid, Option.some.inj same⟩

/-- The hash table finds the block of a key at the position of the key. -/
theorem Contents.getElem_of_hash (found : tags.tagHash key = some blk) (place : order[position]? = some blk) :
    full[position]? = some key := by
  rw [← contents.keys position blk place]
  exact ((contents.hash key blk).mp found).2

theorem Contents.hash_eq_none : tags.tagHash key = none ↔ key ∉ full := by
  constructor
  · intro missing member
    obtain ⟨position, found⟩ := List.mem_iff_getElem?.mp member
    obtain ⟨inside, _⟩ := List.getElem?_eq_some_iff.mp found
    have total := contents.stack.length
    have most := contents.most
    obtain ⟨blk, place⟩ : ∃ blk, order[position]? = some blk := ⟨_, List.getElem?_eq_getElem (by omega)⟩
    have hashed := (contents.hash key blk).mpr
      ⟨contents.stack.lt_numBlocks place, (contents.keys position blk place).trans found⟩
    rw [missing] at hashed
    cases hashed
  · intro absent
    by_contra present
    obtain ⟨blk, found⟩ := Option.ne_none_iff_exists'.mp present
    obtain ⟨position, place⟩ := contents.stack.exists_position ((contents.hash key blk).mp found).1
    exact absent (mem_of_getElem? (contents.getElem_of_hash found place))

/-- The keys follow a block that moves to the head. -/
theorem Contents.access (found : tags.tagHash key = some blk) (place : order[position]? = some blk)
    (stack : Stack params moved (blk :: order.eraseIdx position)) (same : moved.SameContents tags) :
    Contents params moved (blk :: order.eraseIdx position) (touch params.numBlocks key full) := by
  have here := contents.getElem_of_hash found place
  have touched := touch_of_getElem contents.distinct here contents.most
  refine ⟨stack, fun other item => ?_, fun index item there => ?_, length_touch_le, nodup_touch contents.distinct⟩
  · rw [same.tagHash, same.keyOf_eq]
    exact contents.hash other item
  · rw [same.keyOf_eq, touched]
    cases index with
    | zero =>
      cases there
      exact (contents.keys position blk place).trans here
    | succ index =>
      rw [List.getElem?_cons_succ, List.getElem?_eraseIdx, ← apply_ite (order[·]?)] at there
      rw [List.getElem?_cons_succ, List.getElem?_eraseIdx, ← apply_ite (full[·]?)]
      exact contents.keys _ item there

end

theorem Stack.eraseIdx_victim_append (stack : Stack params tags order) :
    order.eraseIdx (params.numBlocks - 1) ++ [tags.findVictim] = order := by
  obtain ⟨front, back, whole, place, erased⟩ := split_at_position stack.victim_position
  have total := stack.length
  have last : back = [] := by
    apply eq_nil_of_length_eq_zero
    rw [whole, length_append, length_cons] at total
    omega
  rw [erased, whole, last, append_nil]

theorem keyOf_modifyBlk (change : FALRUBlk → FALRUBlk) (other : Nat) :
    (tags.modifyBlk blk change).keyOf other = if other = blk then
      (if (change (tags.blks blk)).valid then some ((change (tags.blks blk)).tag, (change (tags.blks blk)).secure)
        else none) else tags.keyOf other := by
  rw [keyOf, blks_modifyBlk, keyOf]
  split
  · next here => rw [here]
  · rfl

/-- The eviction of the victim drops the oldest key of a full cache. -/
theorem Contents.evictVictim_ok (contents : Contents params tags order full) (tracks : params.Tracks) :
    ∃ evicted, tags.evictVictim params = .ok evicted ∧ evicted.findVictim = tags.findVictim ∧
      (evicted.blks tags.findVictim).valid = false ∧ evicted.hits = tags.hits ∧ evicted.misses = tags.misses ∧
      Contents params evicted order (full.take (params.numBlocks - 1)) ∧
      ∀ key, tags.tagHash key = none → evicted.tagHash key = none := by
  have place := contents.stack.victim_position
  have last := contents.keys _ _ place
  rw [evictVictim]
  by_cases valid : (tags.blks tags.findVictim).valid = true
  · have victim : tags.keyOf tags.findVictim =
        some ((tags.blks tags.findVictim).tag, (tags.blks tags.findVictim).secure) := if_pos valid
    have inside := contents.stack.lt_numBlocks place
    have entry := (contents.hash _ _).mpr ⟨inside, victim⟩
    obtain ⟨evicted, stack, same, ran⟩ := contents.stack.invalidate_ok tracks place valid (by rw [entry]; rfl)
    rw [contents.stack.eraseIdx_victim_append] at stack
    have keys : ∀ item, evicted.keyOf item = if item = tags.findVictim then none else tags.keyOf item := by
      intro item
      rw [same.keyOf_eq, keyOf_modifyBlk]
      rfl
    have hash : evicted.tagHash = update tags.tagHash
        ((tags.blks tags.findVictim).tag, (tags.blks tags.findVictim).secure) none := same.tagHash
    refine ⟨evicted, by rw [if_pos valid, ran], ?_, ?_, same.hits, same.misses,
      ⟨stack, fun key item => ?_, fun position item there => ?_, ?_, contents.distinct.sublist (take_sublist _ _)⟩,
      fun key missing => ?_⟩
    · exact Option.some.inj (stack.victim_position.symm.trans place)
    · rw [same.valid, blks_modifyBlk, if_pos rfl]
      rfl
    · rw [hash, keys, update_apply]
      by_cases here : item = tags.findVictim
      · rw [if_pos here]
        constructor
        · intro found
          obtain ⟨different, found⟩ := Option.ite_none_left_eq_some.mp found
          have owned := ((contents.hash key item).mp found).2
          rw [here, victim] at owned
          exact absurd (Option.some.inj owned).symm different
        · rintro ⟨_, impossible⟩
          cases impossible
      · rw [if_neg here, ← contents.hash]
        split
        · rename_i same
          rw [same, entry]
          simpa using Ne.symm here
        · rfl
    · rw [keys, List.getElem?_take]
      by_cases here : item = tags.findVictim
      · have ends := contents.stack.position_unique there (here ▸ place)
        rw [if_pos here, if_neg (by omega)]
      · have total := contents.stack.length
        obtain ⟨fits, _⟩ := List.getElem?_eq_some_iff.mp there
        have other : position ≠ params.numBlocks - 1 := by
          rintro rfl
          exact here (Option.some.inj (there.symm.trans place))
        rw [if_neg here, if_pos (by omega), contents.keys position item there]
    · exact (length_take_le _ _).trans (Nat.sub_le _ _)
    · rw [hash, update_apply]
      split
      · rfl
      · exact missing
  · have short : full.length ≤ params.numBlocks - 1 := by
      have empty : tags.keyOf tags.findVictim = none := if_neg valid
      rw [empty] at last
      exact List.getElem?_eq_none_iff.mp last.symm
    rw [take_of_length_le short]
    exact ⟨tags, if_neg valid, rfl, by simpa using valid, rfl, rfl, contents, fun _ missing => missing⟩

/-- The allocation of a missing block makes its key the most recent one. -/
theorem Contents.allocateBlock_ok (contents : Contents params tags order full) (tracks : params.Tracks)
    (missing : tags.tagHash (extractTag params addr, secure) = none) :
    ∃ after order, tags.allocateBlock params addr secure = .ok after ∧
      after.hits = tags.hits ∧ after.misses = tags.misses ∧
      Contents params after order (touch params.numBlocks (extractTag params addr, secure) full) := by
  obtain ⟨evicted, ran, victim, invalid, hits, misses, kept, stillMissing⟩ := contents.evictVictim_ok tracks
  rw [← victim] at invalid
  obtain ⟨moved, stack, same, inserted⟩ := kept.stack.insertBlock_ok tracks addr secure invalid
  have place := kept.stack.victim_position
  have keys : ∀ item, moved.keyOf item =
      if item = evicted.findVictim then some (extractTag params addr, secure) else evicted.keyOf item := by
    intro item
    rw [same.keyOf_eq, keyOf_modifyBlk]
    rfl
  have hash : moved.tagHash = evicted.tagHash := same.tagHash
  have touched : touch params.numBlocks (extractTag params addr, secure) full =
      (extractTag params addr, secure) :: full.take (params.numBlocks - 1) :=
    touch_of_notMem (contents.hash_eq_none.mp missing) (Nat.zero_lt_of_lt (kept.stack.lt_numBlocks place))
  have allocated : tags.allocateBlock params addr secure = .ok { moved with
      tagHash := update moved.tagHash (extractTag params addr, secure) (some evicted.findVictim) } := by
    rw [allocateBlock, ran, ok_bind, ← victim, inserted]
  refine ⟨_, _, allocated, same.hits.trans hits, same.misses.trans misses,
    ⟨{ stack with }, fun key item => ?_, fun position item there => ?_,
      length_touch_le, nodup_touch contents.distinct⟩⟩
  · change update moved.tagHash (extractTag params addr, secure) (some evicted.findVictim) key = some item ↔
      item < params.numBlocks ∧ moved.keyOf item = some key
    rw [keys, hash, update_apply]
    by_cases here : item = evicted.findVictim
    · rw [if_pos here, here]
      by_cases mine : key = (extractTag params addr, secure)
      · rw [if_pos mine, mine]
        exact ⟨fun _ => ⟨kept.stack.lt_numBlocks place, rfl⟩, fun _ => rfl⟩
      · rw [if_neg mine, kept.hash]
        constructor
        · rintro ⟨_, owned⟩
          rw [keyOf, if_neg (by rw [invalid]; decide)] at owned
          cases owned
        · rintro ⟨_, owned⟩
          exact absurd (Option.some.inj owned).symm mine
    · rw [if_neg here, ← kept.hash]
      split
      · rename_i mine
        rw [mine, stillMissing _ missing]
        simpa using Ne.symm here
      · rfl
  · change moved.keyOf item = _
    rw [keys, touched]
    cases position with
    | zero =>
      have first : evicted.findVictim = item := by simpa using there
      rw [if_pos first.symm]
      rfl
    | succ position =>
      rw [List.getElem?_cons_succ, List.getElem?_eraseIdx, ← apply_ite (order[·]?)] at there
      have total := kept.stack.length
      obtain ⟨fits, _⟩ := List.getElem?_eq_some_iff.mp there
      have before : position < params.numBlocks - 1 := by
        by_contra late
        rw [if_neg late] at fits
        omega
      rw [if_pos before] at there
      have other : item ≠ evicted.findVictim := by
        rintro rfl
        have ends := kept.stack.position_unique there place
        omega
      rw [if_neg other, List.getElem?_cons_succ]
      exact kept.keys position item there

/-- The newest access is counted in a tracked cache as a hit exactly when the whole cache contains its block. -/
theorem Stack.recordAccess_head (stack : Stack params tags (blk :: order)) (tracks : params.Tracks)
    (tracked : i < params.numTrackedCaches) :
    (tags.recordAccess params (some blk)).hits i = tags.hits i + 1 ∧
      (tags.recordAccess params (some blk)).misses i = tags.misses i := by
  have small : i < 32 := lt_of_lt_of_le tracked tracks.few
  have bit : (tags.blks blk).inCachesMask.getLsbD i = true := by
    rw [stack.masks 0 blk rfl i]
    have two := tracks.two i tracked
    exact decide_eq_true ⟨tracked, by omega⟩
  have counted : (((1 : BitVec 32) <<< i) &&& (tags.blks blk).inCachesMask != 0) = true :=
    bne_iff_ne.mpr ((single_and_ne_zero small _).mpr bit)
  simp only [FALRU.recordAccess, if_pos tracked, counted, Nat.le_of_lt tracked, and_self, not_true, and_false, if_true,
    if_false]

/-- The request that the caches of the comparison get. -/
def Feed.request (params : FALRUParams) : Feed → ToMathlib.Lru.Request (Addr × Bool)
  | .access addr secure => .access (extractTag params addr, secure)
  | .fill addr secure => .fill (extractTag params addr, secure)

/-- An access that finds its block finds it in a tracked cache. -/
def Feed.Tracked (i : Nat) (params : FALRUParams) (tags : FALRU) : Feed → Prop
  | .access addr secure => ∀ blk, tags.tagHash (extractTag params addr, secure) = some blk →
      (tags.blks blk).inCachesMask.getLsbD i = true
  | .fill _ _ => True

/-- The cache is fed with accesses that do not find their block behind the tracked cache. -/
def feedingTracked (params : FALRUParams) (i : Nat) : Machine FALRU Feed Fault where
  guard tags op := (feeding params).guard tags op ∧ op.Tracked i params tags
  step := (feeding params).step

/-- This structure relates the state to the caches of the comparison. -/
structure Counts (params : FALRUParams) (i : Nat) (tags : FALRU) (caches : Caches (Addr × Bool)) : Prop where
  contents : ∃ order, Contents params tags order caches.full
  tracked : caches.tracked = caches.full.take (params.capacity i)
  hits : tags.hits i = caches.hits
  misses : tags.misses i = caches.misses

theorem Counts.access {caches : Caches (Addr × Bool)} {result : Option Nat × BitVec 32 × FALRU}
    (counts : Counts params i tags caches) (tracks : params.Tracks)
    (inside : i < params.numTrackedCaches) (near : Feed.Tracked i params tags (.access addr secure))
    (stepped : tags.accessBlock params addr secure = .ok result) :
    Counts params i result.2.2 (caches.serve params.numBlocks (params.capacity i)
      (.access (extractTag params addr, secure))) := by
  obtain ⟨⟨order, contents⟩, tracked, hits, misses⟩ := counts
  have smaller := Nat.le_of_lt (tracks.below i inside)
  rcases contents.stack.accessBlock_ok tracks contents.hashed with
    ⟨missing, ran⟩ | ⟨blk, position, moved, found, place, ran, kept, same⟩
  · cases stepped.symm.trans ran
    have absent := contents.hash_eq_none.mp missing
    have alsoAbsent : (extractTag params addr, secure) ∉ caches.tracked := by
      rw [tracked]
      exact fun member => absent (mem_of_mem_take member)
    simp only [serve, if_neg absent, if_neg alsoAbsent]
    refine ⟨⟨order, { contents with stack := contents.stack.recordAccess none }⟩, tracked, ?_, ?_⟩
    · simpa [FALRU.recordAccess, Nat.le_of_lt inside] using hits
    · simpa [FALRU.recordAccess, Nat.le_of_lt inside] using misses
  · cases stepped.symm.trans ran
    have here := contents.getElem_of_hash found place
    have present : (extractTag params addr, secure) ∈ caches.full := mem_of_getElem? here
    have alsoPresent : (extractTag params addr, secure) ∈ caches.tracked := by
      have bit := near blk found
      rw [contents.stack.masks position blk place i] at bit
      rw [tracked]
      apply mem_of_getElem?
      rw [List.getElem?_take, if_pos (of_decide_eq_true bit).2]
      exact here
    have following := contents.access found place kept same
    obtain ⟨oneHit, sameMisses⟩ := kept.recordAccess_head tracks inside
    simp only [serve, if_pos present, if_pos alsoPresent]
    refine ⟨⟨_, { following with stack := kept.recordAccess (some blk) }⟩, ?_, ?_, ?_⟩
    · rw [tracked, take_touch smaller]
    · rw [oneHit, same.hits, hits]
    · rw [sameMisses, same.misses, misses]

theorem Counts.fill {caches : Caches (Addr × Bool)} (counts : Counts params i tags caches) (tracks : params.Tracks)
    (inside : i < params.numTrackedCaches) (missing : tags.tagHash (extractTag params addr, secure) = none)
    (stepped : tags.allocateBlock params addr secure = .ok after) :
    Counts params i after (caches.serve params.numBlocks (params.capacity i) (.fill (extractTag params addr, secure))) := by
  obtain ⟨⟨order, contents⟩, tracked, hits, misses⟩ := counts
  obtain ⟨allocated, newOrder, ran, sameHits, sameMisses, kept⟩ := contents.allocateBlock_ok tracks missing
  cases stepped.symm.trans ran
  refine ⟨⟨newOrder, kept⟩, ?_, ?_, ?_⟩
  · change touch (params.capacity i) (extractTag params addr, secure) caches.tracked = _
    rw [tracked, ← take_touch (Nat.le_of_lt (tracks.below i inside))]
    rfl
  · rw [sameHits, hits]
    rfl
  · rw [sameMisses, misses]
    rfl

theorem counts_construct (several : params.SeveralBlocks) (constructed : construct params = .ok start) :
    Counts params i start empty := by
  obtain ⟨accepted, initialized⟩ := accepted_of_construct constructed
  obtain ⟨first, ran, stack, same⟩ := stack_init several accepted
  cases initialized.symm.trans ran
  have invalid : ∀ blk < params.numBlocks, start.keyOf blk = none := by
    intro blk inside
    rw [same.keyOf_eq, keyOf, linkedTags_blks several.1 inside]
    rfl
  refine ⟨⟨_, stack, fun key blk => ?_, fun position blk found => ?_, Nat.zero_le _, nodup_nil⟩, take_nil.symm, ?_, ?_⟩
  · rw [same.tagHash]
    constructor
    · intro impossible
      cases impossible
    · rintro ⟨inside, owned⟩
      rw [invalid blk inside] at owned
      cases owned
  · exact invalid blk (stack.lt_numBlocks found)
  · rw [same.hits]
    rfl
  · rw [same.misses]
    rfl

/-- The counters of a tracked cache are those of a cache of its size in every run whose accesses find their blocks in the
tracked cache or not at all. -/
theorem tracked_counts {history : List Feed} (several : params.SeveralBlocks)
    (constructed : construct params = .ok start) (tracked : i < params.numTrackedCaches)
    (run : (feedingTracked params i).Run start history tags) :
    let caches := replay params.numBlocks (params.capacity i) (history.map (Feed.request params))
    tags.hits i = caches.hits ∧ tags.misses i = caches.misses := by
  have tracks := several.tracks (accepted_of_construct constructed).1
  have counts : Counts params i tags
      (replay params.numBlocks (params.capacity i) (history.map (Feed.request params))) := by
    refine run.induct (fun history tags => Counts params i tags
      (replay params.numBlocks (params.capacity i) (history.map (Feed.request params))))
      (counts_construct several constructed) ?_
    intro history before op after _ held allowed stepped
    cases op with
    | access addr secure =>
      obtain ⟨result, ran, rfl⟩ := bind_ok_eq_ok.mp stepped
      exact held.access tracks tracked allowed.2 ran
    | fill addr secure => exact held.fill tracks tracked allowed.1 stepped
  exact ⟨counts.hits, counts.misses⟩

theorem tracked_counts_four : ∃ start tags, construct fourBlocks = .ok start ∧
    (feedingTracked fourBlocks 0).Run start [.access 64 false, .access 128 false, .fill 64 false, .fill 0 false] tags ∧
    tags.hits 0 = 1 ∧ tags.misses 0 = 1 ∧
    tags.hits 0 = (replay fourBlocks.numBlocks (fourBlocks.capacity 0)
      ([.access 64 false, .access 128 false, .fill 64 false, .fill 0 false].map (Feed.request fourBlocks))).hits := by
  refine ⟨_, _, rfl, and_of_imp (.cons (.cons (.cons (.cons .nil ⟨rfl, trivial⟩ rfl) ⟨rfl, trivial⟩ rfl) ⟨trivial, ?_⟩ rfl)
    ⟨trivial, ?_⟩ rfl) fun run => ⟨rfl, rfl, (tracked_counts (by decide) rfl (by decide) run).1⟩⟩
  · intro blk found
    cases found
  · intro blk found
    obtain rfl := Option.some.inj found
    rfl

/-- An access to a block that only the whole cache contains counts as a hit of the tracked cache. -/
theorem tracked_counts_too_many : ∃ start tags, construct fourBlocks = .ok start ∧
    (feeding fourBlocks).Run start [.access 0 false, .fill 128 false, .fill 64 false, .fill 0 false] tags ∧
    tags.hits 0 = 1 ∧ tags.misses 0 = 0 ∧
    (replay fourBlocks.numBlocks (fourBlocks.capacity 0)
      ([.access 0 false, .fill 128 false, .fill 64 false, .fill 0 false].map (Feed.request fourBlocks))).misses = 1 :=
  ⟨_, _, rfl, .cons (.cons (.cons (.cons .nil rfl rfl) rfl rfl) rfl rfl) trivial rfl, rfl, rfl, by decide⟩

end FALRU
end Gem5
