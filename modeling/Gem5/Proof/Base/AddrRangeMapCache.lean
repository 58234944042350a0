import Gem5.Construction.Base.AddrRangeMap
import Gem5.ToMathlib.Sorted
import Gem5.Proof.Base.AddrRangeSelection

namespace Gem5
open ToMathlib List

namespace AddrRange
variable {r s : AddrRange}

/-- A proper range is not interleaved and not empty. -/
structure Proper (range : AddrRange) : Prop where
  plain : range.masks = []
  matchValue : range.intlvMatch = 0
  nonempty : range.start < range.stop

theorem interleaved_eq (plain : r.masks = []) : r.interleaved = false := by
  simp [interleaved, plain]

theorem less_eq (plain : r.masks = []) : r.less s = decide (r.start < s.start) := by
  unfold less
  rw [interleaved_eq plain, Bool.false_and]
  split
  · rfl
  · rename_i same
    rw [Decidable.not_not.mp same]
    simp

theorem intersects_eq (first : r.masks = []) (second : s.masks = []) :
    r.intersects s = .ok (decide (r.start < s.stop ∧ s.start < r.stop)) := by
  unfold intersects
  rw [interleaved_eq first, interleaved_eq second]
  have apart : s.stop ≤ r.start ∨ r.stop ≤ s.start ↔ ¬(r.start < s.stop ∧ s.start < r.stop) := by
    rw [BitVec.lt_def, BitVec.lt_def, BitVec.le_def, BitVec.le_def]
    omega
  by_cases meet : r.start < s.stop ∧ s.start < r.stop
  · rw [if_neg (fun either => apart.mp either meet)]
    simp [meet]
  · rw [if_pos (apart.mpr meet)]
    simp [meet]

theorem isSubset_eq (first : r.Proper) (second : s.Proper) :
    r.isSubset s = .ok (decide (s.start ≤ r.start ∧ r.stop ≤ s.stop)) := by
  have firstBounds := first.nonempty
  have secondBounds := second.nonempty
  unfold isSubset
  rw [interleaved_eq first.plain, interleaved_eq second.plain, if_neg (by decide), if_neg (by decide), if_neg, if_neg]
  · rw [BitVec.not_le]
    exact secondBounds
  · rw [BitVec.not_le]
    exact firstBounds

theorem isSubset_wrapped (plain : r.masks = []) (wrapped : r.stop ≤ r.start) (second : s.Proper) :
    r.isSubset s = .ok false := by
  have secondBounds := second.nonempty
  unfold isSubset
  rw [interleaved_eq plain, interleaved_eq second.plain, if_neg (by decide), if_neg (by decide), if_pos wrapped]
  have nonzero : s.stop ≠ 0 := by
    intro zero
    rw [zero, BitVec.lt_def] at secondBounds
    simp at secondBounds
  rw [decide_eq_false fun both => nonzero both.2]

theorem Proper.contains_iff {a : Addr} (proper : r.Proper) : r.contains a = .ok true ↔ r.start ≤ a ∧ a < r.stop := by
  rw [AddrRange.contains_iff (by simp [proper.plain])]
  apply and_iff_left
  intro index
  simp [proper.plain, proper.matchValue]

end AddrRange

namespace AddrRangeMap
variable {Value : Type} {map next : AddrRangeMap Value} {tree : List (RangeNode Value)} {r : AddrRange} {it : Nat}
  {node other : RangeNode Value} {cond : AddrRange → Except Fault Bool} {holds : AddrRange → Bool}

/-- The entries of a tree are proper and apart, in their order. -/
structure Ordered (tree : List (RangeNode Value)) : Prop where
  ids : (tree.map (·.id)).Nodup
  proper : ∀ node ∈ tree, node.range.Proper
  sorted : tree.Pairwise fun first second => first.range.stop ≤ second.range.start

section
variable (ordered : Ordered tree)
include ordered

theorem Ordered.eq_of_id (member : node ∈ tree) (otherMember : other ∈ tree) (same : node.id = other.id) :
    node = other :=
  inj_on_of_nodup_map ordered.ids member otherMember same

theorem Ordered.find_id (member : node ∈ tree) : tree.find? (fun other => other.id = node.id) = some node := by
  cases found : tree.find? (fun other => other.id = node.id) with
  | none =>
    rw [find?_eq_none] at found
    simpa using found node member
  | some other =>
    have same : other.id = node.id := by simpa using find?_some found
    rw [ordered.eq_of_id (mem_of_find?_eq_some found) member same]

/-- Entries that share an address are equal. -/
theorem Ordered.eq_of_overlap (member : node ∈ tree) (otherMember : other ∈ tree)
    (first : node.range.start < other.range.stop) (second : other.range.start < node.range.stop) : node = other := by
  obtain ⟨left, leftInside, rfl⟩ := mem_iff_getElem.mp member
  obtain ⟨right, rightInside, rfl⟩ := mem_iff_getElem.mp otherMember
  have apart := pairwise_iff_getElem.mp ordered.sorted
  rw [BitVec.lt_def] at first second
  rcases Nat.lt_trichotomy left right with less | same | greater
  · have before := BitVec.le_def.mp (apart left right leftInside rightInside less)
    omega
  · subst same
    rfl
  · have before := BitVec.le_def.mp (apart right left rightInside leftInside greater)
    omega

theorem Ordered.starts : tree.Pairwise fun first second => first.range.start < second.range.start := by
  apply ordered.sorted.imp_of_mem
  intro first second firstMember _ apart
  have bounds := BitVec.lt_def.mp (ordered.proper first firstMember).nonempty
  rw [BitVec.le_def] at apart
  rw [BitVec.lt_def]
  omega

/-- The entries that start above a range follow those that do not. -/
theorem Ordered.span (plain : r.masks = []) :
    (∀ node ∈ tree.takeWhile (fun node => !r.less node.range), node.range.start ≤ r.start) ∧
      ∀ node ∈ tree.dropWhile (fun node => !r.less node.range), r.start < node.range.start := by
  constructor
  · intro node member
    have below := mem_takeWhile_imp member
    rw [AddrRange.less_eq plain] at below
    simpa using below
  · intro node member
    have above := eq_false_of_mem_dropWhile (ordered.starts.imp ?_) member
    · simpa [AddrRange.less_eq plain] using above
    · intro first second less
      simp only [AddrRange.less_eq plain, Bool.not_eq_true', decide_eq_false_iff_not, BitVec.lt_def] at less ⊢
      omega

end

/-- The entry that the search in the tree finds for a condition. -/
def treeHit (tree : List (RangeNode Value)) (r : AddrRange) (holds : AddrRange → Bool) : Option (RangeNode Value) :=
  ((tree.dropWhile fun node => !r.less node.range).head?.filter fun node => holds node.range).or
    ((tree.takeWhile fun node => !r.less node.range).getLast?.filter fun node => holds node.range)

/-- The walk back stops at the first entry, since no two entries merge. -/
theorem searchBack_eq (ordered : Ordered tree)
    (computes : ∀ node ∈ tree, cond node.range = .ok (holds node.range)) :
    searchBack cond tree.reverse = .ok ((tree.getLast?.filter fun node => holds node.range).map (·.id)) := by
  rcases eq_nil_or_concat tree with rfl | ⟨earlier, last, rfl⟩
  · rfl
  rw [concat_eq_append] at ordered computes ⊢
  have tested := computes last (by simp)
  rw [reverse_append, reverse_singleton, singleton_append, getLast?_concat, Option.filter_some]
  rcases eq_nil_or_concat earlier with rfl | ⟨first, next, rfl⟩
  · rw [reverse_nil, searchBack, tested, ok_bind]
    split <;> rfl
  rw [concat_eq_append] at ordered ⊢
  rw [reverse_append, reverse_singleton, singleton_append, searchBack, tested, ok_bind]
  have apart := (pairwise_append.mp ordered.sorted).2.2 next (by simp) last (by simp)
  have proper := BitVec.lt_def.mp (ordered.proper next (by simp)).nonempty
  have different : next.range.mergesWith last.range = false := by
    have starts : last.range.start ≠ next.range.start := by
      intro same
      rw [same, BitVec.le_def] at apart
      omega
    simp [AddrRange.mergesWith, starts]
  rw [different, if_neg (by decide : ¬false = true)]
  split <;> rfl

theorem Ordered.sublist {part : List (RangeNode Value)} (ordered : Ordered tree) (sublist : part.Sublist tree) :
    Ordered part :=
  ⟨ordered.ids.sublist (sublist.map _), fun node member => ordered.proper node (sublist.subset member),
    ordered.sorted.sublist sublist⟩

theorem searchTree_eq (ordered : Ordered tree)
    (computes : ∀ node ∈ tree, cond node.range = .ok (holds node.range)) :
    searchTree tree r cond = .ok ((treeHit tree r holds).map (·.id)) := by
  have back : searchBack cond (tree.takeWhile fun node => !r.less node.range).reverse =
      .ok (((tree.takeWhile fun node => !r.less node.range).getLast?.filter fun node => holds node.range).map
        (·.id)) := by
    apply searchBack_eq (ordered.sublist (takeWhile_sublist _))
    intro node member
    exact computes node ((takeWhile_sublist _).subset member)
  unfold searchTree treeHit
  dsimp only
  rw [back]
  cases split : tree.dropWhile fun node => !r.less node.range with
  | nil => simp [testNode]
  | cons first later =>
    have member : first ∈ tree := (dropWhile_sublist _).subset (by rw [split]; simp)
    simp only [head?_cons, testNode, computes first member, ok_bind, Option.filter_some]
    split <;> simp

theorem treeHit_mem (hit : treeHit tree r holds = some node) : node ∈ tree ∧ holds node.range = true := by
  unfold treeHit at hit
  rw [Option.or_eq_some_iff] at hit
  rcases hit with above | ⟨_, below⟩
  · rw [Option.filter_eq_some_iff] at above
    exact ⟨(dropWhile_sublist _).subset (mem_of_head? above.1), above.2⟩
  · rw [Option.filter_eq_some_iff] at below
    exact ⟨(takeWhile_sublist _).subset (mem_of_getLast? below.1), below.2⟩

/-- A condition is met near the start of a range: above it from the first entry on, and below it only by an entry that
reaches the start. -/
structure Nearby (tree : List (RangeNode Value)) (r : AddrRange) (holds : AddrRange → Bool) : Prop where
  above : ∀ node ∈ tree, ∀ other ∈ tree, r.start < node.range.start → node.range.start ≤ other.range.start →
    holds other.range = true → holds node.range = true
  below : ∀ node ∈ tree, node.range.start ≤ r.start → holds node.range = true → r.start < node.range.stop

section
variable (ordered : Ordered tree) (plain : r.masks = []) (nearby : Nearby tree r holds)
include ordered plain nearby

/-- The search prefers the first entry above the start. -/
theorem treeHit_above (member : node ∈ tree) (met : holds node.range = true) (above : r.start < node.range.start) :
    ∃ hit, treeHit tree r holds = some hit ∧ r.start < hit.range.start ∧ hit.range.start ≤ node.range.start := by
  obtain ⟨low, high⟩ := ordered.span plain
  have late : node ∈ tree.dropWhile fun node => !r.less node.range := by
    rw [← takeWhile_append_dropWhile (l := tree) (p := fun node => !r.less node.range), mem_append] at member
    refine member.resolve_left fun early => ?_
    exact absurd (low node early) (BitVec.not_le.mpr above)
  cases split : tree.dropWhile fun node => !r.less node.range with
  | nil => simp [split] at late
  | cons first rest =>
    have firstHigh := high first (by simp [split])
    have firstMember : first ∈ tree := (dropWhile_sublist _).subset (by rw [split]; simp)
    have firstLe : first.range.start ≤ node.range.start := by
      rw [split] at late
      rcases mem_cons.mp late with rfl | later
      · exact BitVec.le_refl _
      · have sorted := ordered.sorted.sublist (dropWhile_sublist fun node => !r.less node.range)
        rw [split] at sorted
        have apart := BitVec.le_def.mp ((pairwise_cons.mp sorted).1 node later)
        have proper := BitVec.lt_def.mp (ordered.proper first firstMember).nonempty
        rw [BitVec.le_def]
        omega
    have firstMet := nearby.above first firstMember node member firstHigh firstLe met
    exact ⟨first, by simp [treeHit, split, Option.filter_some, firstMet], firstHigh, firstLe⟩

/-- The search finds the entry below the start when none above it is met. -/
theorem treeHit_below (member : node ∈ tree) (met : holds node.range = true) (below : node.range.start ≤ r.start)
    (alone : ∀ other ∈ tree, r.start < other.range.start → holds other.range = false) :
    treeHit tree r holds = some node := by
  obtain ⟨low, high⟩ := ordered.span plain
  have early : node ∈ tree.takeWhile fun node => !r.less node.range := by
    rw [← takeWhile_append_dropWhile (l := tree) (p := fun node => !r.less node.range), mem_append] at member
    refine member.resolve_right fun late => ?_
    exact absurd (high node late) (BitVec.not_lt.mpr below)
  have none : (tree.dropWhile fun node => !r.less node.range).head?.filter (fun node => holds node.range) = none := by
    cases split : tree.dropWhile fun node => !r.less node.range with
    | nil => rfl
    | cons first rest =>
      have firstMember : first ∈ tree := (dropWhile_sublist _).subset (by rw [split]; simp)
      have unmet := alone first firstMember (high first (by simp [split]))
      simp [Option.filter_some, unmet]
  have last : (tree.takeWhile fun node => !r.less node.range).getLast? = some node := by
    obtain ⟨front, final, split⟩ := (eq_nil_or_concat _).resolve_left (ne_nil_of_mem early)
    rw [concat_eq_append] at split
    rw [split] at early ⊢
    rw [getLast?_concat]
    rcases mem_append.mp early with before | final
    · have sorted := ordered.sorted.sublist (takeWhile_sublist fun node => !r.less node.range)
      rw [split] at sorted
      have apart := BitVec.le_def.mp ((pairwise_append.mp sorted).2.2 node before final (by simp))
      have finalLow := BitVec.le_def.mp (low final (by simp [split]))
      have reaches := BitVec.lt_def.mp (nearby.below node member below met)
      omega
    · rw [mem_singleton.mp final]
  rw [treeHit, none, last, Option.filter_some, if_pos met]
  rfl

theorem treeHit_eq_none : treeHit tree r holds = none ↔ ∀ node ∈ tree, holds node.range = false := by
  constructor
  · intro none node member
    by_contra met
    rw [Bool.not_eq_false] at met
    have alone : ∀ other ∈ tree, r.start < other.range.start → holds other.range = false := by
      intro other otherMember above
      by_contra otherMet
      obtain ⟨hit, found, _⟩ := treeHit_above ordered plain nearby otherMember (by simpa using otherMet) above
      cases none.symm.trans found
    have below : node.range.start ≤ r.start := by
      by_contra above
      cases (alone node member (BitVec.not_le.mp above)).symm.trans met
    cases none.symm.trans (treeHit_below ordered plain nearby member met below alone)
  · intro unmet
    cases hit : treeHit tree r holds with
    | none => rfl
    | some node =>
      obtain ⟨member, met⟩ := treeHit_mem hit
      rw [unmet node member] at met
      cases met

end

end AddrRangeMap

open BitVec

namespace AddrRangeMap
variable {Value : Type} {map next : AddrRangeMap Value} {r : AddrRange} {it : Nat}
  {node other : RangeNode Value} {cond : AddrRange → Except Fault Bool} {holds : AddrRange → Bool}

/-- Each cached iterator refers to an entry of the tree. -/
def CacheLive (map : AddrRangeMap Value) : Prop := ∀ it ∈ map.cache, ∃ node ∈ map.tree, node.id = it

/-- The tree is ordered, its identities are used up, and the cache refers to it. -/
structure Sound (map : AddrRangeMap Value) : Prop where
  ordered : Ordered map.tree
  bounded : ∀ node ∈ map.tree, node.id < map.nextId
  cacheLive : map.CacheLive

/-- This function tests the entry of an iterator. -/
def testIt (map : AddrRangeMap Value) (holds : AddrRange → Bool) (it : Nat) : Bool :=
  (map.tree.find? fun node => node.id = it).any fun node => holds node.range

theorem Sound.testIt_iff (sound : map.Sound) :
    map.testIt holds it = true ↔ ∃ node ∈ map.tree, node.id = it ∧ holds node.range = true := by
  unfold testIt
  rw [Option.any_eq_true]
  constructor
  · rintro ⟨node, found, met⟩
    exact ⟨node, mem_of_find?_eq_some found, by simpa using find?_some found, met⟩
  · rintro ⟨node, member, rfl, met⟩
    exact ⟨node, sound.ordered.find_id member, met⟩

theorem Sound.searchCache_eq (sound : map.Sound)
    (computes : ∀ node ∈ map.tree, cond node.range = .ok (holds node.range)) {its : List Nat}
    (live : ∀ it ∈ its, ∃ node ∈ map.tree, node.id = it) :
    map.searchCache cond its = .ok (its.find? (map.testIt holds)) := by
  induction its with
  | nil => rfl
  | cons it rest ih =>
    rw [forall_mem_cons] at live
    obtain ⟨⟨node, member, rfl⟩, liveRest⟩ := live
    have found := sound.ordered.find_id member
    rw [searchCache, deref, found, ih liveRest, find?_cons]
    simp only [ok_bind, computes node member, testIt, found, Option.any_some]
    cases holds node.range <;> rfl

/-- The iterator that a lookup finds, in the cache or in the tree. -/
def hit (map : AddrRangeMap Value) (r : AddrRange) (holds : AddrRange → Bool) : Option Nat :=
  (map.cache.find? (map.testIt holds)).or ((treeHit map.tree r holds).map (·.id))

/-- A map has the entries of another one, so that both hand out the same iterators. -/
structure SameEntries (map other : AddrRangeMap Value) : Prop where
  tree : map.tree = other.tree
  nextId : map.nextId = other.nextId

theorem SameEntries.refl (map : AddrRangeMap Value) : SameEntries map map := ⟨rfl, rfl⟩

/-- A lookup changes the cache only. -/
structure Looked (map next : AddrRangeMap Value) : Prop where
  sound : next.Sound
  same : SameEntries next map
  maxCacheSize : next.maxCacheSize = map.maxCacheSize

theorem Looked.shape (looked : Looked map next) : ∃ cache, next = { map with cache } := by
  rcases next with ⟨_, _, cache, _⟩
  rcases looked with ⟨_, ⟨rfl, rfl⟩, rfl⟩
  exact ⟨cache, rfl⟩

section
variable (sound : map.Sound)
include sound

theorem Sound.withCache {cache : List Nat} (live : ∀ it ∈ cache, ∃ node ∈ map.tree, node.id = it) :
    Looked map { map with cache } :=
  ⟨{ sound with cacheLive := live }, ⟨rfl, rfl⟩, rfl⟩

theorem Sound.addNewEntryToCache (member : node ∈ map.tree) : Looked map (map.addNewEntryToCache node.id) := by
  have added : ∃ found ∈ map.tree, found.id = node.id := ⟨node, member, rfl⟩
  have dropped : ∀ it ∈ map.cache.dropLast, ∃ node ∈ map.tree, node.id = it :=
    fun it among => sound.cacheLive it (dropLast_subset _ among)
  unfold AddrRangeMap.addNewEntryToCache
  split
  · split
    · split
      · exact sound.withCache (forall_mem_cons.mpr ⟨added, dropped⟩)
      · exact sound.withCache (forall_mem_append.mpr ⟨dropped, forall_mem_singleton.mpr added⟩)
    · exact sound.withCache (forall_mem_cons.mpr ⟨added, sound.cacheLive⟩)
  · exact ⟨sound, .refl map, rfl⟩

theorem Sound.find_eq (computes : ∀ node ∈ map.tree, cond node.range = .ok (holds node.range)) :
    ∃ next, map.find r cond = .ok (map.hit r holds, next) ∧ Looked map next := by
  unfold find hit
  rw [sound.searchCache_eq computes sound.cacheLive, ok_bind]
  cases cached : map.cache.find? (map.testIt holds) with
  | some it =>
    refine ⟨_, rfl, sound.withCache ?_⟩
    have live := sound.cacheLive it (mem_of_find?_eq_some cached)
    rw [forall_mem_cons]
    refine ⟨live, ?_⟩
    intro other among
    exact sound.cacheLive other (mem_of_mem_erase among)
  | none =>
    rw [Option.none_or]
    simp only [searchTree_eq sound.ordered computes, ok_bind]
    cases found : treeHit map.tree r holds with
    | none => exact ⟨map, rfl, sound, .refl map, rfl⟩
    | some node => exact ⟨_, rfl, sound.addNewEntryToCache (treeHit_mem found).1⟩

theorem Sound.hit_mem (found : map.hit r holds = some it) :
    ∃ node ∈ map.tree, node.id = it ∧ holds node.range = true := by
  unfold hit at found
  rw [Option.or_eq_some_iff] at found
  rcases found with cached | ⟨_, searched⟩
  · exact sound.testIt_iff.mp (find?_some cached)
  · obtain ⟨node, inTree, rfl⟩ := Option.map_eq_some_iff.mp searched
    obtain ⟨member, met⟩ := treeHit_mem inTree
    exact ⟨node, member, rfl, met⟩

theorem Sound.hit_eq_none (plain : r.masks = []) (nearby : Nearby map.tree r holds) :
    map.hit r holds = none ↔ ∀ node ∈ map.tree, holds node.range = false := by
  constructor
  · intro none
    unfold hit at none
    rw [Option.or_eq_none_iff, Option.map_eq_none_iff] at none
    exact (treeHit_eq_none sound.ordered plain nearby).mp none.2
  · intro unmet
    cases found : map.hit r holds with
    | none => rfl
    | some it =>
      obtain ⟨node, member, _, met⟩ := sound.hit_mem found
      rw [unmet node member] at met
      cases met

/-- A lookup for a condition of at most one entry returns that entry. -/
theorem Sound.hit_eq_some (plain : r.masks = []) (nearby : Nearby map.tree r holds)
    (unique : ∀ node ∈ map.tree, ∀ other ∈ map.tree, holds node.range = true → holds other.range = true → node = other) :
    map.hit r holds = some it ↔ ∃ node ∈ map.tree, node.id = it ∧ holds node.range = true := by
  constructor
  · exact sound.hit_mem
  · rintro ⟨node, member, rfl, met⟩
    cases found : map.hit r holds with
    | none =>
      rw [(sound.hit_eq_none plain nearby).mp found node member] at met
      cases met
    | some it =>
      obtain ⟨other, otherMember, rfl, otherMet⟩ := sound.hit_mem found
      rw [unique node member other otherMember met otherMet]

end

section Conditions
variable {tree : List (RangeNode Value)} {a : Addr} {s : AddrRange}

/-- Two proper ranges have a common address. -/
def overlaps (r s : AddrRange) : Bool := r.start < s.stop ∧ s.start < r.stop

/-- The second range has all addresses of the first one. -/
def within (r s : AddrRange) : Bool := s.start ≤ r.start ∧ r.stop ≤ s.stop

/-- The range has the address. -/
def covers (a : Addr) (s : AddrRange) : Bool := s.start ≤ a ∧ a < s.stop

theorem overlaps_iff (first : r.Proper) (second : s.Proper) :
    overlaps r s = true ↔ ∃ a, r.contains a = .ok true ∧ s.contains a = .ok true := by
  have firstBounds := lt_def.mp first.nonempty
  have secondBounds := lt_def.mp second.nonempty
  simp only [overlaps, decide_eq_true_eq, first.contains_iff, second.contains_iff, lt_def, le_def]
  constructor
  · intro meet
    by_cases before : r.start.toNat ≤ s.start.toNat
    · exact ⟨s.start, by omega, by omega⟩
    · exact ⟨r.start, by omega, by omega⟩
  · rintro ⟨a, inFirst, inSecond⟩
    omega

theorem within_iff (first : r.Proper) (second : s.Proper) :
    within r s = true ↔ ∀ a, r.contains a = .ok true → s.contains a = .ok true := by
  have firstBounds := lt_def.mp first.nonempty
  simp only [within, decide_eq_true_eq, first.contains_iff, second.contains_iff, lt_def, le_def]
  constructor
  · intro part a inside
    omega
  · intro part
    have start := part r.start (by omega)
    have positive : 1 ≤ r.stop := by
      rw [le_def]
      simp only [reduceToNat]
      omega
    have last := part (r.stop - 1) (by
      rw [toNat_sub_of_le positive]
      simp only [reduceToNat]
      omega)
    rw [toNat_sub_of_le positive] at last
    simp only [reduceToNat] at last
    omega

theorem covers_iff (proper : s.Proper) : covers a s = true ↔ s.contains a = .ok true := by
  simp only [covers, decide_eq_true_eq, proper.contains_iff]

theorem isSubset_rangeSize (proper : s.Proper) : (AddrRange.rangeSize a 1).isSubset s = .ok (covers a s) := by
  by_cases last : a.toNat + 1 < 2 ^ 64
  · have next : (a + 1).toNat = a.toNat + 1 := by
      rw [toNat_add]
      simp only [reduceToNat]
      omega
    have single : (AddrRange.rangeSize a 1).Proper := by
      refine ⟨rfl, rfl, ?_⟩
      change a < a + 1
      rw [lt_def, next]
      omega
    rw [AddrRange.isSubset_eq single proper, covers]
    congr 1
    rw [decide_eq_decide]
    change s.start ≤ a ∧ a + 1 ≤ s.stop ↔ s.start ≤ a ∧ a < s.stop
    rw [le_def (x := a + 1), next, lt_def]
    rfl
  · have next : (a + 1).toNat = 0 := by
      rw [toNat_add]
      simp only [reduceToNat]
      omega
    rw [AddrRange.isSubset_wrapped rfl _ proper]
    · congr 1
      symm
      rw [covers, decide_eq_false_iff_not, lt_def]
      omega
    · change a + 1 ≤ a
      rw [le_def, next]
      omega

theorem nearby_overlaps (r : AddrRange) (ordered : Ordered tree) : Nearby tree r (overlaps r) := by
  constructor
  · intro node member other _ above before met
    have bounds := lt_def.mp (ordered.proper node member).nonempty
    simp only [overlaps, decide_eq_true_eq, lt_def, le_def] at *
    omega
  · intro node _ _ met
    simp only [overlaps, decide_eq_true_eq] at met
    exact met.1

theorem nearby_within (proper : r.Proper) : Nearby tree r (within r) := by
  have bounds := proper.nonempty
  constructor
  · intro node _ other _ above before met
    simp only [within, decide_eq_true_eq, lt_def, le_def] at *
    omega
  · intro node _ _ met
    simp only [within, decide_eq_true_eq, lt_def, le_def] at *
    omega

theorem nearby_covers : Nearby tree (.rangeSize a 1) (covers a) := by
  constructor
  · intro node _ other _ above before met
    change a < node.range.start at above
    simp only [covers, decide_eq_true_eq, lt_def, le_def] at *
    omega
  · intro node _ _ met
    simp only [covers, decide_eq_true_eq] at met
    exact met.2

theorem Ordered.within_unique (ordered : Ordered tree) (proper : r.Proper) : ∀ node ∈ tree, ∀ other ∈ tree,
    within r node.range = true → within r other.range = true → node = other := by
  intro node member other otherMember met otherMet
  have bounds := proper.nonempty
  apply ordered.eq_of_overlap member otherMember
  all_goals
    simp only [within, decide_eq_true_eq, lt_def, le_def] at *
    omega

theorem Ordered.covers_unique (ordered : Ordered tree) : ∀ node ∈ tree, ∀ other ∈ tree,
    covers a node.range = true → covers a other.range = true → node = other := by
  intro node member other otherMember met otherMet
  apply ordered.eq_of_overlap member otherMember
  all_goals
    simp only [covers, decide_eq_true_eq, lt_def, le_def] at *
    omega

end Conditions

end AddrRangeMap

end Gem5
