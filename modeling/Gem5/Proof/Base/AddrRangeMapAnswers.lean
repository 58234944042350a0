import Gem5.Proof.Base.AddrRangeMapCache

namespace Gem5
open ToMathlib AddrRange List BitVec

namespace AddrRangeMap
variable {Value : Type} {map plain next : AddrRangeMap Value} {r : AddrRange} {a : Addr} {it : Nat}
  {result : Option Nat} {node other : RangeNode Value} {op : Op Value}

/-- This function puts a node into the order of a tree. -/
def placed (tree : List (RangeNode Value)) (node : RangeNode Value) : List (RangeNode Value) :=
  tree.takeWhile (fun other => other.range.less node.range) ++
    node :: tree.dropWhile fun other => other.range.less node.range

section Placed
variable {tree : List (RangeNode Value)}

theorem perm_placed (tree : List (RangeNode Value)) (node : RangeNode Value) : (placed tree node).Perm (node :: tree) :=
  perm_middle.trans (by rw [takeWhile_append_dropWhile])

theorem mem_placed : other ∈ placed tree node ↔ other = node ∨ other ∈ tree := by
  rw [(perm_placed tree node).mem_iff, mem_cons]

/-- The entries on both sides of a new range are apart from it. -/
theorem Ordered.sides (ordered : Ordered tree) (proper : r.Proper)
    (apart : ∀ other ∈ tree, overlaps r other.range = false) :
    (∀ other ∈ tree.takeWhile (fun other => other.range.less r), other.range.stop ≤ r.start) ∧
      ∀ other ∈ tree.dropWhile (fun other => other.range.less r), r.stop ≤ other.range.start := by
  have bounds := lt_def.mp proper.nonempty
  constructor
  · intro other member
    have inTree := (takeWhile_sublist _).subset member
    have before := mem_takeWhile_imp member
    have otherProper := ordered.proper other inTree
    have disjoint := apart other inTree
    rw [less_eq otherProper.plain, decide_eq_true_eq] at before
    simp only [overlaps, decide_eq_false_iff_not, lt_def] at before disjoint
    rw [le_def]
    omega
  · intro other member
    have inTree := (dropWhile_sublist _).subset member
    have otherProper := ordered.proper other inTree
    have otherBounds := lt_def.mp otherProper.nonempty
    have disjoint := apart other inTree
    have closed : tree.Pairwise fun first second => second.range.less r = true → first.range.less r = true := by
      apply ordered.starts.imp_of_mem
      intro first second firstMember secondMember less
      rw [less_eq (ordered.proper first firstMember).plain,
        less_eq (ordered.proper second secondMember).plain, decide_eq_true_eq, decide_eq_true_eq]
      exact BitVec.lt_trans less
    have after := @eq_false_of_mem_dropWhile _ (fun other => other.range.less r) tree other closed member
    simp only [less_eq otherProper.plain, decide_eq_false_iff_not] at after
    simp only [overlaps, decide_eq_false_iff_not, lt_def] at after disjoint
    rw [le_def]
    omega

/-- A proper range that overlaps no entry keeps the order of the tree. -/
theorem Ordered.placed (ordered : Ordered tree) (proper : node.range.Proper)
    (fresh : ∀ other ∈ tree, other.id ≠ node.id) (apart : ∀ other ∈ tree, overlaps node.range other.range = false) :
    Ordered (placed tree node) := by
  obtain ⟨before, after⟩ := ordered.sides proper apart
  constructor
  · rw [((perm_placed tree node).map _).nodup_iff, map_cons, nodup_cons, mem_map]
    refine ⟨?_, ordered.ids⟩
    rintro ⟨other, member, same⟩
    exact fresh other member same
  · intro other member
    rcases mem_placed.mp member with rfl | inTree
    · exact proper
    · exact ordered.proper other inTree
  · have sorted := ordered.sorted
    rw [← takeWhile_append_dropWhile (l := tree) (p := fun other => other.range.less node.range),
      pairwise_append] at sorted
    rw [AddrRangeMap.placed, pairwise_append, pairwise_cons]
    refine ⟨sorted.1, ⟨after, sorted.2.1⟩, ?_⟩
    intro first firstMember second secondMember
    rcases mem_cons.mp secondMember with rfl | later
    · exact before first firstMember
    · exact sorted.2.2 first firstMember second later

end Placed

/-- An insertion adds a proper range that overlaps no entry. -/
theorem Sound.insertNode_eq (sound : map.Sound) (proper : r.Proper) (d : Value)
    (apart : ∀ node ∈ map.tree, overlaps r node.range = false) :
    map.insertNode r d = (some map.nextId, { map with
      tree := AddrRangeMap.placed map.tree { id := map.nextId, range := r, value := d }, nextId := map.nextId + 1 }) := by
  have sides := (sound.ordered.sides proper apart).2
  have bounds := lt_def.mp proper.nonempty
  unfold insertNode
  cases split : map.tree.dropWhile fun node => node.range.less r with
  | nil => simp [AddrRangeMap.placed, split]
  | cons first rest =>
    have above := sides first (by simp [split])
    have less : r.less first.range = true := by
      rw [less_eq proper.plain, decide_eq_true_eq, lt_def]
      rw [le_def] at above
      omega
    simp [AddrRangeMap.placed, split, Option.filter_some, less]

/-- This function lists the entries from `p` up to `q`. -/
def segment (tree : List (RangeNode Value)) (p q : Option Nat) : List (RangeNode Value) :=
  (tree.dropWhile fun node => some node.id ≠ p).takeWhile fun node => some node.id ≠ q

/-- The caller passes proper ranges and iterators of the tree. -/
def allowed (map : AddrRangeMap Value) : Op Value → Prop
  | .insert r _ | .contains r | .intersects r => r.Proper
  | .erase p => ∃ node ∈ map.tree, node.id = p
  | .eraseRange p q => ∃ before erased after, map.tree = before ++ (erased ++ after) ∧
      (erased ++ after).head?.map (·.id) = p ∧ after.head?.map (·.id) = q
  | .containsAddr _ | .clear => True

/-- The result of a lookup or of an insertion is what the addresses of the ranges ask for. -/
def Meets (map : AddrRangeMap Value) (op : Op Value) (result : Option Nat) : Prop :=
  match op with
  | .insert r _ => result.isSome = true ↔
      ∀ node ∈ map.tree, ¬∃ a, r.contains a = .ok true ∧ node.range.contains a = .ok true
  | .contains r => ∀ it, result = some it ↔
      ∃ node ∈ map.tree, node.id = it ∧ ∀ a, r.contains a = .ok true → node.range.contains a = .ok true
  | .containsAddr a => ∀ it, result = some it ↔ ∃ node ∈ map.tree, node.id = it ∧ node.range.contains a = .ok true
  | .intersects r => result = none ↔
      ∀ node ∈ map.tree, ¬∃ a, r.contains a = .ok true ∧ node.range.contains a = .ok true
  | .erase _ | .eraseRange _ _ | .clear => result = none

/-- An operation answers like the map without a cache and leaves the cache referring to the tree. -/
def Answers (map plain : AddrRangeMap Value) (op : Op Value) : Prop :=
  ∃ result next plainNext, map.step op = .ok (result, next) ∧ plain.step op = .ok (result, plainNext) ∧
    map.Meets op result ∧ next.CacheLive

/-- The first cached entry that overlaps a range is the one that the tree search prefers, and an erased segment has no
cached entry but its first one. -/
def harmless (map : AddrRangeMap Value) : Op Value → Prop
  | .intersects r => ∀ node ∈ map.tree, map.cache.find? (map.testIt (overlaps r)) = some node.id →
      ∀ other ∈ map.tree, overlaps r other.range = true → r.start < other.range.start →
        r.start < node.range.start ∧ node.range.start ≤ other.range.start
  | .eraseRange p q => ∀ node ∈ segment map.tree p q, node.id ∈ map.cache → some node.id = p
  | .insert _ _ | .contains _ | .containsAddr _ | .erase _ | .clear => True

/-- A map with a cache and a map without one have the same entries. -/
structure Paired (map plain : AddrRangeMap Value) : Prop where
  ordered : Ordered map.tree
  bounded : ∀ node ∈ map.tree, node.id < map.nextId
  same : SameEntries map plain
  uncached : plain.cache = []
  noCache : plain.maxCacheSize = 0

section
variable (paired : Paired map plain)
include paired

theorem Paired.shape : plain = { map with cache := [], maxCacheSize := 0 } := by
  cases plain
  rcases paired with ⟨_, _, ⟨rfl, rfl⟩, rfl, rfl⟩
  rfl

theorem Paired.plainSound : plain.Sound := by
  rw [paired.shape]
  exact ⟨paired.ordered, paired.bounded, nofun⟩

theorem Paired.looked (looked : Looked map next) : Paired next plain := by
  obtain ⟨cache, rfl⟩ := looked.shape
  exact { paired with same := { paired.same with } }

end

/-- What an operation does in both maps. -/
structure Stepped (map plain : AddrRangeMap Value) (op : Op Value) (result plainResult : Option Nat)
    (next plainNext : AddrRangeMap Value) : Prop where
  cached : map.step op = .ok (result, next)
  uncached : plain.step op = .ok (plainResult, plainNext)
  meets : map.Meets op result
  paired : Paired next plainNext
  agrees : result = plainResult ∧ next.CacheLive ↔ map.harmless op

/-- An operation is done by both maps. -/
def Steps (map plain : AddrRangeMap Value) (op : Op Value) : Prop :=
  ∃ result plainResult next plainNext, Stepped map plain op result plainResult next plainNext

section
variable (paired : Paired map plain) (live : map.CacheLive)
include paired live

theorem Paired.sound : map.Sound := { paired with cacheLive := live }

section
variable {cond : AddrRange → Except Fault Bool} {holds : AddrRange → Bool}

theorem Paired.find (computes : ∀ node ∈ map.tree, cond node.range = .ok (holds node.range)) :
    ∃ next, map.find r cond = .ok (map.hit r holds, next) ∧ Looked map next ∧
      plain.find r cond = .ok (plain.hit r holds, plain) := by
  obtain ⟨next, done, looked⟩ := (paired.sound live).find_eq computes
  refine ⟨next, done, looked, ?_⟩
  rw [paired.shape, AddrRangeMap.find, hit]
  simp only [searchCache, ok_bind, find?_nil, Option.none_or, searchTree_eq paired.ordered computes]
  cases treeHit map.tree r holds with
  | none => rfl
  | some node =>
    simp only [Option.map_some]
    rw [AddrRangeMap.addNewEntryToCache, if_neg (not_not.mpr rfl)]

/-- The lookups of both maps agree on a condition of at most one entry. -/
theorem Paired.lookup (computes : ∀ node ∈ map.tree, cond node.range = .ok (holds node.range))
    (noMasks : r.masks = []) (nearby : Nearby map.tree r holds)
    (unique : ∀ node ∈ map.tree, ∀ other ∈ map.tree, holds node.range = true → holds other.range = true → node = other)
    (cached : map.step op = map.find r cond) (uncached : plain.step op = plain.find r cond)
    (meets : ∀ result, (∀ it, result = some it ↔ ∃ node ∈ map.tree, node.id = it ∧ holds node.range = true) →
      map.Meets op result) (harmless : map.harmless op) : Steps map plain op := by
  obtain ⟨next, done, looked, plainDone⟩ := paired.find live computes
  have found : ∀ it, map.hit r holds = some it ↔ _ := fun it => (paired.sound live).hit_eq_some noMasks nearby unique
  refine ⟨_, _, next, plain, cached.trans done, uncached.trans plainDone, meets _ found, paired.looked looked,
    iff_of_true ⟨Option.ext fun it => (found it).trans ?_, looked.sound.cacheLive⟩ harmless⟩
  obtain rfl := paired.shape
  exact (paired.plainSound.hit_eq_some noMasks nearby unique).symm

end

theorem Paired.find_overlaps (proper : r.Proper) :
    ∃ next, map.intersects r = .ok (map.hit r (overlaps r), next) ∧ Looked map next ∧
      plain.intersects r = .ok (plain.hit r (overlaps r), plain) :=
  paired.find live fun node member => AddrRange.intersects_eq proper.plain (paired.ordered.proper node member).plain

theorem Paired.contains (proper : r.Proper) : Steps map plain (.contains r) := by
  refine paired.lookup live (fun node member => isSubset_eq proper (paired.ordered.proper node member)) proper.plain
    (nearby_within proper) (paired.ordered.within_unique proper) rfl rfl (fun result found it => (found it).trans ?_) trivial
  refine exists_congr fun node => and_congr_right fun member => ?_
  rw [within_iff proper (paired.ordered.proper node member)]

theorem Paired.containsAddr (a : Addr) : Steps map plain (.containsAddr a) := by
  refine paired.lookup live (fun node member => isSubset_rangeSize (paired.ordered.proper node member)) rfl nearby_covers
    paired.ordered.covers_unique rfl rfl (fun result found it => (found it).trans ?_) trivial
  refine exists_congr fun node => and_congr_right fun member => ?_
  rw [covers_iff (paired.ordered.proper node member)]

omit live in
theorem overlaps_eq_false_iff (proper : r.Proper) : (∀ node ∈ map.tree, overlaps r node.range = false) ↔
      ∀ node ∈ map.tree, ¬∃ a, r.contains a = .ok true ∧ node.range.contains a = .ok true := by
  apply forall₂_congr
  intro node member
  rw [← overlaps_iff proper (paired.ordered.proper node member), Bool.not_eq_true]

/-- The lookups of both maps agree on the overlapping entry exactly when the cache prefers the entry of the tree. -/
theorem Paired.hit_overlaps_eq (proper : r.Proper) :
    map.hit r (overlaps r) = plain.hit r (overlaps r) ↔ map.harmless (.intersects r) := by
  have sound := paired.sound live
  have ordered := paired.ordered
  have nearby := nearby_overlaps r ordered
  have plainHit : plain.hit r (overlaps r) = (treeHit map.tree r (overlaps r)).map (·.id) := by
    rw [paired.shape]
    rfl
  rw [plainHit, hit]
  cases cached : map.cache.find? (map.testIt (overlaps r)) with
  | none =>
    rw [Option.none_or]
    apply iff_of_true rfl
    intro node _ found
    rw [cached] at found
    simp at found
  | some it =>
    obtain ⟨node, member, rfl, met⟩ := sound.testIt_iff.mp (find?_some cached)
    have prefers : map.harmless (.intersects r) ↔ ∀ other ∈ map.tree, overlaps r other.range = true →
        r.start < other.range.start → r.start < node.range.start ∧ node.range.start ≤ other.range.start := by
      constructor
      · intro harmless
        exact harmless node member cached
      · intro prefers first firstMember found
        rw [cached, Option.some.injEq] at found
        rw [← ordered.eq_of_id member firstMember found]
        exact prefers
    rw [prefers, Option.some_or]
    constructor
    · intro equal other otherMember otherMet above
      obtain ⟨found, treeFound, foundAbove, foundLe⟩ := treeHit_above ordered proper.plain nearby otherMember otherMet
        above
      rw [treeFound, Option.map_some, Option.some.injEq] at equal
      rw [ordered.eq_of_id member (treeHit_mem treeFound).1 equal]
      exact ⟨foundAbove, foundLe⟩
    · intro preferred
      by_cases alone : ∀ other ∈ map.tree, r.start < other.range.start → overlaps r other.range = false
      · have below : node.range.start ≤ r.start := by
          by_contra above
          rw [alone node member (BitVec.not_le.mp above)] at met
          cases met
        rw [treeHit_below ordered proper.plain nearby member met below alone, Option.map_some]
      · push Not at alone
        obtain ⟨other, otherMember, above, otherMet⟩ := alone
        obtain ⟨found, treeFound, foundAbove, _⟩ := treeHit_above ordered proper.plain nearby otherMember
          (by simpa using otherMet) above
        obtain ⟨foundMember, foundMet⟩ := treeHit_mem treeFound
        have nodeLe := preferred found foundMember foundMet foundAbove
        obtain ⟨first, firstFound, _, firstLe⟩ := treeHit_above ordered proper.plain nearby member met nodeLe.1
        rw [treeFound, Option.some.injEq] at firstFound
        subst firstFound
        have bounds := lt_def.mp (ordered.proper node member).nonempty
        have foundBounds := lt_def.mp (ordered.proper found foundMember).nonempty
        have equal : node = found := by
          apply ordered.eq_of_overlap member foundMember
          all_goals
            simp only [lt_def, le_def] at nodeLe firstLe ⊢
            omega
        rw [treeFound, equal, Option.map_some]

theorem Paired.intersects (proper : r.Proper) : Steps map plain (.intersects r) := by
  have sound := paired.sound live
  obtain ⟨next, done, looked, plainDone⟩ := paired.find_overlaps live proper
  refine ⟨_, _, next, plain, done, plainDone, ?_, paired.looked looked, ?_⟩
  · exact (sound.hit_eq_none proper.plain (nearby_overlaps r paired.ordered)).trans
      (overlaps_eq_false_iff paired proper)
  · rw [← paired.hit_overlaps_eq live proper]
    exact and_iff_left looked.sound.cacheLive

omit paired live in
theorem Sound.insertNode (sound : map.Sound) (proper : r.Proper) (d : Value)
    (apart : ∀ node ∈ map.tree, overlaps r node.range = false) : (map.insertNode r d).2.Sound := by
  rw [sound.insertNode_eq proper d apart]
  constructor
  · apply sound.ordered.placed proper _ apart
    intro other member
    exact (sound.bounded other member).ne
  · intro node member
    rcases mem_placed.mp member with rfl | inTree
    · exact Nat.lt_succ_self _
    · exact Nat.lt_succ_of_lt (sound.bounded node inTree)
  · intro it cached
    obtain ⟨node, member, same⟩ := sound.cacheLive it cached
    exact ⟨node, mem_placed.mpr (.inr member), same⟩

omit paired live in
theorem insert_of_none {d : Value} (done : map.intersects r = .ok (none, next)) :
    map.insert r d = .ok (next.insertNode r d) := by
  rw [AddrRangeMap.insert, done, ok_bind]
  rfl

theorem Paired.insert (proper : r.Proper) (d : Value) : Steps map plain (.insert r d) := by
  have sound := paired.sound live
  obtain ⟨looked, done, lookedOk, plainDone⟩ := paired.find_overlaps live proper
  have nearby := nearby_overlaps r paired.ordered
  have lookedPaired := paired.looked lookedOk
  obtain ⟨cache, rfl⟩ := lookedOk.shape
  obtain rfl := paired.shape
  have none := sound.hit_eq_none proper.plain nearby
  have plainNone := paired.plainSound.hit_eq_none proper.plain nearby
  have meaning := overlaps_eq_false_iff paired proper
  by_cases apart : ∀ node ∈ map.tree, overlaps r node.range = false
  · rw [none.mpr apart] at done
    rw [plainNone.mpr apart] at plainDone
    have nextSound := lookedOk.sound.insertNode proper d apart
    rw [lookedOk.sound.insertNode_eq proper d apart] at nextSound
    exact ⟨_, _, _, _, (insert_of_none done).trans (congrArg _ (lookedOk.sound.insertNode_eq proper d apart)),
      (insert_of_none plainDone).trans (congrArg _ (paired.plainSound.insertNode_eq proper d apart)),
      iff_of_true rfl (meaning.mp apart), ⟨nextSound.ordered, nextSound.bounded, ⟨rfl, rfl⟩, rfl, rfl⟩,
      iff_of_true ⟨rfl, nextSound.cacheLive⟩ trivial⟩
  · obtain ⟨it, found⟩ := Option.ne_none_iff_exists'.mp (mt none.mp apart)
    obtain ⟨plainIt, plainFound⟩ := Option.ne_none_iff_exists'.mp (mt plainNone.mp apart)
    rw [found] at done
    rw [plainFound] at plainDone
    refine ⟨Option.none, Option.none, _, _, ?_, ?_, ?_, lookedPaired, ?_⟩
    · rw [step, AddrRangeMap.insert, done, ok_bind]
      rfl
    · rw [step, AddrRangeMap.insert, plainDone, ok_bind]
      rfl
    · exact iff_of_false (by simp) (mt meaning.mpr apart)
    · exact iff_of_true ⟨rfl, lookedOk.sound.cacheLive⟩ trivial

theorem Paired.erase {p : Nat} (present : ∃ node ∈ map.tree, node.id = p) : Steps map plain (.erase p) := by
  obtain ⟨node, member, rfl⟩ := present
  obtain rfl := paired.shape
  have found := paired.ordered.find_id member
  have kept : (map.tree.filter fun other => other.id ≠ node.id).Sublist map.tree := filter_sublist
  refine ⟨none, none, { map with cache := map.cache.filter (· ≠ node.id), tree := map.tree.filter (·.id ≠ node.id) },
    { map with cache := [], maxCacheSize := 0, tree := map.tree.filter (·.id ≠ node.id) }, ?_, ?_, rfl,
    ⟨paired.ordered.sublist kept, ?_, ⟨rfl, rfl⟩, rfl, rfl⟩, ?_⟩
  · simp only [step, AddrRangeMap.erase, deref, found, ok_bind]
  · simp only [step, AddrRangeMap.erase, deref, found, ok_bind, filter_nil]
  · intro other among
    exact paired.bounded other (kept.subset among)
  · apply iff_of_true _ trivial
    refine ⟨rfl, ?_⟩
    intro it cached
    rw [mem_filter, decide_eq_true_eq] at cached
    obtain ⟨other, otherMember, rfl⟩ := live it cached.1
    exact ⟨other, mem_filter.mpr ⟨otherMember, by simpa using cached.2⟩, rfl⟩

end

section Segment
variable {tree before erased after : List (RangeNode Value)} {p q : Option Nat}

/-- Repeated removals from the cache have the effect of one. -/
theorem foldl_filter (keep : Nat → Bool) (cache : List Nat) :
    tree.foldl (fun cache _ => cache.filter keep) cache = if tree = [] then cache else cache.filter keep := by
  induction tree generalizing cache with
  | nil => rfl
  | cons node rest ih =>
    rw [foldl_cons, ih, if_neg (cons_ne_nil _ _), filter_filter]
    simp

/-- The front part up to an iterator is what stands before it. -/
theorem span_of_head {front rest : List (RangeNode Value)} (ids : ((front ++ rest).map (·.id)).Nodup)
    (head : rest.head?.map (·.id) = p) :
    (front ++ rest).takeWhile (fun node => some node.id ≠ p) = front ∧
      (front ++ rest).dropWhile (fun node => some node.id ≠ p) = rest := by
  have early : ∀ node ∈ front, decide (some node.id ≠ p) = true := by
    intro node member
    rw [decide_eq_true_eq]
    rintro rfl
    obtain ⟨other, first, same⟩ := Option.map_eq_some_iff.mp head
    rw [map_append, nodup_append] at ids
    exact ids.2.2 node.id (mem_map_of_mem member) other.id (mem_map_of_mem (mem_of_head? first)) same.symm
  rw [takeWhile_append_of_pos early, dropWhile_append_of_pos early]
  cases rest with
  | nil => simp
  | cons first later =>
    have same : some first.id = p := by simpa using head
    simp [same]

/-- This map keeps the entries around an erased segment. -/
def withoutSegment (map : AddrRangeMap Value) (p : Option Nat) (erased kept : List (RangeNode Value)) :
    AddrRangeMap Value :=
  { map with
    cache := if erased = [] then map.cache else map.cache.filter fun it => some it ≠ p
    tree := kept }

theorem eraseRange_eq (ordered : Ordered map.tree) (parts : map.tree = before ++ (erased ++ after))
    (first : (erased ++ after).head?.map (·.id) = p) (last : after.head?.map (·.id) = q) :
    segment map.tree p q = erased ∧ map.eraseRange p q = .ok (map.withoutSegment p erased (before ++ after)) := by
  have ids := ordered.ids
  rw [parts] at ids
  obtain ⟨front, rest⟩ := span_of_head ids first
  have idsRest : ((erased ++ after).map (·.id)).Nodup := by
    rw [map_append, nodup_append] at ids
    exact ids.2.1
  obtain ⟨middle, back⟩ := span_of_head idsRest last
  constructor
  · rw [segment, parts, rest, middle]
  · unfold eraseRange
    dsimp only
    rw [parts, front, rest, middle, back, if_pos ⟨first, last⟩, foldl_filter]
    rfl

/-- The cache refers to the remaining entries exactly when the erased segment has no cached entry but its first one. -/
theorem cacheLive_eraseRange (ordered : Ordered map.tree) (live : map.CacheLive)
    (parts : map.tree = before ++ (erased ++ after)) :
    (map.withoutSegment p erased (before ++ after)).CacheLive ↔ ∀ node ∈ erased, node.id ∈ map.cache → some node.id = p := by
  have split : ∀ node, node ∈ map.tree ↔ node ∈ erased ∨ node ∈ before ++ after := by
    intro node
    rw [parts, mem_append, mem_append, mem_append]
    tauto
  constructor
  · intro nextLive node member cached
    by_contra other
    have kept : node.id ∈ if erased = [] then map.cache else map.cache.filter fun it => some it ≠ p := by
      rw [if_neg (ne_nil_of_mem member), mem_filter]
      exact ⟨cached, by simpa using other⟩
    obtain ⟨found, foundMember, same⟩ := nextLive node.id kept
    have equal := ordered.eq_of_id ((split found).mpr (.inr foundMember)) ((split node).mpr (.inl member)) same
    subst equal
    have ids := (ordered.ids.of_map _)
    rw [parts, nodup_append, nodup_append] at ids
    rcases mem_append.mp foundMember with early | late
    · exact ids.2.2 found early found (mem_append_left _ member) rfl
    · exact ids.2.1.2.2 found member found late rfl
  · intro onlyFirst it cached
    change it ∈ if erased = [] then map.cache else map.cache.filter fun it => some it ≠ p at cached
    have inCache : it ∈ map.cache := by
      split at cached
      · exact cached
      · exact mem_of_mem_filter cached
    obtain ⟨node, member, rfl⟩ := live it inCache
    rcases (split node).mp member with gone | kept
    · have head := onlyFirst node gone inCache
      rw [if_neg (ne_nil_of_mem gone), mem_filter] at cached
      simp [head] at cached
    · exact ⟨node, kept, rfl⟩

theorem Paired.eraseRange (paired : Paired map plain) (live : map.CacheLive)
    (parts : map.tree = before ++ (erased ++ after)) (first : (erased ++ after).head?.map (·.id) = p)
    (last : after.head?.map (·.id) = q) : Steps map plain (.eraseRange p q) := by
  obtain rfl := paired.shape
  obtain ⟨segmentEq, done⟩ := eraseRange_eq paired.ordered parts first last
  obtain ⟨_, plainDone⟩ := eraseRange_eq paired.plainSound.ordered parts first last
  have kept : (before ++ after).Sublist map.tree := by
    rw [parts]
    exact List.Sublist.append_left (sublist_append_right erased after) before
  refine ⟨none, none, _, _, bind_ok_eq_ok.mpr ⟨_, done, rfl⟩, bind_ok_eq_ok.mpr ⟨_, plainDone, rfl⟩, rfl,
    ⟨paired.ordered.sublist kept, ?_, ⟨rfl, rfl⟩, ite_self _, rfl⟩, ?_⟩
  · intro node member
    exact paired.bounded node (kept.subset member)
  · rw [and_iff_right rfl, cacheLive_eraseRange paired.ordered live parts]
    change _ ↔ ∀ node ∈ segment map.tree p q, node.id ∈ map.cache → some node.id = p
    rw [segmentEq]

end Segment

theorem Paired.step (paired : Paired map plain) (live : map.CacheLive) (allowed : map.allowed op) :
    Steps map plain op := by
  cases op with
  | insert r d => exact paired.insert live allowed d
  | contains r => exact paired.contains live allowed
  | containsAddr a => exact paired.containsAddr live a
  | intersects r => exact paired.intersects live allowed
  | erase p => exact paired.erase live allowed
  | eraseRange p q =>
    obtain ⟨before, erased, after, parts, first, last⟩ := allowed
    exact paired.eraseRange live parts first last
  | clear =>
    exact ⟨none, none, map.clear, plain.clear, rfl, rfl, rfl, ⟨⟨nodup_nil, nofun, List.Pairwise.nil⟩, nofun,
      ⟨rfl, paired.same.nextId⟩, rfl, paired.noCache⟩, iff_of_true ⟨rfl, nofun⟩ trivial⟩

/-- An allowed operation answers like the map without a cache exactly when it is harmless. -/
theorem Paired.answers_iff (paired : Paired map plain) (live : map.CacheLive) (allowed : map.allowed op) :
    Answers map plain op ↔ map.harmless op := by
  obtain ⟨result, plainResult, next, plainNext, stepped⟩ := paired.step live allowed
  rw [← stepped.agrees]
  constructor
  · rintro ⟨other, otherNext, otherPlain, cached, uncached, _, otherLive⟩
    rw [stepped.cached, Except.ok.injEq, Prod.mk.injEq] at cached
    rw [stepped.uncached, Except.ok.injEq, Prod.mk.injEq] at uncached
    exact ⟨cached.1.trans uncached.1.symm, cached.2 ▸ otherLive⟩
  · rintro ⟨rfl, nextLive⟩
    exact ⟨result, next, plainNext, stepped.cached, stepped.uncached, stepped.meets, nextLive⟩

end AddrRangeMap

/-- This structure runs a map with a cache next to a map without one. -/
structure MapTrace (Value : Type) where
  cached : AddrRangeMap Value
  plain : AddrRangeMap Value
deriving DecidableEq, Repr

namespace MapTrace
variable {Value : Type} {trace : MapTrace Value}
open AddrRangeMap

def initial (maxCacheSize : BitVec 32) : MapTrace Value := { cached := .init maxCacheSize, plain := .init 0 }

def step (trace : MapTrace Value) (op : Op Value) : Except Fault (MapTrace Value) := do
  let (_, cached) ← trace.cached.step op
  let (_, plain) ← trace.plain.step op
  .ok { cached, plain }

/-- This machine performs the allowed operations. -/
def maps : Machine (MapTrace Value) (Op Value) Fault where
  guard trace op := trace.cached.allowed op
  step := step

/-- This machine performs the allowed operations that are harmless. -/
def harmlessMaps : Machine (MapTrace Value) (Op Value) Fault where
  guard trace op := trace.cached.allowed op ∧ trace.cached.harmless op
  step := step

/-- While every operation is harmless, the cache refers to the tree, and an operation answers like the map without a
cache exactly when it is harmless too. -/
theorem map_answers {maxCacheSize : BitVec 32} {ops : List (Op Value)}
    (run : harmlessMaps.Run (initial maxCacheSize) ops trace) :
    trace.cached.CacheLive ∧
      ∀ op, trace.cached.allowed op → (Answers trace.cached trace.plain op ↔ trace.cached.harmless op) := by
  have kept : Paired trace.cached trace.plain ∧ trace.cached.CacheLive := by
    refine run.invariant (fun trace => Paired trace.cached trace.plain ∧ trace.cached.CacheLive) ?_ ?_
    · exact ⟨⟨⟨nodup_nil, nofun, List.Pairwise.nil⟩, nofun, ⟨rfl, rfl⟩, rfl, rfl⟩, nofun⟩
    · rintro state op next ⟨paired, live⟩ ⟨allowed, harmless⟩ done
      obtain ⟨result, plainResult, cached, plain, stepped⟩ := paired.step live allowed
      have both : state.step op = .ok { cached, plain } := by
        rw [step, stepped.cached, ok_bind]
        simp only [stepped.uncached, ok_bind]
      cases both.symm.trans done
      exact ⟨stepped.paired, (stepped.agrees.mpr harmless).2⟩
  exact ⟨kept.2, fun op allowed => kept.1.answers_iff kept.2 allowed⟩

/-- The range of the first and of the second 16 addresses. -/
def lowRange : AddrRange := .ofBounds 0 0x10

def highRange : AddrRange := .ofBounds 0x10 0x20

theorem lowRange_proper : lowRange.Proper := ⟨rfl, rfl, by decide⟩

theorem highRange_proper : highRange.Proper := ⟨rfl, rfl, by decide⟩

/-- A lookup in a map with two entries answers as without the cache. -/
theorem map_answers_twoEntries : ∃ trace : MapTrace Nat,
    harmlessMaps.Run (initial 4) [.containsAddr 5, .insert highRange 1, .insert lowRange 0] trace ∧
    trace.cached.cache = [0] ∧ Answers trace.cached trace.plain (.containsAddr 0x15) := by
  refine ⟨_, and_of_imp (.cons (.cons (.cons .nil ⟨lowRange_proper, trivial⟩ rfl) ⟨highRange_proper, trivial⟩ rfl)
    ⟨trivial, trivial⟩ rfl) fun run => ?_⟩
  exact ⟨rfl, ((map_answers run).2 (.containsAddr 0x15) trivial).mpr trivial⟩

/-- The erasure of two cached entries leaves the second one in the cache, and the next lookup reads an erased entry. -/
theorem map_answers_dangling : ∃ trace : MapTrace Nat,
    maps.Run (initial 4) [.eraseRange (some 0) none, .containsAddr 0x15, .containsAddr 5, .insert highRange 1,
      .insert lowRange 0] trace ∧
    trace.cached.tree = [] ∧ trace.cached.cache = [1] ∧
    trace.cached.step (.containsAddr 0x15) = .error .danglingIterator ∧
    trace.plain.step (.containsAddr 0x15) = .ok (none, trace.plain) := by
  refine ⟨_, .cons (.cons (.cons (.cons (.cons .nil lowRange_proper rfl) highRange_proper rfl) trivial rfl) trivial rfl)
    ⟨[], [⟨0, lowRange, 0⟩, ⟨1, highRange, 1⟩], [], rfl, rfl, rfl⟩ rfl, rfl, rfl, rfl, rfl⟩

end MapTrace

end Gem5
