import Gem5.Construction.Base.Trie

namespace Gem5

section
open BitVec

/-- Two keys agree on their highest `width` bits. -/
def SamePrefix (width : Nat) (first second : BitVec 64) : Prop :=
  ∀ index < width, first.getMsbD index = second.getMsbD index

namespace SamePrefix
variable {width shorter : Nat} {first second third : BitVec 64}

theorem refl (width : Nat) (key : BitVec 64) : SamePrefix width key key := fun _ _ => rfl

theorem symm (same : SamePrefix width first second) : SamePrefix width second first :=
  fun index inside => (same index inside).symm

theorem trans (left : SamePrefix width first second) (right : SamePrefix width second third) :
    SamePrefix width first third :=
  fun index inside => (left index inside).trans (right index inside)

theorem mono (same : SamePrefix width first second) (less : shorter ≤ width) : SamePrefix shorter first second :=
  fun index inside => same index (Nat.lt_of_lt_of_le inside less)

theorem succ_iff : SamePrefix (width + 1) first second ↔
    SamePrefix width first second ∧ first.getMsbD width = second.getMsbD width := by
  constructor
  · intro same
    exact ⟨same.mono (Nat.le_succ width), same width (Nat.lt_succ_self width)⟩
  · rintro ⟨same, last⟩ index inside
    rcases Nat.lt_succ_iff_lt_or_eq.mp inside with before | rfl
    · exact same index before
    · exact last

end SamePrefix

namespace Trie
variable {width other : Nat} {first second : BitVec 64}

theorem getMsbD_prefixMask (width index : Nat) :
    (prefixMask width).getMsbD index = decide (index < width ∧ index < 64) := by
  unfold prefixMask maxBits
  split
  · rename_i narrow
    rw [getMsbD_shiftLeft, getMsbD_allOnes]
    apply decide_eq_decide.mpr
    omega
  · rw [getMsbD_allOnes]
    apply decide_eq_decide.mpr
    omega

theorem and_prefixMask_eq_iff : first &&& prefixMask width = second &&& prefixMask width ↔
    SamePrefix width first second := by
  constructor
  · intro equal index inside
    have bits := congrArg (fun key => key.getMsbD index) equal
    simp only [getMsbD_and, getMsbD_prefixMask] at bits
    by_cases narrow : index < 64
    · simpa [inside, narrow] using bits
    · rw [getMsbD_of_ge _ _ (by omega), getMsbD_of_ge _ _ (by omega)]
  · intro same
    apply eq_of_getMsbD_eq
    intro index _
    rw [getMsbD_and, getMsbD_and, getMsbD_prefixMask]
    by_cases inside : index < width
    · rw [same index inside]
    · simp [inside]

theorem samePrefix_and_prefixMask : SamePrefix width (first &&& prefixMask width) first := by
  rw [← and_prefixMask_eq_iff, BitVec.and_assoc, BitVec.and_self]

theorem prefixMask_and_eq_iff (narrow : width ≤ 64) :
    prefixMask width &&& prefixMask other = prefixMask width ↔ width ≤ other := by
  constructor
  · intro equal
    by_contra less
    have bits := congrArg (fun key => key.getMsbD other) equal
    simp only [getMsbD_and, getMsbD_prefixMask] at bits
    have inside : other < width := by omega
    have wide : other < 64 := by omega
    simp [inside, wide] at bits
  · intro less
    apply eq_of_getMsbD_eq
    intro index _
    rw [getMsbD_and, getMsbD_prefixMask, getMsbD_prefixMask, ← Bool.decide_and, decide_eq_decide]
    omega

theorem prefixMask_inj (narrow : width ≤ 64) (otherNarrow : other ≤ 64) (equal : prefixMask width = prefixMask other) :
    width = other := by
  have first := (prefixMask_and_eq_iff narrow).mp (show prefixMask width &&& prefixMask other = prefixMask width by
    rw [← equal, BitVec.and_self])
  have second := (prefixMask_and_eq_iff otherNarrow).mp (show prefixMask other &&& prefixMask width = prefixMask other by
    rw [equal, BitVec.and_self])
  omega

theorem extendMask_prefixMask (narrow : width < 64) : extendMask (prefixMask width) = prefixMask (width + 1) := by
  have msb : (1 : BitVec 64) <<< (maxBits - 1) = prefixMask 1 := by decide
  apply eq_of_getMsbD_eq
  intro index inside
  rw [extendMask, msb, getMsbD_or, getMsbD_or, getMsbD_ushiftRight, getMsbD_prefixMask,
    getMsbD_prefixMask, getMsbD_prefixMask, getMsbD_prefixMask]
  by_cases first : index = 0
  · subst first
    simp
  by_cases below : index < width
  · have next : index < width + 1 := by omega
    simp [below, next, inside]
  · by_cases last : index = width
    · subst last
      have before : index - 1 < index := by omega
      have early : index - 1 < 64 := by omega
      simp [inside, before, early]
    · have far : ¬index - 1 < width := by omega
      have outside : ¬index < width + 1 := by omega
      simp [below, far, outside, first]

end Trie
end

open Function

/-- This structure gives each node below the head its parent and its index, and each node its prefix. -/
@[ext] structure Layout where
  place : NodePtr → Option (NodePtr × Fin 2)
  width : NodePtr → Nat
  key : NodePtr → BitVec 64

namespace Layout
variable {layout : Layout} {x y p q k : NodePtr} {i j : Fin 2}

/-- A node is the head or has a place. -/
def Has (layout : Layout) (x : NodePtr) : Prop := x = 0 ∨ (layout.place x).isSome = true

theorem Has.ofPlace {spot : NodePtr × Fin 2} (placed : layout.place x = some spot) : layout.Has x := by
  simp [Has, placed]

/-- Each place holds one node, the prefixes grow along the places, and the kids of a node differ in the next bit. -/
structure Ordered (layout : Layout) : Prop where
  root : layout.place 0 = none
  rootWidth : layout.width 0 = 0
  below : ∀ {x p i}, layout.place x = some (p, i) → layout.Has p ∧ layout.width p < layout.width x ∧
    layout.width x ≤ 64 ∧ SamePrefix (layout.width p) (layout.key p) (layout.key x)
  injective : ∀ {x y spot}, layout.place x = some spot → layout.place y = some spot → x = y
  branch : ∀ {x y p i j}, layout.place x = some (p, i) → layout.place y = some (p, j) → i ≠ j →
    (layout.key x).getMsbD (layout.width p) ≠ (layout.key y).getMsbD (layout.width p)

/-- One node is another one or lies under it. -/
def Below (layout : Layout) : NodePtr → NodePtr → Prop :=
  Relation.ReflTransGen fun parent kid => ∃ i, layout.place kid = some (parent, i)

namespace Ordered
variable (ordered : layout.Ordered)
include ordered

theorem width_le (has : layout.Has x) : layout.width x ≤ 64 := by
  rcases has with rfl | placed
  · rw [ordered.rootWidth]
    exact Nat.zero_le 64
  · obtain ⟨⟨p, i⟩, spot⟩ := Option.isSome_iff_exists.mp placed
    exact (ordered.below spot).2.2.1

theorem below_root (has : layout.Has x) : layout.Below 0 x := by
  induction size : layout.width x using Nat.strongRecOn generalizing x with
  | ind size ih =>
    rcases has with rfl | placed
    · exact .refl
    · obtain ⟨⟨p, i⟩, spot⟩ := Option.isSome_iff_exists.mp placed
      obtain ⟨hasParent, less, _, _⟩ := ordered.below spot
      exact .tail (ih _ (size ▸ less) hasParent rfl) ⟨i, spot⟩

theorem below_prefix (under : layout.Below x y) :
    layout.width x ≤ layout.width y ∧ SamePrefix (layout.width x) (layout.key x) (layout.key y) := by
  induction under with
  | refl => exact ⟨Nat.le_refl _, .refl _ _⟩
  | tail _ last ih =>
    obtain ⟨i, spot⟩ := last
    obtain ⟨_, less, _, same⟩ := ordered.below spot
    exact ⟨by omega, ih.2.trans (same.mono ih.1)⟩

omit ordered in
theorem below_cases (under : layout.Below x y) : x = y ∨ ∃ k i, layout.place k = some (x, i) ∧ layout.Below k y := by
  rcases Relation.ReflTransGen.cases_head under with same | ⟨k, ⟨i, spot⟩, rest⟩
  · exact .inl same
  · exact .inr ⟨k, i, spot, rest⟩

/-- Only one kid has the prefix of a key. -/
theorem eq_of_prefix {key : BitVec 64} (first : layout.place x = some (p, i)) (second : layout.place y = some (p, j))
    (firstSame : SamePrefix (layout.width x) key (layout.key x))
    (secondSame : SamePrefix (layout.width y) key (layout.key y)) : x = y := by
  by_cases same : i = j
  · subst same
    exact ordered.injective first second
  · have differ := ordered.branch first second same
    have firstBit := firstSame (layout.width p) (ordered.below first).2.1
    have secondBit := secondSame (layout.width p) (ordered.below second).2.1
    rw [← firstBit, ← secondBit] at differ
    exact absurd rfl differ

end Ordered

/-- This arrangement has a new node in an empty place. -/
def attach (layout : Layout) (q p : NodePtr) (i : Fin 2) (width : Nat) (key : BitVec 64) : Layout where
  place := update layout.place q (some (p, i))
  width := update layout.width q width
  key := update layout.key q key

local instance neZeroTwo : NeZero 2 := ⟨two_ne_zero⟩

/-- This arrangement has a new node between a node and its kid. -/
def split (layout : Layout) (q p : NodePtr) (i : Fin 2) (k : NodePtr) (width : Nat) (key : BitVec 64) : Layout where
  place := update (update layout.place q (some (p, i))) k (some (q, 0))
  width := update layout.width q width
  key := update layout.key q key

/-- This arrangement has the first kid of a node in its place. -/
def splice (layout : Layout) (q : NodePtr) : Layout :=
  { layout with place := fun x =>
      if x = q then none else if layout.place x = some (q, 0) then layout.place q else layout.place x }

/-- This arrangement has a single kid in the first place. -/
def align (layout : Layout) (p : NodePtr) : Layout :=
  { layout with place := fun x => if layout.place x = some (p, 1) then some (p, 0) else layout.place x }

section Changes
variable {width : Nat} {key : BitVec 64}

section
variable (ordered : layout.Ordered)
include ordered

theorem Ordered.fresh (fresh : ¬layout.Has q) :
    q ≠ 0 ∧ layout.place q = none ∧ ∀ x i, layout.place x ≠ some (q, i) := by
  unfold Has at fresh
  rw [not_or, Bool.not_eq_true, Option.isSome_eq_false_iff, Option.isNone_iff_eq_none] at fresh
  refine ⟨fresh.1, fresh.2, ?_⟩
  intro x i spot
  have has := (ordered.below spot).1
  simp [Has, fresh] at has

theorem Ordered.attach (fresh : ¬layout.Has q) (has : layout.Has p) (free : ∀ x, layout.place x ≠ some (p, i))
    (longer : layout.width p < width) (narrow : width ≤ 64) (same : SamePrefix (layout.width p) (layout.key p) key)
    (differs : ∀ y j, layout.place y = some (p, j) → (layout.key y).getMsbD (layout.width p) ≠ key.getMsbD
      (layout.width p)) : (layout.attach q p i width key).Ordered := by
  obtain ⟨notRoot, unplaced, noKids⟩ := ordered.fresh fresh
  obtain ⟨root, rootWidth, below, injective, branch⟩ := ordered
  constructor
  all_goals
    simp only [Layout.attach, update_apply, Has]
    grind [Has]

theorem Ordered.split (fresh : ¬layout.Has q) (spot : layout.place k = some (p, i)) (longer : layout.width p < width)
    (shorter : width < layout.width k) (same : SamePrefix width key (layout.key k)) :
    (layout.split q p i k width key).Ordered := by
  obtain ⟨notRoot, unplaced, noKids⟩ := ordered.fresh fresh
  obtain ⟨has, _, narrow, agree⟩ := ordered.below spot
  have bit : key.getMsbD (layout.width p) = (layout.key k).getMsbD (layout.width p) := same _ longer
  have upper : SamePrefix (layout.width p) (layout.key p) key := agree.trans (same.symm.mono (Nat.le_of_lt longer))
  obtain ⟨root, rootWidth, below, injective, branch⟩ := ordered
  constructor
  all_goals
    simp only [Layout.split, update_apply, Has]
    grind [Has]

theorem Ordered.splice (spot : layout.place q = some (p, i)) (single : ∀ x, layout.place x ≠ some (q, 1)) :
    (layout.splice q).Ordered := by
  obtain ⟨has, longer, narrow, agree⟩ := ordered.below spot
  obtain ⟨root, rootWidth, below, injective, branch⟩ := ordered
  have kidBit : ∀ x, layout.place x = some (q, 0) →
      (layout.key x).getMsbD (layout.width p) = (layout.key q).getMsbD (layout.width p) := by
    intro x kid
    exact ((below kid).2.2.2 _ longer).symm
  have kidPrefix : ∀ x, layout.place x = some (q, 0) → SamePrefix (layout.width p) (layout.key p) (layout.key x) := by
    intro x kid
    exact agree.trans ((below kid).2.2.2.mono (Nat.le_of_lt longer))
  constructor
  all_goals
    simp only [Layout.splice, Has]
    grind [Has]

theorem Ordered.align (free : ∀ x, layout.place x ≠ some (p, 0)) : (layout.align p).Ordered := by
  obtain ⟨root, rootWidth, below, injective, branch⟩ := ordered
  constructor
  all_goals
    simp only [Layout.align, Has]
    grind [Has]

end

end Changes

end Layout

open ToMathlib Layout TrieNode

namespace Trie
variable {Value : Type} {trie : Trie Value} {layout : Layout} {x p q k : NodePtr} {i : Fin 2}
  {n m : TrieNode Value}

/-- A node has the prefix and the links of its arrangement. -/
structure Shown (layout : Layout) (x : NodePtr) (n : TrieNode Value) : Prop where
  mask : n.mask = prefixMask (layout.width x)
  key : n.key = layout.key x
  tidy : n.key &&& n.mask = n.key
  parent : n.parent = (layout.place x).map Prod.fst
  kids : ∀ i k, n.kids i = some k ↔ layout.place k = some (x, i)

theorem Shown.relink {new : Layout} {parent : Option NodePtr} {kids : Fin 2 → Option NodePtr} (shown : Shown layout x n)
    (width : new.width x = layout.width x) (key : new.key x = layout.key x)
    (parents : parent = (new.place x).map Prod.fst) (linked : ∀ i k, kids i = some k ↔ new.place k = some (x, i)) :
    Shown new x { n with parent, kids } :=
  ⟨width ▸ shown.mask, key ▸ shown.key, shown.tidy, parents, linked⟩

/-- The nodes of a trie are those of an arrangement in order. -/
structure Shows (trie : Trie Value) (layout : Layout) : Prop where
  ordered : layout.Ordered
  present : ∀ x, (∃ n, trie.nodes x = some n) ↔ layout.Has x
  shown : ∀ {x n}, trie.nodes x = some n → Shown layout x n
  allocated : ∀ x, layout.Has x → x < trie.allocations

theorem deref_eq_ok : trie.deref x = .ok n ↔ trie.nodes x = some n := by
  unfold deref
  split <;> simp_all

@[simp] theorem store_nodes : (trie.store p n).nodes x = if x = p then some n else trie.nodes x := by
  simp only [store, update_apply]

/-- A property of all nodes is one of a changed node and of the other ones. -/
theorem node_cases {Holds : NodePtr → TrieNode Value → Prop} {others : Option (TrieNode Value)}
    (here : (if x = p then some n else others) = some m) (own : Holds p n)
    (rest : x ≠ p → others = some m → Holds x m) : Holds x m := by
  by_cases same : x = p
  · rw [if_pos same] at here
    rw [same, ← Option.some.inj here]
    exact own
  · rw [if_neg same] at here
    exact rest same here

theorem addKid_nodes (kid : TrieNode Value) : (trie.addKid p n i kid).nodes x =
    if x = p then some (n.setKid i (some trie.allocations))
    else if x = trie.allocations then some { kid with parent := some p } else trie.nodes x := by
  simp only [addKid, allocate, store, update_apply]

theorem splitKid_nodes (middle : TrieNode Value) : (trie.splitKid p n i k m middle).nodes x =
    if x = p then some (n.setKid i (some trie.allocations))
    else if x = k then some { m with parent := some trie.allocations }
    else if x = trie.allocations then
      some { middle with parent := some p, kids := update middle.kids 0 (some k) }
    else trie.nodes x := by
  simp only [splitKid, allocate, store, update_apply]

namespace Shows
variable (shows : trie.Shows layout)
include shows

theorem fresh : ¬layout.Has trie.allocations := fun has => Nat.lt_irrefl _ (shows.allocated _ has)

section
variable (found : trie.nodes p = some n)
include found

theorem setValue (value : Option Value) : (trie.store p { n with value }).Shows layout := by
  have shown := shows.shown found
  refine { shows with present := ?_, shown := ?_ }
  · intro x
    rw [← shows.present]
    simp only [store, update_apply]
    grind
  · intro x m here
    simp only [store, update_apply] at here
    exact node_cases here ⟨shown.mask, shown.key, shown.tidy, shown.parent, shown.kids⟩ fun _ here => shows.shown here

theorem addKid {width : Nat} {key : BitVec 64} {value : Option Value} (free : n.kids i = none)
    (longer : layout.width p < width) (narrow : width ≤ 64)
    (same : SamePrefix (layout.width p) (layout.key p) (key &&& prefixMask width))
    (differs : ∀ y j, layout.place y = some (p, j) → (layout.key y).getMsbD (layout.width p) ≠ (key &&& prefixMask
      width).getMsbD (layout.width p)) :
    (trie.addKid p n i (.make key (prefixMask width) value)).Shows
      (layout.attach trie.allocations p i width (key &&& prefixMask width)) := by
  have fresh := shows.fresh
  have has : layout.Has p := (shows.present p).mp ⟨n, found⟩
  have shown := shows.shown found
  have distinct : p ≠ trie.allocations := by
    rintro rfl
    exact fresh has
  obtain ⟨notRoot, unplaced, noKids⟩ := shows.ordered.fresh fresh
  have kids := shown.kids
  constructor
  · apply shows.ordered.attach fresh has _ longer narrow same differs
    intro x spot
    rw [← kids, free] at spot
    simp at spot
  · intro x
    have present := shows.present x
    rw [addKid_nodes]
    simp only [update_apply, attach, Layout.Has] at present ⊢
    grind
  · intro x m here
    rw [addKid_nodes] at here
    refine node_cases here ?_ fun notParent here => node_cases here ?_ fun notNew here => ?_
    · refine shown.relink (update_of_ne distinct ..) (update_of_ne distinct ..) ?_ fun j k => ?_
      · simp only [attach, update_of_ne distinct, shown.parent]
      · simp only [attach, update_apply]
        grind
    · constructor
      · simp only [make, attach, update_self]
      · simp only [make, attach, update_self]
      · simp only [make, BitVec.and_assoc, BitVec.and_self]
      · simp only [attach, update_self, Option.map_some]
      · intro j k
        simp only [make, attach, update_apply]
        grind
    · have old := shows.shown here
      have oldKids := old.kids
      refine old.relink (update_of_ne notNew ..) (update_of_ne notNew ..) ?_ fun j k => ?_
      · simp only [attach, update_of_ne notNew, old.parent]
      · simp only [attach, update_apply]
        grind
  · intro x has'
    have old := shows.allocated x
    simp only [Trie.addKid, allocate, store, attach, Layout.Has, update_apply] at has' old ⊢
    grind

theorem splitKid {width : Nat} {key : BitVec 64} {value : Option Value} (kid : n.kids i = some k)
    (foundKid : trie.nodes k = some m) (longer : layout.width p < width) (shorter : width < layout.width k)
    (same : SamePrefix width (key &&& prefixMask width) (layout.key k)) :
    (trie.splitKid p n i k m (.make key (prefixMask width) value)).Shows
      (layout.split trie.allocations p i k width (key &&& prefixMask width)) := by
  have fresh := shows.fresh
  have has : layout.Has p := (shows.present p).mp ⟨n, found⟩
  have hasKid : layout.Has k := (shows.present k).mp ⟨m, foundKid⟩
  have shown := shows.shown found
  have shownKid := shows.shown foundKid
  have spot : layout.place k = some (p, i) := (shown.kids i k).mp kid
  have distinct : p ≠ trie.allocations := by
    rintro rfl
    exact fresh has
  have distinctKid : k ≠ trie.allocations := by
    rintro rfl
    exact fresh hasKid
  have apart : p ≠ k := by
    rintro rfl
    exact Nat.lt_irrefl _ (shows.ordered.below spot).2.1
  obtain ⟨notRoot, unplaced, noKids⟩ := shows.ordered.fresh fresh
  have kids := shown.kids
  have kidKids := shownKid.kids
  constructor
  · exact shows.ordered.split fresh spot longer shorter same
  · intro x
    have present := shows.present x
    rw [splitKid_nodes]
    simp only [update_apply, split, Layout.Has] at present ⊢
    grind
  · intro x other here
    rw [splitKid_nodes] at here
    refine node_cases here ?_ fun notParent here => node_cases here ?_ fun notKid here =>
      node_cases here ?_ fun notNew here => ?_
    · refine shown.relink (update_of_ne distinct ..) (update_of_ne distinct ..) ?_ fun j y => ?_
      · simp only [split, update_of_ne distinct, update_of_ne apart, shown.parent]
      · simp only [split, update_apply]
        grind
    · refine shownKid.relink (update_of_ne distinctKid ..) (update_of_ne distinctKid ..) ?_ fun j y => ?_
      · simp only [split, update_self, Option.map_some]
      · simp only [split, update_apply]
        grind
    · constructor
      · simp only [make, split, update_self]
      · simp only [make, split, update_self]
      · simp only [make, BitVec.and_assoc, BitVec.and_self]
      · simp only [split, update_of_ne distinctKid.symm, update_self, Option.map_some]
      · intro j y
        simp only [make, split, update_apply]
        grind
    · have old := shows.shown here
      have oldKids := old.kids
      refine old.relink (update_of_ne notNew ..) (update_of_ne notNew ..) ?_ fun j y => ?_
      · simp only [split, update_of_ne notNew, update_of_ne notKid, old.parent]
      · simp only [split, update_apply]
        grind
  · intro x has'
    have old := shows.allocated x
    simp only [Trie.splitKid, allocate, store, split, Layout.Has, update_apply] at has' old ⊢
    grind

end

section
variable (found : trie.nodes q = some n)
include found

theorem exists_parent (notRoot : q ≠ 0) :
    ∃ p i m, n.parent = some p ∧ layout.place q = some (p, i) ∧ trie.nodes p = some m ∧ m.kids i = some q ∧
      kidIndex m q = .ok i := by
  have has := (shows.present q).mp ⟨n, found⟩
  obtain ⟨⟨p, i⟩, spot⟩ := Option.isSome_iff_exists.mp (has.resolve_left notRoot)
  obtain ⟨m, foundParent⟩ := (shows.present p).mpr (shows.ordered.below spot).1
  have kids := (shows.shown foundParent).kids
  have kid : m.kids i = some q := (kids i q).mpr spot
  refine ⟨p, i, m, by rw [(shows.shown found).parent, spot]; rfl, spot, foundParent, kid, ?_⟩
  unfold kidIndex
  by_cases first : i = 0
  · subst first
    exact if_pos kid
  · obtain rfl : i = 1 := by omega
    have other : m.kids 0 ≠ some q := by
      rw [ne_eq, kids, spot]
      simp
    rw [if_neg other, if_pos kid]

/-- The splicing of a node with at most one kid gives its place to the kid. -/
theorem spliceKid (spot : layout.place q = some (p, i)) (foundParent : trie.nodes p = some m)
    (index : kidIndex m q = .ok i) :
    ∃ spliced, trie.spliceKid q n p = .ok spliced ∧ spliced.allocations = trie.allocations ∧
      ∀ x, spliced.nodes x = if x = p then some (m.setKid i (n.kids 0)) else if x = q then none else
        if n.kids 0 = some x then (trie.nodes x).map fun node => { node with parent := some p } else trie.nodes x := by
  have kids := (shows.shown found).kids
  unfold Trie.spliceKid
  cases first : n.kids 0 with
  | none =>
    have reads := deref_eq_ok.mpr foundParent
    simp only [adoptKid, ok_bind, reads, index]
    refine ⟨_, rfl, rfl, ?_⟩
    intro x
    simp only [delete, store, update_apply]
    grind
  | some k =>
    have spotKid := (kids 0 k).mp first
    obtain ⟨kidNode, foundKid⟩ := (shows.present k).mpr (.ofPlace spotKid)
    have apart : p ≠ k := by
      rintro rfl
      have upper := (shows.ordered.below spot).2.1
      have lower := (shows.ordered.below spotKid).2.1
      omega
    have readsKid := deref_eq_ok.mpr foundKid
    have reads : (trie.store k { kidNode with parent := some p }).deref p = .ok m := by
      rw [deref_eq_ok, store_nodes, if_neg apart, foundParent]
    simp only [adoptKid, ok_bind, readsKid, reads, index]
    refine ⟨_, rfl, rfl, ?_⟩
    intro x
    simp only [delete, store, update_apply]
    grind

theorem splice (spot : layout.place q = some (p, i)) (single : n.kids 1 = none) (foundParent : trie.nodes p = some m)
    {spliced : Trie Value} (same : spliced.allocations = trie.allocations)
    (nodes : ∀ x, spliced.nodes x = if x = p then some (m.setKid i (n.kids 0)) else if x = q then none else if n.kids 0
      = some x then (trie.nodes x).map fun node => { node with parent := some p } else trie.nodes x) :
    spliced.Shows (layout.splice q) := by
  have shown := shows.shown found
  have shownParent := shows.shown foundParent
  have kids := shown.kids
  have parentKids := shownParent.kids
  have lone : ∀ x, layout.place x ≠ some (q, 1) := by
    intro x
    rw [ne_eq, ← kids, single]
    simp
  have injective := @shows.ordered.injective
  have root := shows.ordered.root
  have apart : p ≠ q := by
    rintro rfl
    exact Nat.lt_irrefl _ (shows.ordered.below spot).2.1
  have kidApart : ∀ x, layout.place x = some (q, 0) → x ≠ p ∧ x ≠ q := by
    intro x spotKid
    have upper := (shows.ordered.below spot).2.1
    have lower := (shows.ordered.below spotKid).2.1
    constructor <;> rintro rfl <;> omega
  constructor
  · exact shows.ordered.splice spot lone
  · intro x
    have present := shows.present x
    rw [nodes]
    simp only [Layout.splice, Layout.Has] at present ⊢
    grind
  · intro x other here
    rw [nodes] at here
    refine node_cases here ?_ fun notParent here => ?_
    · refine { shownParent with parent := ?_, kids := ?_ }
      · simp only [setKid, Layout.splice, shownParent.parent]
        grind
      · intro j y
        simp only [setKid, Layout.splice, update_apply]
        grind
    · obtain ⟨notNode, here⟩ := Option.ite_none_left_eq_some.mp here
      split at here
      · rename_i atKid
        obtain ⟨kidNode, foundKid, rfl⟩ := Option.map_eq_some_iff.mp here
        have old := shows.shown foundKid
        have oldKids := old.kids
        have spotKid := (kids 0 x).mp atKid
        refine { old with parent := ?_, kids := ?_ }
        · simp only [Layout.splice, spotKid, notNode, spot, if_true, if_false, Option.map_some]
        · intro j y
          simp only [Layout.splice]
          grind
      · have old := shows.shown here
        have oldKids := old.kids
        refine { old with parent := ?_, kids := ?_ }
        · simp only [Layout.splice, old.parent]
          grind
        · intro j y
          simp only [Layout.splice]
          grind
  · intro x has
    have old := shows.allocated x
    rw [same]
    simp only [Layout.splice, Layout.Has] at has old
    grind

end

/-- The alignment moves a single kid to the first place. -/
theorem alignKids (found : trie.nodes p = some n) (empty : n.kids 0 = none) :
    (trie.alignKids p n).Shows (layout.align p) := by
  have shown := shows.shown found
  have kids := shown.kids
  have free : ∀ x, layout.place x ≠ some (p, 0) := by
    intro x
    rw [ne_eq, ← kids, empty]
    simp
  unfold Trie.alignKids
  cases second : n.kids 1 with
  | none =>
    have unmoved : layout.align p = layout := by
      apply Layout.ext
      · funext x
        have absent : layout.place x ≠ some (p, 1) := by
          rw [ne_eq, ← kids, second]
          simp
        exact if_neg absent
      · rfl
      · rfl
    rw [unmoved, if_neg (by simp)]
    exact shows
  | some k =>
    rw [if_pos (by simp [empty])]
    constructor
    · exact shows.ordered.align free
    · intro x
      have present := shows.present x
      rw [store_nodes]
      simp only [align, Layout.Has] at present ⊢
      grind
    · intro x other here
      rw [store_nodes] at here
      refine node_cases here ?_ fun _ here => ?_
      · refine { shown with parent := ?_, kids := ?_ }
        · simp only [setKid, align, shown.parent]
          grind
        · intro j y
          simp only [setKid, align, update_apply]
          grind
      · have old := shows.shown here
        have oldKids := old.kids
        refine { old with parent := ?_, kids := ?_ }
        · simp only [align, old.parent]
          grind
        · intro j y
          simp only [align]
          grind
    · intro x has
      have old := shows.allocated x
      simp only [store, align, Layout.Has] at has old ⊢
      grind

end Shows

end Trie

end Gem5
