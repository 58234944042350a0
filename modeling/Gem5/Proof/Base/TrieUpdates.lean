import Gem5.Proof.Base.TrieWalks

namespace Gem5
open ToMathlib TrieNode Function

namespace Trie
variable {Value : Type} {trie : Trie Value} {layout : Layout} {x p k : NodePtr} {i : Fin 2} {key : BitVec 64}
  {n m : TrieNode Value} {width : Nat} {val : Value}

/-- This function reads the prefix and the value of a node with a value. -/
def valueAt (trie : Trie Value) (x : NodePtr) : Option (BitVec 64 × BitVec 64 × Value) :=
  (trie.nodes x).bind fun n => n.value.map fun value => (n.key, n.mask, value)

/-- A node below the head without a value has two kids, a single kid is the first one, and the head has no value. -/
structure Fits (x : NodePtr) (n : TrieNode Value) : Prop where
  full : x ≠ 0 → n.value = none → n.kids 0 ≠ none ∧ n.kids 1 ≠ none
  first : n.kids 1 ≠ none → n.kids 0 ≠ none
  head : x = 0 → n.value = none

theorem Fits.withParent (fits : Fits x n) (parent : Option NodePtr) : Fits x { n with parent } := { fits with }

/-- A new kid fits in the place of another one or in the first empty place. -/
theorem Fits.setKid (fits : Fits x n) (later : i = 1 → n.kids 0 ≠ none) (kid : NodePtr) :
    Fits x (n.setKid i (some kid)) := by
  have full := fits.full
  refine ⟨?_, ?_, fits.head⟩
  all_goals
    simp only [TrieNode.setKid, update_apply]
    grind

theorem Fits.replaceKid (fits : Fits x n) (present : n.kids i ≠ none) (kid : NodePtr) :
    Fits x (n.setKid i (some kid)) := by
  apply fits.setKid
  rintro rfl
  exact fits.first present

theorem Fits.ofValue (notRoot : x ≠ 0) (value : n.value ≠ none) (second : n.kids 1 = none) : Fits x n :=
  ⟨fun _ none => absurd none value, fun some => absurd second some, fun root => absurd root notRoot⟩

theorem Fits.ofKids (notRoot : x ≠ 0) (first : n.kids 0 ≠ none) (second : n.kids 1 ≠ none) : Fits x n :=
  ⟨fun _ _ => ⟨first, second⟩, fun _ => first, fun root => absurd root notRoot⟩

/-- Each node fits. -/
def Shaped (trie : Trie Value) : Prop := ∀ {x n}, trie.nodes x = some n → Fits x n

/-- An insertion adds one value at its handle. -/
structure Inserted (trie next : Trie Value) (handle : NodePtr) (key : BitVec 64) (width : Nat) (val : Value) :
    Prop where
  shows : ∃ layout, next.Shows layout
  shaped : next.Shaped
  before : trie.valueAt handle = none
  after : next.valueAt = update trie.valueAt handle (some (key &&& prefixMask width, prefixMask width, val))

/-- The key leaves the prefix of each kid at the first bit after the prefix of their parent. -/
def Leaves (layout : Layout) (key : BitVec 64) (p : NodePtr) : Prop :=
  ∀ y j, layout.place y = some (p, j) → (layout.key y).getMsbD (layout.width p) ≠ key.getMsbD (layout.width p)

section Insertion
variable (shows : trie.Shows layout) (shaped : trie.Shaped)
include shows shaped

omit shaped in
theorem Shows.absent (beyond : trie.allocations ≤ x) : trie.nodes x = none := by
  by_contra some
  have has := (shows.present x).mp (Option.ne_none_iff_exists'.mp some)
  exact absurd (shows.allocated x has) (Nat.not_lt.mpr beyond)

section
variable (found : trie.nodes p = some n)
include found

theorem inserted_value (notRoot : p ≠ 0) (empty : n.value = none) (mask : n.mask = prefixMask width)
    (keyEq : n.key = key &&& prefixMask width) :
    Inserted trie (trie.store p { n with value := some val }) p key width val := by
  have fits := shaped found
  refine ⟨⟨layout, shows.setValue found _⟩, ?_, ?_, ?_⟩
  · intro x other here
    rw [store_nodes] at here
    exact node_cases here ⟨fun _ none => by simp at none, fits.first, fun root => absurd root notRoot⟩
      fun _ here => shaped here
  · simp [valueAt, found, empty]
  · funext x
    rw [update_apply]
    simp only [valueAt, store_nodes]
    grind

theorem inserted_kid (free : n.kids i = none) (longer : layout.width p < width) (narrow : width ≤ 64)
    (same : HasPrefix layout key p) (later : i = 1 → n.kids 0 ≠ none) (differs : Leaves layout key p) :
    Inserted trie (trie.addKid p n i (.make key (prefixMask width) (some val))) trie.allocations key width val := by
  have fresh := shows.fresh
  have absent := shows.absent (Nat.le_refl _)
  have notRoot := (shows.ordered.fresh fresh).1
  have agree : SamePrefix width (key &&& prefixMask width) key := samePrefix_and_prefixMask
  have fits := shaped found
  refine ⟨⟨_, shows.addKid found free longer narrow ?_ ?_⟩, ?_, ?_, ?_⟩
  · exact same.symm.trans (agree.symm.mono (Nat.le_of_lt longer))
  · intro y j spot
    rw [agree _ longer]
    exact differs y j spot
  · intro x other here
    rw [addKid_nodes] at here
    refine node_cases here (fits.setKid later _) fun _ here => ?_
    exact node_cases here (.ofValue notRoot (by simp [make]) rfl) fun _ here => shaped here
  · simp [valueAt, absent]
  · funext x
    rw [update_apply]
    simp only [valueAt, addKid_nodes, setKid, make]
    grind

theorem inserted_split (kid : n.kids i = some k) (foundKid : trie.nodes k = some m) (longer : layout.width p < width)
    (shorter : width < layout.width k) (same : SamePrefix width key (layout.key k)) :
    Inserted trie (trie.splitKid p n i k m (.make key (prefixMask width) (some val))) trie.allocations key width
      val := by
  have absent := shows.absent (Nat.le_refl _)
  have notRoot := (shows.ordered.fresh shows.fresh).1
  have agree : SamePrefix width (key &&& prefixMask width) key := samePrefix_and_prefixMask
  have fits := shaped found
  refine ⟨⟨_, shows.splitKid found kid foundKid longer shorter (agree.trans same)⟩, ?_, ?_, ?_⟩
  · intro x other here
    rw [splitKid_nodes] at here
    refine node_cases here (fits.replaceKid (by simp [kid]) _) fun _ here => ?_
    refine node_cases here ((shaped foundKid).withParent _) fun _ here => ?_
    exact node_cases here (.ofValue notRoot (by simp [make]) rfl) fun _ here => shaped here
  · simp [valueAt, absent]
  · funext x
    rw [update_apply]
    simp only [valueAt, splitKid_nodes, setKid, make]
    grind

end

theorem inserted_branch {common : Nat} (val : Value) (found : trie.nodes p = some n) (kid : n.kids i = some k)
    (foundKid : trie.nodes k = some m) (longer : layout.width p < common) (shorter : common < layout.width k)
    (less : common < width) (narrow : width ≤ 64) (same : SamePrefix common key (layout.key k))
    (differs : key.getMsbD common ≠ (layout.key k).getMsbD common) :
    ∃ middle, (trie.splitKid p n i k m (.make key (prefixMask common) none)).deref trie.allocations = .ok middle ∧
      Inserted trie ((trie.splitKid p n i k m (.make key (prefixMask common) none)).addKid trie.allocations middle 1
        (.make key (prefixMask width) (some val))) (trie.allocations + 1) key width val := by
  obtain ⟨notRoot, _, noKids⟩ := shows.ordered.fresh shows.fresh
  have absent : ∀ x, trie.allocations ≤ x → trie.nodes x = none := fun _ => shows.absent
  have isNew : ∀ {x node}, trie.nodes x = some node → trie.allocations ≠ x := by
    rintro x node here rfl
    cases (absent _ (Nat.le_refl _)).symm.trans here
  have agree : SamePrefix common (key &&& prefixMask common) key := samePrefix_and_prefixMask
  have agreeLong : SamePrefix width (key &&& prefixMask width) key := samePrefix_and_prefixMask
  have fits := shaped found
  have middle : (trie.splitKid p n i k m (.make key (prefixMask common) none)).nodes trie.allocations =
      some { (make key (prefixMask common) none : TrieNode Value) with
        parent := some p, kids := update (fun _ => none) 0 (some k) } := by
    rw [splitKid_nodes, if_neg (isNew found), if_neg (isNew foundKid), if_pos rfl]
    rfl
  have splitShows : (trie.splitKid p n i k m (.make key (prefixMask common) none)).Shows _ :=
    shows.splitKid found kid foundKid longer shorter (agree.trans same)
  set between := layout.split trie.allocations p i k common (key &&& prefixMask common) with split
  have commonWidth : between.width trie.allocations = common := update_self ..
  have commonKey : between.key trie.allocations = key &&& prefixMask common := update_self ..
  have onlyKid : ∀ y j, between.place y = some (trie.allocations, j) → y = k := by
    intro y j spot
    simp only [split, Layout.split, update_apply] at spot
    grind
  have kidKey : between.key k = layout.key k := update_of_ne (isNew foundKid).symm ..
  refine ⟨_, deref_eq_ok.mpr middle, ⟨_, splitShows.addKid middle ?_ ?_ narrow ?_ ?_⟩, ?_, ?_, ?_⟩
  · simp
  · rw [commonWidth]
    exact less
  · rw [commonWidth, commonKey]
    exact agree.trans (agreeLong.symm.mono (Nat.le_of_lt less))
  · intro y j spot
    rw [onlyKid y j spot, commonWidth, kidKey, agreeLong _ less]
    exact differs.symm
  · intro x other here
    rw [addKid_nodes] at here
    refine node_cases here (.ofKids notRoot (by simp [setKid]) (by simp [setKid])) fun notMiddle here => ?_
    refine node_cases here (.ofValue (Nat.succ_ne_zero _) (by simp [make]) rfl) fun _ here => ?_
    rw [splitKid_nodes] at here
    refine node_cases here (fits.replaceKid (by simp [kid]) _) fun _ here => ?_
    refine node_cases here ((shaped foundKid).withParent _) fun _ here => ?_
    rw [if_neg notMiddle] at here
    exact shaped here
  · simp [valueAt, absent]
  · funext x
    have leaf : (trie.splitKid p n i k m (.make key (prefixMask common) none)).allocations = trie.allocations + 1 := rfl
    rw [update_apply]
    simp only [valueAt, addKid_nodes, leaf]
    simp only [splitKid_nodes, setKid, make]
    by_cases atLeaf : x = trie.allocations + 1
    · simp [atLeaf]
    by_cases atMiddle : x = trie.allocations
    · simp [atMiddle, absent]
    · by_cases atParent : x = p
      · subst atParent
        simp [atLeaf, atMiddle, found]
      · by_cases atKid : x = k
        · subst atKid
          simp [atLeaf, atMiddle, atParent, foundKid]
        · simp [atLeaf, atMiddle, atParent, atKid]

section
variable (val : Value) (found : trie.nodes p = some n) (longer : layout.width p < width) (narrow : width ≤ 64)
  (same : HasPrefix layout key p)
  (beyond : ∀ k i, layout.place k = some (p, i) → HasPrefix layout key k → width < layout.width k)
include found longer narrow same beyond

/-- A leg takes the new node, or the key leaves the leg at its first bit. -/
theorem insertLegs_cons (later : i = 1 → n.kids 0 ≠ none) (differs : n.kids i = none → Leaves layout key p)
    (rest : List (Fin 2)) :
    (∃ handle next, trie.insertLegs p key (prefixMask width) val (i :: rest) = .ok (handle, next) ∧
      Inserted trie next handle key width val) ∨
    trie.insertLegs p key (prefixMask width) val (i :: rest) = trie.insertLegs p key (prefixMask width) val rest ∧
      ∃ k, n.kids i = some k ∧ (layout.key k).getMsbD (layout.width p) ≠ key.getMsbD (layout.width p) := by
  have shown := shows.shown found
  rw [insertLegs, deref_eq_ok.mpr found, ok_bind]
  cases kid : n.kids i with
  | none => exact .inl ⟨_, _, rfl, inserted_kid shows shaped found kid longer narrow same later (differs kid)⟩
  | some k =>
    have spot := (shown.kids i k).mp kid
    obtain ⟨_, deeper, kidNarrow, agree⟩ := shows.ordered.below spot
    obtain ⟨m, foundKid⟩ := (shows.present k).mpr (.ofPlace spot)
    obtain ⟨common, done, above, most, commonSame, bit⟩ :=
      legLoop_eq (Nat.le_of_lt longer) narrow (SamePrefix.trans same agree)
        (show width < maxSteps + layout.width p by unfold maxSteps maxBits; omega)
    have inside : common ≤ width → common < layout.width k := by
      intro less
      by_contra beyondKid
      have past := beyond k i spot (commonSame.mono (Nat.le_of_not_lt beyondKid))
      omega
    simp only [deref_eq_ok.mpr foundKid, ok_bind, (shows.shown foundKid).key, shown.mask, done]
    by_cases stays : common = layout.width p
    · subst stays
      rw [if_pos rfl]
      exact .inr ⟨rfl, k, rfl, (bit longer).symm⟩
    have moves : prefixMask common ≠ prefixMask (layout.width p) :=
      fun equal => stays (prefixMask_inj (by omega) (by omega) equal)
    rw [if_neg moves]
    by_cases whole : common = width
    · subst whole
      rw [if_pos rfl]
      exact .inl ⟨_, _, rfl, inserted_split shows shaped found kid foundKid longer (inside most) commonSame⟩
    · have part : prefixMask common ≠ prefixMask width := fun equal => whole (prefixMask_inj (by omega) narrow equal)
      have less : common < width := by omega
      obtain ⟨middle, reads, inserted⟩ := inserted_branch shows shaped val found kid foundKid
        (show layout.width p < common by omega) (inside most) less narrow commonSame (bit less)
      rw [if_neg part, reads, ok_bind]
      exact .inl ⟨_, _, rfl, inserted⟩

/-- One of the legs takes the new node. -/
theorem insertLegs_eq : ∃ handle next, trie.insertLegs p key (prefixMask width) val [0, 1] = .ok (handle, next) ∧
      Inserted trie next handle key width val := by
  have kids := (shows.shown found).kids
  have fits := shaped found
  have alone : n.kids 0 = none → Leaves layout key p := by
    intro empty y j spot
    have kid := (kids j y).mpr spot
    by_cases index : j = 0
    · rw [index, empty] at kid
      simp at kid
    · obtain rfl : j = 1 := by omega
      exact absurd empty (fits.first (by simp [kid]))
  rcases insertLegs_cons shows shaped val found longer narrow same beyond (i := 0)
    (fun one => absurd one (by decide)) alone [1] with
    done | ⟨skipped, first, firstKid, firstBit⟩
  · exact done
  have second : n.kids 1 = none → Leaves layout key p := by
    intro empty y j spot
    have kid := (kids j y).mpr spot
    by_cases index : j = 0
    · rw [index, firstKid] at kid
      cases kid
      exact firstBit
    · obtain rfl : j = 1 := by omega
      rw [empty] at kid
      simp at kid
  rw [skipped]
  rcases insertLegs_cons shows shaped val found longer narrow same beyond (i := 1)
    (fun _ => by simp [firstKid]) second [] with done | ⟨_, other, otherKid, otherBit⟩
  · exact done
  · have apart := shows.ordered.branch ((kids 0 first).mp firstKid) ((kids 1 other).mp otherKid) (by decide)
    rw [Bool.eq_not_of_ne firstBit, Bool.eq_not_of_ne otherBit] at apart
    exact absurd rfl apart

end

/-- The insertion of a new prefix succeeds and adds its value. -/
theorem insert_eq (val : Value) (positive : 1 ≤ width) (narrow : width ≤ 64)
    (absent : ∀ x v, trie.valueAt x ≠ some (key &&& prefixMask width, prefixMask width, v)) :
    ∃ handle next, trie.insert key width (some val) = .ok (handle, next) ∧
      Inserted trie next handle key width val := by
  have masked : (key &&& prefixMask width) &&& prefixMask width = key &&& prefixMask width := by
    rw [BitVec.and_assoc, BitVec.and_self]
  have rootWidth := shows.ordered.rootWidth
  obtain ⟨p, walked, has, same, shorter, beyond⟩ := shows.walkLoop_eq narrow (.inl rfl)
    (shows.hasPrefix_root (key &&& prefixMask width))
    (by omega) (show 64 < maxSteps + layout.width 0 by unfold maxSteps maxBits; omega)
  obtain ⟨n, found⟩ := (shows.present p).mpr has
  have shown := shows.shown found
  simp only [Trie.insert, walked, deref_eq_ok.mpr found, ok_bind]
  by_cases whole : n.mask = prefixMask width
  · have width_eq : layout.width p = width :=
      prefixMask_inj (shows.ordered.width_le has) narrow (shown.mask.symm.trans whole)
    have notRoot : p ≠ 0 := by
      rintro rfl
      omega
    have keyEq : n.key = key &&& prefixMask width := by
      rw [← shown.tidy, whole, shown.key, ← masked, and_prefixMask_eq_iff]
      subst width_eq
      exact same.symm
    have empty : n.value = none := by
      by_contra valued
      obtain ⟨v, here⟩ := Option.ne_none_iff_exists'.mp valued
      exact absent p v (by simp [valueAt, found, here, keyEq, whole])
    rw [if_pos whole, assert_of empty, ok_bind]
    exact ⟨_, _, rfl, inserted_value shows shaped found notRoot empty whole keyEq⟩
  · have different : layout.width p ≠ width := by
      rintro rfl
      exact whole shown.mask
    rw [if_neg whole]
    obtain ⟨handle, next, done, inserted⟩ := insertLegs_eq shows shaped val found
      (show layout.width p < width by omega) narrow same beyond
    exact ⟨handle, next, done, { inserted with after := masked ▸ inserted.after }⟩

end Insertion

end Trie

open Option

local instance neZeroTwo : NeZero 2 := ⟨two_ne_zero⟩

/-- The node with a single kid in the first place. -/
def TrieNode.aligned {Value : Type} (node : TrieNode Value) : TrieNode Value :=
  if (node.kids 1).isSome ∧ node.kids 0 = none then (node.setKid 0 (node.kids 1)).setKid 1 none else node

namespace Trie
variable {Value : Type} {trie : Trie Value} {layout : Layout} {x p q k : NodePtr} {i : Fin 2} {n m : TrieNode Value}

theorem aligned_data : n.aligned.key = n.key ∧ n.aligned.mask = n.mask ∧ n.aligned.value = n.value ∧
    n.aligned.parent = n.parent := by
  unfold aligned
  split <;> simp [setKid]

theorem aligned_first : n.aligned.kids 1 ≠ none → n.aligned.kids 0 ≠ none := by
  unfold aligned
  split
  · simp [setKid]
  · rename_i aligned
    intro second first
    exact aligned ⟨isSome_iff_ne_none.mpr second, first⟩

theorem aligned_of_first (first : n.kids 0 ≠ none) : n.aligned = n := if_neg fun both => first both.2

theorem aligned_lost : (m.setKid i none).aligned.kids 1 = none := by
  by_cases index : i = 0
  · subst index
    cases second : m.kids 1 <;> simp [aligned, setKid, second]
  · obtain rfl : i = 1 := by omega
    simp [aligned, setKid]

theorem aligned_kept (first : m.kids 0 ≠ none) (second : m.kids 1 ≠ none) :
    (m.setKid i none).aligned.kids 0 ≠ none := by
  by_cases index : i = 0
  · subst index
    obtain ⟨k, kid⟩ := ne_none_iff_exists'.mp second
    simp [aligned, setKid, kid]
  · obtain rfl : i = 1 := by omega
    simpa [aligned, setKid] using first

theorem alignKids_nodes (found : trie.nodes p = some n) :
    (trie.alignKids p n).nodes x = if x = p then some n.aligned else trie.nodes x := by
  unfold alignKids aligned
  split
  · rw [store_nodes]
  · split
    · rename_i same
      rw [same, found]
    · rfl

theorem Shows.aligned (shows : trie.Shows layout) (found : trie.nodes p = some n) :
    ∃ next, (trie.alignKids p n).Shows next := by
  cases first : n.kids 0 with
  | none => exact ⟨_, shows.alignKids found first⟩
  | some k =>
    have unmoved : trie.alignKids p n = trie := if_neg (by simp [first])
    rw [unmoved]
    exact ⟨layout, shows⟩

/-- A removal takes the value of one node. -/
structure Removed (trie next : Trie Value) (handle : NodePtr) : Prop where
  shows : ∃ layout, next.Shows layout
  shaped : next.Shaped
  after : next.valueAt = update trie.valueAt handle none

/-- What the splicing of a node with at most one kid leaves. -/
structure Pruned (trie next : Trie Value) (q p : NodePtr) (n m : TrieNode Value) : Prop where
  shows : ∃ layout, next.Shows layout
  found : next.nodes p = some m
  others : ∀ {x node}, next.nodes x = some node → x ≠ p → Fits x node
  after : next.valueAt = update trie.valueAt q none
  first : m.kids 1 ≠ none → m.kids 0 ≠ none
  head : p = 0 → m.value = none
  kept : n.kids 0 ≠ none → Fits p m
  lost : n.kids 0 = none → m.kids 1 = none ∧ (p ≠ 0 → m.value = none → m.kids 0 ≠ none)

/-- A trie has its shape after a node is spliced out if the parent of the node fits. -/
theorem Pruned.shaped {next : Trie Value} (pruned : Pruned trie next q p n m) (fits : Fits p m) : next.Shaped := by
  intro x node there
  by_cases atParent : x = p
  · subst atParent
    obtain rfl := Option.some.inj (pruned.found.symm.trans there)
    exact fits
  · exact pruned.others there atParent

section Removal
variable (shows : trie.Shows layout)
include shows

/-- The nodes with a parent are those below the head. -/
theorem Shows.isSome_parent (found : trie.nodes p = some n) : n.parent.isSome = true ↔ p ≠ 0 := by
  rw [(shows.shown found).parent, isSome_map]
  refine ⟨?_, ((shows.present p).mp ⟨n, found⟩).resolve_left⟩
  rintro below rfl
  rw [shows.ordered.root] at below
  simp at below

section
variable (others : ∀ {x node}, trie.nodes x = some node → x ≠ q → Fits x node) (found : trie.nodes q = some n)
  (notRoot : q ≠ 0) (single : n.kids 1 = none)
include others found notRoot single

/-- A node below the head with at most one kid is spliced out. -/
theorem exists_pruned :
    ∃ p spliced mid next, n.parent = some p ∧ trie.spliceKid q n p = .ok spliced ∧ spliced.deref p = .ok mid ∧
      (spliced.alignKids p mid).deref p = .ok next ∧ Pruned trie (spliced.alignKids p mid) q p n next := by
  obtain ⟨p, i, m, parent, spot, foundParent, kid, index⟩ := shows.exists_parent found notRoot
  obtain ⟨spliced, done, size, nodes⟩ := shows.spliceKid found spot foundParent index
  have apart : p ≠ q := by
    rintro rfl
    exact Nat.lt_irrefl _ (shows.ordered.below spot).2.1
  have fits := others foundParent apart
  have here : spliced.nodes p = some (m.setKid i (n.kids 0)) := by rw [nodes, if_pos rfl]
  have aligned : (spliced.alignKids p (m.setKid i (n.kids 0))).nodes p = some (m.setKid i (n.kids 0)).aligned := by
    rw [alignKids_nodes here, if_pos rfl]
  obtain ⟨key, mask, value, _⟩ := aligned_data (n := m.setKid i (n.kids 0))
  refine ⟨p, spliced, _, _, parent, done, deref_eq_ok.mpr here, deref_eq_ok.mpr aligned,
    (shows.splice found spot single foundParent size nodes).aligned here, aligned, ?_, ?_, aligned_first, ?_, ?_, ?_⟩
  · intro x node there notParent
    rw [alignKids_nodes here, if_neg notParent, nodes, if_neg notParent] at there
    obtain ⟨notNode, there⟩ := ite_none_left_eq_some.mp there
    split at there
    · obtain ⟨old, foundKid, rfl⟩ := map_eq_some_iff.mp there
      exact (others foundKid notNode).withParent _
    · exact others there notNode
  · funext x
    rw [update_apply]
    by_cases atParent : x = p
    · subst atParent
      rw [if_neg apart]
      simp only [valueAt, aligned, foundParent, bind_some, key, mask, value]
      rfl
    · by_cases atNode : x = q
      · simp [valueAt, alignKids_nodes here, nodes, atNode, apart.symm]
      · simp only [valueAt, alignKids_nodes here, nodes, atParent, atNode, if_false]
        split
        · cases trie.nodes x <;> rfl
        · rfl
  · intro root
    rw [value]
    exact fits.head root
  · intro some
    obtain ⟨k, first⟩ := ne_none_iff_exists'.mp some
    have replaced := fits.replaceKid (i := i) (by simp [kid]) k
    rw [first]
    have present : (m.setKid i (Option.some k)).kids 0 ≠ none := by
      by_cases index : i = 0
      · subst index
        simp [setKid]
      · obtain rfl : i = 1 := by omega
        exact replaced.first (by simp [setKid])
    rw [aligned_of_first present]
    exact replaced
  · intro empty
    rw [empty]
    refine ⟨aligned_lost, ?_⟩
    intro notHead noValue
    rw [empty] at value
    have full := fits.full notHead (value.symm.trans noValue)
    exact aligned_kept full.1 full.2

/-- The removal of a node with a single kid ends after one splice. -/
theorem removeLoop_single (first : n.kids 0 ≠ none) (fuel : Nat) :
    ∃ next, removeLoop (fuel + 1) trie q = .ok (n.value, next) ∧ Removed trie next q := by
  obtain ⟨p, spliced, mid, m, parent, done, reads, result, pruned⟩ := exists_pruned shows others found notRoot single
  have fits := pruned.kept first
  have stops : ¬(m.kids 1 = none ∧ m.value = none ∧ m.parent.isSome = true) := by
    rintro ⟨alone, noValue, below⟩
    obtain ⟨layout, showsNext⟩ := pruned.shows
    exact (fits.full ((showsNext.isSome_parent pruned.found).mp below) noValue).2 alone
  refine ⟨spliced.alignKids p mid, ?_, pruned.shows, pruned.shaped fits, pruned.after⟩
  rw [removeLoop, deref_eq_ok.mpr found, ok_bind, if_neg (by simp [single])]
  simp only [parent, done, reads, ok_bind, result, if_neg stops]

/-- The removal of a leaf also removes a parent that loses its second kid. -/
theorem removeLoop_leaf (leaf : n.kids 0 = none) (fuel : Nat) :
    ∃ next, removeLoop (fuel + 2) trie q = .ok (n.value, next) ∧ Removed trie next q := by
  obtain ⟨p, spliced, mid, m, parent, done, reads, result, pruned⟩ := exists_pruned shows others found notRoot single
  obtain ⟨alone, keeps⟩ := pruned.lost leaf
  obtain ⟨layoutNext, showsNext⟩ := pruned.shows
  have below := showsNext.isSome_parent pruned.found
  rw [removeLoop, deref_eq_ok.mpr found, ok_bind, if_neg (by simp [single])]
  simp only [parent, done, reads, ok_bind, result]
  by_cases goes : m.kids 1 = none ∧ m.value = none ∧ m.parent.isSome = true
  · have notHead := below.mp goes.2.2
    obtain ⟨next, rest, removed⟩ := removeLoop_single showsNext pruned.others pruned.found notHead alone
      (keeps notHead goes.2.1) fuel
    rw [if_pos goes, rest, ok_bind]
    refine ⟨next, rfl, removed.shows, removed.shaped, ?_⟩
    have noValue : update trie.valueAt q none p = none := by
      rw [← pruned.after]
      simp [valueAt, pruned.found, goes.2.1]
    rw [removed.after, pruned.after]
    exact update_eq_self_iff.mpr noValue.symm
  · rw [if_neg goes]
    refine ⟨_, rfl, pruned.shows, pruned.shaped { pruned with full := fun notHead noValue => ?_ }, pruned.after⟩
    exact absurd ⟨alone, noValue, below.mpr notHead⟩ goes

end

/-- The removal of a handle with a value succeeds and takes the value. -/
theorem remove_eq (shaped : trie.Shaped) {key mask : BitVec 64} {val : Value}
    (valued : trie.valueAt q = some (key, mask, val)) :
    ∃ next, trie.remove q = .ok (some val, next) ∧ Removed trie next q := by
  obtain ⟨n, found, mapped⟩ := bind_eq_some_iff.mp valued
  obtain ⟨v, value, same⟩ := map_eq_some_iff.mp mapped
  cases same
  have fits := shaped found
  have notRoot : q ≠ 0 := by
    intro root
    rw [fits.head root] at value
    simp at value
  rw [← value]
  cases second : n.kids 1 with
  | none =>
    cases first : n.kids 0 with
    | none => exact removeLoop_leaf shows (fun there _ => shaped there) found notRoot second first _
    | some k => exact removeLoop_single shows (fun there _ => shaped there) found notRoot second (by simp [first]) _
  | some k =>
    have kids : n.kids 0 ≠ none ∧ n.kids 1 ≠ none := by
      rw [second]
      exact ⟨fits.first (by simp [second]), by simp⟩
    refine ⟨trie.store q { n with value := none }, ?_, ⟨layout, shows.setValue found _⟩, ?_, ?_⟩
    · rw [remove, maxSteps, removeLoop, deref_eq_ok.mpr found, ok_bind, if_pos (by simp [second]),
        assert_of (by simp [value]), ok_bind]
    · intro x other here
      rw [store_nodes] at here
      exact node_cases here (.ofKids notRoot kids.1 kids.2) fun _ here => shaped here
    · funext x
      rw [update_apply]
      simp only [valueAt, store_nodes]
      split <;> rfl

end Removal

end Trie

end Gem5
