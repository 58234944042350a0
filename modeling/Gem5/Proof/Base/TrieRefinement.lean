import Gem5.Proof.Base.TrieUpdates

namespace Gem5
open ToMathlib Function Option

instance (width : Nat) (first second : BitVec 64) : Decidable (SamePrefix width first second) :=
  inferInstanceAs (Decidable (∀ index < width, first.getMsbD index = second.getMsbD index))

/-- A live prefix with its value and the handle that its insertion returned. -/
structure TrieEntry (Value : Type) where
  handle : NodePtr
  key : BitVec 64
  width : Nat
  value : Value
deriving DecidableEq, Repr

namespace TrieEntry
variable {Value : Type} {live : List (TrieEntry Value)} {entry : TrieEntry Value} {key : BitVec 64}

/-- The prefix of an entry matches a key. -/
def covers (entry : TrieEntry Value) (key : BitVec 64) : Prop := SamePrefix entry.width key entry.key

instance (key : BitVec 64) : Decidable (entry.covers key) := inferInstanceAs (Decidable (SamePrefix ..))

/-- An entry matches a key, and no entry with a smaller width does. -/
def Shortest (live : List (TrieEntry Value)) (key : BitVec 64) (entry : TrieEntry Value) : Prop :=
  entry.covers key ∧ ∀ other ∈ live, other.covers key → entry.width ≤ other.width

instance (key : BitVec 64) : Decidable (Shortest live key entry) := inferInstanceAs (Decidable (_ ∧ _))

/-- The matching entry with the smallest width. -/
def shortest (live : List (TrieEntry Value)) (key : BitVec 64) : Option (TrieEntry Value) :=
  live.find? fun entry => decide (Shortest live key entry)

theorem mem_of_shortest (found : shortest live key = some entry) : entry ∈ live ∧ Shortest live key entry := by
  exact ⟨List.mem_of_find?_eq_some found, by simpa using List.find?_some found⟩

theorem shortest_eq_none_iff : shortest live key = none ↔ ∀ entry ∈ live, ¬entry.covers key := by
  constructor
  · intro absent entry member covers
    induction size : entry.width using Nat.strongRecOn generalizing entry with
    | ind size ih =>
      have fails := List.find?_eq_none.mp absent entry member
      rw [decide_eq_true_eq] at fails
      apply fails
      refine ⟨covers, ?_⟩
      intro other otherMember otherCovers
      by_contra shorter
      exact ih other.width (by omega) other otherMember otherCovers rfl
  · intro absent
    rw [shortest, List.find?_eq_none]
    intro entry member found
    exact absent entry member (of_decide_eq_true found).1

end TrieEntry

/-- The operations on a trie. -/
inductive TrieOp (Value : Type) where
  | insert (key : BitVec 64) (width : Nat) (val : Option Value)
  | removeHandle (handle : NodePtr)
  | removeKey (key : BitVec 64)
  | clear

/-- This structure runs a trie next to its live entries. -/
structure TrieTrace (Value : Type) where
  trie : Trie Value
  live : List (TrieEntry Value)

namespace TrieTrace
variable {Value : Type} {trace next : TrieTrace Value} {key : BitVec 64}
open Trie TrieEntry

def initial : TrieTrace Value := { trie := .init, live := [] }

/-- A handle of a live entry is removed, and a prefix is inserted that no live entry has. -/
def allowed (trace : TrieTrace Value) : TrieOp Value → Prop
  | .insert key width _ => 1 ≤ width ∧ width ≤ 64 ∧
      ∀ entry ∈ trace.live, ¬(entry.width = width ∧ entry.key &&& prefixMask width = key &&& prefixMask width)
  | .removeHandle handle => ∃ entry ∈ trace.live, entry.handle = handle
  | .removeKey _ => True
  | .clear => True

/-- This function performs an operation on the trie and on the live entries. -/
def step (trace : TrieTrace Value) : TrieOp Value → Except Fault (TrieTrace Value)
  | .insert key width val => do
    let (handle, trie) ← trace.trie.insert key width val
    .ok { trie, live := (val.map (TrieEntry.mk handle key width)).toList ++ trace.live }
  | .removeHandle handle => do
    let (_, trie) ← trace.trie.remove handle
    .ok { trie, live := trace.live.filter fun entry => entry.handle ≠ handle }
  | .removeKey key => do
    let (_, trie) ← trace.trie.removeKey key
    .ok { trie, live := trace.live.filter fun entry => (shortest trace.live key).map (·.handle) ≠ some entry.handle }
  | .clear => do
    .ok { trie := ← trace.trie.clear, live := [] }

/-- This machine performs the allowed operations. -/
def tries : Machine (TrieTrace Value) (TrieOp Value) Fault where
  guard := allowed
  step := step

/-- The node of a handle has the prefix and the value of an entry. -/
def Denotes (trie : Trie Value) (entry : TrieEntry Value) : Prop :=
  trie.valueAt entry.handle = some (entry.key &&& prefixMask entry.width, prefixMask entry.width, entry.value)

/-- The values of the trie are those of the live entries. -/
structure Refines (trace : TrieTrace Value) : Prop where
  shows : ∃ layout, trace.trie.Shows layout
  shaped : trace.trie.Shaped
  narrow : ∀ entry ∈ trace.live, entry.width ≤ 64
  denotes : ∀ entry ∈ trace.live, Denotes trace.trie entry
  listed : ∀ x, trace.trie.valueAt x ≠ none → ∃ entry ∈ trace.live, entry.handle = x
  unique : ∀ entry ∈ trace.live, ∀ other ∈ trace.live, other.width = entry.width →
    other.key &&& prefixMask entry.width = entry.key &&& prefixMask entry.width → other = entry

section
variable (refines : trace.Refines)
include refines

/-- A live entry has the width and the prefix of its node. -/
theorem Refines.layout_eq (key : BitVec 64) {layout : Layout} (shows : trace.trie.Shows layout)
    {entry : TrieEntry Value} (member : entry ∈ trace.live) :
    ∃ n, trace.trie.nodes entry.handle = some n ∧ n.value = some entry.value ∧
      layout.width entry.handle = entry.width ∧ (HasPrefix layout key entry.handle ↔ entry.covers key) := by
  obtain ⟨n, found, mapped⟩ := bind_eq_some_iff.mp (refines.denotes entry member)
  obtain ⟨value, valued, same⟩ := map_eq_some_iff.mp mapped
  obtain ⟨keyEq, maskEq, rfl⟩ : n.key = entry.key &&& prefixMask entry.width ∧ n.mask = prefixMask entry.width ∧
      value = entry.value := by simpa using same
  have shown := shows.shown found
  have has := (shows.present entry.handle).mp ⟨n, found⟩
  have widthEq : layout.width entry.handle = entry.width :=
    prefixMask_inj (shows.ordered.width_le has) (refines.narrow entry member) (shown.mask.symm.trans maskEq)
  have agree : SamePrefix entry.width (layout.key entry.handle) entry.key := by
    rw [← shown.key, keyEq]
    exact samePrefix_and_prefixMask
  refine ⟨n, found, valued, widthEq, ?_⟩
  unfold HasPrefix covers
  rw [widthEq]
  exact ⟨fun same => same.trans agree, fun same => same.trans agree.symm⟩

theorem Refines.lookupHandle_eq (key : BitVec 64) :
    trace.trie.lookupHandle key = .ok ((shortest trace.live key).map (·.handle)) := by
  obtain ⟨layout, shows⟩ := refines.shows
  obtain ⟨result, done, finds, least⟩ := shows.lookupLoop_eq (.inl rfl) (shows.hasPrefix_root key)
    (show 64 < maxSteps + layout.width 0 by unfold maxSteps maxBits; omega)
  have valued : ∀ entry ∈ trace.live, entry.covers key → Valued trace.trie layout key 0 entry.handle := by
    intro entry member covers
    obtain ⟨n, found, value, _, same⟩ := refines.layout_eq key shows member
    exact ⟨shows.ordered.below_root ((shows.present _).mp ⟨n, found⟩), same.mpr covers, n, found, by rw [value]; rfl⟩
  rw [lookupHandle, done]
  cases result with
  | none =>
    have noEntry : shortest trace.live key = none := by
      rw [shortest_eq_none_iff]
      intro entry member covers
      obtain ⟨_, none, _⟩ := least _ (valued entry member covers)
      cases none
    rw [noEntry]
    rfl
  | some h =>
    obtain ⟨_, same, n, found, isValued⟩ := finds h rfl
    obtain ⟨value, valueEq⟩ := isSome_iff_exists.mp isValued
    obtain ⟨entry, member, rfl⟩ := refines.listed h (by simp [valueAt, found, valueEq])
    obtain ⟨_, _, _, widthEq, covered⟩ := refines.layout_eq key shows member
    have entryShortest : Shortest trace.live key entry := by
      refine ⟨covered.mp same, ?_⟩
      intro other otherMember otherCovers
      obtain ⟨_, _, _, otherWidth, _⟩ := refines.layout_eq key shows otherMember
      obtain ⟨_, ⟨⟩, less⟩ := least _ (valued other otherMember otherCovers)
      omega
    cases chosen : shortest trace.live key with
    | none => exact absurd entryShortest.1 (shortest_eq_none_iff.mp chosen entry member)
    | some other =>
      obtain ⟨otherMember, otherShortest⟩ := mem_of_shortest chosen
      have widths : other.width = entry.width := Nat.le_antisymm
        (otherShortest.2 entry member entryShortest.1) (entryShortest.2 other otherMember otherShortest.1)
      have prefixes : SamePrefix entry.width other.key entry.key := by
        have first := otherShortest.1
        unfold covers at first
        rw [widths] at first
        exact first.symm.trans entryShortest.1
      rw [refines.unique entry member other otherMember widths (and_prefixMask_eq_iff.mpr prefixes)]
      rfl

theorem Refines.lookup_eq (key : BitVec 64) :
    trace.trie.lookup key = .ok ((shortest trace.live key).map (·.value)) := by
  obtain ⟨layout, shows⟩ := refines.shows
  rw [lookup, refines.lookupHandle_eq, ok_bind]
  cases chosen : shortest trace.live key with
  | none => rfl
  | some entry =>
    obtain ⟨n, found, valued, _⟩ := refines.layout_eq key shows (mem_of_shortest chosen).1
    simp only [map_some, deref_eq_ok.mpr found, ok_bind, valued]

theorem Refines.insert {width : Nat} (val : Value) (fits : trace.allowed (.insert key width (some val))) :
    ∃ handle trie, trace.trie.insert key width (some val) = .ok (handle, trie) ∧
      Refines { trie, live := ⟨handle, key, width, val⟩ :: trace.live } := by
  obtain ⟨layout, shows⟩ := refines.shows
  obtain ⟨positive, narrow, isNew⟩ := fits
  have absent : ∀ x v, trace.trie.valueAt x ≠ some (key &&& prefixMask width, prefixMask width, v) := by
    intro x v here
    obtain ⟨entry, member, rfl⟩ := refines.listed x (by simp [here])
    have both := refines.denotes entry member
    rw [Denotes, here, some.injEq, Prod.mk.injEq, Prod.mk.injEq] at both
    have widthEq := prefixMask_inj narrow (refines.narrow entry member) both.2.1
    exact isNew entry member ⟨widthEq.symm, by rw [both.1, widthEq]⟩
  obtain ⟨handle, trie, done, inserted⟩ := insert_eq shows refines.shaped val positive narrow absent
  have fresh : ∀ entry ∈ trace.live, entry.handle ≠ handle := by
    intro entry member same
    have here := refines.denotes entry member
    rw [Denotes, same, inserted.before] at here
    simp at here
  refine ⟨handle, trie, done, inserted.shows, inserted.shaped, ?_, ?_, ?_, ?_⟩
  · exact List.forall_mem_cons.mpr ⟨narrow, refines.narrow⟩
  · simp only [Denotes, inserted.after]
    refine List.forall_mem_cons.mpr ⟨update_self .., fun entry old => ?_⟩
    rw [update_of_ne (fresh entry old)]
    exact refines.denotes entry old
  · intro x valued
    by_cases same : x = handle
    · exact ⟨_, List.mem_cons_self, same.symm⟩
    · rw [inserted.after, update_of_ne same] at valued
      obtain ⟨entry, member, atHandle⟩ := refines.listed x valued
      exact ⟨entry, List.mem_cons_of_mem _ member, atHandle⟩
  · intro entry member other otherMember widthEq prefixEq
    rcases List.mem_cons.mp member with rfl | old
    · rcases List.mem_cons.mp otherMember with rfl | otherOld
      · rfl
      · exact absurd ⟨widthEq, prefixEq⟩ (isNew other otherOld)
    · rcases List.mem_cons.mp otherMember with rfl | otherOld
      · change width = entry.width at widthEq
        subst widthEq
        exact absurd ⟨rfl, prefixEq.symm⟩ (isNew entry old)
      · exact refines.unique entry old other otherOld widthEq prefixEq

theorem Refines.remove {entry : TrieEntry Value} (member : entry ∈ trace.live) :
    ∃ trie, trace.trie.remove entry.handle = .ok (some entry.value, trie) ∧
      Refines { trie, live := trace.live.filter fun other => other.handle ≠ entry.handle } := by
  obtain ⟨layout, shows⟩ := refines.shows
  obtain ⟨trie, done, removed⟩ := remove_eq shows refines.shaped (refines.denotes entry member)
  have old : ∀ {other}, other ∈ trace.live.filter (fun other => other.handle ≠ entry.handle) →
      other ∈ trace.live ∧ other.handle ≠ entry.handle := by
    intro other otherMember
    simpa using otherMember
  refine ⟨trie, done, removed.shows, removed.shaped, ?_, ?_, ?_, ?_⟩
  · intro other otherMember
    exact refines.narrow other (old otherMember).1
  · intro other otherMember
    obtain ⟨before, apart⟩ := old otherMember
    rw [Denotes, removed.after, update_of_ne apart]
    exact refines.denotes other before
  · intro x valued
    have apart : x ≠ entry.handle := by
      rintro rfl
      rw [removed.after, update_self] at valued
      exact valued rfl
    rw [removed.after, update_of_ne apart] at valued
    obtain ⟨other, before, rfl⟩ := refines.listed x valued
    exact ⟨other, by simpa using ⟨before, apart⟩, rfl⟩
  · intro first firstMember second secondMember
    exact refines.unique first (old firstMember).1 second (old secondMember).1

end

theorem Refines.ofHead {trie : Trie Value} (head : TrieNode Value) (size : 0 < trie.allocations)
    (nodes : trie.nodes = update (fun _ => none) 0 (some head)) (mask : head.mask = prefixMask 0)
    (tidy : head.key &&& head.mask = head.key) (parent : head.parent = none) (kids : head.kids = fun _ => none)
    (value : head.value = none) : Refines { trie, live := [] } := by
  let layout : Layout := { place := fun _ => none, width := fun _ => 0, key := fun _ => head.key }
  have only : ∀ {x n}, trie.nodes x = some n → x = 0 ∧ n = head := by
    intro x n found
    rw [nodes, update_apply] at found
    split at found
    · rename_i root
      exact ⟨root, (some.inj found).symm⟩
    · simp at found
  have ordered : layout.Ordered := by
    constructor <;> simp [layout]
  refine ⟨⟨layout, ordered, ?_, ?_, ?_⟩, ?_, ?_, ?_, ?_, ?_⟩
  · intro x
    simp [nodes, layout, Layout.Has, update_apply]
  · intro x n found
    obtain ⟨rfl, rfl⟩ := only found
    exact ⟨mask, rfl, tidy, parent, by simp [kids, layout]⟩
  · intro x has
    obtain rfl : x = 0 := by simpa [layout, Layout.Has] using has
    exact size
  · intro x n found
    obtain ⟨rfl, rfl⟩ := only found
    exact ⟨by simp, by simp [kids], fun _ => value⟩
  · simp
  · simp
  · intro x valued
    obtain ⟨v, here⟩ := ne_none_iff_exists'.mp valued
    obtain ⟨n, found, mapped⟩ := bind_eq_some_iff.mp here
    rw [(only found).2, value] at mapped
    simp at mapped
  · simp

theorem initial_refines : (initial : TrieTrace Value).Refines :=
  .ofHead (.make 0 0 none) Nat.one_pos rfl (show (0 : BitVec 64) = prefixMask 0 by decide) rfl rfl rfl rfl

theorem Refines.clear (refines : trace.Refines) :
    ∃ trie, trace.trie.clear = .ok trie ∧ Refines { trie, live := [] } := by
  obtain ⟨layout, shows⟩ := refines.shows
  obtain ⟨head, found⟩ := (shows.present 0).mpr (.inl rfl)
  have shown := shows.shown found
  refine ⟨_, by rw [Trie.clear, deref_eq_ok.mpr found, ok_bind], ?_⟩
  apply Refines.ofHead { head with kids := fun _ => none }
  · exact shows.allocated 0 (.inl rfl)
  · rfl
  · rw [shown.mask, shows.ordered.rootWidth]
  · exact shown.tidy
  · rw [shown.parent, shows.ordered.root]
    rfl
  · rfl
  · exact (refines.shaped found).head rfl

/-- An allowed operation succeeds and keeps the refinement, unless it inserts no value. -/
theorem Refines.step (refines : trace.Refines) {op : TrieOp Value} (fits : trace.allowed op) :
    (∃ next, trace.step op = .ok next ∧ next.Refines) ∨
      ∃ key width, op = .insert key width none ∧ trace.step op = .error (.assertion "val") := by
  cases op with
  | insert key width val =>
    cases val with
    | none => exact .inr ⟨key, width, rfl, rfl⟩
    | some val =>
      obtain ⟨handle, trie, done, kept⟩ := refines.insert val fits
      refine .inl ⟨_, ?_, kept⟩
      rw [TrieTrace.step, done, ok_bind]
      rfl
  | removeHandle handle =>
    obtain ⟨entry, member, rfl⟩ := fits
    obtain ⟨trie, done, kept⟩ := refines.remove member
    exact .inl ⟨_, by rw [TrieTrace.step, done, ok_bind], kept⟩
  | removeKey key =>
    left
    rw [TrieTrace.step, removeKey, refines.lookupHandle_eq, ok_bind]
    cases chosen : shortest trace.live key with
    | none =>
      have kept : trace.live.filter (fun entry => (none : Option NodePtr) ≠ some entry.handle) = trace.live := by
        rw [List.filter_eq_self]
        simp
      refine ⟨trace, ?_, refines⟩
      simp only [map_none, ok_bind, kept]
    | some entry =>
      obtain ⟨trie, done, kept⟩ := refines.remove (mem_of_shortest chosen).1
      refine ⟨_, ?_, kept⟩
      simp only [map_some, done, ok_bind, ne_eq, some.injEq, eq_comm]
  | clear =>
    obtain ⟨trie, done, kept⟩ := refines.clear
    exact .inl ⟨_, by rw [TrieTrace.step, done, ok_bind], kept⟩

/-- After every run, a lookup returns the value of the live entry with the smallest width that matches the key, the
handles denote their entries, every node has its shape, and no allowed operation reaches a panic. -/
theorem trie_refines {ops : List (TrieOp Value)} (run : tries.Run initial ops trace) :
    (∀ key, trace.trie.lookup key = .ok ((shortest trace.live key).map (·.value))) ∧
    (∀ entry ∈ trace.live, Denotes trace.trie entry) ∧
    (∀ x node, trace.trie.nodes x = some node → (x ≠ 0 → node.value = none → node.kids 0 ≠ none ∧ node.kids 1 ≠ none) ∧
      (node.kids 1 ≠ none → node.kids 0 ≠ none)) ∧
    ∀ op, trace.allowed op → (∃ next, trace.step op = .ok next) ∨
      ∃ key width, op = .insert key width none ∧ trace.step op = .error (.assertion "val") := by
  have refines : trace.Refines := by
    refine run.invariant Refines initial_refines ?_
    intro state op next held fits stepped
    rcases held.step fits with ⟨other, done, kept⟩ | ⟨key, width, _, failed⟩
    · cases done.symm.trans stepped
      exact kept
    · cases failed.symm.trans stepped
  refine ⟨refines.lookup_eq, refines.denotes, ?_, ?_⟩
  · intro x node found
    exact ⟨(refines.shaped found).full, (refines.shaped found).first⟩
  · intro op fits
    rcases refines.step fits with ⟨next, done, _⟩ | failed
    · exact .inl ⟨next, done⟩
    · exact .inr failed

/-- A short prefix hides a longer one. -/
theorem trie_refines_twoPrefixes : ∃ trace : TrieTrace Nat,
    tries.Run initial [.insert 0x8000000000000000 4 (some 7), .insert 0x8100000000000000 8 (some 3)] trace ∧
    trace.trie.lookup 0x8123456789abcdef = .ok (some 7) := by
  refine ⟨_, and_of_imp (.cons (.cons .nil ⟨by decide, by decide, by simp [initial]⟩ rfl)
    ⟨by decide, by decide, by decide⟩ rfl) fun run => ?_⟩
  rw [(trie_refines run).1]
  rfl

end TrieTrace

end Gem5
