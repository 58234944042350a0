import Gem5.Proof.Base.TrieNodes

namespace Gem5
open ToMathlib

namespace Trie
variable {Value : Type} {trie : Trie Value} {layout : Layout} {x p k : NodePtr} {key : BitVec 64}
  {n m : TrieNode Value} {fuel width : Nat}

/-- A key has the prefix of a node. -/
def HasPrefix (layout : Layout) (key : BitVec 64) (x : NodePtr) : Prop := SamePrefix (layout.width x) key (layout.key x)

theorem Shown.matchesKey_iff (shown : Shown layout x n) : n.matchesKey key = true ↔ HasPrefix layout key x := by
  unfold TrieNode.matchesKey HasPrefix
  rw [decide_eq_true_eq, ← shown.tidy, shown.mask, and_prefixMask_eq_iff, shown.key]

/-- A node with a value under another one has the prefix of a key. -/
def Valued (trie : Trie Value) (layout : Layout) (key : BitVec 64) (x y : NodePtr) : Prop :=
  layout.Below x y ∧ HasPrefix layout key y ∧ ∃ m, trie.nodes y = some m ∧ m.value.isSome = true

namespace Shows
variable (shows : trie.Shows layout)
include shows

theorem testKid_eq (test : TrieNode Value → Bool) {kid : Option NodePtr} (real : ∀ k, kid = some k → layout.Has k) :
    ∃ result, trie.testKid test kid = .ok result ∧
      (result = true ↔ ∃ k m, kid = some k ∧ trie.nodes k = some m ∧ test m = true) := by
  cases kid with
  | none => exact ⟨false, rfl, by simp⟩
  | some k =>
    obtain ⟨m, found⟩ := (shows.present k).mpr (real k rfl)
    refine ⟨test m, by simp [testKid, deref_eq_ok.mpr found], ?_⟩
    simp [found]

/-- The picked kid passes the test, and no kid does when none is picked. -/
theorem pickKid_eq (test : TrieNode Value → Bool) (found : trie.nodes x = some n) :
    ∃ result, trie.pickKid test n = .ok result ∧
      (∀ k, result = some k → (∃ i, layout.place k = some (x, i)) ∧ ∃ m, trie.nodes k = some m ∧ test m = true) ∧
      (result = none → ∀ k i m, layout.place k = some (x, i) → trie.nodes k = some m → test m = false) := by
  have kids := (shows.shown found).kids
  have real : ∀ i k, n.kids i = some k → layout.Has k := fun i k kid => .ofPlace ((kids i k).mp kid)
  obtain ⟨first, firstDone, firstIff⟩ := shows.testKid_eq test (real 0)
  obtain ⟨second, secondDone, secondIff⟩ := shows.testKid_eq test (real 1)
  have picks : ∀ i, (∃ k m, n.kids i = some k ∧ trie.nodes k = some m ∧ test m = true) →
      (∀ k, n.kids i = some k → (∃ i, layout.place k = some (x, i)) ∧ ∃ m, trie.nodes k = some m ∧ test m = true) ∧
        n.kids i ≠ none := by
    rintro i ⟨k, m, kid, here, passes⟩
    refine ⟨fun other same => ?_, by simp [kid]⟩
    obtain rfl : k = other := by simpa [kid] using same
    exact ⟨⟨i, (kids i k).mp kid⟩, m, here, passes⟩
  unfold pickKid
  simp only [firstDone, secondDone, ok_bind]
  cases first with
  | true => exact ⟨n.kids 0, rfl, (picks 0 (firstIff.mp rfl)).1, fun none => absurd none (picks 0 (firstIff.mp rfl)).2⟩
  | false =>
    cases second with
    | true => exact ⟨n.kids 1, rfl, (picks 1 (secondIff.mp rfl)).1, fun none => absurd none (picks 1 (secondIff.mp rfl)).2⟩
    | false =>
      refine ⟨none, rfl, by simp, ?_⟩
      intro _ k i m spot here
      by_contra passes
      rw [Bool.not_eq_false] at passes
      have kid := (kids i k).mpr spot
      by_cases index : i = 0
      · subst index
        cases firstIff.mpr ⟨k, m, kid, here, passes⟩
      · obtain rfl : i = 1 := by omega
        cases secondIff.mpr ⟨k, m, kid, here, passes⟩

theorem hasPrefix_root (key : BitVec 64) : HasPrefix layout key 0 := by
  intro index inside
  rw [shows.ordered.rootWidth] at inside
  exact absurd inside (Nat.not_lt_zero index)

/-- The lookup ends at the value with the shortest prefix of the key. -/
theorem lookupLoop_eq (has : layout.Has x) (matched : HasPrefix layout key x) (enough : 64 < fuel + layout.width x) :
    ∃ result, trie.lookupLoop key fuel x = .ok result ∧ (∀ h, result = some h → Valued trie layout key x h) ∧
      ∀ y, Valued trie layout key x y → ∃ h, result = some h ∧ layout.width h ≤ layout.width y := by
  induction fuel generalizing x with
  | zero =>
    have narrow := shows.ordered.width_le has
    omega
  | succ fuel ih =>
    obtain ⟨n, found⟩ := (shows.present x).mpr has
    rw [lookupLoop, deref_eq_ok.mpr found, ok_bind]
    by_cases valued : n.value.isSome = true
    · rw [if_pos valued]
      refine ⟨some x, rfl, ?_, fun y value => ⟨x, rfl, (shows.ordered.below_prefix value.1).1⟩⟩
      intro h same
      cases same
      exact ⟨.refl, matched, n, found, valued⟩
    · rw [if_neg valued]
      obtain ⟨picked, pickedDone, pickedSome, pickedNone⟩ := shows.pickKid_eq (·.matchesKey key) found
      rw [pickedDone, ok_bind]
      have next : ∀ y, Valued trie layout key x y →
          ∃ k i, layout.place k = some (x, i) ∧ layout.Below k y ∧ HasPrefix layout key k := by
        rintro y ⟨under, same, m, here, value⟩
        rcases Layout.Ordered.below_cases under with rfl | ⟨k, i, spot, rest⟩
        · rw [found, Option.some.injEq] at here
          subst here
          exact absurd value valued
        · obtain ⟨longer, agree⟩ := shows.ordered.below_prefix rest
          exact ⟨k, i, spot, rest, SamePrefix.trans (SamePrefix.mono same longer) agree.symm⟩
      cases picked with
      | none =>
        refine ⟨none, rfl, nofun, fun y value => ?_⟩
        obtain ⟨k, i, spot, _, kidSame⟩ := next y value
        obtain ⟨kidNode, kidHere⟩ := (shows.present k).mpr (.ofPlace spot)
        have fails := pickedNone rfl k i kidNode spot kidHere
        rw [(shows.shown kidHere).matchesKey_iff.mpr kidSame] at fails
        cases fails
      | some k =>
        obtain ⟨⟨i, spot⟩, kidNode, kidHere, passes⟩ := pickedSome k rfl
        have kidSame := (shows.shown kidHere).matchesKey_iff.mp passes
        have longer := (shows.ordered.below spot).2.1
        obtain ⟨result, done, finds, least⟩ := ih (.ofPlace spot) kidSame (by omega)
        refine ⟨result, done, fun h same => ⟨.head ⟨i, spot⟩ (finds h same).1, (finds h same).2⟩, fun y value => ?_⟩
        obtain ⟨other, j, otherSpot, rest, otherSame⟩ := next y value
        cases shows.ordered.eq_of_prefix spot otherSpot kidSame otherSame
        exact least y ⟨rest, value.2⟩

theorem goesAfter_iff (found : trie.nodes k = some m) :
    goesAfter key (prefixMask width) m = true ↔ HasPrefix layout key k ∧ layout.width k ≤ width := by
  have shown := shows.shown found
  have has := (shows.present k).mp ⟨m, found⟩
  unfold goesAfter
  rw [Bool.and_eq_true, shown.matchesKey_iff, decide_eq_true_eq, shown.mask,
    prefixMask_and_eq_iff (shows.ordered.width_le has)]

/-- The walk ends at a node that the key lies beyond, none of whose kids the key lies beyond. -/
theorem walkLoop_eq (narrow : width ≤ 64) (has : layout.Has x) (matched : HasPrefix layout key x)
    (shorter : layout.width x ≤ width) (enough : 64 < fuel + layout.width x) :
    ∃ p, trie.walkLoop key (prefixMask width) fuel x = .ok p ∧ layout.Has p ∧ HasPrefix layout key p ∧
      layout.width p ≤ width ∧ ∀ k i, layout.place k = some (p, i) → HasPrefix layout key k → width < layout.width k := by
  induction fuel generalizing x with
  | zero => omega
  | succ fuel ih =>
    obtain ⟨n, found⟩ := (shows.present x).mpr has
    rw [walkLoop, deref_eq_ok.mpr found, ok_bind]
    obtain ⟨picked, pickedDone, pickedSome, pickedNone⟩ := shows.pickKid_eq (goesAfter key (prefixMask width)) found
    rw [pickedDone, ok_bind]
    cases picked with
    | none =>
      refine ⟨x, rfl, has, matched, shorter, ?_⟩
      intro k i spot same
      obtain ⟨m, here⟩ := (shows.present k).mpr (.ofPlace spot)
      by_contra longer
      have fails := pickedNone rfl k i m spot here
      rw [(shows.goesAfter_iff here).mpr ⟨same, by omega⟩] at fails
      cases fails
    | some k =>
      obtain ⟨⟨i, spot⟩, m, here, passes⟩ := pickedSome k rfl
      obtain ⟨same, less⟩ := (shows.goesAfter_iff here).mp passes
      have longer := (shows.ordered.below spot).2.1
      exact ih (.ofPlace spot) same less (by omega)

end Shows

/-- The walk down a leg ends at the longest common prefix. -/
theorem legLoop_eq {kidKey : BitVec 64} {start : Nat} (shorter : start ≤ width) (narrow : width ≤ 64)
    (same : SamePrefix start key kidKey) (enough : width < fuel + start) :
    ∃ common, legLoop key kidKey (prefixMask width) fuel (prefixMask start) = .ok (prefixMask common) ∧
      start ≤ common ∧ common ≤ width ∧ SamePrefix common key kidKey ∧
      (common < width → key.getMsbD common ≠ kidKey.getMsbD common) := by
  induction fuel generalizing start with
  | zero => omega
  | succ fuel ih =>
    rw [legLoop]
    by_cases last : start = width
    · subst last
      rw [if_pos (.inr rfl)]
      exact ⟨start, rfl, Nat.le_refl _, Nat.le_refl _, same, by omega⟩
    have open' : prefixMask start ≠ prefixMask width := fun equal => last (prefixMask_inj (by omega) narrow equal)
    rw [extendMask_prefixMask (by omega)]
    by_cases bit : key.getMsbD start = kidKey.getMsbD start
    · have longer : SamePrefix (start + 1) key kidKey := SamePrefix.succ_iff.mpr ⟨same, bit⟩
      have continues : ¬(key &&& prefixMask (start + 1) ≠ kidKey &&& prefixMask (start + 1) ∨
          prefixMask start = prefixMask width) := by
        rw [not_or, not_not]
        exact ⟨and_prefixMask_eq_iff.mpr longer, open'⟩
      rw [if_neg continues]
      obtain ⟨common, done, above, below, agree, differ⟩ := ih (by omega) longer (by omega)
      exact ⟨common, done, by omega, below, agree, differ⟩
    · have differs : key &&& prefixMask (start + 1) ≠ kidKey &&& prefixMask (start + 1) := by
        rw [ne_eq, and_prefixMask_eq_iff, SamePrefix.succ_iff]
        exact fun both => bit both.2
      rw [if_pos (.inl differs)]
      exact ⟨start, rfl, Nat.le_refl _, shorter, same, fun _ => bit⟩

end Trie

end Gem5
