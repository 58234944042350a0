import Gem5.Construction.Sim.Calendar
import Gem5.ToMathlib.Bins
import Gem5.ToMathlib.Linked

namespace Gem5.Sim
open ToMathlib List Function

def Event.key (event : Event) : Tick ×ₗ Int := event.entry.key

/-- The bins of a heap are sorted by the keys of its events. -/
def keyAt (events : Heap) (event : EventPtr) : Tick ×ₗ Int := (events event).key

namespace Event
variable {left right event : Event}

theorem before_iff : left.before right ↔ left.key < right.key := by
  simp [before, key, entry, Entry.key, Prod.Lex.toLex_lt_toLex]

theorem notAfter_iff : left.notAfter right ↔ left.key ≤ right.key := by
  simp [notAfter, key, entry, Entry.key, Prod.Lex.toLex_le_toLex]

theorem sameBin_iff : left.sameBin right ↔ left.key = right.key := by
  simp [sameBin, key, entry, Entry.key, Prod.ext_iff]

end Event

section Fields
variable (events : Heap) (event : EventPtr) (link : Option EventPtr)

theorem setNextBin_of_ne {other : EventPtr} (different : other ≠ event) :
    setNextBin events event link other = events other := update_of_ne different _ _

theorem setNextInBin_of_ne {other : EventPtr} (different : other ≠ event) :
    setNextInBin events event link other = events other := update_of_ne different _ _

@[simp] theorem setNextBin_self : (setNextBin events event link event).nextBin = link := by
  simp [setNextBin]

@[simp] theorem setNextInBin_self : (setNextInBin events event link event).nextInBin = link := by
  simp [setNextInBin]

section
variable (other : EventPtr)
include other

@[simp] theorem setNextBin_nextInBin : (setNextBin events event link other).nextInBin = (events other).nextInBin := by
  by_cases same : other = event
  · simp [setNextBin, same]
  · rw [setNextBin_of_ne events event link same]

@[simp] theorem setNextInBin_nextBin : (setNextInBin events event link other).nextBin = (events other).nextBin := by
  by_cases same : other = event
  · simp [setNextInBin, same]
  · rw [setNextInBin_of_ne events event link same]

@[simp] theorem setNextBin_entry : (setNextBin events event link other).entry = (events other).entry := by
  by_cases same : other = event
  · simp [setNextBin, same, Event.entry]
  · rw [setNextBin_of_ne events event link same]

@[simp] theorem setNextInBin_entry : (setNextInBin events event link other).entry = (events other).entry := by
  by_cases same : other = event
  · simp [setNextInBin, same, Event.entry]
  · rw [setNextInBin_of_ne events event link same]

end

theorem setNextInBin_chain : (fun other => (setNextInBin events event link other).nextInBin) =
      update (fun other => (events other).nextInBin) event link := by
  funext other
  by_cases same : other = event
  · simp [same]
  · rw [setNextInBin_of_ne events event link same, update_of_ne same]

end Fields

/-- The bins hang on the pointer, with every stack on `nextInBin` and every top on `nextBin`. -/
def BinsFrom (events : Heap) : Option EventPtr → List (List EventPtr) → Prop
  | pointer, [] => pointer = none
  | pointer, bin :: rest =>
    Chain (fun event => (events event).nextInBin) pointer bin ∧
      ∃ top, pointer = some top ∧ BinsFrom events (events top).nextBin rest

namespace BinsFrom
variable {events other : Heap} {pointer : Option EventPtr} {bins rest : List (List EventPtr)}
  {bin stack : List EventPtr} {event top prev : EventPtr}

@[simp] theorem nil_iff : BinsFrom events pointer [] ↔ pointer = none := Iff.rfl

/-- The pointer of a nonempty list of bins is the top of its first bin. -/
theorem cons_top (walk : BinsFrom events pointer (bin :: rest)) :
    ∃ top stack, bin = top :: stack ∧ pointer = some top ∧
      Chain (fun event => (events event).nextInBin) (events top).nextInBin stack ∧
      BinsFrom events (events top).nextBin rest := by
  obtain ⟨chain, top, same, after⟩ := walk
  cases bin with
  | nil => simp_all
  | cons first stack =>
    obtain ⟨here, later⟩ := chain
    obtain rfl : first = top := Option.some.inj (here.symm.trans same)
    exact ⟨first, stack, rfl, here, later, after⟩

theorem cons_iff : BinsFrom events pointer ((top :: stack) :: rest) ↔ pointer = some top ∧
      Chain (fun event => (events event).nextInBin) (events top).nextInBin stack ∧
      BinsFrom events (events top).nextBin rest := by
  constructor
  · intro walk
    obtain ⟨first, more, same, here, chain, after⟩ := walk.cons_top
    obtain ⟨rfl, rfl⟩ := cons.inj same
    exact ⟨here, chain, after⟩
  · rintro ⟨here, chain, after⟩
    exact ⟨⟨here, chain⟩, top, here, after⟩

section
variable (walk : BinsFrom events pointer bins)
  (inBin : ∀ event ∈ bins.flatten, (other event).nextInBin = (events event).nextInBin)
include walk inBin

/-- The walk reads `nextInBin` of the listed events and `nextBin` of the tops only. -/
theorem congr_top (nextBin : ∀ bin ∈ bins, ∀ top ∈ bin.head?, (other top).nextBin = (events top).nextBin) :
    BinsFrom other pointer bins := by
  induction bins generalizing pointer with
  | nil => exact walk
  | cons bin rest ih =>
    obtain ⟨top, stack, rfl, here, chain, after⟩ := walk.cons_top
    rw [cons_iff, inBin top (by simp), nextBin (top :: stack) (by simp) top (by simp)]
    refine ⟨here, ?_, ?_⟩
    · exact chain.congr fun item member => inBin item (by simp [member])
    · apply ih after
      · exact fun item member => inBin item (by simp_all)
      · exact fun bin member => nextBin bin (by simp [member])

/-- A change of fields outside the listed events keeps the walk. -/
theorem congr (nextBin : ∀ event ∈ bins.flatten, (other event).nextBin = (events event).nextBin) :
    BinsFrom other pointer bins :=
  walk.congr_top inBin fun bin member top first =>
    nextBin top (mem_flatten.mpr ⟨bin, member, mem_of_mem_head? first⟩)

end

theorem unique {more : List (List EventPtr)} (left : BinsFrom events pointer bins)
    (right : BinsFrom events pointer more) : bins = more := by
  induction bins generalizing pointer more with
  | nil =>
    cases more with
    | nil => rfl
    | cons bin rest =>
      obtain ⟨_, top, here, _⟩ := right
      cases left.symm.trans here
  | cons bin rest ih =>
    obtain ⟨chain, top, here, after⟩ := left
    cases more with
    | nil => cases right.symm.trans here
    | cons another tail =>
      obtain ⟨link, second, there, later⟩ := right
      obtain rfl : top = second := Option.some.inj (here.symm.trans there)
      rw [chain.unique link, ih after later]

/-- A new tail of bins may replace the bins after one top. -/
theorem relink {front back more : List (List EventPtr)} {link : Option EventPtr}
    (walk : BinsFrom events pointer (front ++ (prev :: stack) :: back))
    (inBin : ∀ event ∈ (front ++ [prev :: stack]).flatten, (other event).nextInBin = (events event).nextInBin)
    (nextBin : ∀ event ∈ front.flatten, (other event).nextBin = (events event).nextBin)
    (here : (other prev).nextBin = link) (tail : BinsFrom other link more) :
    BinsFrom other pointer (front ++ (prev :: stack) :: more) := by
  induction front generalizing pointer with
  | nil =>
    rw [nil_append, cons_iff] at walk ⊢
    rw [inBin prev (by simp), here]
    exact ⟨walk.1, walk.2.1.congr fun item member => inBin item (by simp [member]), tail⟩
  | cons bin front ih =>
    rw [cons_append] at walk ⊢
    obtain ⟨top, rest, rfl, first, chain, after⟩ := walk.cons_top
    rw [cons_iff, inBin top (by simp), nextBin top (by simp)]
    refine ⟨first, chain.congr fun item member => inBin item (by simp [member]), ?_⟩
    apply ih after
    · exact fun item member => inBin item (by simp_all)
    · exact fun item member => nextBin item (by simp_all)

/-- The walk reaches the bins after any front. -/
theorem suffix {front back : List (List EventPtr)}
    (walk : BinsFrom events pointer (front ++ (prev :: stack) :: back)) :
    BinsFrom events (events prev).nextBin back := by
  induction front generalizing pointer with
  | nil => exact (cons_iff.mp walk).2.2
  | cons bin front ih =>
    obtain ⟨_, _, _, _, _, after⟩ := cons_top walk
    exact ih after

theorem length_le (walk : BinsFrom events pointer bins) : bins.length ≤ bins.flatten.length := by
  induction bins generalizing pointer with
  | nil => simp
  | cons bin rest ih =>
    obtain ⟨top, stack, rfl, _, _, after⟩ := walk.cons_top
    have := ih after
    simp only [length_cons, flatten_cons, length_append]
    omega

end BinsFrom

open BinsFrom
variable {sim : Simulator} {events : Heap} {event prev top : EventPtr} {pointer : Option EventPtr}
  {stack : List EventPtr} {rest back : List (List EventPtr)}

/-- The loop ends after the last bin that is before the event. -/
theorem seekBin_spec (event : EventPtr) (fuel : Nat)
    (walk : BinsFrom events (some prev) ((prev :: stack) :: rest))
    (enough : rest.length < fuel) (smaller : keyAt events prev < keyAt events event) :
    ∃ front last items back, (prev :: stack) :: rest = front ++ (last :: items) :: back ∧
      seekBin events event fuel prev (events prev).nextBin = .ok (last, (events last).nextBin) ∧
      (∀ bin ∈ front ++ [last :: items], ∃ top items, bin = top :: items ∧ keyAt events top < keyAt events event) ∧
      ∀ top items more, back = (top :: items) :: more → ¬ keyAt events top < keyAt events event := by
  induction rest generalizing prev stack fuel with
  | nil =>
    obtain ⟨fuel, rfl⟩ := Nat.exists_eq_succ_of_ne_zero (Nat.ne_of_gt enough)
    have ended : (events prev).nextBin = none := (cons_iff.mp walk).2.2
    refine ⟨[], prev, stack, [], rfl, ?_, by simpa using smaller, by simp⟩
    rw [ended, seekBin]
  | cons bin rest ih =>
    obtain ⟨fuel, rfl⟩ := Nat.exists_eq_succ_of_ne_zero (Nat.ne_of_gt (Nat.zero_lt_of_lt enough))
    have after : BinsFrom events (events prev).nextBin (bin :: rest) := (cons_iff.mp walk).2.2
    obtain ⟨top, items, rfl, here, _, _⟩ := after.cons_top
    by_cases before : keyAt events top < keyAt events event
    · rw [here] at after
      have room : rest.length < fuel := by
        simp only [length_cons] at enough
        omega
      obtain ⟨front, last, more, back, split, found, below, stop⟩ := ih fuel after room before
      refine ⟨(prev :: stack) :: front, last, more, back, by rw [split]; rfl, ?_, ?_, stop⟩
      · rw [here, seekBin, if_pos (Event.before_iff.mpr before), found]
      · intro bin member
        rw [cons_append, mem_cons] at member
        rcases member with rfl | member
        · exact ⟨prev, stack, rfl, smaller⟩
        · exact below bin member
    · refine ⟨[], prev, stack, (top :: items) :: rest, rfl, ?_, by simpa using smaller, ?_⟩
      · rw [here, seekBin, if_neg (fun holds => before (Event.before_iff.mp holds))]
      · intro first more tail same
        obtain ⟨⟨rfl, rfl⟩, rfl⟩ := by simpa using same
        exact before

/-- The insertion changes only the links of the event. -/
theorem insertBefore_of_ne {other : EventPtr} (different : other ≠ event) :
    insertBefore events event pointer other = events other := by
  unfold insertBefore
  split
  · rw [setNextInBin_of_ne _ _ _ different, setNextBin_of_ne _ _ _ different]
  · split <;> rw [setNextInBin_of_ne _ _ _ different, setNextBin_of_ne _ _ _ different]

theorem insertBefore_entry (other : EventPtr) :
    (insertBefore events event pointer other).entry = (events other).entry := by
  unfold insertBefore
  split
  · simp
  · split <;> simp

/-- The event becomes the top of the first bin or opens a bin before it. -/
theorem insertBefore_bins (walk : BinsFrom events pointer back) (absent : event ∉ back.flatten)
    (stop : ∀ top items more, back = (top :: items) :: more → ¬ keyAt events top < keyAt events event) :
    BinsFrom (insertBefore events event pointer) (some event) (binInsert (keyAt events) event back) := by
  cases back with
  | nil =>
    obtain rfl : pointer = none := walk
    rw [binInsert, cons_iff]
    simp [insertBefore, BinsFrom]
  | cons bin rest =>
    obtain ⟨top, items, rfl, rfl, chain, after⟩ := walk.cons_top
    have notBefore := stop top items rest rfl
    have kept : ∀ other ∈ ((top :: items) :: rest).flatten,
        insertBefore events event (some top) other = events other :=
      fun other member => insertBefore_of_ne fun same => absent (same ▸ member)
    have moved : BinsFrom (insertBefore events event (some top)) (some top) ((top :: items) :: rest) :=
      walk.congr (fun other member => by rw [kept other member]) fun other member => by rw [kept other member]
    rw [binInsert, if_neg notBefore]
    by_cases earlier : keyAt events event < keyAt events top
    · rw [if_pos earlier, cons_iff]
      have opened : insertBefore events event (some top) =
          setNextInBin (setNextBin events event (some top)) event none := if_pos (Event.before_iff.mpr earlier)
      rw [opened] at moved ⊢
      refine ⟨rfl, by simp, ?_⟩
      simpa using moved
    · rw [if_neg earlier, cons_iff]
      have stacked : insertBefore events event (some top) =
          setNextInBin (setNextBin events event (events top).nextBin) event (some top) :=
        if_neg fun holds => earlier (Event.before_iff.mp holds)
      obtain ⟨_, link, tail⟩ := cons_iff.mp moved
      rw [kept top (by simp)] at tail
      rw [stacked] at link tail ⊢
      refine ⟨rfl, ⟨by simp, link⟩, ?_⟩
      simpa using tail

/-- The loop ends at the item before the event. -/
theorem seekItem_spec {fuel : Nat}
    (chain : Chain (fun item => (events item).nextInBin) (events top).nextInBin stack)
    (member : event ∈ stack) (enough : stack.length ≤ fuel) :
    ∃ front last back, top :: stack = front ++ last :: event :: back ∧
      seekItem events event fuel top (events top).nextInBin = .ok last := by
  induction stack generalizing top fuel with
  | nil => simp at member
  | cons item stack ih =>
    obtain ⟨fuel, rfl⟩ : ∃ more, fuel = more + 1 := ⟨fuel - 1, by simp at enough; omega⟩
    obtain ⟨here, after⟩ := chain
    by_cases found : item = event
    · subst found
      refine ⟨[], top, stack, rfl, ?_⟩
      unfold seekItem
      rw [if_pos here]
    · have later : event ∈ stack := by
        rcases mem_cons.mp member with same | later
        · exact absurd same.symm found
        · exact later
      obtain ⟨front, last, back, split, reached⟩ := ih after later (by simpa using enough)
      refine ⟨top :: front, last, back, by rw [split]; rfl, ?_⟩
      unfold seekItem
      rw [if_neg (by rw [here]; simpa using found), here]
      exact reached

/-- A new top takes over the link to the next bin. -/
theorem BinsFrom.pop {second : EventPtr}
    (walk : BinsFrom events (some top) ((top :: second :: stack) :: rest))
    (apart : second ∉ rest.flatten) :
    BinsFrom (setNextBin events second (events top).nextBin) (some second) ((second :: stack) :: rest) := by
  obtain ⟨_, ⟨_, chain⟩, after⟩ := cons_iff.mp walk
  rw [cons_iff, setNextBin_nextInBin, setNextBin_self]
  refine ⟨rfl, chain.congr fun item _ => by simp, after.congr (fun item _ => by simp) ?_⟩
  intro item member
  rw [setNextBin_of_ne]
  rintro rfl
  exact apart member

/-- The item before the event skips it. -/
theorem BinsFrom.skip {front tail : List EventPtr} {last : EventPtr}
    (walk : BinsFrom events (some top) ((top :: stack) :: rest))
    (distinct : ((top :: stack) :: rest).flatten.Nodup)
    (split : top :: stack = front ++ last :: event :: tail) :
    BinsFrom (setNextInBin events last (events event).nextInBin) (some top)
      ((top :: stack).erase event :: rest) := by
  rw [flatten_cons, nodup_append] at distinct
  obtain ⟨apart, _, disjoint⟩ := distinct
  obtain ⟨_, chain, after⟩ := cons_iff.mp walk
  have spelled : Chain (fun item => (events item).nextInBin) (some top) (top :: stack) := ⟨rfl, chain⟩
  rw [split] at spelled apart disjoint
  have erased : (top :: stack).erase event = front ++ last :: tail := by
    rw [split, erase_append_right, erase_cons_tail, erase_cons_head]
    · rintro equal
      obtain rfl : last = event := by simpa using equal
      exact (nodup_cons.mp (nodup_append.mp apart).2.1).1 (by simp)
    · intro early
      exact (nodup_append.mp apart).2.2 event early event (by simp) rfl
  rw [erased]
  refine ⟨?_, top, rfl, ?_⟩
  · rw [setNextInBin_chain]
    exact spelled.splice apart
  · rw [setNextInBin_nextBin]
    refine after.congr (fun item later => ?_) fun item _ => by simp
    rw [setNextInBin_of_ne]
    rintro rfl
    exact disjoint item (by simp) item later rfl

/-- The removal finds its event and gives the bins without it. -/
theorem removeItem_spec (walk : BinsFrom sim.events (some top) ((top :: stack) :: rest))
    (distinct : ((top :: stack) :: rest).flatten.Nodup) (member : event ∈ top :: stack)
    (enough : stack.length ≤ sim.instanceCounter) :
    ∃ events pointer, removeItem sim event top = .ok (events, pointer) ∧
      BinsFrom events pointer (binErase event ((top :: stack) :: rest)) ∧
      (∀ other, (events other).entry = (sim.events other).entry) ∧
      ∀ other ∉ top :: stack, events other = sim.events other := by
  obtain ⟨_, chain, after⟩ := cons_iff.mp walk
  rw [binErase, if_pos member]
  by_cases same : event = top
  · subst same
    rw [erase_cons_head]
    cases stack with
    | nil =>
      refine ⟨sim.events, (sim.events event).nextBin, ?_, by simpa using after, fun _ => rfl, fun _ _ => rfl⟩
      simp [removeItem, Chain.nil_iff.mp chain]
    | cons second stack =>
      rw [if_neg (by simp)]
      have apart : second ∉ rest.flatten := by
        simp only [flatten_cons, cons_append, nodup_cons, mem_append] at distinct
        exact fun later => distinct.2.1 (Or.inr later)
      refine ⟨_, _, by simp [removeItem, chain.1], walk.pop apart, by simp, ?_⟩
      intro other outside
      rw [setNextBin_of_ne]
      rintro rfl
      simp at outside
  · have inside : event ∈ stack := (mem_cons.mp member).resolve_left same
    obtain ⟨front, last, tail, split, found⟩ := seekItem_spec chain inside (Nat.le_succ_of_le enough)
    have nonempty : (top :: stack).erase event ≠ [] := by
      rw [erase_cons_tail (by simpa using Ne.symm same)]
      simp
    rw [if_neg nonempty]
    refine ⟨_, _, by simp only [removeItem, same, if_false, found, ok_bind], walk.skip distinct split, by simp, ?_⟩
    intro other outside
    rw [setNextInBin_of_ne]
    rintro rfl
    rw [split] at outside
    simp at outside

end Gem5.Sim
