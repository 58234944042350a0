import Gem5.Proof.Sim.EventLinks

namespace Gem5.Sim
open ToMathlib Function List
variable {sim next : Simulator} {queue : QueuePtr} {event : EventPtr}

/-- Every queue links its bins in order, and no event is linked twice. -/
structure Linked (sim : Simulator) (bins : QueuePtr → List (List EventPtr)) : Prop where
  walk : ∀ queue, BinsFrom sim.events (sim.queues queue).head (bins queue)
  binned : ∀ queue, Binned (keyAt sim.events) (bins queue)
  distinct : ∀ queue, (bins queue).flatten.Nodup
  owner : ∀ queue, ∀ event ∈ (bins queue).flatten, (sim.events event).queue = some queue
  inside : ∀ queue, ∀ event ∈ (bins queue).flatten, event ∈ Finset.Icc 1 sim.instanceCounter

/-- A relinked queue changes its head and the links of touched events only. -/
structure Relinked (sim next : Simulator) (queue : QueuePtr) (touched : EventPtr → Prop) : Prop where
  entry : ∀ event, (next.events event).entry = (sim.events event).entry
  counter : next.instanceCounter = sim.instanceCounter
  tick : ∀ other, (next.queues other).curTick = (sim.queues other).curTick
  head : ∀ other, other ≠ queue → (next.queues other).head = (sim.queues other).head
  outside : ∀ event, ¬ touched event → next.events event = sim.events event

theorem keyAt_congr {events other : Heap} (same : (other event).entry = (events event).entry) :
    keyAt other event = keyAt events event := by
  simp [keyAt, Event.key, same]

namespace Linked
variable {bins : QueuePtr → List (List EventPtr)}

section
variable (linked : Linked sim bins)
include linked

/-- The pending events are distinct numbers below the instance counter. -/
theorem length_le (queue : QueuePtr) : (bins queue).flatten.length ≤ sim.instanceCounter := by
  rw [← toFinset_card_of_nodup (linked.distinct queue)]
  calc (bins queue).flatten.toFinset.card ≤ (Finset.Icc 1 sim.instanceCounter).card :=
        Finset.card_le_card fun event member => linked.inside queue event (mem_toFinset.mp member)
    _ = sim.instanceCounter := by simp

theorem disjoint {other : QueuePtr} (different : other ≠ queue) (member : event ∈ (bins other).flatten) :
    event ∉ (bins queue).flatten := by
  intro again
  have same := (linked.owner other event member).symm.trans (linked.owner queue event again)
  exact different (Option.some.inj same)

/-- The links, keys and owners of the pending events determine the bins. -/
theorem congr (same : ∀ queue, ∀ event ∈ (bins queue).flatten, ∃ flags, next.events event = { sim.events event with flags })
    (head : ∀ queue, (next.queues queue).head = (sim.queues queue).head)
    (counter : sim.instanceCounter ≤ next.instanceCounter) : Linked next bins := by
  refine ⟨fun queue => ?_, fun queue => ?_, linked.distinct, fun queue event member => ?_,
    fun queue event member => ?_⟩
  · rw [head queue]
    refine (linked.walk queue).congr (fun event member => ?_) fun event member => ?_
    all_goals
      obtain ⟨flags, equal⟩ := same queue event member
      rw [equal]
  · refine (linked.binned queue).congr fun event member => ?_
    obtain ⟨flags, equal⟩ := same queue event member
    rw [keyAt, equal]
    rfl
  · obtain ⟨flags, equal⟩ := same queue event member
    rw [equal]
    exact linked.owner queue event member
  · have inside := Finset.mem_Icc.mp (linked.inside queue event member)
    exact Finset.mem_Icc.mpr ⟨inside.1, inside.2.trans counter⟩

/-- A relinked queue takes new bins and the other queues keep theirs. -/
theorem replace {touched : EventPtr → Prop} {more : List (List EventPtr)} (relinked : Relinked sim next queue touched)
    (apart : ∀ other, other ≠ queue → ∀ event ∈ (bins other).flatten, ¬ touched event)
    (walk : BinsFrom next.events (next.queues queue).head more) (binned : Binned (keyAt sim.events) more)
    (distinct : more.flatten.Nodup) (owner : ∀ event ∈ more.flatten, (sim.events event).queue = some queue)
    (inside : ∀ event ∈ more.flatten, event ∈ Finset.Icc 1 sim.instanceCounter) :
    Linked next (update bins queue more) := by
  have queueOf : ∀ event, (next.events event).queue = (sim.events event).queue :=
    fun event => congrArg Entry.queue (relinked.entry event)
  have kept : ∀ other, other ≠ queue → ∀ event ∈ (bins other).flatten,
      next.events event = sim.events event :=
    fun other different event member => relinked.outside event (apart other different event member)
  refine ⟨(forall_update_iff bins (p := fun other => BinsFrom next.events (next.queues other).head)).mpr
      ⟨walk, ?_⟩,
    (forall_update_iff bins (p := fun _ => Binned (keyAt next.events))).mpr ⟨?_, ?_⟩,
    (forall_update_iff bins (p := fun _ bins => bins.flatten.Nodup)).mpr
      ⟨distinct, fun other _ => linked.distinct other⟩,
    (forall_update_iff bins (p := fun other bins => ∀ event ∈ bins.flatten,
      (next.events event).queue = some other)).mpr ⟨?_, ?_⟩,
    (forall_update_iff bins (p := fun _ bins => ∀ event ∈ bins.flatten,
      event ∈ Finset.Icc 1 next.instanceCounter)).mpr ⟨?_, ?_⟩⟩
  · intro other different
    rw [relinked.head other different]
    exact (linked.walk other).congr (fun event member => by rw [kept other different event member])
      fun event member => by rw [kept other different event member]
  · exact binned.congr fun event _ => keyAt_congr (relinked.entry event)
  · exact fun other _ => (linked.binned other).congr fun event _ => keyAt_congr (relinked.entry event)
  · exact fun event member => (queueOf event).trans (owner event member)
  · exact fun other _ event member => (queueOf event).trans (linked.owner other event member)
  · exact fun event member => relinked.counter ▸ inside event member
  · exact fun other _ event member => relinked.counter ▸ linked.inside other event member

end

end Linked

section Relink
variable {events : Heap} {head : Option EventPtr} {touched : EventPtr → Prop} {bins : List (List EventPtr)}
  {events : Heap} {front back : List (List EventPtr)} {stack : List EventPtr} {last : EventPtr}

section
variable (entry : ∀ event, (events event).entry = (sim.events event).entry)
  (outside : ∀ event, ¬ touched event → events event = sim.events event)
include entry outside

theorem Relinked.ofEvents : Relinked sim { sim with events } queue touched :=
  ⟨entry, rfl, fun _ => rfl, fun _ _ => rfl, outside⟩

theorem Relinked.ofHead : Relinked sim ({ sim with events }.setHead queue head) queue touched := by
  refine ⟨entry, rfl, fun other => ?_, fun other different => ?_, outside⟩
  · simp only [Simulator.setHead, update_apply]
    split <;> simp_all
  · simp [Simulator.setHead, update_of_ne different]

end

@[simp] theorem head_setHead : ((sim.setHead queue head).queues queue).head = head := by
  simp [Simulator.setHead]

/-- An event that is not after the head becomes the new head. -/
theorem insert_head (walk : BinsFrom sim.events (sim.queues queue).head bins)
    (stop : ∀ top items more, bins = (top :: items) :: more → ¬ keyAt sim.events top < keyAt sim.events event) :
    insert sim queue event =
      .ok ({ sim with events := insertBefore sim.events event (sim.queues queue).head }.setHead queue
        (some event)) := by
  cases bins with
  | nil =>
    have empty : (sim.queues queue).head = none := walk
    simp [insert, empty]
  | cons bin rest =>
    obtain ⟨top, items, rfl, here, _, _⟩ := walk.cons_top
    have first : (sim.events event).notAfter (sim.events top) :=
      Event.notAfter_iff.mpr (not_lt.mp (stop top items rest rfl))
    simp [insert, here, first]

section
variable (below : ∀ bin ∈ front ++ [last :: stack], ∃ top items, bin = top :: items ∧ keyAt events top < keyAt events event)
  (halt : ∀ top items more, back = (top :: items) :: more → ¬ keyAt events top < keyAt events event)
include below halt

/-- The event enters the bins after the last one that is before it. -/
theorem insert_after (walk : BinsFrom events head (front ++ (last :: stack) :: back))
    (absent : event ∉ (front ++ (last :: stack) :: back).flatten)
    (distinct : (front ++ (last :: stack) :: back).flatten.Nodup) :
    BinsFrom (setNextBin (insertBefore events event (events last).nextBin) last (some event)) head
      (binInsert (keyAt events) event (front ++ (last :: stack) :: back)) := by
  have shape : front ++ (last :: stack) :: back = (front ++ [last :: stack]) ++ back := by simp
  have passed : binInsert (keyAt events) event (front ++ (last :: stack) :: back) =
      front ++ (last :: stack) :: binInsert (keyAt events) event back := by
    rw [shape, Binned.binInsert_append below]
    simp
  simp only [flatten_append, flatten_cons, cons_append, mem_append, mem_cons, not_or]
    at absent
  obtain ⟨notFront, notLast, notStack, notBack⟩ := absent
  simp only [flatten_append, flatten_cons, cons_append, nodup_append, nodup_cons,
    mem_append, mem_cons, not_or] at distinct
  obtain ⟨_, ⟨⟨_, notAgain⟩, _⟩, apart⟩ := distinct
  have tail : BinsFrom (setNextBin (insertBefore events event (events last).nextBin) last (some event))
      (some event) (binInsert (keyAt events) event back) := by
    refine (insertBefore_bins walk.suffix notBack halt).congr (by simp) fun other member => ?_
    rw [setNextBin_of_ne]
    rintro rfl
    rcases (Binned.mem_binInsert back).mp member with same | again
    · exact notLast same.symm
    · exact notAgain again
  have untouched : ∀ other, other ≠ event → insertBefore events event (events last).nextBin other = events other :=
    fun other different => insertBefore_of_ne different
  rw [passed]
  refine walk.relink (fun other member => ?_) (fun other member => ?_) (setNextBin_self _ _ _) tail
  · rw [setNextBin_nextInBin, untouched]
    rintro rfl
    simp [notFront, notLast, notStack] at member
  · rw [setNextBin_of_ne, untouched]
    · rintro rfl
      exact notFront member
    · rintro rfl
      exact apart other member other (by simp) rfl

/-- The bins before the bin of an event hold smaller keys only. -/
theorem mem_of_split (binned : Binned (keyAt events) (front ++ (last :: stack) :: back))
    (member : event ∈ (front ++ (last :: stack) :: back).flatten) :
    event ∉ (front ++ [last :: stack]).flatten ∧
      ∃ top items more, back = (top :: items) :: more ∧ event ∈ top :: items ∧
        keyAt events top = keyAt events event := by
  have early : event ∉ (front ++ [last :: stack]).flatten := by
    intro inFront
    obtain ⟨bin, inside, found⟩ := mem_flatten.mp inFront
    obtain ⟨top, items, rfl, smaller⟩ := below bin inside
    have same := binned.same (top :: items) (by simp at inside ⊢; tauto) top (by simp) event found
    exact absurd smaller (by rw [same]; exact lt_irrefl _)
  have shape : front ++ (last :: stack) :: back = (front ++ [last :: stack]) ++ back := by simp
  rw [shape] at member binned
  rw [flatten_append, mem_append] at member
  have later : event ∈ back.flatten := member.resolve_left early
  refine ⟨early, ?_⟩
  cases back with
  | nil => simp at later
  | cons bin more =>
    obtain ⟨filled, same, increasing, _⟩ := Binned.cons_iff.mp binned.append_right
    obtain ⟨top, items, rfl⟩ := exists_cons_of_ne_nil filled
    have inside : event ∈ top :: items := by
      rw [flatten_cons, mem_append] at later
      refine later.resolve_right fun after => ?_
      exact halt top items more rfl (increasing top (by simp) event after)
    exact ⟨top, items, more, rfl, inside, same top (by simp) event inside⟩

end

/-- The insertion ends and puts the event on top of its bin. -/
theorem insert_walk (walk : BinsFrom sim.events (sim.queues queue).head bins)
    (absent : event ∉ bins.flatten) (distinct : bins.flatten.Nodup)
    (enough : bins.length ≤ sim.instanceCounter) :
    ∃ next, insert sim queue event = .ok next ∧
      BinsFrom next.events (next.queues queue).head (binInsert (keyAt sim.events) event bins) ∧
      Relinked sim next queue fun other => other = event ∨ other ∈ bins.flatten := by
  by_cases stop : ∀ top items more, bins = (top :: items) :: more → ¬ keyAt sim.events top < keyAt sim.events event
  · refine ⟨_, insert_head walk stop, ?_, ?_⟩
    · rw [head_setHead]
      exact insertBefore_bins walk absent stop
    · exact Relinked.ofHead insertBefore_entry fun other untouched =>
        insertBefore_of_ne fun same => untouched (Or.inl same)
  · push Not at stop
    obtain ⟨top, items, rest, rfl, smaller⟩ := stop
    have here : (sim.queues queue).head = some top := (BinsFrom.cons_iff.mp walk).1
    rw [here] at walk
    obtain ⟨front, last, stack, back, split, found, below, halt⟩ :=
      seekBin_spec event (sim.instanceCounter + 1) walk (by simp only [length_cons] at enough; omega) smaller
    rw [split] at walk absent distinct ⊢
    have later : ¬ (sim.events event).notAfter (sim.events top) :=
      fun holds => absurd smaller (not_lt.mpr (Event.notAfter_iff.mp holds))
    have done : insert sim queue event = .ok { sim with
        events := setNextBin (insertBefore sim.events event (sim.events last).nextBin) last (some event) } := by
      simp [insert, here, later, found]
    refine ⟨_, done, ?_, ?_⟩
    · rw [here]
      exact insert_after below halt walk absent distinct
    · refine Relinked.ofEvents (fun other => ?_) fun other untouched => ?_
      · rw [setNextBin_entry, insertBefore_entry]
      · rw [not_or] at untouched
        rw [setNextBin_of_ne, insertBefore_of_ne untouched.1]
        rintro rfl
        simp at untouched

/-- The bin before the removed event links to what the removal left. -/
theorem remove_after {changed : Heap} {items : List EventPtr} {top : EventPtr} {pointer : Option EventPtr}
    (walk : BinsFrom events head (front ++ (last :: stack) :: (top :: items) :: back))
    (distinct : (front ++ (last :: stack) :: (top :: items) :: back).flatten.Nodup)
    (early : event ∉ (front ++ [last :: stack]).flatten)
    (result : BinsFrom changed pointer (binErase event ((top :: items) :: back)))
    (outside : ∀ other ∉ top :: items, changed other = events other) :
    BinsFrom (setNextBin changed last pointer) head
      (binErase event (front ++ (last :: stack) :: (top :: items) :: back)) := by
  have shape : ∀ more : List (List EventPtr),
      front ++ (last :: stack) :: more = (front ++ [last :: stack]) ++ more := by simp
  rw [shape, Binned.binErase_append early, ← shape]
  rw [shape, flatten_append, nodup_append] at distinct
  obtain ⟨first, _, apart⟩ := distinct
  rw [flatten_append, nodup_append] at first
  obtain ⟨_, _, disjoint⟩ := first
  have kept : ∀ other ∈ (front ++ [last :: stack]).flatten, changed other = events other := by
    intro other member
    refine outside other fun inside => ?_
    exact apart other member other (by rw [flatten_cons]; exact mem_append_left _ inside) rfl
  refine walk.relink (fun other member => ?_) (fun other member => ?_) (setNextBin_self _ _ _) ?_
  · rw [setNextBin_nextInBin, kept other member]
  · rw [setNextBin_of_ne, kept other (by rw [flatten_append]; exact mem_append_left _ member)]
    rintro rfl
    exact disjoint other member other (by simp) rfl
  · refine result.congr (by simp) fun other member => ?_
    rw [setNextBin_of_ne]
    rintro rfl
    exact apart other (by simp) other (Binned.mem_of_mem_binErase member) rfl

/-- The removal of a linked event ends without a panic. -/
theorem remove_walk (walk : BinsFrom sim.events (sim.queues queue).head bins)
    (binned : Binned (keyAt sim.events) bins) (distinct : bins.flatten.Nodup) (member : event ∈ bins.flatten)
    (owned : (sim.events event).queue = some queue) (enough : bins.flatten.length ≤ sim.instanceCounter) :
    ∃ next, remove sim queue event = .ok next ∧ BinsFrom next.events (next.queues queue).head (binErase event bins) ∧
      Relinked sim next queue (· ∈ bins.flatten) := by
  cases bins with
  | nil => simp at member
  | cons bin rest =>
    obtain ⟨top, items, rfl, here, _, _⟩ := walk.cons_top
    obtain ⟨_, same, increasing, _⟩ := Binned.cons_iff.mp binned
    rw [here] at walk
    by_cases first : event ∈ top :: items
    · obtain ⟨events, pointer, done, result, entry, outside⟩ :=
        removeItem_spec walk distinct first (by simp at enough; omega)
      have equal : (sim.events top).sameBin (sim.events event) := Event.sameBin_iff.mpr (same top (by simp) event first)
      refine ⟨{ sim with events }.setHead queue pointer, ?_, ?_, ?_⟩
      · simp [remove, here, owned, equal, done]
      · simpa [Simulator.setHead] using result
      · exact Relinked.ofHead entry fun other untouched =>
          outside other fun inside => untouched (by rw [flatten_cons]; exact mem_append_left _ inside)
    · have later : event ∈ rest.flatten := by
        rw [flatten_cons, mem_append] at member
        exact member.resolve_left first
      have smaller : keyAt sim.events top < keyAt sim.events event := increasing top (by simp) event later
      have differ : ¬ (sim.events top).sameBin (sim.events event) :=
        fun equal => absurd smaller (by rw [keyAt, Event.sameBin_iff.mp equal]; exact lt_irrefl _)
      have short : rest.length < sim.instanceCounter + 1 := by
        have bound := walk.length_le
        simp only [length_cons] at bound
        omega
      obtain ⟨front, last, stack, back, split, found, below, halt⟩ :=
        seekBin_spec event (sim.instanceCounter + 1) walk short smaller
      rw [split] at walk binned distinct member enough ⊢
      obtain ⟨early, bin, more, tail, rfl, inside, equal⟩ := mem_of_split below halt binned member
      have suffix := walk.suffix
      have pointer : (sim.events last).nextBin = some bin := (BinsFrom.cons_iff.mp suffix).1
      rw [pointer] at suffix
      have parts : ((front ++ [last :: stack]).flatten ++ ((bin :: more) :: tail).flatten).Nodup := by
        simpa using distinct
      have room : more.length ≤ sim.instanceCounter := by
        simp only [flatten_append, flatten_cons, length_append, length_cons] at enough
        omega
      obtain ⟨events, link, done, result, entry, outside⟩ :=
        removeItem_spec suffix (nodup_append.mp parts).2.1 inside room
      refine ⟨{ sim with events := setNextBin events last link }, ?_, ?_, ?_⟩
      · simp [remove, here, owned, differ, found, pointer, Event.sameBin_iff.mpr equal, done]
      · rw [here]
        exact remove_after walk distinct early result outside
      · refine Relinked.ofEvents (fun other => by rw [setNextBin_entry, entry]) fun other untouched => ?_
        rw [setNextBin_of_ne, outside]
        · intro inside
          exact untouched (by simp at inside ⊢; tauto)
        · rintro rfl
          simp at untouched

end Relink
end Gem5.Sim
