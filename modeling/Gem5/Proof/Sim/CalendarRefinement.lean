import Gem5.Proof.Sim.CalendarEffect
import Gem5.Proof.Sim.EventLinked

namespace Gem5.Sim
open ToMathlib Calendar Function
variable {sim : Simulator} {calendar : Calendar} {queue : QueuePtr} {event : EventPtr} {when : Tick}

/-- The linked bins of each queue spell its pending list. -/
structure Refines (sim : Simulator) (calendar : Calendar) : Prop where
  linked : ∃ bins, Linked sim bins ∧ ∀ queue, calendar.pending queue = (bins queue).flatten
  entries : ∀ event, calendar.entries event = (sim.events event).entry
  count : calendar.count = sim.instanceCounter
  now : ∀ queue, calendar.now queue = (sim.queues queue).curTick

namespace Refines

theorem start : Refines Simulator.initial initial :=
  ⟨⟨fun _ => [], ⟨fun _ => rfl, fun _ => Binned.nil, by simp, by simp, by simp⟩, fun _ => rfl⟩, fun _ => rfl, rfl,
    fun _ => rfl⟩

section
variable (refines : Refines sim calendar)
include refines

section
variable (event : EventPtr)

theorem flags : (calendar.entries event).flags = (sim.events event).flags := by
  rw [refines.entries]
  rfl

theorem queueOf : (calendar.entries event).queue = (sim.events event).queue := by
  rw [refines.entries]
  rfl

theorem scheduled_iff : (sim.events event).scheduled ↔ isSet (calendar.entries event).flags Scheduled := by
  rw [refines.flags]
  rfl

theorem initialized_iff :
    (sim.events event).initialized ↔ (calendar.entries event).flags &&& InitMask = Initialized := by
  rw [refines.flags]
  rfl

/-- One object and its entry change together. -/
theorem entries_update (object : Event) (other : EventPtr) :
    update calendar.entries event object.entry other = (update sim.events event object other).entry := by
  by_cases same : other = event
  · subst same
    simp
  · simpa [same] using refines.entries other

theorem setFlags (change : FlagsType → FlagsType) :
    Refines (sim.modify event fun object => { object with flags := change object.flags })
      (calendar.setFlags event change) := by
  obtain ⟨bins, linked, spelled⟩ := refines.linked
  refine ⟨⟨bins, linked.congr (fun queue other _ => ?_) (fun _ => rfl) le_rfl, spelled⟩, fun other => ?_,
    refines.count, refines.now⟩
  · by_cases same : other = event
    · subst same
      exact ⟨_, update_self _ _ _⟩
    · exact ⟨_, update_of_ne same _ _⟩
  · rw [Calendar.setFlags, refines.entries]
    exact refines.entries_update event { sim.events event with flags := change (sim.events event).flags } other

/-- A released event loses its flags on both sides. -/
theorem release : Agree Refines (Sim.release sim event) (.ok (calendar.release event)) := by
  unfold Sim.release Calendar.release
  rw [refines.flags, apply_ite Except.ok]
  refine Agree.ite Iff.rfl (fun managed => ?_) fun _ => refines
  rw [assert_of (show ¬ (sim.events event).scheduled from managed.2)]
  exact refines.setFlags event fun _ => 0#16

end

end

/-- The insertion of an event outside the bins spells the ordered insertion. -/
theorem insert (queue : QueuePtr) (when : Tick) (refines : Refines sim calendar) (absent : ∀ other, event ∉ calendar.pending other)
    (inside : event ∈ Finset.Icc 1 calendar.count) :
    ∃ next, Sim.insert (sim.modify event fun object => object.setWhen when queue) queue event = .ok next ∧
      Refines next (calendar.add queue event when) := by
  obtain ⟨bins, linked, spelled⟩ := refines.linked
  have outside : ∀ other, event ∉ (bins other).flatten := fun other => spelled other ▸ absent other
  let moved := sim.modify event fun object => object.setWhen when queue
  have entry : ∀ other, (calendar.add queue event when).entries other = (moved.events other).entry := by
    rw [Calendar.add, refines.entries]
    exact refines.entries_update event ((sim.events event).setWhen when queue)
  have shifted : Linked moved bins :=
    linked.congr (fun other item member => ⟨_, update_of_ne (ne_of_mem_of_not_mem member (outside other)) _ _⟩)
      (fun _ => rfl) le_rfl
  have short : (bins queue).length ≤ moved.instanceCounter :=
    (shifted.walk queue).length_le.trans (shifted.length_le queue)
  obtain ⟨next, done, walk, relinked⟩ := insert_walk (shifted.walk queue) (outside queue) (shifted.distinct queue) short
  have flat := (shifted.binned queue).flatten_insert event
  refine ⟨next, done, ⟨update bins queue _, shifted.replace relinked ?_ walk
    ((shifted.binned queue).insert event) ?_ ?_ ?_, ?_⟩, ?_, ?_, ?_⟩
  · rintro other different item member (rfl | again)
    · exact outside other member
    · exact shifted.disjoint different member again
  · rw [flat]
    exact (List.perm_orderedInsert _ event _).nodup_iff.mpr
      (List.nodup_cons.mpr ⟨outside queue, shifted.distinct queue⟩)
  · intro item member
    rcases (Binned.mem_binInsert _).mp member with rfl | member
    · exact congrArg Event.queue (update_self item _ sim.events)
    · exact shifted.owner queue item member
  · intro item member
    rcases (Binned.mem_binInsert _).mp member with rfl | member
    · exact refines.count ▸ inside
    · exact shifted.inside queue item member
  · refine (forall_update_iff bins
      (p := fun other bins => (calendar.add queue event when).pending other = bins.flatten)).mpr ⟨?_, ?_⟩
    · rw [flat, ← spelled queue]
      simp only [keyAt, Event.key, ← entry]
      exact update_self _ _ _
    · intro other different
      rw [← spelled other]
      exact update_of_ne different _ _
  · intro other
    rw [entry, relinked.entry]
  · exact refines.count.trans relinked.counter.symm
  · intro other
    rw [relinked.tick]
    exact refines.now other

section
variable (refines : Refines sim calendar)
include refines

theorem removed (member : event ∈ calendar.pending queue) :
    ∃ next, Sim.remove sim queue event = .ok next ∧ Refines next (calendar.drop queue event) := by
  obtain ⟨bins, linked, spelled⟩ := refines.linked
  rw [spelled queue] at member
  obtain ⟨next, done, walk, relinked⟩ := remove_walk (linked.walk queue) (linked.binned queue)
    (linked.distinct queue) member (linked.owner queue event member) (linked.length_le queue)
  have flat := Binned.flatten_erase (bins queue) event
  have fewer : (binErase event (bins queue)).flatten.Sublist (bins queue).flatten := flat ▸ List.erase_sublist
  refine ⟨next, done, ⟨update bins queue _, linked.replace relinked ?_ walk ((linked.binned queue).erase event)
    ((linked.distinct queue).sublist fewer) ?_ ?_, ?_⟩, ?_, ?_, ?_⟩
  · exact fun other different item member => linked.disjoint different member
  · exact fun item member => linked.owner queue item (fewer.subset member)
  · exact fun item member => linked.inside queue item (fewer.subset member)
  · refine (forall_update_iff bins (p := fun other bins =>
      (calendar.drop queue event).pending other = bins.flatten)).mpr ⟨?_, ?_⟩
    · rw [flat, ← spelled queue]
      exact update_self _ _ _
    · intro other different
      rw [← spelled other]
      exact update_of_ne different _ _
  · intro other
    rw [relinked.entry]
    exact refines.entries other
  · exact refines.count.trans relinked.counter.symm
  · intro other
    rw [relinked.tick]
    exact refines.now other

theorem head_eq (queue : QueuePtr) : (sim.queues queue).head = (calendar.pending queue).head? := by
  obtain ⟨bins, linked, spelled⟩ := refines.linked
  have walk := linked.walk queue
  rw [spelled queue]
  cases shape : bins queue with
  | nil =>
    rw [shape] at walk
    exact walk
  | cons bin rest =>
    rw [shape] at walk
    obtain ⟨top, items, rfl, here, _, _⟩ := walk.cons_top
    exact here

/-- A removal fails alike on both sides or leaves the event as the hole. -/
theorem remove (valid : calendar.Valid none) (scheduled : isSet (calendar.entries event).flags Scheduled) :
    Agree (fun next after => Refines next after ∧ after.Valid (some event) ∧ after.count = calendar.count)
      (Sim.remove sim queue event) (calendar.remove queue event) := by
  by_cases empty : calendar.pending queue = []
  · simp [Sim.remove, Calendar.remove, empty, refines.head_eq]
  by_cases owner : (calendar.entries event).queue = some queue
  · have member := (valid.member queue event).mpr ⟨by simp, scheduled, owner⟩
    obtain ⟨next, done, result⟩ := refines.removed member
    rw [done, remove_eq_ok.mpr ⟨empty, owner, rfl⟩]
    exact ⟨result, valid.dropped member, rfl⟩
  · obtain ⟨first, rest, filled⟩ := List.exists_cons_of_ne_nil empty
    have other : ¬ (sim.events event).queue = some queue := by rwa [← refines.queueOf]
    simp [Sim.remove, Calendar.remove, filled, refines.head_eq, owner, other, Gem5.assert]

/-- The head leaves its stack or its bin as a removed event does. -/
theorem unlinkHead {rest : List EventPtr} (first : calendar.pending queue = event :: rest) :
    Refines (Sim.unlinkHead sim queue event)
      { calendar with pending := update calendar.pending queue rest } := by
  have member : event ∈ calendar.pending queue := by simp [first]
  obtain ⟨next, done, result⟩ := refines.removed member
  have head := refines.head_eq queue
  rw [first, List.head?_cons] at head
  rw [Calendar.drop, first, List.erase_cons_head] at result
  simp only [Sim.remove, head, assert_bind_eq_ok, bind_ok_eq_ok, if_pos (Event.sameBin_iff.mpr rfl)] at done
  obtain ⟨_, _, item, rfl⟩ := done
  rw [removeItem, if_pos rfl] at item
  unfold Sim.unlinkHead
  cases link : (sim.events event).nextInBin with
  | none | some second =>
    rw [link] at item
    cases item
    exact result

/-- A service takes the first pending event on both sides. -/
theorem popHead : Agree (fun left right => left.1 = right.1 ∧ Refines left.2 right.2)
      (Sim.popHead sim queue) (calendar.take queue) := by
  cases pending : calendar.pending queue with
  | nil => simp [Sim.popHead, take, pending, refines.head_eq]
  | cons event rest =>
    rw [Sim.popHead, refines.head_eq, take, pending]
    exact ⟨rfl, (refines.setFlags event fun flags => clearFlag flags Scheduled).unlinkHead pending⟩

/-- An event outside the queues enters one of them and then takes its new flags. -/
theorem enter (hole : calendar.Valid (some event)) (inside : event ∈ Finset.Icc 1 calendar.count) (queue : QueuePtr)
    (when : Tick) (change : FlagsType → FlagsType) :
    Agree Refines (do
        let sim ← Sim.insert (sim.modify event fun object => object.setWhen when queue) queue event
        .ok (sim.modify event fun object => { object with flags := change object.flags }))
      (.ok ((calendar.add queue event when).setFlags event change)) := by
  obtain ⟨next, done, result⟩ :=
    refines.insert queue when (fun other member => ((hole.member other event).mp member).1 rfl) inside
  rw [done]
  exact result.setFlags event change

section
variable (valid : calendar.Valid none)
include valid

theorem schedule : Agree Refines (Sim.schedule sim queue event when) (calendar.schedule queue event when) := by
  refine Agree.assert (by rw [refines.now]) fun _ => Agree.assert (by rw [refines.scheduled_iff]) fun idle =>
    Agree.assert (refines.initialized_iff event) fun initialized => ?_
  rw [refines.scheduled_iff] at idle
  exact refines.enter (valid.idle idle)
    (valid.counted event (Or.inr ((refines.initialized_iff event).mp initialized))) queue when
    fun flags => setFlag flags Scheduled

theorem deschedule : Agree Refines (Sim.deschedule sim queue event) (calendar.deschedule queue event) := by
  refine Agree.assert (refines.scheduled_iff event) fun scheduled =>
    Agree.assert (refines.initialized_iff event) fun _ => ?_
  rw [refines.scheduled_iff] at scheduled
  refine (refines.remove valid scheduled).bind fun next after result => ?_
  exact (result.1.setFlags event fun flags => clearFlag (clearFlag flags Squashed) Scheduled).release event

theorem reschedule {always : Bool} : Agree Refines (Sim.reschedule sim queue event when always)
      (calendar.reschedule queue event when always) := by
  refine Agree.assert (by rw [refines.now]) fun _ => Agree.assert (by rw [refines.scheduled_iff]) fun _ =>
    Agree.assert (refines.initialized_iff event) fun initialized => ?_
  have inside := valid.counted event (Or.inr ((refines.initialized_iff event).mp initialized))
  refine Agree.ite (refines.scheduled_iff event) (fun scheduled => ?_) fun idle => ?_
  · refine (refines.remove valid scheduled).bind fun next after result => ?_
    exact result.1.enter result.2.1 (result.2.2 ▸ inside) queue when
      fun flags => setFlag (clearFlag flags Squashed) Scheduled
  · exact refines.enter (valid.idle idle) inside queue when
      fun flags => setFlag (clearFlag flags Squashed) Scheduled

end

theorem construct {priority : Int} {flags : FlagsType} :
    Agree Refines (Sim.construct sim priority flags) (calendar.construct priority flags) := by
  refine Agree.assert Iff.rfl fun _ => ?_
  obtain ⟨bins, linked, spelled⟩ := refines.linked
  rw [Agree.ok_iff, refines.count]
  refine ⟨⟨bins, linked.congr (fun queue item member => ⟨_, update_of_ne ?_ _ _⟩) (fun _ => rfl) (Nat.le_succ _),
    spelled⟩, refines.entries_update _ _, rfl, refines.now⟩
  rintro rfl
  exact Nat.not_succ_le_self _ (Finset.mem_Icc.mp (linked.inside queue _ member)).2

/-- Each call fails alike on both sides or keeps the refinement. -/
theorem call (valid : calendar.Valid none) (call : Call) : Agree Refines (call.run sim) (calendar.run call) := by
  cases call with
  | construct priority flags => exact refines.construct
  | schedule queue event when => exact refines.schedule valid
  | deschedule queue event => exact refines.deschedule valid
  | reschedule queue event when always => exact refines.reschedule valid
  | squash event => exact refines.setFlags event fun flags => setFlag flags Squashed

theorem setCurTick (queue : QueuePtr) (tick : Tick) :
    Refines (sim.setCurTick queue tick) { calendar with now := update calendar.now queue tick } := by
  obtain ⟨bins, linked, spelled⟩ := refines.linked
  refine { refines with
    linked := ⟨bins, linked.congr (fun _ _ _ => ⟨_, rfl⟩) (fun other => ?_) le_rfl, spelled⟩
    now := fun other => ?_ }
  · simp only [Simulator.setCurTick, update_apply]
    split <;> simp_all
  · simp only [Simulator.setCurTick, update_apply, refines.now]
    split <;> rfl

/-- A service fails alike on both sides or starts the same handler. -/
theorem serve : Agree (fun left right => left.1 = right.1 ∧ Refines left.2 right.2)
      (serviceBegin sim queue) (calendar.serve queue) := by
  refine refines.popHead.bind ?_
  rintro ⟨event, next⟩ ⟨other, after⟩ ⟨same, held⟩
  obtain rfl : event = other := same
  dsimp only at held ⊢
  have squashed : (next.events event).squashed ↔ isSet (after.entries event).flags Squashed := by
    rw [held.flags]
    rfl
  refine Agree.ite squashed (fun _ => ?_) fun _ => ?_
  · have released := (held.setFlags event fun flags => clearFlag flags Squashed).release event
    obtain ⟨final, done, result⟩ := released.swap.exists_ok rfl
    have same : Sim.release (next.modify event fun object => object.clear Squashed) event = .ok final := done
    rw [same]
    exact ⟨rfl, result⟩
  · have when : (next.events event).when = (after.entries event).when := by
      rw [held.entries]
      rfl
    rw [when]
    exact ⟨rfl, held.setCurTick queue _⟩

/-- The end of a handler fails alike on both sides or keeps the refinement. -/
theorem finish (event : EventPtr) :
    Agree (fun left right => Refines left.2 right) (serviceEnd sim event) (calendar.finish event) := by
  have exit : (sim.events event).isExitEvent ↔ isSet (calendar.entries event).flags IsExitEvent := by
    rw [refines.flags]
    rfl
  refine Agree.ite exit (fun _ => ?_) fun _ => ?_
  · exact Agree.assert (by rw [refines.flags]) fun _ => refines
  · obtain ⟨final, done, result⟩ := (refines.release event).swap.exists_ok rfl
    rw [done]
    exact result

end

end Refines

/-- The event loop refines the calendar loop while the calendar is valid. -/
structure LoopRefines (loop : EventLoop) (model : CalendarLoop) : Prop where
  sim : Refines loop.sim model.calendar
  valid : model.calendar.Valid none
  active : loop.active = model.active

theorem LoopRefines.start : LoopRefines EventLoop.initial CalendarLoop.initial :=
  ⟨Refines.start, Calendar.Valid.start, rfl⟩

theorem LoopRefines.guard {loop : EventLoop} {model : CalendarLoop} {op : LoopOp}
    (refines : LoopRefines loop model) : loop.guard op ↔ model.guard op := by
  cases op with
  | call call => exact Iff.rfl
  | begin queue | finish => rw [EventLoop.guard, CalendarLoop.guard, refines.active]

/-- Each step of the event loop fails alike or is the step of the calendar loop. -/
theorem LoopRefines.step {loop : EventLoop} {model : CalendarLoop} (refines : LoopRefines loop model)
    (op : LoopOp) : Agree LoopRefines (loop.step op) (model.step op) := by
  have plain : Agree (fun next after => Refines next.sim after.calendar ∧ next.active = after.active)
      (loop.step op) (model.step op) := by
    cases op with
    | call call =>
      exact (refines.sim.call refines.valid call).bind fun _ _ held => ⟨held, refines.active⟩
    | begin queue => exact refines.sim.serve.bind fun _ _ held => ⟨held.2, held.1⟩
    | finish =>
      simp only [EventLoop.step, CalendarLoop.step, refines.active]
      cases model.active with
      | none => rfl
      | some event => exact (refines.sim.finish event).bind fun _ _ held => ⟨held, rfl⟩
  cases moved : model.step op with
  | error fault =>
    cases reached : loop.step op with
    | error other => rwa [moved, reached] at plain
    | ok next => rw [moved, reached] at plain; exact plain
  | ok after =>
    obtain ⟨next, reached, held⟩ := plain.swap.exists_ok moved
    rw [reached]
    exact ⟨held.1, (CalendarLoop.step_effect refines.valid moved).1, held.2⟩

end Gem5.Sim
