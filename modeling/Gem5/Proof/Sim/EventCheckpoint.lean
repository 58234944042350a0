import Gem5.Proof.Sim.CalendarEffect
import Gem5.Proof.Sim.EventLinked

namespace Gem5.Sim
open ToMathlib Function

variable {sim : Simulator} {queue : QueuePtr} {event : EventPtr} {original fresh : Event} {bins : List (List EventPtr)}

/-- The flags of an initialized event are read back, and the scheduled flag stays on squashed events only. -/
theorem Event.unserialize_serialize (written : original.initialized) (ready : fresh.initialized)
    (idle : ¬ fresh.scheduled) (currentSection : String) :
    ∃ object, fresh.unserialize currentSection original.serialize = .ok object ∧ object.when = original.when ∧
      object.priority = original.priority ∧ (object.scheduled ↔ original.scheduled ∧ original.squashed) := by
  have positive : original.flags.msb = false := by
    have masked : (original.flags &&& InitMask).msb = false := congrArg BitVec.msb written
    rwa [BitVec.msb_and, show InitMask.msb = true from rfl, Bool.and_true] at masked
  have marked : setFlag original.flags Initialized = original.flags := by
    rw [setFlag, ← show _ = _ from written]
    grind
  have range := BitVec.toInt_eq_toNat_of_msb positive
  have inside : ¬ (original.flags.toInt < 0 ∨ 2 ^ 16 ≤ original.flags.toInt) := by omega
  rw [unserialize, assert_of idle, ok_bind, serialize]
  simp only [if_neg inside, assert_of ready, ok_bind, BitVec.ofInt_toInt, marked]
  refine ⟨_, rfl, rfl, rfl, ?_⟩
  unfold Event.scheduled Event.squashed
  dsimp only
  split
  next live =>
    have cleared : clearFlag original.flags (Squashed ||| Scheduled) &&& Scheduled = 0#16 :=
      and_eq_zero_of_part isSet_clearFlag_self (by decide)
    exact iff_of_false (not_not.mpr cleared) fun both => live.2 both.2
  next dead => exact ⟨fun still => ⟨still, not_not.mp fun fine => dead ⟨still, fine⟩⟩, And.left⟩

/-- An event comes back where it should be exactly when it was not scheduled. -/
theorem restore_right_iff (written : original.initialized) (ready : (sim.events event).initialized)
    (idle : ¬ (sim.events event).scheduled) (walk : BinsFrom sim.events (sim.queues queue).head bins)
    (absent : event ∉ bins.flatten) (distinct : bins.flatten.Nodup) (enough : bins.length ≤ sim.instanceCounter)
    (currentSection : String) :
    ∃ next more, restore sim queue event currentSection original = .ok next ∧
      BinsFrom next.events (next.queues queue).head more ∧
      ((event ∈ more.flatten ↔ original.scheduled ∧ ¬ original.squashed) ↔ ¬ original.scheduled) ∧
      (next.events event).when = original.when ∧ (next.events event).priority = original.priority := by
  obtain ⟨object, read, when, priority, again⟩ := Event.unserialize_serialize written ready idle currentSection
  have untouched : ∀ other ∈ bins.flatten, (sim.modify event fun _ => object).events other = sim.events other :=
    fun other member => update_of_ne (ne_of_mem_of_not_mem member absent) _ _
  have kept : BinsFrom (sim.modify event fun _ => object).events (sim.queues queue).head bins :=
    walk.congr (fun other member => by rw [untouched other member]) fun other member => by rw [untouched other member]
  have held : (sim.modify event fun _ => object).events event = object := update_self _ _ _
  rw [restore, read, ok_bind, checkpointReschedule, held]
  by_cases back : object.scheduled
  · obtain ⟨next, done, inserted, relinked⟩ := insert_walk kept absent distinct enough
    have same := (relinked.entry event).trans (congrArg Event.entry held)
    have squashed := again.mp back
    rw [if_pos back]
    refine ⟨next, _, done, inserted, ?_, (congrArg Entry.when same).trans when,
      (congrArg Entry.priority same).trans priority⟩
    rw [Binned.mem_binInsert]
    tauto
  · rw [if_neg back]
    have live := mt again.mpr back
    refine ⟨_, bins, rfl, kept, ?_, held.symm ▸ when, held.symm ▸ priority⟩
    tauto

/-- This simulator has one event object. -/
def single : Simulator := { Simulator.initial with events := fun _ => Event.make 0 0#16, instanceCounter := 1 }

theorem restore_right_iff_single :
    ∃ next more, restore single 0 1 "event" (Event.make 3 Squashed) = .ok next ∧
      BinsFrom next.events (next.queues 0).head more ∧ 1 ∉ more.flatten ∧ (next.events 1).priority = 3 := by
  obtain ⟨next, more, done, walk, put, _, priority⟩ := @restore_right_iff single 0 1 (Event.make 3 Squashed) []
    (by decide) (by decide) (by decide) (BinsFrom.nil_iff.mpr rfl) (by decide) (by decide) (by decide) "event"
  exact ⟨next, more, done, walk, mt (put.mpr (by decide)).mp (by decide), priority⟩

/-- A scheduled event stays off the queue and a squashed one returns to it. -/
theorem restore_inverts_scheduled :
    (∃ next, restore single 0 1 "event" (Event.make 3 Scheduled) = .ok next ∧ (next.queues 0).head = none) ∧
      ∃ next, restore single 0 1 "event" (Event.make 3 (Scheduled ||| Squashed)) = .ok next ∧
        (next.queues 0).head = some 1 :=
  ⟨⟨_, rfl, rfl⟩, _, rfl, rfl⟩

end Gem5.Sim
