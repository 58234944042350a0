import Gem5.Construction.Sim.EventQueue

namespace Gem5.Sim
open ToMathlib Function

/-- An entry is an event without its links. -/
structure Entry where
  when : Tick
  priority : Int
  flags : FlagsType
  queue : Option QueuePtr
deriving DecidableEq, Repr

/-- Events are served by time and then by priority. -/
def Entry.key (entry : Entry) : Tick ×ₗ Int := toLex (entry.when, entry.priority)

def Event.entry (event : Event) : Entry := ⟨event.when, event.priority, event.flags, event.queue⟩

/-- A calendar lists the pending events of each queue in the order of service. -/
structure Calendar where
  entries : EventPtr → Entry
  count : Nat
  pending : QueuePtr → List EventPtr
  now : QueuePtr → Tick

namespace Calendar

def initial : Calendar where
  entries := fun event => (Simulator.initial.events event).entry
  count := 0
  pending := fun _ => []
  now := fun _ => 0

variable (calendar : Calendar) (queue : QueuePtr)

def setFlags (event : EventPtr) (change : FlagsType → FlagsType) : Calendar :=
  { calendar with
    entries := update calendar.entries event
      { calendar.entries event with flags := change (calendar.entries event).flags } }

/-- The event enters before every pending event of the same key. -/
def add (event : EventPtr) (when : Tick) : Calendar :=
  let entries := update calendar.entries event
    { calendar.entries event with when, queue := some queue }
  { calendar with
    entries
    pending := update calendar.pending queue
      (List.orderedInsert (fun left right => (entries left).key ≤ (entries right).key) event
        (calendar.pending queue)) }

def drop (event : EventPtr) : Calendar :=
  { calendar with pending := update calendar.pending queue ((calendar.pending queue).erase event) }

/-- A removal needs a nonempty queue that owns the event. -/
def remove (event : EventPtr) : Except Fault Calendar :=
  if calendar.pending queue = [] then .error (.panic "event not found!")
  else do
    assert ((calendar.entries event).queue = some queue) "event->queue == this"
    .ok (calendar.drop queue event)

/-- A released managed event that is not scheduled loses all its flags. -/
def release (event : EventPtr) : Calendar :=
  if isSet (calendar.entries event).flags Managed ∧ ¬ isSet (calendar.entries event).flags Scheduled then
    calendar.setFlags event fun _ => 0#16
  else calendar

def schedule (event : EventPtr) (when : Tick) : Except Fault Calendar := do
  assert (calendar.now queue ≤ when) "when >= getCurTick()"
  assert (¬ isSet (calendar.entries event).flags Scheduled) "!event->scheduled()"
  assert ((calendar.entries event).flags &&& InitMask = Initialized) "event->initialized()"
  .ok ((calendar.add queue event when).setFlags event fun flags => setFlag flags Scheduled)

def deschedule (event : EventPtr) : Except Fault Calendar := do
  assert (isSet (calendar.entries event).flags Scheduled) "event->scheduled()"
  assert ((calendar.entries event).flags &&& InitMask = Initialized) "event->initialized()"
  let calendar ← calendar.remove queue event
  .ok ((calendar.setFlags event fun flags => clearFlag (clearFlag flags Squashed) Scheduled).release event)

def reschedule (event : EventPtr) (when : Tick) (always : Bool) : Except Fault Calendar := do
  assert (calendar.now queue ≤ when) "when >= getCurTick()"
  assert (always = true ∨ isSet (calendar.entries event).flags Scheduled) "always || event->scheduled()"
  assert ((calendar.entries event).flags &&& InitMask = Initialized) "event->initialized()"
  let calendar ←
    if isSet (calendar.entries event).flags Scheduled then calendar.remove queue event else .ok calendar
  .ok ((calendar.add queue event when).setFlags event fun flags => setFlag (clearFlag flags Squashed) Scheduled)

def construct (priority : Int) (flags : FlagsType) : Except Fault Calendar := do
  assert (¬ isSet flags (~~~PublicWrite)) "f.noneSet(~PublicWrite)"
  .ok { calendar with
    entries := update calendar.entries (calendar.count + 1) (Event.make priority flags).entry
    count := calendar.count + 1 }

def run : Call → Except Fault Calendar
  | .construct priority flags => calendar.construct priority flags
  | .schedule queue event when => calendar.schedule queue event when
  | .deschedule queue event => calendar.deschedule queue event
  | .reschedule queue event when always => calendar.reschedule queue event when always
  | .squash event => .ok (calendar.setFlags event fun flags => setFlag flags Squashed)

/-- A service takes the first pending event. -/
def take : Except Fault (EventPtr × Calendar) :=
  match calendar.pending queue with
  | [] => .error .nullDereference
  | event :: rest =>
    .ok (event, { calendar with pending := update calendar.pending queue rest }.setFlags event
      fun flags => clearFlag flags Scheduled)

/-- The clock follows every event that is not squashed. -/
def serve : Except Fault (Option EventPtr × Calendar) := do
  let (event, calendar) ← calendar.take queue
  if isSet (calendar.entries event).flags Squashed then
    .ok (none, (calendar.setFlags event fun flags => clearFlag flags Squashed).release event)
  else
    .ok (some event, { calendar with now := update calendar.now queue (calendar.entries event).when })

def finish (event : EventPtr) : Except Fault Calendar :=
  if isSet (calendar.entries event).flags IsExitEvent then do
    assert (¬ isSet (calendar.entries event).flags Managed ∨ ¬ isSet (calendar.entries event).flags IsMainQueue)
      "!event->flags.isSet(Event::Managed) || !event->flags.isSet(Event::IsMainQueue)"
    .ok calendar
  else .ok (calendar.release event)

end Calendar

/-- This loop performs the operations of the event loop on a calendar. -/
structure CalendarLoop where
  calendar : Calendar
  active : Option EventPtr

def CalendarLoop.initial : CalendarLoop := ⟨Calendar.initial, none⟩

def CalendarLoop.guard (loop : CalendarLoop) : LoopOp → Prop
  | .call _ => True
  | .begin _ => loop.active = none
  | .finish => loop.active ≠ none

def CalendarLoop.step (loop : CalendarLoop) : LoopOp → Except Fault CalendarLoop
  | .call call => do
    let calendar ← loop.calendar.run call
    .ok { loop with calendar }
  | .begin queue => do
    let (event, calendar) ← loop.calendar.serve queue
    .ok ⟨calendar, event⟩
  | .finish =>
    match loop.active with
    | none => .error .nullDereference
    | some event => do
      let calendar ← loop.calendar.finish event
      .ok ⟨calendar, none⟩

def calendarLoop : Machine CalendarLoop LoopOp Fault := ⟨CalendarLoop.guard, CalendarLoop.step⟩

/-- An operation inserts at most one event into one queue. -/
def LoopOp.inserts : LoopOp → Option (QueuePtr × EventPtr)
  | .call (.schedule queue event _) => some (queue, event)
  | .call (.reschedule queue event _ _) => some (queue, event)
  | _ => none

/-- The last insertion of the event is counted from the start of the history. -/
def insertedAt (event : EventPtr) : List LoopOp → Nat
  | [] => 0
  | op :: history =>
    if op.inserts.map Prod.snd = some event then history.length + 1 else insertedAt event history

end Gem5.Sim
