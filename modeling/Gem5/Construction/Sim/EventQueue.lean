import Gem5.Construction.Base.Fault

namespace Gem5.Sim
open ToMathlib Function

abbrev Tick := Nat

abbrev FlagsType := BitVec 16

/-- These masks are the flag bits of `EventBase`. -/
def Squashed : FlagsType := 0x0001#16

def Scheduled : FlagsType := 0x0002#16

def Managed : FlagsType := 0x0004#16

def IsExitEvent : FlagsType := 0x0010#16

def IsMainQueue : FlagsType := 0x0020#16

def PublicWrite : FlagsType := 0x001d#16

def Initialized : FlagsType := 0x7a40#16

def InitMask : FlagsType := 0xffc0#16

/-- The flag word has some bit of the mask. -/
def isSet (flags mask : FlagsType) : Prop := flags &&& mask ≠ 0#16

instance (flags mask : FlagsType) : Decidable (isSet flags mask) := inferInstanceAs (Decidable (_ ≠ _))

def setFlag (flags mask : FlagsType) : FlagsType := flags ||| mask

def clearFlag (flags mask : FlagsType) : FlagsType := flags &&& ~~~mask

/-- An event pointer is the number that `instanceCounter` gave to the event. -/
abbrev EventPtr := Nat

abbrev QueuePtr := Nat

/-- The two link fields thread an event into the list of lists of its queue. -/
structure Event where
  nextBin : Option EventPtr
  nextInBin : Option EventPtr
  when : Tick
  priority : Int
  flags : FlagsType
  queue : Option QueuePtr
deriving DecidableEq, Repr

namespace Event

/-- The constructor `Event(p, f)`. -/
def make (priority : Int) (flags : FlagsType) : Event where
  nextBin := none
  nextInBin := none
  when := 0
  priority
  flags := Initialized ||| flags
  queue := none

def scheduled (event : Event) : Prop := isSet event.flags Scheduled

def squashed (event : Event) : Prop := isSet event.flags Squashed

def isExitEvent (event : Event) : Prop := isSet event.flags IsExitEvent

def initialized (event : Event) : Prop := event.flags &&& InitMask = Initialized

instance (event : Event) : Decidable event.scheduled := inferInstanceAs (Decidable (isSet _ _))

instance (event : Event) : Decidable event.squashed := inferInstanceAs (Decidable (isSet _ _))

instance (event : Event) : Decidable event.isExitEvent := inferInstanceAs (Decidable (isSet _ _))

instance (event : Event) : Decidable event.initialized := inferInstanceAs (Decidable (_ = _))

/-- This relation is `operator<` on events. -/
def before (left right : Event) : Prop :=
  left.when < right.when ∨ (left.when = right.when ∧ left.priority < right.priority)

/-- This relation is `operator<=` on events. -/
def notAfter (left right : Event) : Prop :=
  left.when < right.when ∨ (left.when = right.when ∧ left.priority ≤ right.priority)

/-- This relation is `operator==` on events. -/
def sameBin (left right : Event) : Prop := left.when = right.when ∧ left.priority = right.priority

instance (left right : Event) : Decidable (left.before right) := inferInstanceAs (Decidable (_ ∨ _))

instance (left right : Event) : Decidable (left.notAfter right) := inferInstanceAs (Decidable (_ ∨ _))

instance (left right : Event) : Decidable (left.sameBin right) := inferInstanceAs (Decidable (_ ∧ _))

def setWhen (event : Event) (when : Tick) (queue : QueuePtr) : Event := { event with when, queue := some queue }

def set (event : Event) (mask : FlagsType) : Event := { event with flags := setFlag event.flags mask }

def clear (event : Event) (mask : FlagsType) : Event := { event with flags := clearFlag event.flags mask }

end Event

abbrev Heap := EventPtr → Event

structure EventQueue where
  head : Option EventPtr
  curTick : Tick
deriving DecidableEq, Repr

/-- The simulator holds every event object and every event queue. -/
structure Simulator where
  events : Heap
  instanceCounter : Nat
  queues : QueuePtr → EventQueue

/-- Every queue starts empty at tick zero and no event object is constructed yet. -/
def Simulator.initial : Simulator where
  events := fun _ => { Event.make 0 0#16 with flags := 0#16 }
  instanceCounter := 0
  queues := fun _ => ⟨none, 0⟩

namespace Simulator
variable (sim : Simulator) (queue : QueuePtr)

def modify (event : EventPtr) (change : Event → Event) : Simulator :=
  { sim with events := update sim.events event (change (sim.events event)) }

def setHead (head : Option EventPtr) : Simulator :=
  { sim with queues := update sim.queues queue { sim.queues queue with head } }

def setCurTick (tick : Tick) : Simulator :=
  { sim with queues := update sim.queues queue { sim.queues queue with curTick := tick } }

end Simulator

/-- The assignment `event->nextBin = link`. -/
def setNextBin (events : Heap) (event : EventPtr) (link : Option EventPtr) : Heap :=
  update events event { events event with nextBin := link }

/-- The assignment `event->nextInBin = link`. -/
def setNextInBin (events : Heap) (event : EventPtr) (link : Option EventPtr) : Heap :=
  update events event { events event with nextInBin := link }

/-- This function is `Event::insertBefore`, which returns `event` itself. -/
def insertBefore (events : Heap) (event : EventPtr) (curr : Option EventPtr) : Heap :=
  match curr with
  | none => setNextInBin (setNextBin events event none) event none
  | some top =>
    if (events event).before (events top) then setNextInBin (setNextBin events event (some top)) event none
    else setNextInBin (setNextBin events event (events top).nextBin) event (some top)

/-- This loop walks the bins while they are before the event and keeps the previous one. -/
def seekBin (events : Heap) (event : EventPtr) :
    Nat → EventPtr → Option EventPtr → Except Fault (EventPtr × Option EventPtr)
  | 0, _, _ => .error .endlessLoop
  | fuel + 1, prev, curr =>
    match curr with
    | none => .ok (prev, none)
    | some top =>
      if (events top).before (events event) then seekBin events event fuel top (events top).nextBin
      else .ok (prev, some top)

variable (sim : Simulator) (queue : QueuePtr) (event : EventPtr)

def insert : Except Fault Simulator :=
  match (sim.queues queue).head with
  | none =>
    .ok ({ sim with events := insertBefore sim.events event none }.setHead queue (some event))
  | some head =>
    if (sim.events event).notAfter (sim.events head) then
      .ok ({ sim with events := insertBefore sim.events event (some head) }.setHead queue (some event))
    else do
      let (prev, curr) ← seekBin sim.events event (sim.instanceCounter + 1) head (sim.events head).nextBin
      .ok { sim with events := setNextBin (insertBefore sim.events event curr) prev (some event) }

/-- This loop walks one bin until the next item is the event. -/
def seekItem (events : Heap) (event : EventPtr) : Nat → EventPtr → Option EventPtr → Except Fault EventPtr
  | 0, _, _ => .error .endlessLoop
  | fuel + 1, curr, next =>
    if next = some event then .ok curr
    else match next with
      | none => .error (.panic "event not found!")
      | some item => seekItem events event fuel item (events item).nextInBin

/-- This function is `Event::removeItem` with the new heap and the new top. -/
def removeItem (event top : EventPtr) : Except Fault (Heap × Option EventPtr) :=
  let next := (sim.events top).nextInBin
  if event = top then
    match next with
    | none => .ok (sim.events, (sim.events top).nextBin)
    | some second => .ok (setNextBin sim.events second (sim.events top).nextBin, some second)
  else do
    let curr ← seekItem sim.events event (sim.instanceCounter + 1) top next
    .ok (setNextInBin sim.events curr (sim.events event).nextInBin, some top)

def remove : Except Fault Simulator :=
  match (sim.queues queue).head with
  | none => .error (.panic "event not found!")
  | some head => do
    assert ((sim.events event).queue = some queue) "event->queue == this"
    if (sim.events head).sameBin (sim.events event) then
      let (events, top) ← removeItem sim event head
      .ok ({ sim with events }.setHead queue top)
    else
      let (prev, curr) ← seekBin sim.events event (sim.instanceCounter + 1) head (sim.events head).nextBin
      match curr with
      | none => .error (.panic "event not found!")
      | some bin =>
        if (sim.events bin).sameBin (sim.events event) then
          let (events, top) ← removeItem sim event bin
          .ok { sim with events := setNextBin events prev top }
        else .error (.panic "event not found!")

/-- This function is `Event::release` with the default `releaseImpl` and the destructor. -/
def release : Except Fault Simulator :=
  if isSet (sim.events event).flags Managed ∧ ¬ (sim.events event).scheduled then do
    assert (¬ (sim.events event).scheduled) "!scheduled()"
    .ok (sim.modify event fun object => { object with flags := 0#16 })
  else .ok sim

/-- This function is `EventQueue::schedule` outside the parallel mode. -/
def schedule (when : Tick) : Except Fault Simulator := do
  assert ((sim.queues queue).curTick ≤ when) "when >= getCurTick()"
  assert (¬ (sim.events event).scheduled) "!event->scheduled()"
  assert (sim.events event).initialized "event->initialized()"
  let sim ← insert (sim.modify event fun object => object.setWhen when queue) queue event
  .ok (sim.modify event fun object => object.set Scheduled)

def deschedule : Except Fault Simulator := do
  assert (sim.events event).scheduled "event->scheduled()"
  assert (sim.events event).initialized "event->initialized()"
  let sim ← remove sim queue event
  release (sim.modify event fun object => (object.clear Squashed).clear Scheduled) event

def reschedule (when : Tick) (always : Bool) : Except Fault Simulator := do
  assert ((sim.queues queue).curTick ≤ when) "when >= getCurTick()"
  assert (always = true ∨ (sim.events event).scheduled) "always || event->scheduled()"
  assert (sim.events event).initialized "event->initialized()"
  let sim ← if (sim.events event).scheduled then remove sim queue event else .ok sim
  let sim ← insert (sim.modify event fun object => object.setWhen when queue) queue event
  .ok (sim.modify event fun object => (object.clear Squashed).set Scheduled)

/-- These are the calls that a handler or the code around the event loop may make. -/
inductive Call where
  | construct (priority : Int) (flags : FlagsType)
  | schedule (queue : QueuePtr) (event : EventPtr) (when : Tick)
  | deschedule (queue : QueuePtr) (event : EventPtr)
  | reschedule (queue : QueuePtr) (event : EventPtr) (when : Tick) (always : Bool)
  | squash (event : EventPtr)
deriving DecidableEq, Repr

/-- The event constructor takes the next instance number. -/
def construct (priority : Int) (flags : FlagsType) : Except Fault Simulator := do
  assert (¬ isSet flags (~~~PublicWrite)) "f.noneSet(~PublicWrite)"
  .ok { sim with
    events := update sim.events (sim.instanceCounter + 1) (Event.make priority flags)
    instanceCounter := sim.instanceCounter + 1 }

/-- One call runs to its end. -/
def Call.run : Call → Except Fault Simulator
  | .construct priority flags => Sim.construct sim priority flags
  | .schedule queue event when => Sim.schedule sim queue event when
  | .deschedule queue event => Sim.deschedule sim queue event
  | .reschedule queue event when always => Sim.reschedule sim queue event when always
  | .squash event => .ok (sim.modify event fun object => object.set Squashed)

/-- This part of `EventQueue::serviceOne` pops the stack of the head or drops its bin. -/
def unlinkHead : Simulator :=
  match (sim.events event).nextInBin with
  | some next =>
    { sim with events := setNextBin sim.events next (sim.events event).nextBin }.setHead queue (some next)
  | none => sim.setHead queue (sim.events event).nextBin

/-- This part of `EventQueue::serviceOne` takes the head and clears its flag. -/
def popHead : Except Fault (EventPtr × Simulator) :=
  match (sim.queues queue).head with
  | none => .error .nullDereference
  | some event =>
    .ok (event, unlinkHead (sim.modify event fun object => object.clear Scheduled) queue event)

/-- This part of `EventQueue::serviceOne` runs before the handler and names the event it processes. -/
def serviceBegin : Except Fault (Option EventPtr × Simulator) := do
  let (event, sim) ← popHead sim queue
  if (sim.events event).squashed then
    let sim ← release (sim.modify event fun object => object.clear Squashed) event
    .ok (none, sim)
  else .ok (some event, sim.setCurTick queue (sim.events event).when)

/-- This part of `EventQueue::serviceOne` follows the handler and gives the returned pointer. -/
def serviceEnd : Except Fault (Option EventPtr × Simulator) :=
  if (sim.events event).isExitEvent then do
    assert (¬ isSet (sim.events event).flags Managed ∨ ¬ isSet (sim.events event).flags IsMainQueue)
      "!event->flags.isSet(Event::Managed) || !event->flags.isSet(Event::IsMainQueue)"
    .ok (some event, sim)
  else do
    let sim ← release sim event
    .ok (none, sim)

/-- This structure has the numbers of a checkpointed event in its section. -/
structure EventEntries where
  when : Tick
  priority : Int
  flags : Int

/-- This function is `Event::serialize`, which writes the flags as a signed number. -/
def Event.serialize (event : Event) : EventEntries := ⟨event.when, event.priority, event.flags.toInt⟩

/-- This function is `Event::unserialize`, which reads the flags as an unsigned number. -/
def Event.unserialize (event : Event) (currentSection : String) (entries : EventEntries) : Except Fault Event := do
  assert (¬ event.scheduled) "!scheduled()"
  if entries.flags < 0 ∨ 2 ^ 16 ≤ entries.flags then
    .error (.fatal ("Can't unserialize '" ++ currentSection ++ ":_flags'"))
  else
    assert event.initialized "initialized()"
    let flags := setFlag (.ofInt 16 entries.flags) Initialized
    let live := isSet flags Scheduled ∧ ¬ isSet flags Squashed
    let flags := if live then clearFlag flags (Squashed ||| Scheduled) else flags
    .ok { event with when := entries.when, priority := entries.priority, flags }

def checkpointReschedule : Except Fault Simulator :=
  if (sim.events event).scheduled then insert sim queue event else .ok sim

/-- An event is read from the section of another one and put back on its queue. -/
def restore (currentSection : String) (original : Event) : Except Fault Simulator := do
  let object ← (sim.events event).unserialize currentSection original.serialize
  checkpointReschedule (sim.modify event fun _ => object) queue event

/-- The event loop is between two services or inside the handler of one event. -/
structure EventLoop where
  sim : Simulator
  active : Option EventPtr

def EventLoop.initial : EventLoop := ⟨Simulator.initial, none⟩

/-- The loop makes a call, starts a service, or returns from the active handler. -/
inductive LoopOp where
  | call (call : Call)
  | begin (queue : QueuePtr)
  | finish
deriving DecidableEq, Repr

/-- One handler runs at a time, because a service holds the lock of its queue. -/
def EventLoop.guard (loop : EventLoop) : LoopOp → Prop
  | .call _ => True
  | .begin _ => loop.active = none
  | .finish => loop.active ≠ none

def EventLoop.step (loop : EventLoop) : LoopOp → Except Fault EventLoop
  | .call call => do
    let sim ← call.run loop.sim
    .ok { loop with sim }
  | .begin queue => do
    let (event, sim) ← serviceBegin loop.sim queue
    .ok ⟨sim, event⟩
  | .finish =>
    match loop.active with
    | none => .error .nullDereference
    | some event => do
      let (_, sim) ← serviceEnd loop.sim event
      .ok ⟨sim, none⟩

/-- The loop performs a list of operations in order. -/
def EventLoop.perform (loop : EventLoop) : List LoopOp → Except Fault EventLoop
  | [] => .ok loop
  | op :: rest => do
    let loop ← loop.step op
    loop.perform rest

def eventLoop : Machine EventLoop LoopOp Fault := ⟨EventLoop.guard, EventLoop.step⟩

end Gem5.Sim
