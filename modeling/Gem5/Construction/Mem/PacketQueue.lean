import Gem5.Construction.Mem.Packet

namespace Gem5

def Packet.matchAddr (pkt other : Packet) : Bool := pkt.addr = other.addr && pkt.isSecure = other.isSecure

/-- A packet with its tick and the number of its arrival, which no function reads. -/
structure DeferredPacket where
  tick : Nat
  pkt : Packet
  arrival : Nat
deriving DecidableEq, Repr

/-- The queue with the tick of its event and the present tick. -/
structure PacketQueue where
  transmitList : List DeferredPacket
  waitingOnRetry : Bool
  sendEvent : Option Nat
  curTick : Nat
  forceOrder : Bool
  disableSanityCheck : Bool
  arrivals : Nat
deriving DecidableEq, Repr

namespace PacketQueue
variable (queue : PacketQueue)

def maxTick : Nat := 2 ^ 64 - 1

def create (forceOrder disableSanityCheck : Bool) : PacketQueue where
  transmitList := []
  waitingOnRetry := false
  sendEvent := none
  curTick := 0
  forceOrder
  disableSanityCheck
  arrivals := 0

def deferredPacketReady : Bool :=
  match queue.transmitList with
  | [] => false
  | front :: _ => front.tick ≤ queue.curTick

def deferredPacketReadyTime : Nat :=
  match queue.transmitList with
  | [] => maxTick
  | front :: _ => front.tick

/-- This function moves the event to a tick, or schedules it, unless it comes before. -/
def scheduleEvent (when : Nat) : Except Fault PacketQueue :=
  match queue.sendEvent with
  | none => do
    assert (queue.curTick ≤ when) "when >= getCurTick()"
    .ok { queue with sendEvent := some when }
  | some scheduled =>
    if when < scheduled then do
      assert (queue.curTick ≤ when) "when >= getCurTick()"
      .ok { queue with sendEvent := some when }
    else .ok queue

def schedSendEvent (when : Nat) : Except Fault PacketQueue :=
  if queue.waitingOnRetry then do
    assert (queue.sendEvent = none) "!sendEvent.scheduled()"
    .ok queue
  else if when ≠ maxTick then queue.scheduleEvent (max when ((queue.curTick + 1) % 2 ^ 64))
  else .ok queue

/-- A new packet is put behind a packet with an earlier tick, or with the same address if the order is forced. -/
def follows (pkt : Packet) (when : Nat) (entry : DeferredPacket) : Bool :=
  (queue.forceOrder && entry.pkt.matchAddr pkt) || entry.tick ≤ when

/-- This function searches from the end of the list for the packet that the new one follows. -/
def emplace (entry : DeferredPacket) : Except Fault PacketQueue :=
  let passes := fun other => !queue.follows entry.pkt entry.tick other
  let numbered := { queue with arrivals := queue.arrivals + 1 }
  match queue.transmitList.rdropWhile passes with
  | [] => { numbered with transmitList := entry :: queue.transmitList }.schedSendEvent entry.tick
  | first :: rest =>
    .ok { numbered with transmitList := first :: rest ++ entry :: queue.transmitList.rtakeWhile passes }

def schedSendTiming (pkt : Packet) (when : Nat) : Except Fault PacketQueue := do
  assert (queue.curTick ≤ when) "when >= curTick()"
  assert (pkt.expressSnoop = false) "!pkt->isExpressSnoop()"
  if queue.disableSanityCheck = false ∧ queue.transmitList.length > 1024 then
    .error (.panic "Packet queue %s has grown beyond 1024 packets")
  else queue.emplace { tick := when, pkt, arrival := queue.arrivals }

/-- The peer accepts a packet, and schedules other packets meanwhile, or it rejects the packet. -/
inductive Answer where
  | accept (calls : List (Packet × Nat))
  | reject
deriving DecidableEq, Repr

/-- This function schedules the packets of nested calls. -/
def schedAll (queue : PacketQueue) (calls : List (Packet × Nat)) : Except Fault PacketQueue :=
  calls.foldlM (fun queue call => queue.schedSendTiming call.1 call.2) queue

/-- The part of `sendDeferredPacket` behind its checks. -/
def sendFront (front : DeferredPacket) (rest : List DeferredPacket) : Answer → Except Fault PacketQueue
  | .reject => .ok { queue with waitingOnRetry := true, transmitList := front :: rest }
  | .accept calls => do
    let after ← { queue with transmitList := rest }.schedAll calls
    { after with waitingOnRetry := false }.schedSendEvent after.deferredPacketReadyTime

/-- This function returns the packet that is handed to the peer and the new state. -/
def sendDeferredPacket (answer : Answer) : Except Fault (DeferredPacket × PacketQueue) := do
  assert (queue.waitingOnRetry = false) "!waitingOnRetry"
  assert (queue.deferredPacketReady = true) "deferredPacketReady()"
  match queue.transmitList with
  | [] => .error .outOfBounds
  | front :: rest => do
    let after ← queue.sendFront front rest answer
    .ok (front, after)

def processSendEvent (answer : Answer) : Except Fault (DeferredPacket × PacketQueue) := do
  assert (queue.waitingOnRetry = false) "!waitingOnRetry"
  queue.sendDeferredPacket answer

def retry (answer : Answer) : Except Fault (DeferredPacket × PacketQueue) := do
  assert (queue.waitingOnRetry = true) "waitingOnRetry"
  { queue with waitingOnRetry := false }.sendDeferredPacket answer

/-- The owner schedules packets, the event queue processes the event, the peer retries, and time passes. -/
inductive Op where
  | schedSendTiming (pkt : Packet) (when : Nat)
  | sendEvent (answer : Answer)
  | retry (answer : Answer)
  | advance (tick : Nat)
deriving DecidableEq, Repr

/-- This function returns the packet that an operation hands to the peer, and whether the peer accepts it. -/
def step (queue : PacketQueue) : Op → Except Fault (Option (DeferredPacket × Bool) × PacketQueue)
  | .schedSendTiming pkt when => do .ok (none, ← queue.schedSendTiming pkt when)
  | .sendEvent answer => do
    let (front, after) ← { queue with sendEvent := none }.processSendEvent answer
    .ok (some (front, answer ≠ .reject), after)
  | .retry answer => do
    let (front, after) ← queue.retry answer
    .ok (some (front, answer ≠ .reject), after)
  | .advance tick => .ok (none, { queue with curTick := tick })

/-- A packet is not scheduled in the past. -/
def Timely (curTick : Nat) (call : Packet × Nat) : Prop := curTick ≤ call.2 ∧ call.2 ≤ maxTick

/-- The packets of an answer are not scheduled in the past. -/
def Answer.Timely (curTick : Nat) : Answer → Prop
  | .accept calls => ∀ call ∈ calls, PacketQueue.Timely curTick call
  | .reject => True

/-- The event is processed at its tick, the peer retries only a packet that it has rejected, and time does not pass the
event. -/
def Op.Allowed (queue : PacketQueue) : Op → Prop
  | .schedSendTiming pkt when => Timely queue.curTick (pkt, when)
  | .sendEvent answer => queue.sendEvent = some queue.curTick ∧ answer.Timely queue.curTick
  | .retry answer => queue.waitingOnRetry = true ∧ answer.Timely queue.curTick
  | .advance tick => queue.curTick ≤ tick ∧ tick ≤ maxTick ∧ ∀ scheduled, queue.sendEvent = some scheduled → tick ≤ scheduled

/-- This structure runs a queue next to the packets that it has handed to the peer, with the tick and the answer. -/
structure Trace where
  queue : PacketQueue
  handed : List (Nat × DeferredPacket × Bool)

def initial (forceOrder disableSanityCheck : Bool) : Trace :=
  { queue := create forceOrder disableSanityCheck, handed := [] }

/-- This function remembers a packet that is handed to the peer. -/
def Trace.remember (trace : Trace) (sent : Option (DeferredPacket × Bool)) (queue : PacketQueue) : Trace where
  queue := queue
  handed := trace.handed ++ sent.toList.map fun packet => (trace.queue.curTick, packet)

def queues : ToMathlib.Machine Trace Op Fault where
  guard trace op := op.Allowed trace.queue
  step trace op := do
    let (sent, queue) ← trace.queue.step op
    .ok (trace.remember sent queue)

end PacketQueue
end Gem5
