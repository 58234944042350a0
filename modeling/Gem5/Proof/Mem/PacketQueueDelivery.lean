import Gem5.Construction.Mem.PacketQueue

namespace Gem5
open ToMathlib List

namespace PacketQueue
variable {queue next : PacketQueue} {pkt : Packet} {when : Nat} {entry : DeferredPacket}

section Times

/-- The ticks of the queue and of its packets are before the last one. -/
structure Early (queue : PacketQueue) : Prop where
  now : queue.curTick < maxTick
  packets : ∀ entry ∈ queue.transmitList, entry.tick < maxTick

/-- The event of a queue is scheduled for its first packet. -/
def Timed (queue : PacketQueue) : Prop :=
  ∀ scheduled, queue.sendEvent = some scheduled → ∃ front rest, queue.transmitList = front :: rest ∧
    front.tick ≤ scheduled ∧ scheduled ≤ max front.tick (queue.curTick + 1) ∧ queue.curTick ≤ scheduled

/-- A queue that does not wait for the peer has scheduled its event, and a rejected packet stays in front. -/
structure Sound (queue : PacketQueue) : Prop where
  early : queue.Early
  timed : queue.Timed
  scheduled : queue.transmitList ≠ [] → queue.waitingOnRetry = false → queue.sendEvent ≠ none
  rejected : queue.waitingOnRetry = true → queue.sendEvent = none ∧ queue.deferredPacketReady = true

/-- The faults that the calls of a queue may run into are its limit and an express snoop. -/
def Refused (fault : Fault) : Prop :=
  fault = .panic "Packet queue %s has grown beyond 1024 packets" ∨ fault = .assertion "!pkt->isExpressSnoop()"

/-- A call is refused, or it succeeds with a good value. -/
def Ends {Value : Type} (result : Except Fault Value) (good : Value → Prop) : Prop :=
  (∃ fault, result = .error fault ∧ Refused fault) ∨ ∃ value, result = .ok value ∧ good value

theorem Ends.bind {Value Result : Type} {first : Except Fault Value} {good : Value → Prop} {kept : Result → Prop}
    {after : Value → Except Fault Result} (ends : Ends first good)
    (goes : ∀ value, good value → Ends (after value) kept) : Ends (first >>= after) kept := by
  rcases ends with ⟨fault, rfl, refused⟩ | ⟨value, rfl, held⟩
  · exact .inl ⟨fault, rfl, refused⟩
  · exact goes value held

/-- The event is scheduled for the first packet after a call for its tick. -/
theorem schedSendEvent_front {front : DeferredPacket} {rest : List DeferredPacket} (early : queue.Early)
    (list : queue.transmitList = front :: rest) (free : queue.waitingOnRetry = false)
    (timed : ∀ scheduled, queue.sendEvent = some scheduled → front.tick ≤ scheduled ∧ queue.curTick ≤ scheduled) :
    ∃ scheduled, queue.schedSendEvent front.tick = .ok { queue with sendEvent := some scheduled } ∧
      front.tick ≤ scheduled ∧ scheduled ≤ max front.tick (queue.curTick + 1) ∧ queue.curTick ≤ scheduled := by
  have now := early.now
  have before : front.tick < maxTick := early.packets front (by rw [list]; exact mem_cons_self)
  have noWrap : (queue.curTick + 1) % 2 ^ 64 = queue.curTick + 1 := by
    apply Nat.mod_eq_of_lt
    unfold maxTick at now
    omega
  rw [schedSendEvent, if_neg (by rw [free]; decide), if_pos (Nat.ne_of_lt before), noWrap, scheduleEvent]
  cases event : queue.sendEvent with
  | none =>
    refine ⟨max front.tick (queue.curTick + 1), ?_, by omega, Nat.le_refl _, by omega⟩
    rw [assert_of (by omega)]
    rfl
  | some scheduled =>
    obtain ⟨ready, future⟩ := timed scheduled event
    dsimp only
    by_cases earlier : max front.tick (queue.curTick + 1) < scheduled
    · refine ⟨max front.tick (queue.curTick + 1), ?_, by omega, Nat.le_refl _, by omega⟩
      rw [if_pos earlier, assert_of (by omega)]
      rfl
    · refine ⟨scheduled, ?_, ready, by omega, future⟩
      rw [if_neg earlier, ← event]

/-- This structure describes the insertion of a packet into the list and its effect on the event. -/
structure Emplaced (queue next : PacketQueue) (entry : DeferredPacket) (before after : List DeferredPacket) : Prop where
  split : queue.transmitList = before ++ after
  passed : ∀ other ∈ after, queue.follows entry.pkt entry.tick other = false
  state : ∃ event, next = { queue with
    transmitList := before ++ entry :: after, sendEvent := event, arrivals := queue.arrivals + 1 }
  inner : before ≠ [] → next.sendEvent = queue.sendEvent
  first : before = [] → ∃ scheduled, next.sendEvent = some scheduled ∧ entry.tick ≤ scheduled ∧
    scheduled ≤ max entry.tick (queue.curTick + 1) ∧ queue.curTick ≤ scheduled

theorem deferredPacketReady_iff : queue.deferredPacketReady = true ↔
    ∃ front rest, queue.transmitList = front :: rest ∧ front.tick ≤ queue.curTick := by
  unfold deferredPacketReady
  cases queue.transmitList <;> simp

/-- A queue with a ready packet does not put a later one in front of it. -/
theorem not_ready (future : queue.curTick ≤ entry.tick)
    (passed : ∀ other ∈ queue.transmitList, queue.follows entry.pkt entry.tick other = false) :
    ¬ queue.deferredPacketReady = true := by
  intro ready
  obtain ⟨front, rest, list, now⟩ := deferredPacketReady_iff.mp ready
  have late := passed front (by rw [list]; exact mem_cons_self)
  simp only [follows, Bool.or_eq_false_iff, decide_eq_false_iff_not] at late
  omega

theorem emplace_ok (early : queue.Early) (timed : queue.Timed) (soon : entry.tick < maxTick)
    (future : queue.curTick ≤ entry.tick)
    (answered : queue.waitingOnRetry = false ∨ queue.deferredPacketReady = true) :
    ∃ next, queue.emplace entry = .ok next ∧ ∃ before after, Emplaced queue next entry before after := by
  have parts : (queue.transmitList.rdropWhile fun other => !queue.follows entry.pkt entry.tick other) ++
      (queue.transmitList.rtakeWhile fun other => !queue.follows entry.pkt entry.tick other) = queue.transmitList :=
    rdropWhile_append_rtakeWhile
  have passed : ∀ other ∈ queue.transmitList.rtakeWhile fun other => !queue.follows entry.pkt entry.tick other,
      queue.follows entry.pkt entry.tick other = false := by
    intro other member
    simpa using mem_rtakeWhile_imp member
  rw [emplace]
  cases before : queue.transmitList.rdropWhile fun other => !queue.follows entry.pkt entry.tick other with
  | cons first rest =>
    rw [before] at parts
    exact ⟨_, rfl, _, _, parts.symm, passed, ⟨_, rfl⟩, fun _ => rfl, fun none => nomatch none⟩
  | nil =>
    rw [before, nil_append] at parts
    rw [parts] at passed
    have free : queue.waitingOnRetry = false := answered.resolve_right (not_ready future passed)
    have early' : Early { queue with transmitList := entry :: queue.transmitList, arrivals := queue.arrivals + 1 } :=
      ⟨early.now, forall_mem_cons.mpr ⟨soon, early.packets⟩⟩
    obtain ⟨scheduled, ran, ready, bound, present⟩ := schedSendEvent_front early' rfl free (by
      intro scheduled event
      obtain ⟨front, rest, list, due, _, present⟩ := timed scheduled event
      have late := passed front (by rw [list]; exact mem_cons_self)
      simp only [follows, Bool.or_eq_false_iff, decide_eq_false_iff_not] at late
      exact ⟨by omega, present⟩)
    exact ⟨_, ran, [], queue.transmitList, rfl, passed, ⟨_, rfl⟩, fun none => absurd rfl none,
      fun _ => ⟨scheduled, rfl, ready, bound, present⟩⟩

/-- A call schedules its packet or is refused. -/
theorem schedSendTiming_cases (pkt : Packet) (early : queue.Early) (timed : queue.Timed) (soon : when < maxTick)
    (future : queue.curTick ≤ when)
    (answered : queue.waitingOnRetry = false ∨ queue.deferredPacketReady = true) :
    Ends (queue.schedSendTiming pkt when) fun next => ∃ before after,
      Emplaced queue next { tick := when, pkt, arrival := queue.arrivals } before after := by
  rw [schedSendTiming, assert_of future, ok_bind]
  by_cases express : pkt.expressSnoop = false
  · rw [assert_of express, ok_bind]
    by_cases large : queue.disableSanityCheck = false ∧ queue.transmitList.length > 1024
    · rw [if_pos large]
      exact .inl ⟨_, rfl, .inl rfl⟩
    · rw [if_neg large]
      exact .inr (emplace_ok early timed soon future answered)
  · exact .inl ⟨_, by rw [assert, if_neg express]; rfl, .inr rfl⟩

variable {before after : List DeferredPacket}

section
variable (emplaced : Emplaced queue next entry before after)
include emplaced

theorem Emplaced.early (early : queue.Early) (soon : entry.tick < maxTick) : next.Early := by
  obtain ⟨event, rfl⟩ := emplaced.state
  have packets := early.packets
  rw [emplaced.split, forall_mem_append] at packets
  exact ⟨early.now, forall_mem_append.mpr ⟨packets.1, forall_mem_cons.mpr ⟨soon, packets.2⟩⟩⟩

theorem Emplaced.timed (timed : queue.Timed) : next.Timed := by
  obtain ⟨event, rfl⟩ := emplaced.state
  intro scheduled due
  cases before with
  | nil =>
    obtain ⟨other, same, ready, bound, present⟩ := emplaced.first rfl
    obtain rfl : other = scheduled := Option.some.inj (same.symm.trans due)
    exact ⟨entry, after, rfl, ready, bound, present⟩
  | cons first rest =>
    obtain ⟨front, others, list, ready, bound, present⟩ :=
      timed scheduled ((emplaced.inner (cons_ne_nil _ _)).symm.trans due)
    obtain ⟨rfl, _⟩ : first = front ∧ _ := cons.inj (emplaced.split.symm.trans list)
    exact ⟨first, rest ++ entry :: after, rfl, ready, bound, present⟩

theorem Emplaced.same : next.waitingOnRetry = queue.waitingOnRetry ∧ next.curTick = queue.curTick := by
  obtain ⟨event, rfl⟩ := emplaced.state
  exact ⟨rfl, rfl⟩

theorem Emplaced.sound (sound : queue.Sound) (soon : entry.tick < maxTick) (future : queue.curTick ≤ entry.tick) :
    next.Sound := by
  refine ⟨emplaced.early sound.early soon, emplaced.timed sound.timed, fun _ free => ?_, fun waiting => ?_⟩
  · rw [emplaced.same.1] at free
    cases before with
    | nil =>
      obtain ⟨scheduled, event, _⟩ := emplaced.first rfl
      rw [event]
      exact Option.some_ne_none scheduled
    | cons first rest =>
      rw [emplaced.inner (cons_ne_nil _ _)]
      exact sound.scheduled (by rw [emplaced.split]; exact cons_ne_nil _ _) free
  · rw [emplaced.same.1] at waiting
    obtain ⟨event, ready⟩ := sound.rejected waiting
    cases before with
    | nil => exact absurd ready (not_ready future (by rw [emplaced.split]; exact emplaced.passed))
    | cons first rest =>
      rw [deferredPacketReady, emplaced.split] at ready
      refine ⟨(emplaced.inner (cons_ne_nil _ _)).trans event, ?_⟩
      obtain ⟨other, rfl⟩ := emplaced.state
      exact ready

end

/-- The last call after an accepted packet schedules the event for the next one. -/
theorem settle (early : queue.Early) (timed : queue.Timed) (free : queue.waitingOnRetry = false) :
    ∃ next, { queue with waitingOnRetry := false }.schedSendEvent queue.deferredPacketReadyTime = .ok next ∧
      next.Sound ∧ next.transmitList = queue.transmitList ∧ next.forceOrder = queue.forceOrder ∧
      next.arrivals = queue.arrivals := by
  have same : { queue with waitingOnRetry := false } = queue := by rw [← free]
  rw [same, deferredPacketReadyTime]
  cases list : queue.transmitList with
  | nil =>
    refine ⟨queue, ?_, ⟨early, timed, fun some => absurd list some, fun waiting => ?_⟩, list, rfl, rfl⟩
    · rw [schedSendEvent, if_neg (by rw [free]; decide), if_neg (by simp)]
    · cases free.symm.trans waiting
  | cons front rest =>
    obtain ⟨scheduled, ran, ready, bound, present⟩ := schedSendEvent_front early list free (by
      intro scheduled event
      obtain ⟨other, others, same, due, _, present⟩ := timed scheduled event
      obtain ⟨rfl, _⟩ : front = other ∧ _ := cons.inj (list.symm.trans same)
      exact ⟨due, present⟩)
    refine ⟨_, ran, ⟨{ early with }, fun other event => ?_, fun _ _ => Option.some_ne_none _,
      fun waiting => ?_⟩, list, rfl, rfl⟩
    · obtain rfl : scheduled = other := Option.some.inj event
      exact ⟨front, rest, list, ready, bound, present⟩
    · cases free.symm.trans waiting

end Times
section Order

/-- Packets of one tick, and packets for one address if the order is forced, are in the order of their arrival. -/
def InOrder (forceOrder : Bool) (first second : DeferredPacket) : Prop :=
  first.arrival ≠ second.arrival ∧ (first.tick = second.tick → first.arrival < second.arrival) ∧
    (forceOrder = true → first.pkt.matchAddr second.pkt = true → first.arrival < second.arrival)

theorem matchAddr_comm (pkt other : Packet) : pkt.matchAddr other = other.matchAddr pkt := by
  simp only [Packet.matchAddr, eq_comm]

/-- The packets that left the queue and those that are in it are in order. -/
structure Ordered (forceOrder : Bool) (queue : PacketQueue) (left : List DeferredPacket) : Prop where
  force : queue.forceOrder = forceOrder
  pairs : (left ++ queue.transmitList).Pairwise (InOrder forceOrder)
  numbered : ∀ entry ∈ left ++ queue.transmitList, entry.arrival < queue.arrivals

variable {forceOrder : Bool} {left before after : List DeferredPacket}

/-- A packet that arrives is in order with all others. -/
theorem Emplaced.ordered (emplaced : Emplaced queue next entry before after) (newest : entry.arrival = queue.arrivals)
    (ordered : Ordered forceOrder queue left) :
    Ordered forceOrder next left ∧ (left ++ queue.transmitList).Sublist (left ++ next.transmitList) := by
  obtain ⟨force, pairs, numbered⟩ := ordered
  have passed := emplaced.passed
  obtain ⟨event, rfl⟩ := emplaced.state
  rw [emplaced.split, ← append_assoc] at pairs numbered
  rw [emplaced.split]
  obtain ⟨earlier, later, across⟩ := pairwise_append.mp pairs
  refine ⟨⟨force, ?_, ?_⟩, ?_⟩
  · rw [← append_assoc]
    refine pairwise_append.mpr ⟨earlier, pairwise_cons.mpr ⟨fun other member => ?_, later⟩,
      fun first member second inside => ?_⟩
    · have old := numbered other (mem_append_right _ member)
      have late := passed other member
      simp only [follows, Bool.or_eq_false_iff, Bool.and_eq_false_iff, decide_eq_false_iff_not] at late
      refine ⟨by omega, fun same => by omega, fun forced matching => ?_⟩
      rcases late.1 with free | different
      · rw [← force, free] at forced
        cases forced
      · rw [matchAddr_comm, different] at matching
        cases matching
    · rcases mem_cons.mp inside with rfl | inside
      · have old := numbered first (mem_append_left _ member)
        exact ⟨by omega, fun _ => by omega, fun _ _ => by omega⟩
      · exact across first member second inside
  · rw [forall_mem_append] at numbered
    rw [← append_assoc, forall_mem_append, forall_mem_cons, newest]
    exact ⟨fun other member => (numbered.1 other member).trans (Nat.lt_succ_self _), Nat.lt_succ_self _,
      fun other member => (numbered.2 other member).trans (Nat.lt_succ_self _)⟩
  · exact (List.Sublist.refl left).append ((List.Sublist.refl before).append (sublist_cons_self entry after))

/-- What the calls during a transmission keep. -/
structure Called (queue next : PacketQueue) : Prop where
  early : next.Early
  timed : next.Timed
  free : next.waitingOnRetry = false
  curTick : next.curTick = queue.curTick
  order : ∀ forceOrder left, Ordered forceOrder queue left →
    Ordered forceOrder next left ∧ (left ++ queue.transmitList).Sublist (left ++ next.transmitList)

theorem schedAll_cases {calls : List (Packet × Nat)} (early : queue.Early) (timed : queue.Timed)
    (free : queue.waitingOnRetry = false) (timely : ∀ call ∈ calls, queue.curTick ≤ call.2 ∧ call.2 < maxTick) :
    Ends (queue.schedAll calls) (Called queue) := by
  induction calls generalizing queue with
  | nil => exact .inr ⟨queue, rfl, early, timed, free, rfl, fun _ _ ordered => ⟨ordered, .refl _⟩⟩
  | cons call rest ih =>
    obtain ⟨future, soon⟩ := timely call mem_cons_self
    rw [schedAll, foldlM_cons]
    refine (schedSendTiming_cases call.1 early timed soon future (.inl free)).bind ?_
    rintro next ⟨before, after, emplaced⟩
    obtain ⟨waits, now⟩ := emplaced.same
    rcases ih (emplaced.early early soon) (emplaced.timed timed) (waits.trans free)
        (fun other member => now ▸ timely other (mem_cons_of_mem _ member)) with refused | ⟨final, done, called⟩
    · exact .inl refused
    · refine .inr ⟨final, done, { called with curTick := called.curTick.trans now, order := ?_ }⟩
      intro forceOrder left ordered
      obtain ⟨kept, inserted⟩ := emplaced.ordered rfl ordered
      obtain ⟨held, others⟩ := called.order forceOrder left kept
      exact ⟨held, inserted.trans others⟩

/-- The answers of the peer schedule packets before the last tick. -/
def Answer.Soon (curTick : Nat) : Answer → Prop
  | .accept calls => ∀ call ∈ calls, curTick ≤ call.2 ∧ call.2 < maxTick
  | .reject => True

/-- The packets that an answer of the peer takes out of the queue. -/
def Answer.taken (front : DeferredPacket) : Answer → List DeferredPacket
  | .accept _ => [front]
  | .reject => []

/-- A queue whose front is ready hands it to the peer and is sound afterwards, or a nested call is refused. -/
theorem sendDeferredPacket_cases {answer : Answer} (early : queue.Early) (free : queue.waitingOnRetry = false)
    (idle : queue.sendEvent = none) (ready : queue.deferredPacketReady = true) (soon : answer.Soon queue.curTick) :
    Ends (queue.sendDeferredPacket answer) fun (front, next) => front.tick ≤ queue.curTick ∧ next.Sound ∧
      ∀ forceOrder left, Ordered forceOrder queue left → Ordered forceOrder next (left ++ answer.taken front) ∧
        (left ++ queue.transmitList).Sublist (left ++ answer.taken front ++ next.transmitList) := by
  rw [sendDeferredPacket, assert_of free, ok_bind, assert_of ready, ok_bind]
  obtain ⟨front, rest, list, now⟩ := deferredPacketReady_iff.mp ready
  rw [list]
  dsimp only
  cases answer with
  | reject =>
    have same : { queue with waitingOnRetry := true, transmitList := front :: rest } =
        { queue with waitingOnRetry := true } := by rw [← list]
    refine .inr ⟨(front, { queue with waitingOnRetry := true }), by rw [sendFront, same]; rfl, now,
      ⟨{ early with }, fun scheduled event => ?_, fun _ impossible => (nomatch impossible),
        fun _ => ⟨idle, ready⟩⟩, fun forceOrder left ordered => ?_⟩
    · cases idle.symm.trans event
    · rw [Answer.taken, append_nil, ← list]
      exact ⟨{ ordered with }, .refl _⟩
  | accept calls =>
    have early' : Early { queue with transmitList := rest } :=
      ⟨early.now, fun other member => early.packets other (by rw [list]; exact mem_cons_of_mem _ member)⟩
    have timed' : Timed { queue with transmitList := rest } := by
      intro scheduled event
      cases idle.symm.trans event
    rw [sendFront, bind_assoc]
    refine (schedAll_cases early' timed' free soon).bind fun after called => ?_
    obtain ⟨next, settled, sound, same, force, count⟩ := settle called.early called.timed called.free
    refine .inr ⟨(front, next), by rw [settled]; rfl, now, sound, ?_⟩
    rintro forceOrder left ⟨forced, pairs, numbered⟩
    rw [list, append_cons] at pairs numbered
    obtain ⟨⟨kept, pairs, numbered⟩, inside⟩ := called.order forceOrder (left ++ [front]) ⟨forced, pairs, numbered⟩
    rw [Answer.taken, same, append_cons left front rest]
    exact ⟨⟨force.trans kept, by rw [same]; exact pairs, by rw [same, count]; exact numbered⟩, inside⟩

end Order

section Runs

/-- All ticks of an operation are before the last one. -/
def Op.Soon (queue : PacketQueue) : Op → Prop
  | .schedSendTiming _ when => when < maxTick
  | .sendEvent answer | .retry answer => answer.Soon queue.curTick
  | .advance tick => tick < maxTick

/-- This machine schedules packets before the last tick only. -/
def soonQueues : Machine Trace Op Fault where
  guard trace op := op.Allowed trace.queue ∧ op.Soon trace.queue
  step := queues.step

/-- The packets that the peer has accepted, followed by those that are still in the list. -/
def Trace.accepted (trace : Trace) : List DeferredPacket :=
  (trace.handed.filter fun record => record.2.2).map fun record => record.2.1

def Trace.sequence (trace : Trace) : List DeferredPacket := trace.accepted ++ trace.queue.transmitList

/-- The invariant of the runs. -/
structure Trace.Delivers (forceOrder : Bool) (trace : Trace) : Prop where
  sound : trace.queue.Sound
  ordered : Ordered forceOrder trace.queue trace.accepted
  punctual : ∀ record ∈ trace.handed, record.2.1.tick ≤ record.1

variable {forceOrder : Bool} {trace final : Trace} {op : Op}

theorem Trace.Delivers.initial (forceOrder disableSanityCheck : Bool) :
    (initial forceOrder disableSanityCheck).Delivers forceOrder := by
  refine ⟨⟨⟨?_, fun _ member => nomatch member⟩, fun _ event => (nomatch event), fun some => absurd rfl some,
    fun waiting => nomatch waiting⟩, ⟨rfl, .nil, fun _ member => nomatch member⟩, fun _ member => nomatch member⟩
  exact (by decide : 0 < maxTick)

/-- This proposition is what one operation does to a trace. -/
def Delivered (forceOrder : Bool) (trace : Trace) (result : Except Fault Trace) : Prop :=
  (∃ fault, result = .error fault ∧ Refused fault) ∨
    ∃ next, result = .ok next ∧ next.Delivers forceOrder ∧ trace.sequence.Sublist next.sequence

section
variable (delivers : trace.Delivers forceOrder)
include delivers

theorem Trace.Delivers.keep (sound : next.Sound) (order : Ordered forceOrder next trace.accepted ∧
      trace.sequence.Sublist (trace.accepted ++ next.transmitList)) :
    (trace.remember none next).Delivers forceOrder ∧ trace.sequence.Sublist (trace.remember none next).sequence := by
  have same : trace.remember none next = ⟨next, trace.handed⟩ := congrArg (Trace.mk next) (append_nil _)
  rw [same]
  exact ⟨⟨sound, order.1, delivers.punctual⟩, order.2⟩

/-- A packet that is handed to the peer keeps the invariant. -/
theorem Trace.Delivers.send {answer : Answer} (ready : trace.queue.deferredPacketReady = true)
    (soon : answer.Soon trace.queue.curTick) : Delivered forceOrder trace
      ({ trace.queue with sendEvent := none, waitingOnRetry := false }.sendDeferredPacket answer >>=
        fun (front, next) => .ok (trace.remember (some (front, decide (answer ≠ .reject))) next)) := by
  refine Ends.bind (sendDeferredPacket_cases { delivers.sound.early with } rfl rfl ready soon) ?_
  rintro ⟨front, next⟩ ⟨now, sound, order⟩
  have taken : (trace.remember (some (front, decide (answer ≠ .reject))) next).accepted =
      trace.accepted ++ answer.taken front := by
    cases answer <;> simp [Trace.accepted, Trace.remember, Answer.taken]
  obtain ⟨kept, inside⟩ := order forceOrder trace.accepted { delivers.ordered with }
  rw [← taken] at kept inside
  exact .inr ⟨_, rfl, ⟨sound, kept, forall_mem_append.mpr ⟨delivers.punctual, forall_mem_singleton.mpr now⟩⟩, inside⟩

end

theorem Sound.ready (sound : queue.Sound) (event : queue.sendEvent = some queue.curTick) :
    queue.waitingOnRetry = false ∧ queue.deferredPacketReady = true := by
  constructor
  · by_contra waiting
    cases event.symm.trans (sound.rejected (by simpa using waiting)).1
  · obtain ⟨front, rest, list, due, _⟩ := sound.timed _ event
    exact deferredPacketReady_iff.mpr ⟨front, rest, list, due⟩

theorem Sound.advance {tick : Nat} (sound : queue.Sound) (later : queue.curTick ≤ tick) (soon : tick < maxTick)
    (event : ∀ scheduled, queue.sendEvent = some scheduled → tick ≤ scheduled) :
    Sound { queue with curTick := tick } := by
  refine ⟨⟨soon, sound.early.packets⟩, fun scheduled due => ?_, sound.scheduled, fun waiting => ?_⟩
  · obtain ⟨front, rest, list, ready, bound, _⟩ := sound.timed scheduled due
    refine ⟨front, rest, list, ready, ?_, event scheduled due⟩
    dsimp only
    omega
  · obtain ⟨idle, ready⟩ := sound.rejected waiting
    obtain ⟨front, rest, list, now⟩ := deferredPacketReady_iff.mp ready
    exact ⟨idle, deferredPacketReady_iff.mpr ⟨front, rest, list, now.trans later⟩⟩

/-- An operation that is allowed keeps the invariant and all packets, or it is refused. -/
theorem Trace.Delivers.step (delivers : trace.Delivers forceOrder) (guarded : soonQueues.guard trace op) :
    Delivered forceOrder trace (soonQueues.step trace op) := by
  obtain ⟨allowed, soon⟩ := guarded
  have sound := delivers.sound
  dsimp only [soonQueues, queues]
  cases op with
  | schedSendTiming pkt when =>
    have answered : trace.queue.waitingOnRetry = false ∨ trace.queue.deferredPacketReady = true := by
      cases waiting : trace.queue.waitingOnRetry with
      | false => exact .inl rfl
      | true => exact .inr (sound.rejected waiting).2
    rw [PacketQueue.step, bind_assoc]
    refine Ends.bind (schedSendTiming_cases pkt sound.early sound.timed soon allowed.1 answered) ?_
    rintro next ⟨before, after, emplaced⟩
    exact .inr ⟨_, rfl, delivers.keep (emplaced.sound sound soon allowed.1) (emplaced.ordered rfl delivers.ordered)⟩
  | sendEvent answer =>
    obtain ⟨free, ready⟩ := sound.ready allowed.1
    have sent := delivers.send ready soon
    rw [← free] at sent
    rw [PacketQueue.step, processSendEvent, assert_of free, ok_bind, bind_assoc]
    exact sent
  | retry answer =>
    obtain ⟨idle, ready⟩ := sound.rejected allowed.1
    have sent := delivers.send ready soon
    rw [← idle] at sent
    rw [PacketQueue.step, PacketQueue.retry, assert_of allowed.1, ok_bind, bind_assoc]
    exact sent
  | advance tick =>
    exact .inr ⟨_, rfl, delivers.keep (sound.advance allowed.1 soon allowed.2.2) ⟨{ delivers.ordered with }, .refl _⟩⟩

/-- An operation that runs keeps the invariant and all packets. -/
theorem Trace.Delivers.step_ok (delivers : trace.Delivers forceOrder) (allowed : soonQueues.guard trace op)
    (stepped : soonQueues.step trace op = .ok final) :
    final.Delivers forceOrder ∧ trace.sequence.Sublist final.sequence := by
  rcases delivers.step allowed with ⟨fault, failed, _⟩ | ⟨next, ran, kept, inside⟩
  · cases stepped.symm.trans failed
  · cases stepped.symm.trans ran
    exact ⟨kept, inside⟩

theorem run_delivers {forceOrder disableSanityCheck : Bool} {history : List Op}
    (run : soonQueues.Run (initial forceOrder disableSanityCheck) history trace) : trace.Delivers forceOrder :=
  run.invariant (Trace.Delivers forceOrder) (.initial forceOrder disableSanityCheck)
    fun _ _ _ delivers allowed stepped => (delivers.step_ok allowed stepped).1

/-- In every run before the last tick, no packet is handed over before its tick and no check of the source fails, a
queue with packets waits for the peer or has scheduled its event for the front, and packets are accepted in the order of
the list, which orders equal ticks, and with `forceOrder` matching addresses, by arrival. -/
theorem packets_delivered {forceOrder disableSanityCheck : Bool} {history : List Op} {trace : Trace}
    (run : soonQueues.Run (initial forceOrder disableSanityCheck) history trace) :
    (∀ record ∈ trace.handed, record.2.1.tick ≤ record.1) ∧
    (∀ op fault, soonQueues.guard trace op → soonQueues.step trace op = .error fault → Refused fault) ∧
    (∀ front rest, trace.queue.transmitList = front :: rest →
      (trace.queue.waitingOnRetry = true ∧ trace.queue.sendEvent = none) ∨
        ∃ scheduled, trace.queue.sendEvent = some scheduled ∧ scheduled ≤ max front.tick (trace.queue.curTick + 1)) ∧
    (∀ later final, soonQueues.Run trace later final → trace.sequence.Sublist final.sequence) ∧
    trace.sequence.Pairwise (InOrder forceOrder) := by
  have delivers := run_delivers run
  refine ⟨delivers.punctual, fun op fault allowed failed => ?_, fun front rest list => ?_, fun later final onward => ?_, ?_⟩
  · rcases delivers.step allowed with ⟨other, same, refused⟩ | ⟨next, ran, _⟩
    · cases failed.symm.trans same
      exact refused
    · cases failed.symm.trans ran
  · cases waiting : trace.queue.waitingOnRetry with
    | true => exact .inl ⟨rfl, (delivers.sound.rejected waiting).1⟩
    | false =>
      obtain ⟨scheduled, event⟩ := Option.ne_none_iff_exists'.mp
        (delivers.sound.scheduled (by rw [list]; exact cons_ne_nil _ _) waiting)
      obtain ⟨other, others, same, _, bound, _⟩ := delivers.sound.timed scheduled event
      obtain ⟨rfl, _⟩ : front = other ∧ _ := cons.inj (list.symm.trans same)
      exact .inr ⟨scheduled, event, bound⟩
  · refine (onward.invariant (fun other => other.Delivers forceOrder ∧ trace.sequence.Sublist other.sequence)
      ⟨delivers, .refl _⟩ fun state op next held allowed stepped => ?_).2
    exact (held.1.step_ok allowed stepped).imp_right held.2.trans
  · exact delivers.ordered.pairs

/-- A packet for the address of the front stays behind it, and the peer rejects the front once and then schedules another
packet. -/
theorem packets_delivered_retry : ∃ trace, soonQueues.Run (initial true false)
      [.retry (.accept [(.atZero 3 .readReq rfl 8 0, 7)]), .sendEvent .reject, .advance 5,
        .schedSendTiming (.atZero 2 .readReq rfl 8 0) 3, .schedSendTiming (.atZero 1 .readReq rfl 8 0) 5] trace ∧
    trace.handed.map (fun record => (record.1, record.2.1.tick, record.2.2)) = [(5, 5, false), (5, 5, true)] ∧
    trace.queue.transmitList.map (fun entry => (entry.tick, entry.arrival)) = [(3, 1), (7, 2)] ∧
    trace.queue.sendEvent = some 6 ∧ trace.sequence.Pairwise (InOrder true) := by
  have five : 5 < maxTick := by decide
  have seven : 7 < maxTick := by decide
  refine ⟨_, and_of_imp (.cons (.cons (.cons (.cons (.cons .nil ⟨⟨Nat.zero_le _, five.le⟩, five⟩ rfl)
    ⟨⟨Nat.zero_le _, ?_⟩, ?_⟩ rfl) ⟨⟨Nat.zero_le _, five.le, ?_⟩, five⟩ rfl) ⟨⟨rfl, trivial⟩, trivial⟩ rfl)
    ⟨⟨rfl, ?_⟩, ?_⟩ rfl) fun run => ⟨rfl, rfl, rfl, (packets_delivered run).2.2.2.2⟩⟩
  · exact (by decide : 3 ≤ maxTick)
  · exact (by decide : 3 < maxTick)
  · intro scheduled event
    exact (Option.some.inj event).le
  · intro call member
    rw [mem_singleton.mp member]
    exact ⟨(by decide : 5 ≤ 7), seven.le⟩
  · intro call member
    rw [mem_singleton.mp member]
    exact ⟨(by decide : 5 ≤ 7), seven⟩

/-- A packet for the last tick stays in the list of an empty queue without an event. -/
theorem packets_delivered_never : ∃ trace, queues.Run (initial false false)
      [.schedSendTiming (.atZero 1 .readReq rfl 8 0) maxTick] trace ∧
    trace.queue.transmitList ≠ [] ∧ trace.queue.waitingOnRetry = false ∧ trace.queue.sendEvent = none :=
  ⟨_, .cons .nil ⟨Nat.zero_le _, Nat.le_refl _⟩ rfl, cons_ne_nil _ _, rfl, rfl⟩

end Runs
end PacketQueue
end Gem5
