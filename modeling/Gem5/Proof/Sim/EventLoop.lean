import Gem5.Proof.Sim.CalendarRefinement

namespace Gem5.Sim
open ToMathlib CalendarLoop Function

theorem Entry.when_le_of_key_le {left right : Entry} (ordered : left.key ≤ right.key) : left.when ≤ right.when := by
  rcases Prod.Lex.toLex_le_toLex.mp ordered with earlier | ⟨equal, _⟩
  · exact earlier.le
  · exact equal.le

theorem Entry.when_eq_of_key_eq {left right : Entry} (equal : left.key = right.key) : left.when = right.when :=
  le_antisymm (when_le_of_key_le equal.le) (when_le_of_key_le equal.ge)

theorem insertedAt_le_length (event : EventPtr) (history : List LoopOp) :
    insertedAt event history ≤ history.length := by
  induction history with
  | nil => rfl
  | cons op history ih =>
    unfold insertedAt
    split
    · rfl
    · exact ih.trans (Nat.le_succ _)

namespace Calendar
variable {calendar next : Calendar} {op : LoopOp} {queue : QueuePtr} {event : EventPtr}

section
variable (effect : Effect calendar next op)
include effect

/-- A pending list loses events, keeps the keys of the others, and gains at most the inserted event. -/
theorem Effect.lists (queue : QueuePtr) :
    ∃ kept, kept.Sublist (calendar.pending queue) ∧
      (∀ event ∈ kept, (next.entries event).key = (calendar.entries event).key ∧
        op.inserts.map Prod.snd ≠ some event) ∧
      (next.pending queue = kept ∨ ∃ event, op.inserts = some (queue, event) ∧
        next.pending queue = List.orderedInsert
          (fun left right => (next.entries left).key ≤ (next.entries right).key) event kept) := by
  cases effect with
  | idle quiet pending now keys =>
    refine ⟨calendar.pending queue, List.Sublist.refl _, fun event member => ?_, Or.inl (by rw [pending])⟩
    exact ⟨keys queue event member, by simp [quiet]⟩
  | @enter _ target entered base inserts start absent timely pending now keys =>
    have fewer : (base queue).Sublist (calendar.pending queue) := by
      rcases start with rfl | rfl
      · exact List.Sublist.refl _
      · by_cases same : queue = target
        · subst same
          simpa [without] using List.erase_sublist
        · simp [without, update_of_ne same]
    refine ⟨base queue, fewer, fun event member => ?_, ?_⟩
    · have different : event ≠ entered := fun same => absent queue (same ▸ member)
      exact ⟨keys event different, by simpa [inserts] using Ne.symm different⟩
    · by_cases same : queue = target
      · subst same
        exact Or.inr ⟨entered, inserts, by rw [pending, update_self]⟩
      · exact Or.inl (by rw [pending, update_of_ne same])
  | leave quiet target gone pending now keys =>
    refine ⟨next.pending queue, ?_, fun event _ => ⟨keys event, by simp [quiet]⟩, Or.inl rfl⟩
    rw [pending]
    by_cases same : queue = target
    · subst same
      simpa [without] using List.erase_sublist
    · simp [without, update_of_ne same]
  | @serve target served rest first pending now keys =>
    refine ⟨next.pending queue, ?_, fun event _ => ⟨keys event, by simp [LoopOp.inserts]⟩, Or.inl rfl⟩
    rw [pending]
    by_cases same : queue = target
    · subst same
      simp [first]
    · simp [update_of_ne same]

/-- A pending event was inserted by the operation or was pending before it with the same key. -/
theorem Effect.pending_back (member : event ∈ next.pending queue) :
    op.inserts = some (queue, event) ∨
      (event ∈ calendar.pending queue ∧ (next.entries event).key = (calendar.entries event).key) := by
  obtain ⟨kept, fewer, keys, same | ⟨entered, inserts, inserted⟩⟩ := effect.lists queue
  · rw [same] at member
    exact Or.inr ⟨fewer.subset member, (keys event member).1⟩
  · rw [inserted, List.mem_orderedInsert] at member
    rcases member with rfl | member
    · exact Or.inl inserts
    · exact Or.inr ⟨fewer.subset member, (keys event member).1⟩

/-- Every pending event is due at the clock of its queue or later. -/
def Timely (calendar : Calendar) : Prop :=
  ∀ queue, ∀ event ∈ calendar.pending queue, calendar.now queue ≤ (calendar.entries event).when

/-- The clock follows the first pending event, which has the smallest key. -/
theorem Effect.timely (valid : calendar.Valid none)
    (timely : calendar.Timely) : next.Timely := by
  intro queue event member
  have back := effect.pending_back member
  have before : event ∈ calendar.pending queue → (next.entries event).key = (calendar.entries event).key →
      calendar.now queue ≤ (next.entries event).when := by
    intro inside keys
    rw [Entry.when_eq_of_key_eq keys]
    exact timely queue event inside
  cases effect with
  | idle quiet pending now keys | leave quiet target gone pending now keys =>
    rw [now]
    obtain ⟨inside, same⟩ := back.resolve_left (by simp [quiet])
    exact before inside same
  | enter inserts start absent due pending now keys =>
    rw [now]
    rcases back with again | ⟨inside, same⟩
    · obtain ⟨rfl, rfl⟩ : _ ∧ _ := by simpa [inserts] using again
      exact due
    · exact before inside same
  | @serve target served rest first pending now keys =>
    obtain ⟨inside, same⟩ := back.resolve_left (by simp [LoopOp.inserts])
    rcases now with now | now
    · rw [now]
      exact before inside same
    by_cases equal : queue = target
    · subst equal
      rw [now, update_self, Entry.when_eq_of_key_eq same]
      have sorted := valid.sorted queue
      rw [first, List.pairwise_cons] at sorted
      rw [pending, update_self] at member
      exact Entry.when_le_of_key_le (sorted.1 event member)
    · rw [now, update_of_ne equal]
      exact before inside same

theorem Effect.now_mono (timely : calendar.Timely) (queue : QueuePtr) : calendar.now queue ≤ next.now queue := by
  cases effect with
  | idle quiet pending now keys | enter inserts start absent due pending now keys
  | leave quiet target gone pending now keys =>
    rw [now]
  | @serve target served rest first pending now keys =>
    rcases now with now | now
    · rw [now]
    · by_cases equal : queue = target
      · subst equal
        rw [now, update_self]
        exact timely queue served (by simp [first])
      · rw [now, update_of_ne equal]

/-- Among pending events of one key, the one inserted last comes first. -/
def NewestFirst (history : List LoopOp) (calendar : Calendar) : Prop :=
  ∀ queue, (calendar.pending queue).Pairwise fun left right =>
    (calendar.entries left).key = (calendar.entries right).key → insertedAt right history < insertedAt left history

/-- An insertion puts the newest event before the pending events of its key. -/
theorem Effect.newestFirst {history : List LoopOp}
    (valid : calendar.Valid none) (newest : calendar.NewestFirst history) :
    next.NewestFirst (op :: history) := by
  intro queue
  obtain ⟨kept, fewer, keys, outcome⟩ := effect.lists queue
  have dated : ∀ event ∈ kept, insertedAt event (op :: history) = insertedAt event history :=
    fun event member => if_neg (keys event member).2
  have pairs : kept.Pairwise fun left right => (next.entries left).key = (next.entries right).key →
      insertedAt right (op :: history) < insertedAt left (op :: history) := by
    refine ((newest queue).sublist fewer).imp_of_mem fun {left right} first second earlier equal => ?_
    rw [dated left first, dated right second]
    rw [(keys left first).1, (keys right second).1] at equal
    exact earlier equal
  rcases outcome with same | ⟨entered, inserts, inserted⟩
  · rwa [same]
  have sorted : kept.Pairwise fun left right => (next.entries left).key ≤ (next.entries right).key := by
    refine ((valid.sorted queue).sublist fewer).imp_of_mem fun {left right} first second ordered => ?_
    rwa [(keys left first).1, (keys right second).1]
  rw [inserted]
  refine pairwise_orderedInsert pairs sorted (fun other _ smaller equal => absurd equal smaller.ne) ?_
  intro other member _ _
  have latest : insertedAt entered (op :: history) = history.length + 1 := if_pos (by simp [inserts])
  rw [dated other member, latest]
  exact Nat.lt_succ_of_le (insertedAt_le_length other history)

end

end Calendar

section Runs
variable {history : List LoopOp} {loop final : CalendarLoop} {queue : QueuePtr} {event : EventPtr}

/-- These invariants hold after every run. -/
structure CalendarLoop.Reached (history : List LoopOp) (loop : CalendarLoop) : Prop where
  valid : loop.calendar.Valid none
  timely : loop.calendar.Timely
  newest : loop.calendar.NewestFirst history

theorem CalendarLoop.reached_initial : initial.Reached [] :=
  ⟨Calendar.Valid.start, fun _ _ member => by simp [initial, Calendar.initial] at member, fun _ => List.Pairwise.nil⟩

theorem CalendarLoop.Reached.step {op : LoopOp} (reached : loop.Reached history)
    (stepped : loop.step op = .ok final) : final.Reached (op :: history) := by
  obtain ⟨valid, effect⟩ := step_effect reached.valid stepped
  exact ⟨valid, effect.timely reached.valid reached.timely, effect.newestFirst reached.valid reached.newest⟩

theorem CalendarLoop.reached_of_run (run : calendarLoop.Run initial history loop) : loop.Reached history :=
  run.induct (fun history loop => loop.Reached history) reached_initial
    fun _ _ _ _ _ held _ stepped => held.step stepped

/-- Clocks only advance along a run. -/
theorem CalendarLoop.now_mono {more : List LoopOp} (reached : loop.Reached history)
    (run : calendarLoop.Run loop more final) (queue : QueuePtr) :
    loop.calendar.now queue ≤ final.calendar.now queue := by
  refine (run.invariant (fun state : CalendarLoop => (∃ history, state.Reached history) ∧
    loop.calendar.now queue ≤ state.calendar.now queue) ⟨⟨history, reached⟩, le_rfl⟩ ?_).2
  rintro state op next ⟨⟨past, held⟩, before⟩ _ stepped
  refine ⟨⟨op :: past, held.step stepped⟩, before.trans ?_⟩
  exact (step_effect held.valid stepped).2.now_mono held.timely queue

/-- An event pending at the end of a run was inserted during it or was pending at its start. -/
theorem CalendarLoop.pending_back {more : List LoopOp} (reached : loop.Reached history)
    (run : calendarLoop.Run loop more final) (member : event ∈ final.calendar.pending queue) :
    (∃ op ∈ more, op.inserts = some (queue, event)) ∨ (event ∈ loop.calendar.pending queue ∧
        (final.calendar.entries event).key = (loop.calendar.entries event).key) := by
  have held := run.induct (fun more state => (∃ past, state.Reached past) ∧
    ∀ event ∈ state.calendar.pending queue, (∃ op ∈ more, op.inserts = some (queue, event)) ∨
      (event ∈ loop.calendar.pending queue ∧ (state.calendar.entries event).key = (loop.calendar.entries event).key))
    ⟨⟨history, reached⟩, fun event member => Or.inr ⟨member, rfl⟩⟩ ?_
  · exact held.2 event member
  · rintro more state op next _ ⟨⟨past, held⟩, back⟩ _ stepped
    refine ⟨⟨op :: past, held.step stepped⟩, fun event member => ?_⟩
    rcases (step_effect held.valid stepped).2.pending_back member with now | ⟨before, same⟩
    · exact Or.inl ⟨op, by simp, now⟩
    · rcases back event before with ⟨earlier, inside, inserts⟩ | ⟨start, key⟩
      · exact Or.inl ⟨earlier, by simp [inside], inserts⟩
      · exact Or.inr ⟨start, same.trans key⟩

end Runs

open EventLoop
variable {history : List LoopOp} {loop : EventLoop} {sim : Simulator} {calendar : Calendar}

/-- The bins of the queue hold its scheduled events exactly once and in order. -/
structure Represents (sim : Simulator) (queue : QueuePtr) (bins : List (List EventPtr)) : Prop where
  walk : BinsFrom sim.events (sim.queues queue).head bins
  binned : Binned (keyAt sim.events) bins
  once : bins.flatten.Nodup
  member : ∀ event, event ∈ bins.flatten ↔ (sim.events event).scheduled ∧ (sim.events event).queue = some queue

/-- The first event leaves before every larger key and every older event of its own key. -/
structure ServedFirst (history : List LoopOp) (sim : Simulator) (queue : QueuePtr) (event : EventPtr) : Prop where
  scheduled : (sim.events event).scheduled
  owner : (sim.events event).queue = some queue
  least : ∀ other, (sim.events other).scheduled → (sim.events other).queue = some queue →
    keyAt sim.events event ≤ keyAt sim.events other
  newest : ∀ other, (sim.events other).scheduled → (sim.events other).queue = some queue → other ≠ event →
    keyAt sim.events other = keyAt sim.events event → insertedAt other history < insertedAt event history

/-- A twin may differ in the `nextBin` of the events that are not the top of a bin. -/
structure StaleTwin (sim twin : Simulator) : Prop where
  entry : ∀ event, (twin.events event).entry = (sim.events event).entry
  inBin : ∀ event, (twin.events event).nextInBin = (sim.events event).nextInBin
  counter : twin.instanceCounter = sim.instanceCounter
  queues : twin.queues = sim.queues
  top : ∀ queue bins, BinsFrom sim.events (sim.queues queue).head bins →
    ∀ bin ∈ bins, ∀ top ∈ bin.head?, (twin.events top).nextBin = (sim.events top).nextBin

/-- Two loops look alike when they hold the same entries, clocks and bins. -/
structure SameView (left right : EventLoop) : Prop where
  active : left.active = right.active
  entry : ∀ event, (left.sim.events event).entry = (right.sim.events event).entry
  counter : left.sim.instanceCounter = right.sim.instanceCounter
  tick : ∀ queue, (left.sim.queues queue).curTick = (right.sim.queues queue).curTick
  bins : ∀ queue, ∃ bins, BinsFrom left.sim.events (left.sim.queues queue).head bins ∧
    BinsFrom right.sim.events (right.sim.queues queue).head bins

/-- Every run of the event loop is a run of the calendar loop. -/
theorem LoopRefines.run {start : EventLoop} {base : CalendarLoop} (related : LoopRefines start base)
    (run : eventLoop.Run start history loop) :
    ∃ model, calendarLoop.Run base history model ∧ LoopRefines loop model :=
  run.simulate LoopRefines related (fun _ _ _ refines allowed => refines.guard.mp allowed)
    fun _ _ op refines _ => refines.step op

namespace Refines

section
variable (refines : Refines sim calendar) {queue : QueuePtr} {event : EventPtr}
include refines

theorem mem_pending (valid : calendar.Valid none) : event ∈ calendar.pending queue ↔
    (sim.events event).scheduled ∧ (sim.events event).queue = some queue := by
  rw [valid.member queue event, refines.queueOf, ← refines.scheduled_iff]
  simp

/-- A valid calendar makes the linked bins represent the queue. -/
theorem represents (valid : calendar.Valid none) (queue : QueuePtr) :
    ∃ bins, Represents sim queue bins ∧ calendar.pending queue = bins.flatten := by
  obtain ⟨bins, linked, spelled⟩ := refines.linked
  refine ⟨bins queue, ⟨linked.walk queue, linked.binned queue, linked.distinct queue, fun event => ?_⟩, spelled queue⟩
  rw [← spelled queue]
  exact refines.mem_pending valid

theorem key (event : EventPtr) : keyAt sim.events event = (calendar.entries event).key := by
  rw [refines.entries]
  rfl

/-- The popped event is the first pending one. -/
theorem popHead_first {next : Simulator} (popped : Sim.popHead sim queue = .ok (event, next)) :
    ∃ rest, calendar.pending queue = event :: rest := by
  obtain ⟨result, taken, same, _⟩ := refines.popHead.exists_ok popped
  obtain ⟨other, rest, first, rfl⟩ := Calendar.take_eq_ok.mp taken
  obtain rfl : event = other := same
  exact ⟨rest, first⟩

theorem servedFirst {next : Simulator} (valid : calendar.Valid none) (newest : calendar.NewestFirst history)
    (popped : Sim.popHead sim queue = .ok (event, next)) : ServedFirst history sim queue event := by
  obtain ⟨rest, first⟩ := refines.popHead_first popped
  obtain ⟨held, owned⟩ := (refines.mem_pending valid).mp (by rw [first]; exact List.mem_cons_self)
  have sorted := valid.sorted queue
  have dated := newest queue
  rw [first, List.pairwise_cons] at sorted dated
  have later : ∀ other, (sim.events other).scheduled → (sim.events other).queue = some queue → other ≠ event →
      other ∈ rest := by
    intro other scheduled owner different
    have member := (refines.mem_pending valid).mpr ⟨scheduled, owner⟩
    rw [first, List.mem_cons] at member
    exact member.resolve_left different
  refine ⟨held, owned, ?_, ?_⟩
  · intro other scheduled owner
    by_cases same : other = event
    · rw [same]
    · rw [refines.key, refines.key]
      exact sorted.1 other (later other scheduled owner same)
  · intro other scheduled owner different equal
    rw [refines.key, refines.key] at equal
    exact dated.1 other (later other scheduled owner different) equal.symm

/-- A twin refines the same calendar. -/
theorem twin {other : Simulator} (twin : StaleTwin sim other) : Refines other calendar := by
  obtain ⟨bins, linked, spelled⟩ := refines.linked
  refine ⟨⟨bins, ⟨fun queue => ?_, fun queue => ?_, linked.distinct, fun queue event member => ?_, ?_⟩, spelled⟩,
    fun event => ?_, refines.count.trans twin.counter.symm, fun queue => ?_⟩
  · rw [twin.queues]
    exact (linked.walk queue).congr_top (fun event _ => twin.inBin event)
      (twin.top queue (bins queue) (linked.walk queue))
  · exact (linked.binned queue).congr fun event _ => keyAt_congr (twin.entry event)
  · rw [← linked.owner queue event member]
    exact congrArg Entry.queue (twin.entry event)
  · rw [twin.counter]
    exact linked.inside
  · rw [refines.entries, twin.entry]
  · rw [twin.queues]
    exact refines.now queue

end

end Refines

/-- Loops that refine one calendar loop look alike. -/
theorem LoopRefines.sameView {left right : EventLoop} {model : CalendarLoop} (one : LoopRefines left model)
    (two : LoopRefines right model) : SameView left right := by
  obtain ⟨bins, linked, spelled⟩ := one.sim.linked
  obtain ⟨more, joined, again⟩ := two.sim.linked
  have entry : ∀ event, (left.sim.events event).entry = (right.sim.events event).entry :=
    fun event => (one.sim.entries event).symm.trans (two.sim.entries event)
  refine ⟨one.active.trans two.active.symm, entry, one.sim.count.symm.trans two.sim.count,
    fun queue => (one.sim.now queue).symm.trans (two.sim.now queue), fun queue => ?_⟩
  have keyed : Binned (keyAt right.sim.events) (bins queue) :=
    (linked.binned queue).congr fun event _ => keyAt_congr (entry event).symm
  have same : bins queue = more queue := keyed.unique (joined.binned queue) ((spelled queue).symm.trans (again queue))
  exact ⟨bins queue, linked.walk queue, same ▸ joined.walk queue⟩

/-- Loops that refine one calendar loop keep looking alike through any operations. -/
theorem LoopRefines.perform {left right : EventLoop} {model : CalendarLoop} (one : LoopRefines left model)
    (two : LoopRefines right model) (ops : List LoopOp) :
    Agree SameView (left.perform ops) (right.perform ops) := by
  induction ops generalizing left right model with
  | nil => exact one.sameView two
  | cons op rest ih =>
    have both : Agree (fun next other => ∃ model, LoopRefines next model ∧ LoopRefines other model)
        (left.step op) (right.step op) :=
      (one.step op).through (fun _ middle _ first second => ⟨middle, first, second⟩) (two.step op).swap
    exact both.bind fun next other ⟨_, first, second⟩ => ih first second

/-- A queue keeps its scheduled events in increasing bins, removes any of them, and serves the least
key with the newest insertion first, whatever the stale links hold. -/
theorem eventQueue_represents (run : eventLoop.Run initial history loop) :
    (∀ queue, ∃ bins, Represents loop.sim queue bins) ∧
    (∀ event, (loop.sim.events event).scheduled → ∃ queue, (loop.sim.events event).queue = some queue) ∧
    (∀ queue event, (loop.sim.events event).scheduled → (loop.sim.events event).queue = some queue →
      ∃ next, remove loop.sim queue event = .ok next) ∧
    (∀ queue, (∃ event, (loop.sim.events event).scheduled ∧ (loop.sim.events event).queue = some queue) →
      ∃ event next, popHead loop.sim queue = .ok (event, next)) ∧
    (∀ queue event next, popHead loop.sim queue = .ok (event, next) → ServedFirst history loop.sim queue event) ∧
    (∀ twin, StaleTwin loop.sim twin → ∀ ops,
      Agree SameView (loop.perform ops) (perform ⟨twin, loop.active⟩ ops)) := by
  obtain ⟨model, reached, refines⟩ := LoopRefines.start.run run
  have held := reached_of_run reached
  refine ⟨fun queue => ?_, fun event scheduled => ?_, fun queue event scheduled owner => ?_, ?_, ?_, ?_⟩
  · obtain ⟨bins, represents, _⟩ := refines.sim.represents refines.valid queue
    exact ⟨bins, represents⟩
  · have owned := refines.valid.owned event (by simp) ((refines.sim.scheduled_iff event).mp scheduled)
    rw [refines.sim.queueOf] at owned
    exact Option.ne_none_iff_exists'.mp owned
  · obtain ⟨next, done, _⟩ := refines.sim.removed ((refines.sim.mem_pending refines.valid).mpr ⟨scheduled, owner⟩)
    exact ⟨next, done⟩
  · rintro queue ⟨event, owned⟩
    have member := (refines.sim.mem_pending refines.valid).mpr owned
    obtain ⟨first, rest, pending⟩ := List.exists_cons_of_ne_nil (List.ne_nil_of_mem member)
    exact ⟨first, _, by rw [popHead, refines.sim.head_eq, pending]; rfl⟩
  · exact fun queue event next popped => refines.sim.servedFirst refines.valid held.newest popped
  · intro twin stale ops
    have other : LoopRefines ⟨twin, loop.active⟩ model := { refines with sim := refines.sim.twin stale }
    exact refines.perform other ops

/-- This history schedules two events of one key. -/
def equalKeys : List LoopOp :=
  [.call (.schedule 0 2 5), .call (.schedule 0 1 5), .call (.construct 0 0#16), .call (.construct 0 0#16)]

/-- Of two events of one key, the one scheduled last is served first. -/
theorem eventQueue_represents_equalKeys : ∃ loop, eventLoop.Run initial equalKeys loop ∧
    ServedFirst equalKeys loop.sim 0 2 := by
  obtain ⟨loop, run, next, popped⟩ : ∃ loop, eventLoop.Run initial equalKeys loop ∧
      ∃ next, popHead loop.sim 0 = .ok (2, next) :=
    ⟨_, .cons (.cons (.cons (.cons .nil trivial rfl) trivial rfl) trivial rfl) trivial rfl, _, rfl⟩
  exact ⟨loop, run, (eventQueue_represents run).2.2.2.2.1 0 2 next popped⟩

/-- Queued events are never due before the clock, the clock never goes back, and an event served after
one of a larger key was inserted after that one was served. -/
theorem eventQueue_time (run : eventLoop.Run initial history loop) :
    (∀ queue bins, BinsFrom loop.sim.events (loop.sim.queues queue).head bins → ∀ event ∈ bins.flatten,
      (loop.sim.queues queue).curTick ≤ (loop.sim.events event).when) ∧
    (∀ more later, eventLoop.Run loop more later → ∀ queue,
      (loop.sim.queues queue).curTick ≤ (later.sim.queues queue).curTick) ∧
    (∀ queue first popped after more later second rest, popHead loop.sim queue = .ok (first, popped) →
      loop.step (.begin queue) = .ok after → eventLoop.Run after more later →
      popHead later.sim queue = .ok (second, rest) →
      keyAt later.sim.events second < keyAt loop.sim.events first →
      ∃ op ∈ more, op.inserts = some (queue, second)) := by
  obtain ⟨model, reached, refines⟩ := LoopRefines.start.run run
  have held := reached_of_run reached
  refine ⟨?_, ?_, ?_⟩
  · intro queue bins walk event member
    obtain ⟨same, represents, pending⟩ := refines.sim.represents refines.valid queue
    rw [walk.unique represents.walk, ← pending] at member
    have due := held.timely queue event member
    rw [refines.sim.now, refines.sim.entries] at due
    exact due
  · intro more later onward queue
    obtain ⟨last, moved, final⟩ := refines.run onward
    have grown := now_mono held moved queue
    rwa [refines.sim.now, final.sim.now] at grown
  · intro queue first popped after more later second rest taken stepped onward again smaller
    obtain ⟨base, served, related⟩ := (refines.step (.begin queue)).exists_ok stepped
    obtain ⟨last, moved, final⟩ := related.run onward
    have start : base.Reached (.begin queue :: history) := held.step served
    obtain ⟨tail, pending⟩ := final.sim.popHead_first again
    have member : second ∈ last.calendar.pending queue := by simp [pending]
    refine (pending_back start moved member).resolve_right ?_
    rintro ⟨inside, kept⟩
    obtain ⟨before, same⟩ := ((step_effect held.valid served).2.pending_back inside).resolve_left
      (by simp [LoopOp.inserts])
    have least := (refines.sim.servedFirst refines.valid held.newest taken).least second
    have waiting := (refines.sim.mem_pending refines.valid).mp before
    have ordered := least waiting.1 waiting.2
    rw [final.sim.key, kept, same, ← refines.sim.key] at smaller
    exact absurd smaller (not_lt.mpr ordered)

/-- A handler at tick five schedules an event of a smaller priority at the same tick. -/
theorem eventQueue_time_sameTick : ∃ loop after later, eventLoop.Run initial
      [.call (.schedule 0 1 5), .call (.construct (-1) 0#16), .call (.construct 0 0#16)] loop ∧
    eventLoop.Run after [.finish, .call (.schedule 0 2 5)] later ∧
    keyAt later.sim.events 2 < keyAt loop.sim.events 1 ∧
    ∃ op ∈ [LoopOp.finish, .call (.schedule 0 2 5)], op.inserts = some (0, 2) := by
  obtain ⟨loop, run, popped, taken, after, stepped, later, onward, rest, again, smaller⟩ : ∃ loop,
      eventLoop.Run initial
        [.call (.schedule 0 1 5), .call (.construct (-1) 0#16), .call (.construct 0 0#16)] loop ∧
      ∃ popped, popHead loop.sim 0 = .ok (1, popped) ∧
      ∃ after, loop.step (.begin 0) = .ok after ∧
      ∃ later, eventLoop.Run after [.finish, .call (.schedule 0 2 5)] later ∧
      ∃ rest, popHead later.sim 0 = .ok (2, rest) ∧ keyAt later.sim.events 2 < keyAt loop.sim.events 1 :=
    ⟨_, .cons (.cons (.cons .nil trivial rfl) trivial rfl) trivial rfl, _, rfl, _, rfl, _,
      .cons (.cons .nil trivial rfl) (by simp [eventLoop, EventLoop.guard]) rfl, _, rfl, by decide⟩
  exact ⟨loop, after, later, run, onward, smaller,
    (eventQueue_time run).2.2 0 1 popped after _ later 2 rest taken stepped onward again smaller⟩

end Gem5.Sim
