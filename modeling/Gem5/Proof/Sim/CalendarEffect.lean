import Gem5.Construction.Sim.Calendar
import Gem5.ToMathlib.Bins

namespace Gem5.Sim
open ToMathlib Calendar Function

section Flags
variable {flags mask other : FlagsType}

/-- A change of one mask keeps the bits of a disjoint mask. -/
theorem and_setFlag (apart : mask &&& other = 0#16) : setFlag flags mask &&& other = flags &&& other := by
  ext index inside
  have bit := congrArg (fun word => word.getLsbD index) apart
  simp [setFlag] at bit ⊢
  grind

theorem and_clearFlag (apart : mask &&& other = 0#16) : clearFlag flags mask &&& other = flags &&& other := by
  ext index inside
  have bit := congrArg (fun word => word.getLsbD index) apart
  simp [clearFlag] at bit ⊢
  grind

theorem isSet_setFlag_self (nonzero : mask ≠ 0#16) : isSet (setFlag flags mask) mask := by
  have whole : setFlag flags mask &&& mask = mask := by
    ext index inside
    simp [setFlag]
    grind
  rwa [isSet, whole]

theorem isSet_clearFlag_self : ¬ isSet (clearFlag flags mask) mask := by
  have none : clearFlag flags mask &&& mask = 0#16 := by
    ext index inside
    simp [clearFlag]
  simp [isSet, none]

theorem and_eq_zero_of_part (clear : ¬ isSet flags other) (part : mask &&& other = mask) : flags &&& mask = 0#16 := by
  have none : flags &&& other = 0#16 := not_not.mp clear
  rw [← part, BitVec.and_comm mask other, ← BitVec.and_assoc, none, BitVec.zero_and]

theorem isSet_congr (same : flags &&& mask = other &&& mask) : isSet flags mask ↔ isSet other mask := by
  rw [isSet, isSet, same]

variable (flags)

theorem scheduled_clearSquashed : isSet (clearFlag flags Squashed) Scheduled ↔ isSet flags Scheduled :=
  isSet_congr (and_clearFlag (by decide))

theorem scheduled_setSquashed : isSet (setFlag flags Squashed) Scheduled ↔ isSet flags Scheduled :=
  isSet_congr (and_setFlag (by decide))

theorem initMask_clearSquashed : clearFlag flags Squashed &&& InitMask = flags &&& InitMask := and_clearFlag (by decide)

theorem initMask_setSquashed : setFlag flags Squashed &&& InitMask = flags &&& InitMask := and_setFlag (by decide)

theorem initMask_clearScheduled : clearFlag flags Scheduled &&& InitMask = flags &&& InitMask :=
  and_clearFlag (by decide)

end Flags

namespace Calendar
variable {calendar next : Calendar} {queue : QueuePtr} {event : EventPtr} {when : Tick}
  {change : FlagsType → FlagsType}

@[simp] theorem setFlags_self : (calendar.setFlags event change).entries event =
      { calendar.entries event with flags := change (calendar.entries event).flags } := by
  simp [setFlags]

theorem setFlags_of_ne {other : EventPtr} (different : other ≠ event) :
    (calendar.setFlags event change).entries other = calendar.entries other :=
  update_of_ne different _ _

@[simp] theorem setFlags_pending : (calendar.setFlags event change).pending = calendar.pending := rfl

@[simp] theorem setFlags_now : (calendar.setFlags event change).now = calendar.now := rfl

@[simp] theorem add_self : (calendar.add queue event when).entries event =
    ⟨when, (calendar.entries event).priority, (calendar.entries event).flags, some queue⟩ := by
  simp [add]

theorem add_of_ne {other : EventPtr} (different : other ≠ event) :
    (calendar.add queue event when).entries other = calendar.entries other :=
  update_of_ne different _ _

/-- A change of flags keeps the key and the queue of every event. -/
theorem setFlags_key (other : EventPtr) :
    ((calendar.setFlags event change).entries other).key = (calendar.entries other).key := by
  by_cases same : other = event
  · subst same
    simp [Entry.key]
  · rw [setFlags_of_ne same]

theorem setFlags_queue (other : EventPtr) :
    ((calendar.setFlags event change).entries other).queue = (calendar.entries other).queue := by
  by_cases same : other = event
  · subst same
    simp
  · rw [setFlags_of_ne same]

/-- Every scheduled event outside the hole is pending exactly once in its own queue. -/
structure Valid (calendar : Calendar) (hole : Option EventPtr) : Prop where
  member : ∀ queue event, event ∈ calendar.pending queue ↔
    hole ≠ some event ∧ isSet (calendar.entries event).flags Scheduled ∧ (calendar.entries event).queue = some queue
  owned : ∀ event, hole ≠ some event → isSet (calendar.entries event).flags Scheduled →
    (calendar.entries event).queue ≠ none
  counted : ∀ event, isSet (calendar.entries event).flags Scheduled ∨
    (calendar.entries event).flags &&& InitMask = Initialized → event ∈ Finset.Icc 1 calendar.count
  distinct : ∀ queue, (calendar.pending queue).Nodup
  sorted : ∀ queue, (calendar.pending queue).Pairwise fun left right =>
    (calendar.entries left).key ≤ (calendar.entries right).key

namespace Valid

theorem start : initial.Valid none := by
  refine ⟨?_, ?_, ?_, fun _ => List.nodup_nil, fun _ => List.Pairwise.nil⟩
  · simp [initial, Simulator.initial, Event.make, Event.entry]
  · simp [initial, Simulator.initial, Event.entry, isSet]
  · intro event
    have idle : ¬ isSet (0#16) Scheduled := by decide
    have blank : ¬ (0#16 &&& InitMask = Initialized) := by decide
    simp only [initial, Simulator.initial, Event.entry, idle, blank, or_self, false_imp_iff]

/-- An event that is not scheduled may become the hole. -/
theorem idle (valid : calendar.Valid none) (idle : ¬ isSet (calendar.entries event).flags Scheduled) :
    calendar.Valid (some event) := by
  refine { valid with member := fun queue other => ?_, owned := fun other _ => valid.owned other (by simp) }
  rw [valid.member queue other]
  refine ⟨fun holds => ⟨?_, holds.2⟩, fun holds => ⟨by simp, holds.2⟩⟩
  rintro same
  obtain rfl : event = other := Option.some.inj same
  exact idle holds.2.1

/-- A dropped event becomes the hole. -/
theorem dropped (valid : calendar.Valid none) (member : event ∈ calendar.pending queue) :
    (calendar.drop queue event).Valid (some event) := by
  have owner := ((valid.member queue event).mp member).2.2
  refine ⟨?_, fun other _ => valid.owned other (by simp), valid.counted, ?_, ?_⟩
  · intro other item
    by_cases same : other = queue
    · subst same
      simp only [drop, update_self, (valid.distinct other).mem_erase_iff, valid.member, ne_eq,
        Option.some.injEq, reduceCtorEq, not_false_eq_true, true_and]
      tauto
    · simp only [drop, update_of_ne same, valid.member, ne_eq, reduceCtorEq, not_false_eq_true,
        true_and, Option.some.injEq]
      refine ⟨fun holds => ⟨?_, holds⟩, fun holds => holds.2⟩
      rintro rfl
      exact same (Option.some.inj (holds.2.symm.trans owner))
  · refine (forall_update_iff calendar.pending (p := fun _ pending => pending.Nodup)).mpr
      ⟨(valid.distinct queue).erase event, fun other _ => valid.distinct other⟩
  · refine (forall_update_iff calendar.pending (p := fun _ pending => pending.Pairwise fun left right =>
      (calendar.entries left).key ≤ (calendar.entries right).key)).mpr
      ⟨(valid.sorted queue).sublist List.erase_sublist, fun other _ => valid.sorted other⟩

/-- The hole closes once its flag is clear. -/
theorem close (valid : calendar.Valid (some event))
    (cleared : ¬ isSet (change (calendar.entries event).flags) Scheduled)
    (kept : change (calendar.entries event).flags &&& InitMask = Initialized →
      (calendar.entries event).flags &&& InitMask = Initialized) :
    (calendar.setFlags event change).Valid none := by
  refine ⟨fun queue other => ?_, fun other _ scheduled => ?_, fun other held => ?_, valid.distinct, ?_⟩
  · have before := valid.member queue other
    by_cases same : other = event
    · subst same
      simp only [setFlags_self, cleared, false_and, and_false, iff_false]
      exact fun member => absurd rfl (before.mp member).1
    · rw [setFlags_of_ne same]
      simpa [Ne.symm same] using before
  · by_cases same : other = event
    · subst same
      simp [cleared] at scheduled
    · rw [setFlags_of_ne same] at scheduled ⊢
      exact valid.owned other (by simpa using Ne.symm same) scheduled
  · by_cases same : other = event
    · subst same
      rw [setFlags_self] at held
      exact valid.counted other (Or.inr (kept (held.resolve_left cleared)))
    · rw [setFlags_of_ne same] at held
      exact valid.counted other held
  · simpa only [setFlags_key, setFlags_pending] using valid.sorted

/-- An event that enters with its flag set closes the hole. -/
theorem enter (valid : calendar.Valid (some event)) (queue : QueuePtr) (when : Tick)
    (inside : event ∈ Finset.Icc 1 calendar.count)
    (scheduled : isSet (change (calendar.entries event).flags) Scheduled) :
    ((calendar.add queue event when).setFlags event change).Valid none := by
  have absent : ∀ other, event ∉ calendar.pending other :=
    fun other member => ((valid.member other event).mp member).1 rfl
  have outside : ∀ other, other ≠ event →
      ((calendar.add queue event when).setFlags event change).entries other = calendar.entries other := by
    intro other different
    rw [setFlags_of_ne different, add_of_ne different]
  refine ⟨fun other item => ?_, fun item _ set => ?_, fun item held => ?_, ?_, ?_⟩
  · have before := valid.member other item
    by_cases same : item = event
    · subst same
      by_cases equal : other = queue
      · subst equal
        simp [add, scheduled]
      · simp [add, update_of_ne equal, absent other, Ne.symm equal]
    · rw [outside item same]
      by_cases equal : other = queue
      · subst equal
        simpa [add, same, Ne.symm same] using before
      · simpa [add, update_of_ne equal, Ne.symm same] using before
  · by_cases same : item = event
    · subst same
      simp
    · rw [outside item same] at set ⊢
      exact valid.owned item (by simpa using Ne.symm same) set
  · by_cases same : item = event
    · exact same ▸ inside
    · rw [outside item same] at held
      exact valid.counted item held
  · refine (forall_update_iff calendar.pending (p := fun _ pending => pending.Nodup)).mpr
      ⟨?_, fun other _ => valid.distinct other⟩
    exact (List.perm_orderedInsert _ event _).nodup_iff.mpr
      (List.nodup_cons.mpr ⟨absent queue, valid.distinct queue⟩)
  · simp only [setFlags_key]
    have moved : ∀ other, (calendar.pending other).Pairwise fun left right =>
        ((calendar.add queue event when).entries left).key ≤ ((calendar.add queue event when).entries right).key := by
      intro other
      refine (valid.sorted other).imp_of_mem fun {left right} first second ordered => ?_
      have unchanged : ∀ item ∈ calendar.pending other,
          (calendar.add queue event when).entries item = calendar.entries item :=
        fun item member => add_of_ne fun same => absent other (same ▸ member)
      rwa [unchanged left first, unchanged right second]
    refine (forall_update_iff calendar.pending (p := fun _ pending => pending.Pairwise fun left right =>
      ((calendar.add queue event when).entries left).key ≤
        ((calendar.add queue event when).entries right).key)).mpr ⟨?_, fun other _ => moved other⟩
    exact pairwise_orderedInsert (moved queue) (moved queue) (fun _ _ smaller => smaller.le) fun _ _ ordered => ordered

section
variable (valid : calendar.Valid none)
include valid

/-- A change of flags that keeps the scheduled bit keeps the calendar valid. -/
theorem keep
    (scheduled : isSet (change (calendar.entries event).flags) Scheduled ↔ isSet (calendar.entries event).flags
      Scheduled)
    (kept : change (calendar.entries event).flags &&& InitMask = (calendar.entries event).flags &&& InitMask) :
    (calendar.setFlags event change).Valid none := by
  have bits : ∀ other, (isSet ((calendar.setFlags event change).entries other).flags Scheduled ↔
        isSet (calendar.entries other).flags Scheduled) ∧
      ((calendar.setFlags event change).entries other).flags &&& InitMask =
        (calendar.entries other).flags &&& InitMask := by
    intro other
    by_cases same : other = event
    · subst same
      rw [setFlags_self]
      exact ⟨scheduled, kept⟩
    · rw [setFlags_of_ne same]
      exact ⟨Iff.rfl, rfl⟩
  refine ⟨fun queue other => ?_, fun other _ set => ?_, fun other held => ?_, valid.distinct, ?_⟩
  · rw [(bits other).1, setFlags_queue]
    exact valid.member queue other
  · rw [(bits other).1] at set
    rw [setFlags_queue]
    exact valid.owned other (by simp) set
  · rw [(bits other).1, (bits other).2] at held
    exact valid.counted other held
  · simpa only [setFlags_key, setFlags_pending] using valid.sorted

theorem release (event : EventPtr) : (calendar.release event).Valid none := by
  unfold Calendar.release
  split
  · next managed =>
      refine (valid.idle managed.2).close ?_ ?_
      · decide
      · exact fun blank => absurd blank (by decide)
  · exact valid

theorem construct {priority : Int} {flags : FlagsType} (done : calendar.construct priority flags = .ok next) :
    next.Valid none := by
  obtain ⟨legal, done⟩ := assert_bind_eq_ok.mp done
  cases done
  have idle : ¬ isSet (Event.make priority flags).entry.flags Scheduled := by
    have bits : (Initialized ||| flags) &&& Scheduled = flags &&& Scheduled := by
      rw [BitVec.or_comm]
      exact and_setFlag (by decide)
    have none : flags &&& Scheduled = 0#16 := and_eq_zero_of_part legal (by decide)
    exact not_not.mpr (bits.trans none)
  have fresh : ¬ isSet (calendar.entries (calendar.count + 1)).flags Scheduled := by
    intro scheduled
    exact absurd (Finset.mem_Icc.mp (valid.counted _ (Or.inl scheduled))).2 (Nat.not_succ_le_self _)
  have absent : ∀ queue, calendar.count + 1 ∉ calendar.pending queue :=
    fun queue member => fresh ((valid.member queue _).mp member).2.1
  refine ⟨fun queue other => ?_, fun other _ set => ?_, fun other held => ?_, valid.distinct, fun queue => ?_⟩
  · by_cases same : other = calendar.count + 1
    · subst same
      simp [idle, absent queue]
    · simpa [update_of_ne same] using valid.member queue other
  · by_cases same : other = calendar.count + 1
    · subst same
      simp [idle] at set
    · simp only [update_of_ne same] at set ⊢
      exact valid.owned other (by simp) set
  · by_cases same : other = calendar.count + 1
    · simp [same]
    · simp only [update_of_ne same] at held
      have inside := Finset.mem_Icc.mp (valid.counted other held)
      exact Finset.mem_Icc.mpr ⟨inside.1, Nat.le_succ_of_le inside.2⟩
  · refine (valid.sorted queue).imp_of_mem fun {left right} first second ordered => ?_
    have kept : ∀ item ∈ calendar.pending queue, item ≠ calendar.count + 1 :=
      fun item member same => absent queue (same ▸ member)
    simpa only [update_of_ne (kept left first), update_of_ne (kept right second)] using ordered

end

end Valid
end Calendar

namespace Calendar
variable {calendar next : Calendar} {queue : QueuePtr} {event : EventPtr} {when : Tick}

/-- The pending lists after an event leaves one queue. -/
def without (calendar : Calendar) (queue : QueuePtr) (event : EventPtr) : QueuePtr → List EventPtr :=
  update calendar.pending queue ((calendar.pending queue).erase event)

/-- One operation leaves the lists alone, moves one event in or out, or serves the first event. -/
inductive Effect (calendar next : Calendar) : LoopOp → Prop
  | idle {op : LoopOp} (quiet : op.inserts = none) (pending : next.pending = calendar.pending) (now : next.now = calendar.now)
      (keys : ∀ queue, ∀ event ∈ calendar.pending queue,
        (next.entries event).key = (calendar.entries event).key) : Effect calendar next op
  | enter {op : LoopOp} {queue : QueuePtr} {event : EventPtr} {base : QueuePtr → List EventPtr}
      (inserts : op.inserts = some (queue, event))
      (start : base = calendar.pending ∨ base = calendar.without queue event)
      (absent : ∀ other, event ∉ base other)
      (timely : calendar.now queue ≤ (next.entries event).when)
      (pending : next.pending = update base queue
        (List.orderedInsert (fun left right => (next.entries left).key ≤ (next.entries right).key) event
          (base queue)))
      (now : next.now = calendar.now)
      (keys : ∀ other, other ≠ event → (next.entries other).key = (calendar.entries other).key) :
      Effect calendar next op
  | leave {op : LoopOp} (quiet : op.inserts = none) (queue : QueuePtr) (event : EventPtr)
      (pending : next.pending = calendar.without queue event) (now : next.now = calendar.now)
      (keys : ∀ other, (next.entries other).key = (calendar.entries other).key) : Effect calendar next op
  | serve {queue : QueuePtr} {event : EventPtr} {rest : List EventPtr}
      (first : calendar.pending queue = event :: rest)
      (pending : next.pending = update calendar.pending queue rest)
      (now : next.now = calendar.now ∨
        next.now = update calendar.now queue (calendar.entries event).when)
      (keys : ∀ other, (next.entries other).key = (calendar.entries other).key) :
      Effect calendar next (.begin queue)

@[simp] theorem release_pending : (calendar.release event).pending = calendar.pending := by
  unfold release
  split <;> rfl

@[simp] theorem release_now : (calendar.release event).now = calendar.now := by
  unfold release
  split <;> rfl

theorem release_key (other : EventPtr) :
    ((calendar.release event).entries other).key = (calendar.entries other).key := by
  unfold release
  split
  · exact setFlags_key other
  · rfl

/-- A removal succeeds only on a nonempty queue that owns the event. -/
theorem remove_eq_ok : calendar.remove queue event = .ok next ↔
    calendar.pending queue ≠ [] ∧ (calendar.entries event).queue = some queue ∧
      next = calendar.drop queue event := by
  unfold remove
  split
  · simp_all
  · next filled => simp [filled, bind_eq_ok, eq_comm (a := next)]

/-- An entering event is inserted by its new key before the pending events of the same key. -/
theorem Effect.ofAdd {op : LoopOp} {base : Calendar} {change : FlagsType → FlagsType}
    (valid : base.Valid (some event)) (inserts : op.inserts = some (queue, event))
    (start : base.pending = calendar.pending ∨ base.pending = calendar.without queue event)
    (entries : base.entries = calendar.entries) (now : base.now = calendar.now)
    (timely : calendar.now queue ≤ when) :
    Effect calendar ((base.add queue event when).setFlags event change) op := by
  refine .enter inserts start (fun other member => ((valid.member other event).mp member).1 rfl) ?_ ?_ now ?_
  · simpa using timely
  · simp only [setFlags_key]
    rfl
  · intro other different
    rw [setFlags_key, add_of_ne different, entries]

theorem run_effect {call : Call} (valid : calendar.Valid none) (done : calendar.run call = .ok next) :
    next.Valid none ∧ Effect calendar next (.call call) := by
  cases call with
  | construct priority flags =>
    refine ⟨valid.construct done, ?_⟩
    cases (assert_bind_eq_ok.mp done).2
    refine .idle rfl rfl rfl fun queue event member => ?_
    have inside := valid.counted event (Or.inl ((valid.member queue event).mp member).2.1)
    have different : event ≠ calendar.count + 1 := by
      rintro rfl
      exact Nat.not_succ_le_self _ (Finset.mem_Icc.mp inside).2
    simp only [update_of_ne different]
  | schedule queue event when =>
    simp only [run, schedule, assert_bind_eq_ok, Except.ok.injEq] at done
    obtain ⟨timely, idle, initialized, rfl⟩ := done
    have hole := valid.idle idle
    refine ⟨hole.enter queue when (valid.counted event (Or.inr initialized)) ?_,
      .ofAdd hole rfl (Or.inl rfl) rfl rfl timely⟩
    exact isSet_setFlag_self (by decide)
  | deschedule queue event =>
    simp only [run, deschedule, assert_bind_eq_ok, bind_ok_eq_ok, remove_eq_ok] at done
    obtain ⟨scheduled, initialized, _, ⟨_, owner, rfl⟩, rfl⟩ := done
    have member := (valid.member queue event).mpr ⟨by simp, scheduled, owner⟩
    refine ⟨((valid.dropped member).close ?_ ?_).release event, .leave rfl queue event ?_ ?_ ?_⟩
    · exact isSet_clearFlag_self
    · intro kept
      rwa [initMask_clearScheduled, initMask_clearSquashed] at kept
    · rw [release_pending]
      rfl
    · rw [release_now]
      rfl
    · intro other
      rw [release_key, setFlags_key]
      rfl
  | reschedule queue event when always =>
    simp only [run, reschedule, assert_bind_eq_ok] at done
    obtain ⟨timely, _, initialized, done⟩ := done
    have sets : ∀ flags, isSet (setFlag (clearFlag flags Squashed) Scheduled) Scheduled :=
      fun flags => isSet_setFlag_self (by decide)
    have inside := valid.counted event (Or.inr initialized)
    split at done
    · next scheduled =>
        simp only [bind_eq_ok, remove_eq_ok, Except.ok.injEq] at done
        obtain ⟨_, ⟨_, owner, rfl⟩, rfl⟩ := done
        have hole := valid.dropped ((valid.member queue event).mpr ⟨by simp, scheduled, owner⟩)
        exact ⟨hole.enter queue when inside (sets _), .ofAdd hole rfl (Or.inr rfl) rfl rfl timely⟩
    · next idle =>
        simp only [ok_bind, Except.ok.injEq] at done
        subst done
        have hole := valid.idle idle
        exact ⟨hole.enter queue when inside (sets _), .ofAdd hole rfl (Or.inl rfl) rfl rfl timely⟩
  | squash event =>
    simp only [run, Except.ok.injEq] at done
    subst done
    refine ⟨valid.keep (scheduled_setSquashed _) (initMask_setSquashed _), ?_⟩
    exact .idle rfl rfl rfl fun _ other _ => setFlags_key other

/-- The first pending event leaves its queue with its flag clear. -/
theorem take_eq_ok {result : EventPtr × Calendar} : calendar.take queue = .ok result ↔
    ∃ event rest, calendar.pending queue = event :: rest ∧
      result = (event, { calendar with pending := update calendar.pending queue rest }.setFlags event
        fun flags => clearFlag flags Scheduled) := by
  unfold take
  split
  · simp_all
  · next first rest shape =>
      simp only [shape, Except.ok.injEq, List.cons.injEq]
      constructor
      · rintro rfl
        exact ⟨first, rest, ⟨rfl, rfl⟩, rfl⟩
      · rintro ⟨_, _, ⟨rfl, rfl⟩, rfl⟩
        rfl

/-- The first pending event becomes the hole when it leaves its queue. -/
theorem Valid.popped {rest : List EventPtr} (valid : calendar.Valid none)
    (first : calendar.pending queue = event :: rest) :
    { calendar with pending := update calendar.pending queue rest }.Valid (some event) := by
  have member : event ∈ calendar.pending queue := by simp [first]
  have dropped := valid.dropped member
  simpa [drop, first] using dropped

/-- A service keeps the calendar valid and takes the first event. -/
theorem serve_effect {result : Option EventPtr × Calendar} (valid : calendar.Valid none)
    (done : calendar.serve queue = .ok result) :
    result.2.Valid none ∧ Effect calendar result.2 (.begin queue) := by
  simp only [serve, bind_eq_ok, take_eq_ok] at done
  obtain ⟨_, ⟨event, rest, first, rfl⟩, done⟩ := done
  have popped : ({ calendar with pending := update calendar.pending queue rest }.setFlags event
      fun flags => clearFlag flags Scheduled).Valid none := by
    refine (valid.popped first).close isSet_clearFlag_self fun kept => ?_
    rwa [initMask_clearScheduled] at kept
  split at done
  · cases done
    refine ⟨(popped.keep (scheduled_clearSquashed _) (initMask_clearSquashed _)).release event,
      .serve first ?_ (Or.inl ?_) fun other => ?_⟩
    · rw [release_pending, setFlags_pending, setFlags_pending]
    · rw [release_now, setFlags_now, setFlags_now]
    · rw [release_key, setFlags_key, setFlags_key]
  · cases done
    refine ⟨{ popped with },
      .serve first rfl (Or.inr ?_) fun other => ?_⟩
    · simp
    · rw [setFlags_key]

end Calendar

/-- One step of the loop keeps the calendar valid and has one of the effects. -/
theorem CalendarLoop.step_effect {loop next : CalendarLoop} {op : LoopOp} (valid : loop.calendar.Valid none)
    (stepped : loop.step op = .ok next) :
    next.calendar.Valid none ∧ Calendar.Effect loop.calendar next.calendar op := by
  cases op with
  | call call =>
    obtain ⟨calendar, done, rfl⟩ := bind_ok_eq_ok.mp stepped
    exact run_effect valid done
  | begin queue =>
    obtain ⟨result, done, rfl⟩ := bind_ok_eq_ok.mp stepped
    exact serve_effect valid done
  | finish =>
    simp only [step] at stepped
    split at stepped
    · simp at stepped
    next event active =>
      rw [bind_ok_eq_ok] at stepped
      obtain ⟨calendar, done, rfl⟩ := stepped
      unfold finish at done
      split at done
      · cases (assert_bind_eq_ok.mp done).2
        exact ⟨valid, .idle rfl rfl rfl fun _ _ _ => rfl⟩
      · cases done
        exact ⟨valid.release event, .idle rfl release_pending release_now
          fun _ other _ => release_key other⟩

end Gem5.Sim
