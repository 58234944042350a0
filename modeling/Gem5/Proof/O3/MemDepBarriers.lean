import Gem5.Proof.O3.MemDepTracking

namespace Gem5.O3
open ToMathlib MemDepUnit InstFlags Function List

namespace MemDepTrace
variable {trace next : MemDepTrace}

/-- Each instruction from `insert` is a dependent of its producers in flight, and it counts those that have not
completed. -/
structure Waiting (trace : MemDepTrace) : Prop where
  depends : ∀ producer ∈ trace.unit.instList, ∀ number,
    number ∈ (trace.unit.entries producer).dependInsts ↔ producer ∈ trace.producers number
  once : ∀ producer ∈ trace.unit.instList, (trace.unit.entries producer).dependInsts.Nodup
  older : ∀ number, ∀ producer ∈ trace.producers number, producer < number ∧
    (trace.unit.entries producer).inst.flags.hasDependents = true ∧
    ∃ inst ∈ trace.speculative, inst.seqNum = number
  apart : ∀ number, (trace.producers number).Nodup
  counts : ∀ inst ∈ trace.speculative, (trace.unit.entries inst.seqNum).memDeps =
    (trace.producers inst.seqNum).countP fun producer => producer ∉ trace.completed
  speculative : ∀ inst ∈ trace.speculative, inst.seqNum ≤ trace.lastInserted ∧
    (trace.unit.entries inst.seqNum).inst = inst
  outstanding : ∀ number ∈ trace.unit.instList, ∀ producer ∈ trace.producers number,
    producer ∈ trace.completed ∨ producer ∈ trace.unit.instList

/-- An instruction in flight is ready when its registers are ready and its dependencies are gone. -/
structure Ready (trace : MemDepTrace) : Prop where
  resolved : ∀ inst ∈ trace.speculative, inst.seqNum ∈ trace.unit.readied →
    (trace.unit.entries inst.seqNum).memDeps = 0
  readied : ∀ inst ∈ trace.speculative, inst.seqNum ∈ trace.unit.instList →
    (inst.seqNum ∈ trace.unit.readied ↔ (trace.unit.entries inst.seqNum).regsReady = true ∧
      (trace.unit.entries inst.seqNum).memDeps = 0)
  replays : ∀ number ∈ trace.unit.instsToReplay, number ∈ trace.unit.readied
  known : ∀ number ∈ trace.unit.readied, number ≤ trace.lastInserted

/-- The producers of an instruction are the barriers of its kind if there are any. -/
structure Fenced (trace : MemDepTrace) : Prop where
  loads : ∀ inst ∈ trace.speculative, inst.flags.isLoad = true → trace.loadBarriers inst.seqNum ≠ [] →
    ∀ number, number ∈ trace.producers inst.seqNum ↔ number ∈ trace.loadBarriers inst.seqNum
  stores : ∀ inst ∈ trace.speculative, inst.flags.isStore = true → inst.flags.isLoad = false →
    inst.flags.isAtomic = false → trace.storeBarriers inst.seqNum ≠ [] →
    ∀ number, number ∈ trace.producers inst.seqNum ↔ number ∈ trace.storeBarriers inst.seqNum

structure Consistent (trace : MemDepTrace) : Prop where
  tracked : trace.Tracked
  waiting : trace.Waiting
  ready : trace.Ready
  fenced : trace.Fenced

namespace Consistent

theorem initial {entries : Nat → MemDepEntry} {clearPeriod ssitSize lfstSize : Nat} {ssit : Nat → Nat} :
    (MemDepTrace.initial (.initial entries (.init clearPeriod ssitSize lfstSize ssit))).Consistent := by
  refine ⟨.initial, ?_, ?_, ?_⟩ <;> constructor <;> simp [MemDepTrace.initial, MemDepUnit.initial]

/-- The predictor matters only for later insertions. -/
theorem predictor {depPred : StoreSet} (held : trace.Consistent)
    (names : depPred.Names fun number => number ≤ trace.lastInserted ∧
      (trace.unit.entries number).inst.flags.writesMemory = true) :
    ({ trace with unit := { trace.unit with depPred } } : MemDepTrace).Consistent :=
  ⟨{ held.tracked with loads := { held.tracked.loads with }, stores := { held.tracked.stores with }, names },
    { held.waiting with },
    { held.ready with },
    { held.fenced with }⟩

/-- Instructions from outside `insert` and instructions that were ready before may become ready again. -/
theorem moved (moved replays : List Nat) (held : trace.Consistent)
    (extra : ∀ number ∈ moved, number ≤ trace.lastInserted ∧
      ((∀ inst ∈ trace.speculative, inst.seqNum ≠ number) ∨ number ∈ trace.unit.readied))
    (later : ∀ number ∈ replays, number ∈ trace.unit.readied) :
    ({ trace with unit := { trace.unit with
      readied := trace.unit.readied ++ moved, instsToReplay := replays } } : MemDepTrace).Consistent := by
  have before : ∀ inst ∈ trace.speculative,
      (inst.seqNum ∈ trace.unit.readied ++ moved ↔ inst.seqNum ∈ trace.unit.readied) := by
    intro inst member
    rw [mem_append]
    exact or_iff_left_of_imp fun new => (extra _ new).2.resolve_left fun foreign => foreign inst member rfl
  refine ⟨{ held.tracked with loads := { held.tracked.loads with }, stores := { held.tracked.stores with } },
    { held.waiting with }, ?_, { held.fenced with }⟩
  constructor
  · intro inst member readied
    exact held.ready.resolved inst member ((before inst member).mp readied)
  · intro inst member inside
    exact (before inst member).trans (held.ready.readied inst member inside)
  · intro number inside
    exact mem_append_left _ (later number inside)
  · exact forall_mem_append.mpr ⟨held.ready.known, fun number new => (extra number new).1⟩

/-- The registers of one instruction in flight become ready. -/
theorem regsReady {number : Nat} {unit : MemDepUnit} (held : trace.Consistent)
    (done : trace.unit.regsReady number = .ok unit) : ({ trace with unit } : MemDepTrace).Consistent := by
  obtain ⟨inHash, rfl⟩ := regsReady_eq done
  rw [held.tracked.hash] at inHash
  refine ⟨{ held.tracked with loads := { held.tracked.loads with }, stores := { held.tracked.stores with } },
    { held.waiting with }, ?_, { held.fenced with }⟩
  have mem : ∀ other, (other ∈ trace.unit.readied ++ if (trace.unit.entries number).memDeps = 0 then [number] else []) ↔
      other ∈ trace.unit.readied ∨ other = number ∧ (trace.unit.entries number).memDeps = 0 := by
    intro other
    rw [mem_append]
    split
    · next resolved => simp [resolved]
    · next waits => simp [waits]
  constructor
  · intro inst member ready
    rcases (mem _).mp ready with before | ⟨same, resolved⟩
    · exact held.ready.resolved inst member before
    · rw [same]
      exact resolved
  · intro inst member flies
    change (inst.seqNum ∈ trace.unit.readied ++ _) ↔
      ((trace.unit.entries inst.seqNum).regsReady || inst.seqNum = number) = true ∧ _
    rw [mem, held.ready.readied inst member flies, Bool.or_eq_true, decide_eq_true_eq]
    by_cases same : inst.seqNum = number
    · rw [← same]
      simp
    · simp [same]
  · intro other replayed
    exact (mem other).mpr (.inl (held.ready.replays other replayed))
  · intro other ready
    rcases (mem other).mp ready with before | ⟨rfl, _⟩
    · exact held.ready.known other before
    · exact held.tracked.bounded other inHash

end Consistent

section Insertion
variable {inst : MemInst} {stores : List Nat} {depPred : StoreSet} {readyToIssue : Bool}

/-- The producers of a new instruction are distinct older instructions in flight that have dependents. -/
theorem Tracked.producers (tracked : trace.Tracked) (younger : trace.lastInserted < inst.seqNum)
    (found : (trace.unit.addEntry inst).producingStores inst = .ok stores) :
    ((trace.unit.addEntry inst).storeEntries stores).Nodup ∧
      ∀ producer ∈ (trace.unit.addEntry inst).storeEntries stores, producer ∈ trace.unit.instList ∧
        (trace.unit.entries producer).inst.flags.hasDependents = true := by
  unfold storeEntries
  unfold producingStores at found
  split_ifs at found
  · cases found
    refine ⟨tracked.loads.once.filter _, ?_⟩
    intro producer member
    obtain ⟨inside, barrier⟩ := (tracked.loads.iff producer).mp (mem_of_mem_filter member)
    exact ⟨inside, by simp [hasDependents, barrier]⟩
  · cases found
    refine ⟨tracked.stores.once.filter _, ?_⟩
    intro producer member
    obtain ⟨inside, barrier⟩ := (tracked.stores.iff producer).mp (mem_of_mem_filter member)
    exact ⟨inside, by simp [hasDependents, barrier]⟩
  · obtain ⟨store, checked, rfl⟩ := bind_ok_eq_ok.mp found
    split
    · next real =>
        refine ⟨(nodup_singleton store).filter _, ?_⟩
        intro producer member
        obtain ⟨same, inHash⟩ := mem_filter.mp member
        obtain rfl := mem_singleton.mp same
        obtain ⟨bound, writes⟩ := (tracked.names.checkInst checked).resolve_left real
        refine ⟨?_, by simp [hasDependents, writes]⟩
        have either : producer ∈ trace.unit.memDepHash ++ [inst.seqNum] := by
          simpa [addEntry] using inHash
        rcases mem_append.mp either with before | own
        · rw [← tracked.hash]
          exact before
        · have equal := mem_singleton.mp own
          omega
    · exact ⟨.nil, by simp⟩

/-- All barriers in flight of a kind are producers of a new instruction that looks for them. -/
theorem Tracked.fenced {kind : InstFlags → Bool} {numbers : List Nat} {fences : Nat → List Nat} (looks : MemInst → Prop)
    (tracked : trace.Tracked) (set : BarrierSet trace.unit kind numbers)
    (others : ∀ other ∈ trace.speculative, other.seqNum ≠ inst.seqNum)
    (found : (trace.unit.addEntry inst).producingStores inst = .ok stores)
    (before : ∀ other ∈ trace.speculative, looks other → fences other.seqNum ≠ [] →
      ∀ number, number ∈ trace.producers other.seqNum ↔ number ∈ fences other.seqNum)
    (own : looks inst → numbers ≠ [] → numbers = stores) :
    ∀ other ∈ inst :: trace.speculative, looks other →
      update fences inst.seqNum (trace.barriers kind) other.seqNum ≠ [] → ∀ number,
        number ∈ update trace.producers inst.seqNum ((trace.unit.addEntry inst).producers inst) other.seqNum ↔
          number ∈ update fences inst.seqNum (trace.barriers kind) other.seqNum := by
  intro other member looking some number
  rcases mem_cons.mp member with rfl | known
  · rw [update_self] at some
    obtain ⟨first, inside⟩ := exists_mem_of_ne_nil _ some
    obtain rfl := own looking (ne_nil_of_mem ((tracked.mem_barriers set).mp inside))
    rw [update_self, update_self, MemDepUnit.producers, found, tracked.mem_barriers set]
    refine mem_filter.trans (and_iff_left_of_imp fun barrier => ?_)
    have flies := ((set.iff number).mp barrier).1
    rw [← tracked.hash] at flies
    simp [addEntry, flies]
  · have different := others other known
    rw [update_of_ne different] at some
    rw [update_of_ne different, update_of_ne different]
    exact before other known looking some number

/-- A number after the last inserted one is new everywhere. -/
theorem Consistent.fresh (held : trace.Consistent) {number : Nat} (younger : trace.lastInserted < number) :
    number ∉ trace.unit.instList ∧ number ∉ trace.unit.readied ∧ trace.producers number = [] ∧
      (∀ other, number ∉ trace.producers other) ∧ ∀ other ∈ trace.speculative, other.seqNum ≠ number := by
  have spec : ∀ other ∈ trace.speculative, other.seqNum < number := fun other member =>
    lt_of_le_of_lt (held.waiting.speculative other member).1 younger
  refine ⟨?_, ?_, ?_, ?_, fun other member => (spec other member).ne⟩
  · intro member
    have bound := held.tracked.bounded number member
    omega
  · intro member
    have bound := held.ready.known number member
    omega
  · rw [eq_nil_iff_forall_not_mem]
    intro producer member
    obtain ⟨_, _, other, known, same⟩ := held.waiting.older number producer member
    have bound := spec other known
    omega
  · intro other member
    obtain ⟨smaller, _, inst, known, same⟩ := held.waiting.older other number member
    have bound := spec inst known
    omega

/-- A new instruction with these producers is inserted. -/
structure Inserts (trace : MemDepTrace) (inst : MemInst) (stores : List Nat) (readyToIssue : Bool)
    (next : MemDepTrace) : Prop where
  younger : trace.lastInserted < inst.seqNum
  distinct : stores.Nodup
  inside : ∀ producer ∈ stores, producer ∈ trace.unit.instList ∧
    (trace.unit.entries producer).inst.flags.hasDependents = true
  unit : ∃ depPred, next.unit = { trace.unit.afterInsert inst stores readyToIssue with depPred } ∧
    trace.unit.Predicts inst depPred
  last : next.lastInserted = inst.seqNum
  inFlight : next.inFlight = trace.inFlight ++ [inst]
  completed : next.completed = trace.completed
  producers : next.producers = update trace.producers inst.seqNum stores
  known : ∀ other ∈ next.speculative, other = inst ∨ other ∈ trace.speculative
  keeps : ∀ other ∈ trace.speculative, other ∈ next.speculative
  own : stores ≠ [] → inst ∈ next.speculative

section
variable (inserts : trace.Inserts inst stores readyToIssue next)
include inserts

theorem Inserts.self : next.unit.entries inst.seqNum = ⟨inst, [], readyToIssue, stores.length, false⟩ := by
  obtain ⟨depPred, unit, _⟩ := inserts.unit
  rw [unit]
  simp [afterInsert]

theorem Inserts.entry {number : Nat}
    (different : number ≠ inst.seqNum) : next.unit.entries number = { trace.unit.entries number with
      dependInsts := (trace.unit.entries number).dependInsts ++ if number ∈ stores then [inst.seqNum] else [] } := by
  obtain ⟨depPred, unit, _⟩ := inserts.unit
  rw [unit]
  simp only [afterInsert, if_neg different]
  split
  · rfl
  · rw [append_nil]

theorem Inserts.instList : next.unit.instList = trace.unit.instList ++ [inst.seqNum] := by
  obtain ⟨depPred, unit, _⟩ := inserts.unit
  rw [unit]
  rfl

end

section
variable (held : trace.Consistent) (inserts : trace.Inserts inst stores readyToIssue next)
include held inserts

theorem Waiting.inserted : next.Waiting := by
  obtain ⟨absent, _, none, nowhere, others⟩ := held.fresh inserts.younger
  have self := inserts.self
  have entry : ∀ number, number ≠ inst.seqNum → _ := fun number different => inserts.entry different
  have instList := inserts.instList
  obtain ⟨younger, distinct, inside, _, last, _, completed, producers, known, keeps, own⟩ := inserts
  have listed : ∀ number ∈ next.unit.instList, number = inst.seqNum ∨
      number ≠ inst.seqNum ∧ number ∈ trace.unit.instList := by
    intro number member
    rw [instList] at member
    rcases mem_append.mp member with before | same
    · exact .inr ⟨fun same => absent (same ▸ before), before⟩
    · exact .inl (mem_singleton.mp same)
  have selfForeign : inst.seqNum ∉ stores := fun member => absent (inside _ member).1
  have older : ∀ number, ∀ producer ∈ trace.producers number, producer ≠ inst.seqNum ∧ number ≠ inst.seqNum := by
    intro number producer member
    constructor
    · rintro rfl
      exact nowhere number member
    · rintro rfl
      simp [none] at member
  constructor
  · intro producer member number
    rw [producers]
    rcases listed producer member with rfl | ⟨different, before⟩
    · rw [self]
      by_cases same : number = inst.seqNum
      · simp [same, selfForeign]
      · simp [same, nowhere number]
    · have depends := held.waiting.depends producer before number
      rw [entry producer different]
      by_cases same : number = inst.seqNum
      · subst same
        rw [update_self, mem_append, depends]
        split <;> simp_all
      · rw [update_of_ne same, mem_append, depends]
        split <;> simp [same]
  · intro producer member
    rcases listed producer member with rfl | ⟨different, before⟩
    · rw [self]
      exact .nil
    · have once := held.waiting.once producer before
      have fresh : inst.seqNum ∉ (trace.unit.entries producer).dependInsts := by
        simp [held.waiting.depends producer before, none]
      rw [entry producer different]
      split <;> simpa [nodup_append, List.forall_mem_ne', fresh] using once
  · intro number producer member
    rw [producers] at member
    by_cases same : number = inst.seqNum
    · subst same
      rw [update_self] at member
      obtain ⟨flies, dependents⟩ := inside producer member
      have bound := held.tracked.bounded producer flies
      have smaller : producer < inst.seqNum := by omega
      rw [entry producer smaller.ne]
      exact ⟨smaller, dependents, inst, own (ne_nil_of_mem member), rfl⟩
    · rw [update_of_ne same] at member
      obtain ⟨smaller, dependents, other, member', equal⟩ := held.waiting.older number producer member
      rw [entry producer (older number producer member).1]
      exact ⟨smaller, dependents, other, keeps other member', equal⟩
  · intro number
    rw [producers]
    exact (forall_update_iff _ fun _ list => Nodup list).mpr ⟨distinct, fun other _ => held.waiting.apart other⟩ number
  · intro other member
    rw [producers, completed]
    rcases known other member with rfl | before
    · rw [self, update_self, eq_comm, countP_eq_length]
      intro producer waited
      have open' : producer ∉ trace.completed := fun finished =>
        (held.tracked.completed producer finished).2 (inside producer waited).1
      simpa using open'
    · have different := others other before
      rw [entry _ different, update_of_ne different]
      exact held.waiting.counts other before
  · intro other member
    rw [last]
    rcases known other member with rfl | before
    · rw [self]
      exact ⟨le_rfl, rfl⟩
    · obtain ⟨bound, same⟩ := held.waiting.speculative other before
      rw [entry _ (others other before)]
      exact ⟨by omega, same⟩
  · intro number member producer waited
    have stays : ∀ other ∈ trace.unit.instList, other ∈ next.unit.instList := by
      rw [instList]
      exact fun other before => mem_append_left _ before
    rw [producers] at waited
    rw [completed]
    rcases listed number member with rfl | ⟨different, before⟩
    · rw [update_self] at waited
      exact .inr (stays producer (inside producer waited).1)
    · rw [update_of_ne different] at waited
      exact (held.waiting.outstanding number before producer waited).imp id (stays producer)

theorem Ready.inserted : next.Ready := by
  obtain ⟨absent, unready, _, _, others⟩ := held.fresh inserts.younger
  have self := inserts.self
  have known := inserts.known
  obtain ⟨depPred, unit, _⟩ := inserts.unit
  have readied : ∀ number, number ∈ next.unit.readied ↔ number ∈ trace.unit.readied ∨
      number = inst.seqNum ∧ stores = [] ∧ readyToIssue = true := by
    intro number
    rw [unit]
    change (number ∈ if stores = [] ∧ readyToIssue = true then _ else _) ↔ _
    split
    · next both => simp [both]
    · next neither => simp [neither]
  constructor
  · intro other member ready
    rcases known other member with rfl | before
    · rcases (readied _).mp ready with earlier | ⟨_, empty, _⟩
      · exact absurd earlier unready
      · rw [self, empty]
        rfl
    · have different := others other before
      rcases (readied _).mp ready with earlier | ⟨same, _⟩
      · rw [inserts.entry different]
        exact held.ready.resolved other before earlier
      · exact absurd same different
  · intro other member flies
    rcases known other member with rfl | before
    · rw [readied, self]
      simp only [unready, false_or, true_and, length_eq_zero_iff]
      exact and_comm
    · have different := others other before
      have inside : other.seqNum ∈ trace.unit.instList := by
        simpa [inserts.instList, different] using flies
      rw [readied, held.ready.readied other before inside, inserts.entry different]
      simp [different]
  · intro number replayed
    rw [unit] at replayed
    exact (readied number).mpr (.inl (held.ready.replays number replayed))
  · intro number ready
    rw [inserts.last]
    rcases (readied number).mp ready with earlier | ⟨same, _⟩
    · exact (held.ready.known number earlier).trans inserts.younger.le
    · exact same.le

/-- The predictor names the new instruction only if it is a store. -/
theorem Inserts.names : next.unit.depPred.Names fun number => number ≤ inst.seqNum ∧
    (next.unit.entries number).inst.flags.writesMemory = true := by
  have before : trace.unit.depPred.Names fun number => number ≤ inst.seqNum ∧
      (next.unit.entries number).inst.flags.writesMemory = true := by
    intro ssid valid
    obtain ⟨bound, writes⟩ := held.tracked.names ssid valid
    have smaller : trace.unit.depPred.lfst ssid < inst.seqNum := lt_of_le_of_lt bound inserts.younger
    rw [inserts.entry smaller.ne]
    exact ⟨smaller.le, writes⟩
  obtain ⟨depPred, unit, predicted⟩ := inserts.unit
  have same : next.unit.depPred = depPred := by rw [unit]
  rw [same]
  rcases predicted with rfl | ⟨writes, inserted⟩
  · exact before
  · apply before.insertStore _ inserted
    rw [inserts.self]
    exact ⟨le_rfl, writes⟩

theorem Tracked.inserted : next.Tracked := by
  have tracked := held.tracked
  have names := inserts.names held
  have own := inserts.self
  have older : ∀ number ∈ trace.unit.instList, number < inst.seqNum := fun number member =>
    lt_of_le_of_lt (tracked.bounded number member) inserts.younger
  have fresh := (held.fresh inserts.younger).1
  obtain ⟨depPred, unit, _⟩ := inserts.unit
  have instList := inserts.instList
  have insts : ∀ number, number ≠ inst.seqNum → (next.unit.entries number).inst = (trace.unit.entries number).inst :=
    fun number different => by rw [inserts.entry different]
  constructor
  · rw [instList, inserts.inFlight, tracked.list, map_append, map_singleton]
  · rw [instList, ← tracked.hash, unit]
    rfl
  · rw [instList, pairwise_append]
    simpa using ⟨tracked.sorted, older⟩
  · rw [instList, inserts.last, forall_mem_append, forall_mem_singleton]
    exact ⟨fun number before => (older number before).le, le_rfl⟩
  · rw [inserts.inFlight, forall_mem_append, forall_mem_singleton, own]
    refine ⟨fun other before => ?_, rfl, rfl⟩
    rw [inserts.entry (older _ (tracked.mem_of_inFlight before)).ne]
    exact tracked.entry other before
  · rw [congrArg MemDepUnit.loadBarrierSNs unit]
    exact tracked.loads.inserted fresh instList (congrArg MemDepEntry.inst own) insts
  · rw [congrArg MemDepUnit.storeBarrierSNs unit]
    exact tracked.stores.inserted fresh instList (congrArg MemDepEntry.inst own) insts
  · rw [inserts.completed, inserts.last, instList]
    intro number member
    obtain ⟨bound, absent⟩ := tracked.completed number member
    have smaller : number < inst.seqNum := lt_of_le_of_lt bound inserts.younger
    refine ⟨smaller.le, ?_⟩
    rw [mem_append, mem_singleton]
    exact fun either => either.elim absent smaller.ne
  · rw [inserts.last]
    exact names

theorem Consistent.inserted (fenced : next.Fenced) : next.Consistent :=
  ⟨.inserted held inserts, .inserted held inserts, .inserted held inserts, fenced⟩

end

section
variable (held : trace.Consistent) (younger : trace.lastInserted < inst.seqNum)
include held younger

/-- An instruction from `insert` waits for its barriers or for its predicted store. -/
theorem Consistent.insert {unit : MemDepUnit} (done : trace.unit.insert inst readyToIssue = .ok unit) :
    (trace.record unit (.insert inst readyToIssue)).Consistent := by
  have tracked := held.tracked
  have others := (held.fresh younger).2.2.2.2
  obtain ⟨stores, found, _⟩ := bind_eq_ok.mp done
  obtain ⟨distinct, inside⟩ := tracked.producers younger found
  have foreign : inst.seqNum ∉ (trace.unit.addEntry inst).storeEntries stores :=
    fun member => (held.fresh younger).1 (inside _ member).1
  have producers : (trace.unit.addEntry inst).producers inst = (trace.unit.addEntry inst).storeEntries stores := by
    rw [MemDepUnit.producers, found]
  obtain ⟨depPred, shape, predicted⟩ := insert_eq found distinct foreign done
  refine held.inserted ⟨younger, distinct, inside, ⟨depPred, shape, predicted⟩, rfl, rfl, rfl, ?_,
    fun other member => mem_cons.mp member, fun other member => mem_cons_of_mem _ member, fun _ => mem_cons_self⟩ ?_
  · rw [← producers]
    rfl
  · constructor
    · apply tracked.fenced (·.flags.isLoad = true) tracked.loads others found held.fenced.loads
      intro load some
      rw [producingStores, if_pos ⟨by simp [load], some⟩] at found
      exact Except.ok.inj found
    · intro other member store notLoad notAtomic
      refine tracked.fenced (fun inst => inst.flags.isStore = true ∧ inst.flags.isLoad = false ∧
          inst.flags.isAtomic = false) tracked.stores others found (fun other known looks =>
        held.fenced.stores other known looks.1 looks.2.1 looks.2.2) ?_ other member ⟨store, notLoad, notAtomic⟩
      rintro ⟨store, notLoad, notAtomic⟩ some
      rw [producingStores, if_neg (by simp [notLoad, notAtomic]), if_pos ⟨by simp [writesMemory, store], some⟩] at found
      exact Except.ok.inj found

/-- Nonspeculative instructions and barriers have no producers. -/
theorem Consistent.insertBarrier (predicted : trace.unit.Predicts inst depPred) :
    ({ trace with
      unit := { trace.unit.insertBarrier inst with depPred }
      lastInserted := inst.seqNum
      inFlight := trace.inFlight ++ [inst] } : MemDepTrace).Consistent := by
  refine held.inserted ⟨younger, .nil, by simp, ⟨depPred, by rw [insertBarrier_eq], predicted⟩, rfl, rfl, rfl, ?_,
    fun other member => .inr member, fun other member => member, fun some => absurd rfl some⟩
    { held.fenced with }
  rw [← (held.fresh younger).2.2.1, update_eq_self]

end

end Insertion

/-- What the instructions wait for does not change when others leave. -/
theorem Waiting.fewer {unit : MemDepUnit} {inFlight : List MemInst} {completed : List Nat} (held : trace.Waiting)
    (insts : ∀ number, (unit.entries number).inst = (trace.unit.entries number).inst)
    (remains : ∀ number ∈ unit.instList, number ∈ trace.unit.instList ∧
      (unit.entries number).dependInsts = (trace.unit.entries number).dependInsts)
    (counts : ∀ inst ∈ trace.speculative, (unit.entries inst.seqNum).memDeps =
      (trace.producers inst.seqNum).countP fun producer => producer ∉ completed)
    (outstanding : ∀ number ∈ unit.instList, ∀ producer ∈ trace.producers number,
      producer ∈ completed ∨ producer ∈ unit.instList) :
    ({ trace with unit, inFlight, completed } : MemDepTrace).Waiting := by
  refine { held with depends := ?_, once := ?_, older := ?_, counts, speculative := ?_, outstanding }
  · intro producer member number
    obtain ⟨before, same⟩ := remains producer member
    rw [same]
    exact held.depends producer before number
  · intro producer member
    obtain ⟨before, same⟩ := remains producer member
    rw [same]
    exact held.once producer before
  · intro number producer
    rw [insts]
    exact held.older number producer
  · intro inst
    rw [insts]
    exact held.speculative inst

section Completion
variable {seqNum : Nat} {number : Nat} {unit : MemDepUnit}

/-- The dependents of an instruction in flight still wait for it. -/
theorem Consistent.dependents (held : trace.Consistent) (inside : seqNum ∈ trace.unit.instList)
    (member : number ∈ (trace.unit.entries seqNum).dependInsts) :
    seqNum < number ∧ number ≤ trace.lastInserted ∧ 0 < (trace.unit.entries number).memDeps := by
  have producer := (held.waiting.depends seqNum inside number).mp member
  obtain ⟨smaller, _, inst, known, rfl⟩ := held.waiting.older number seqNum producer
  refine ⟨smaller, (held.waiting.speculative inst known).1, ?_⟩
  rw [held.waiting.counts inst known, countP_pos_iff]
  refine ⟨seqNum, producer, ?_⟩
  have unfinished : seqNum ∉ trace.completed := fun finished => (held.tracked.completed seqNum finished).2 inside
  simpa using unfinished

/-- Every instruction in flight can complete. -/
theorem Consistent.completes (held : trace.Consistent) (inside : seqNum ∈ trace.unit.instList) :
    trace.unit.completeInst seqNum = .ok (trace.unit.afterComplete seqNum) := by
  apply completeInst_eq
  · rw [held.tracked.hash]
    exact inside
  · intro leaf
    rw [eq_nil_iff_forall_not_mem]
    intro number member
    have producer := (held.waiting.depends seqNum inside number).mp member
    obtain ⟨_, dependents, _⟩ := held.waiting.older number seqNum producer
    rw [leaf] at dependents
    simp at dependents
  · exact held.waiting.once seqNum inside
  · intro member
    exact lt_irrefl _ (held.dependents inside member).1
  · intro number member
    exact (held.dependents inside member).2.2
  · intro barrier
    exact ne_nil_of_mem ((held.tracked.stores.iff seqNum).mpr ⟨inside, barrier⟩)
  · intro barrier
    exact ne_nil_of_mem ((held.tracked.loads.iff seqNum).mpr ⟨inside, barrier⟩)

/-- What a completion does to the count of another entry. -/
theorem afterComplete_memDeps (foreign : seqNum ∉ (unit.entries seqNum).dependInsts) :
    ((unit.afterComplete seqNum).entries number).memDeps = (unit.entries number).memDeps -
      if number ∈ (unit.entries seqNum).dependInsts then 1 else 0 := by
  unfold afterComplete
  dsimp only
  by_cases same : number = seqNum
  · subst same
    simp [foreign]
  · rw [if_neg same]
    split <;> rfl

section
variable (held : trace.Consistent) (inside : seqNum ∈ trace.unit.instList)
include held inside

/-- The dependents of a completed instruction count one producer less. -/
theorem Waiting.completed : (trace.record (trace.unit.afterComplete seqNum) (.completeInst seqNum)).Waiting := by
  have foreign : seqNum ∉ (trace.unit.entries seqNum).dependInsts :=
    fun member => lt_irrefl _ (held.dependents inside member).1
  have unfinished : seqNum ∉ trace.completed := fun finished => (held.tracked.completed seqNum finished).2 inside
  have remains : ∀ producer ∈ trace.unit.instList.erase seqNum, producer ≠ seqNum ∧ producer ∈ trace.unit.instList :=
    fun producer member => held.tracked.distinct.mem_erase_iff.mp member
  refine held.waiting.fewer (fun _ => Tracked.afterComplete_entry.1) ?_ ?_ ?_
  · intro number member
    exact ⟨(remains number member).2, Tracked.afterComplete_entry.2.2.2 (remains number member).1⟩
  · intro inst known
    have depends := held.waiting.depends seqNum inside inst.seqNum
    rw [afterComplete_memDeps foreign, held.waiting.counts inst known]
    by_cases waits : seqNum ∈ trace.producers inst.seqNum
    · rw [if_pos (depends.mpr waits), ← countP_notMem_cons (held.waiting.apart _) waits unfinished]
      rfl
    · rw [if_neg (fun member => waits (depends.mp member)), countP_notMem_cons_of_notMem waits]
      rfl
  · intro number member producer waited
    change producer ∈ seqNum :: trace.completed ∨ producer ∈ trace.unit.instList.erase seqNum
    rw [mem_cons, held.tracked.distinct.mem_erase_iff]
    rcases held.waiting.outstanding number (remains number member).2 producer waited with finished | flies
    · exact .inl (.inr finished)
    · by_cases same : producer = seqNum
      · exact .inl (.inl same)
      · exact .inr ⟨same, flies⟩

/-- A completion readies the dependents that waited only for it. -/
theorem Ready.completed : (trace.record (trace.unit.afterComplete seqNum) (.completeInst seqNum)).Ready := by
  have foreign : seqNum ∉ (trace.unit.entries seqNum).dependInsts :=
    fun member => lt_irrefl _ (held.dependents inside member).1
  have readied : ∀ number, number ∈ (trace.unit.afterComplete seqNum).readied ↔ number ∈ trace.unit.readied ∨
      number ∈ (trace.unit.entries seqNum).dependInsts ∧ wakes (trace.unit.entries number) = true := by
    intro number
    change number ∈ trace.unit.readied ++ _ ↔ _
    rw [mem_append, mem_filter]
  have wakes : ∀ entry : MemDepEntry, wakes entry = true ↔
      entry.memDeps = 1 ∧ entry.regsReady = true ∧ entry.squashed = false := by
    intro entry
    simp [wakes, and_assoc]
  constructor
  · intro inst known ready
    change ((trace.unit.afterComplete seqNum).entries inst.seqNum).memDeps = 0
    rw [afterComplete_memDeps foreign]
    rcases (readied _).mp ready with before | ⟨dependent, woken⟩
    · rw [held.ready.resolved inst known before, Nat.zero_sub]
    · rw [if_pos dependent, ((wakes _).mp woken).1]
  · intro inst known flies
    obtain ⟨different, before⟩ := held.tracked.distinct.mem_erase_iff.mp flies
    change inst.seqNum ∈ (trace.unit.afterComplete seqNum).readied ↔
      ((trace.unit.afterComplete seqNum).entries inst.seqNum).regsReady = true ∧
        ((trace.unit.afterComplete seqNum).entries inst.seqNum).memDeps = 0
    rw [readied, afterComplete_memDeps foreign, Tracked.afterComplete_entry.2.2.1, wakes,
      held.ready.readied inst known before]
    by_cases dependent : inst.seqNum ∈ (trace.unit.entries seqNum).dependInsts
    · obtain ⟨other, flying, same⟩ := held.tracked.inFlight_of_mem before
      have live := (held.tracked.entry other flying).2
      rw [same] at live
      have waits := (held.dependents inside dependent).2.2
      rw [if_pos dependent, live]
      constructor
      · rintro (⟨_, resolved⟩ | ⟨_, one, ready, _⟩)
        · omega
        · exact ⟨ready, by omega⟩
      · rintro ⟨ready, last⟩
        exact .inr ⟨dependent, by omega, ready, rfl⟩
    · simp [dependent]
  · intro number replayed
    exact (readied number).mpr (.inl (held.ready.replays number replayed))
  · intro number ready
    rcases (readied number).mp ready with before | ⟨dependent, _⟩
    · exact held.ready.known number before
    · exact (held.dependents inside dependent).2.1

theorem Consistent.completed : (trace.record (trace.unit.afterComplete seqNum) (.completeInst seqNum)).Consistent :=
  ⟨held.tracked.removed inside, .completed held inside, .completed held inside,
    { held.fenced with }⟩

end

end Completion

section Squash
variable {squashedNum : Nat} {depPred : StoreSet} {replays : List Nat}

/-- The instructions that remain after a squash have all their producers. -/
theorem Waiting.squashed (held : trace.Consistent) :
    (trace.record { trace.unit.afterSquash squashedNum trace.unit.instList.reverse with
      depPred, instsToReplay := replays } (.squash squashedNum)).Waiting := by
  have remains : ∀ number ∈ trace.unit.instList.filter (fun number => number ≤ squashedNum),
      number ∈ trace.unit.instList ∧ number ≤ squashedNum := by
    intro number member
    simpa using mem_filter.mp member
  refine held.waiting.fewer (fun _ => Tracked.afterSquash_entry.1) ?_ ?_ ?_
  · intro number member
    exact ⟨(remains number member).1, Tracked.afterSquash_entry.2.1⟩
  · intro inst known
    exact Tracked.afterSquash_entry.2.2.1.trans (held.waiting.counts inst known)
  · intro number member producer waited
    obtain ⟨before, early⟩ := remains number member
    have smaller := (held.waiting.older number producer waited).1
    rcases held.waiting.outstanding number before producer waited with finished | flies
    · exact .inl finished
    · apply Or.inr
      apply mem_filter.mpr
      refine ⟨flies, ?_⟩
      rw [decide_eq_true_eq]
      omega

theorem Ready.squashed (held : trace.Consistent) (fewer : ∀ number ∈ replays, number ∈ trace.unit.instsToReplay) :
    (trace.record { trace.unit.afterSquash squashedNum trace.unit.instList.reverse with
      depPred, instsToReplay := replays } (.squash squashedNum)).Ready := by
  constructor
  · intro inst known ready
    change ((trace.unit.afterSquash squashedNum _).entries inst.seqNum).memDeps = 0
    rw [Tracked.afterSquash_entry.2.2.1]
    exact held.ready.resolved inst known ready
  · intro inst known flies
    change _ ↔ ((trace.unit.afterSquash squashedNum _).entries inst.seqNum).regsReady = true ∧
      ((trace.unit.afterSquash squashedNum _).entries inst.seqNum).memDeps = 0
    rw [Tracked.afterSquash_entry.2.2.1, Tracked.afterSquash_entry.2.2.2]
    exact held.ready.readied inst known (mem_of_mem_filter flies)
  · intro number replayed
    exact held.ready.replays number (fewer number replayed)
  · exact held.ready.known

/-- A squash only marks entries and forgets instructions. -/
theorem Consistent.squashed {unit : MemDepUnit} (held : trace.Consistent)
    (done : trace.unit.squash squashedNum = .ok unit) : (trace.record unit (.squash squashedNum)).Consistent := by
  obtain ⟨_, looped, done⟩ := bind_eq_ok.mp done
  obtain ⟨depPred, predicted, rfl⟩ := bind_ok_eq_ok.mp done
  have loop : squashLoop squashedNum trace.unit.instList.reverse _ = .ok _ :=
    squashLoop_eq (show (instList { trace.unit with
      instsToReplay := trace.unit.instsToReplay.filter fun seqNum => seqNum ≤ squashedNum }) = _ from
        (reverse_reverse _).symm) held.tracked.hash
      (pairwise_reverse.mpr held.tracked.sorted) held.tracked.loads.once held.tracked.stores.once
  cases loop.symm.trans looped
  exact ⟨held.tracked.squashed (held.tracked.names.squash predicted), .squashed held,
    .squashed held fun number replayed => mem_of_mem_filter replayed, { held.fenced with }⟩

end Squash
namespace Consistent

section
variable (held : trace.Consistent)
include held

theorem inside_of_completeInst {seqNum : Nat} {unit : MemDepUnit} (done : trace.unit.completeInst seqNum = .ok unit) :
    seqNum ∈ trace.unit.instList := by
  obtain ⟨woken, wakes, done⟩ := bind_eq_ok.mp done
  obtain ⟨_, completes, _⟩ := bind_eq_ok.mp done
  simp only [MemDepUnit.completed, MemDepUnit.findInHash, assert_bind_eq_ok] at completes
  rw [← held.tracked.hash]
  unfold wakeDependents at wakes
  split at wakes
  · rw [Except.ok.inj wakes]
    exact completes.1
  · exact (assert_bind_eq_ok.mp wakes).1

theorem step {op : MemDepOp} (allowed : trace.guard op) (taken : trace.step op = .ok next) : next.Consistent := by
  obtain ⟨unit, done, rfl⟩ := bind_ok_eq_ok.mp taken
  cases op with
  | insert inst readyToIssue => exact held.insert allowed done
  | insertBarrier inst =>
    cases done
    exact held.insertBarrier allowed (.inl rfl)
  | insertNonSpec inst =>
    obtain ⟨depPred, rfl, predicted⟩ := predictStore_eq done
    exact held.insertBarrier allowed predicted
  | regsReady seqNum => exact held.regsReady done
  | nonSpecInstReady seqNum =>
    obtain ⟨inHash, moved⟩ := assert_bind_eq_ok.mp done
    obtain rfl := moveToReady_eq moved
    rw [held.tracked.hash] at inHash
    apply held.moved [seqNum] _ _ held.ready.replays
    exact forall_mem_singleton.mpr ⟨held.tracked.bounded seqNum inHash, .inl allowed⟩
  | reschedule seqNum =>
    cases done
    have unchanged := held.moved [] (trace.unit.instsToReplay ++ [seqNum]) (by simp) ?_
    · rw [append_nil] at unchanged
      exact unchanged
    · exact forall_mem_append.mpr ⟨held.ready.replays, forall_mem_singleton.mpr allowed⟩
  | replay =>
    obtain rfl := replay_eq done
    apply held.moved trace.unit.instsToReplay [] _ (by simp)
    intro number member
    have ready := held.ready.replays number member
    exact ⟨held.ready.known number ready, .inr ready⟩
  | completeInst seqNum =>
    have inside := held.inside_of_completeInst done
    have same := held.completes inside
    cases same.symm.trans done
    exact held.completed inside
  | squash squashedNum => exact held.squashed done
  | violation storePC loadPC =>
    obtain ⟨depPred, predicted, rfl⟩ := bind_ok_eq_ok.mp done
    exact held.predictor (held.tracked.names.violation predicted)
  | issue inst =>
    obtain ⟨depPred, predicted, rfl⟩ := bind_ok_eq_ok.mp done
    exact held.predictor (held.tracked.names.issued predicted)

/-- No completion wakes an instruction that waits for nothing. -/
theorem completeInst_ne_error (seqNum : Nat) :
    trace.unit.completeInst seqNum ≠ .error (.assertion "woken_inst->memDeps > 0") := by
  by_cases inside : seqNum ∈ trace.unit.instList
  · rw [held.completes inside]
    exact fun failed => nomatch failed
  have absent : ∀ text, Gem5.assert (seqNum ∈ trace.unit.memDepHash) text = .error (.assertion text) := by
    intro text
    rw [held.tracked.hash]
    exact if_neg inside
  intro failed
  unfold completeInst wakeDependents at failed
  split at failed
  · simp [MemDepUnit.completed, MemDepUnit.findInHash, absent] at failed
  · simp [MemDepUnit.findInHash, absent] at failed

/-- A readied instruction has no producer left. -/
theorem finished {inst : MemInst} {number : Nat} (known : inst ∈ trace.speculative)
    (ready : inst.seqNum ∈ trace.unit.readied) (waited : number ∈ trace.producers inst.seqNum) :
    number ∈ trace.completed := by
  have counts := held.waiting.counts inst known
  rw [held.ready.resolved inst known ready, eq_comm, countP_eq_zero] at counts
  simpa using counts number waited

end

end Consistent

/-- The instructions from `insert` wait for the barriers that were in flight at their insertion, and nothing else than
their producers and their registers holds them back. -/
structure AwaitsBarriers (trace : MemDepTrace) : Prop where
  loads : ∀ inst ∈ trace.speculative, inst.flags.isLoad = true → inst.seqNum ∈ trace.unit.readied →
    ∀ barrier ∈ trace.loadBarriers inst.seqNum, barrier ∈ trace.completed
  stores : ∀ inst ∈ trace.speculative, inst.flags.isStore = true → inst.flags.isLoad = false →
    inst.flags.isAtomic = false → inst.seqNum ∈ trace.unit.readied →
    ∀ barrier ∈ trace.storeBarriers inst.seqNum, barrier ∈ trace.completed
  loadProducers : ∀ inst ∈ trace.speculative, inst.flags.isLoad = true → trace.loadBarriers inst.seqNum ≠ [] →
    ∀ number, number ∈ trace.producers inst.seqNum ↔ number ∈ trace.loadBarriers inst.seqNum
  storeProducers : ∀ inst ∈ trace.speculative, inst.flags.isStore = true → inst.flags.isLoad = false →
    inst.flags.isAtomic = false → trace.storeBarriers inst.seqNum ≠ [] →
    ∀ number, number ∈ trace.producers inst.seqNum ↔ number ∈ trace.storeBarriers inst.seqNum
  counts : ∀ inst ∈ trace.speculative, inst ∈ trace.inFlight → (trace.unit.entries inst.seqNum).memDeps =
    (trace.producers inst.seqNum).countP fun producer => producer ∉ trace.completed
  outstanding : ∀ inst ∈ trace.speculative, inst ∈ trace.inFlight → ∀ producer ∈ trace.producers inst.seqNum,
    producer ∉ trace.completed → ∃ other ∈ trace.inFlight, other.seqNum = producer
  readied : ∀ inst ∈ trace.speculative, inst ∈ trace.inFlight → (inst.seqNum ∈ trace.unit.readied ↔
    (trace.unit.entries inst.seqNum).regsReady = true ∧
      ∀ producer ∈ trace.producers inst.seqNum, producer ∈ trace.completed)
  completes : ∀ inst ∈ trace.inFlight, ∃ unit, trace.unit.completeInst inst.seqNum = .ok unit
  wakes : ∀ seqNum, trace.unit.completeInst seqNum ≠ .error (.assertion "woken_inst->memDeps > 0")

theorem Consistent.awaitsBarriers (held : trace.Consistent) : trace.AwaitsBarriers := by
  have tracked := held.tracked
  constructor
  · intro inst known load ready barrier member
    apply held.finished known ready
    rw [held.fenced.loads inst known load (ne_nil_of_mem member)]
    exact member
  · intro inst known store notLoad notAtomic ready barrier member
    apply held.finished known ready
    rw [held.fenced.stores inst known store notLoad notAtomic (ne_nil_of_mem member)]
    exact member
  · exact held.fenced.loads
  · exact held.fenced.stores
  · intro inst known _
    exact held.waiting.counts inst known
  · intro inst _ flies producer waited unfinished
    have either := held.waiting.outstanding _ (tracked.mem_of_inFlight flies) producer waited
    exact tracked.inFlight_of_mem (either.resolve_left unfinished)
  · intro inst known flies
    rw [held.ready.readied inst known (tracked.mem_of_inFlight flies), held.waiting.counts inst known, countP_eq_zero]
    simp
  · intro inst flies
    exact ⟨_, held.completes (tracked.mem_of_inFlight flies)⟩
  · exact held.completeInst_ne_error

variable {entries : Nat → MemDepEntry} {clearPeriod ssitSize lfstSize : Nat} {ssit : Nat → Nat}

/-- Along every run the instructions wait for their barriers and for nothing else than their producers and registers. -/
theorem memDepUnit_awaits_barriers {history : List MemDepOp}
    (run : memDepUnits.Run (initial (.initial entries (.init clearPeriod ssitSize lfstSize ssit))) history trace) :
    trace.AwaitsBarriers := by
  apply Consistent.awaitsBarriers
  apply run.invariant Consistent Consistent.initial
  intro state op next held allowed stepped
  exact held.step allowed stepped

def noFlags : InstFlags := ⟨false, false, false, false, false, false, false, false⟩

def sampleFence : MemInst := ⟨1, 0, { noFlags with isReadBarrier := true, isWriteBarrier := true }⟩

def sampleLoad : MemInst := ⟨2, 4, { noFlags with isLoad := true }⟩

/-- A load behind a barrier becomes ready with the completion of the barrier. -/
theorem memDepUnit_awaits_barriers_oneLoad : ∃ trace : MemDepTrace,
    memDepUnits.Run (initial (.initial (fun _ => ⟨sampleFence, [], false, 0, false⟩) StoreTrace.sampleSet))
      [.completeInst 1, .insert sampleLoad true, .insertBarrier sampleFence] trace ∧
    sampleLoad ∈ trace.speculative ∧ trace.loadBarriers 2 = [1] ∧ trace.unit.readied = [2] ∧ 1 ∈ trace.completed := by
  refine ⟨_, and_of_imp (.cons (.cons (.cons .nil (by decide : 0 < 1) rfl) (by decide : 1 < 2) rfl) trivial rfl) fun run =>
    ⟨.head _, rfl, rfl, ?_⟩⟩
  exact (memDepUnit_awaits_barriers run).loads sampleLoad (.head _) rfl (mem_singleton_self 2) 1 (mem_singleton_self 1)

end MemDepTrace
end Gem5.O3
