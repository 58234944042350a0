import Gem5.Proof.O3.MemDepMoves

namespace Gem5.O3
open ToMathlib List

/-- The entries that a new instruction depends on. -/
def MemDepUnit.producers (unit : MemDepUnit) (inst : MemInst) : List Nat :=
  match unit.producingStores inst with
  | .ok stores => unit.storeEntries stores
  | .error _ => []

/-- A trace remembers which instructions are in flight or completed, and for each instruction from `insert` its
producers and the barriers that were in flight when it was inserted. -/
structure MemDepTrace where
  unit : MemDepUnit
  lastInserted : Nat
  inFlight : List MemInst
  completed : List Nat
  speculative : List MemInst
  producers : Nat → List Nat
  loadBarriers : Nat → List Nat
  storeBarriers : Nat → List Nat

namespace MemDepTrace

/-- Sequence numbers start at one. -/
def initial (unit : MemDepUnit) : MemDepTrace := ⟨unit, 0, [], [], [], fun _ => [], fun _ => [], fun _ => []⟩

/-- Instructions are inserted in program order, only nonspeculative instructions are readied directly, and only readied
instructions are rescheduled. -/
def guard (trace : MemDepTrace) : MemDepOp → Prop
  | .insert inst _ => trace.lastInserted < inst.seqNum
  | .insertBarrier inst => trace.lastInserted < inst.seqNum
  | .insertNonSpec inst => trace.lastInserted < inst.seqNum
  | .nonSpecInstReady seqNum => ∀ inst ∈ trace.speculative, inst.seqNum ≠ seqNum
  | .reschedule seqNum => seqNum ∈ trace.unit.readied
  | _ => True

/-- The barriers in flight of one kind. -/
def barriers (trace : MemDepTrace) (kind : InstFlags → Bool) : List Nat :=
  (trace.inFlight.filter fun inst => kind inst.flags).map MemInst.seqNum

def record (trace : MemDepTrace) (unit : MemDepUnit) : MemDepOp → MemDepTrace
  | .insert inst _ =>
    { unit
      lastInserted := inst.seqNum
      inFlight := trace.inFlight ++ [inst]
      completed := trace.completed
      speculative := inst :: trace.speculative
      producers := Function.update trace.producers inst.seqNum ((trace.unit.addEntry inst).producers inst)
      loadBarriers := Function.update trace.loadBarriers inst.seqNum (trace.barriers InstFlags.isLoadBarrier)
      storeBarriers := Function.update trace.storeBarriers inst.seqNum (trace.barriers InstFlags.isStoreBarrier) }
  | .insertBarrier inst =>
    { trace with unit, lastInserted := inst.seqNum, inFlight := trace.inFlight ++ [inst] }
  | .insertNonSpec inst =>
    { trace with unit, lastInserted := inst.seqNum, inFlight := trace.inFlight ++ [inst] }
  | .completeInst seqNum =>
    { trace with
      unit
      inFlight := trace.inFlight.filter fun inst => inst.seqNum ≠ seqNum
      completed := seqNum :: trace.completed }
  | .squash squashedNum =>
    { trace with unit, inFlight := trace.inFlight.filter fun inst => inst.seqNum ≤ squashedNum }
  | _ => { trace with unit }

def step (trace : MemDepTrace) (op : MemDepOp) : Except Fault MemDepTrace := do
  let unit ← trace.unit.step op
  .ok (trace.record unit op)

end MemDepTrace

def memDepUnits : Machine MemDepTrace MemDepOp Fault := ⟨MemDepTrace.guard, MemDepTrace.step⟩

/-- A set of numbers holds the barriers of one kind that are in flight. -/
structure BarrierSet (unit : MemDepUnit) (kind : InstFlags → Bool) (numbers : List Nat) : Prop where
  once : numbers.Nodup
  iff : ∀ number, number ∈ numbers ↔ number ∈ unit.instList ∧ kind (unit.entries number).inst.flags = true

namespace BarrierSet
variable {unit next : MemDepUnit} {kind : InstFlags → Bool} {numbers : List Nat}

section
variable (barriers : BarrierSet unit kind numbers)
include barriers

theorem inserted {inst : MemInst} (fresh : inst.seqNum ∉ unit.instList)
    (instList : next.instList = unit.instList ++ [inst.seqNum]) (own : (next.entries inst.seqNum).inst = inst)
    (insts : ∀ number, number ≠ inst.seqNum → (next.entries number).inst = (unit.entries number).inst) :
    BarrierSet next kind (if kind inst.flags then numbers.insert inst.seqNum else numbers) := by
  have absent : inst.seqNum ∉ numbers := fun member => fresh ((barriers.iff _).mp member).1
  constructor
  · split
    · exact barriers.once.insert
    · exact barriers.once
  · intro number
    rw [instList, mem_append, mem_singleton]
    by_cases same : number = inst.seqNum
    · subst same
      rw [own]
      cases kind inst.flags with
      | true => simp
      | false => simp [absent]
    · have before := barriers.iff number
      rw [insts number same]
      cases kind inst.flags with
      | true | false => simp [same, before]

theorem removed {seqNum : Nat} (distinct : unit.instList.Nodup) (instList : next.instList = unit.instList.erase seqNum)
    (insts : ∀ number, (next.entries number).inst = (unit.entries number).inst) :
    BarrierSet next kind (if kind (unit.entries seqNum).inst.flags then numbers.erase seqNum else numbers) := by
  constructor
  · split
    · exact barriers.once.erase seqNum
    · exact barriers.once
  · intro number
    have before := barriers.iff number
    rw [instList, insts, distinct.mem_erase_iff]
    split
    · rw [barriers.once.mem_erase_iff, before, and_assoc]
    · next other =>
        rw [before, and_assoc]
        refine (and_iff_right_of_imp fun both => ?_).symm
        rintro rfl
        exact other both.2

theorem squashed {squashedNum : Nat} {insts : List Nat} (list : ∀ number, number ∈ unit.instList ↔ number ∈ insts)
    (instList : next.instList = unit.instList.filter fun number => number ≤ squashedNum)
    (same : ∀ number, (next.entries number).inst = (unit.entries number).inst) :
    BarrierSet next kind (numbers.filter fun number => ¬ (number ∈ insts ∧ squashedNum < number)) := by
  refine ⟨barriers.once.filter _, ?_⟩
  intro number
  rw [instList, same, mem_filter, mem_filter, barriers.iff, list]
  simp only [decide_eq_true_eq, not_and, not_lt]
  tauto

end

end BarrierSet

namespace MemDepTrace
variable {trace next : MemDepTrace}

/-- The list, the hash and the barrier sets hold the instructions in flight, and the predictor names inserted stores. -/
structure Tracked (trace : MemDepTrace) : Prop where
  list : trace.unit.instList = trace.inFlight.map MemInst.seqNum
  hash : trace.unit.memDepHash = trace.unit.instList
  sorted : trace.unit.instList.Pairwise (· < ·)
  bounded : ∀ number ∈ trace.unit.instList, number ≤ trace.lastInserted
  entry : ∀ inst ∈ trace.inFlight, (trace.unit.entries inst.seqNum).inst = inst ∧
    (trace.unit.entries inst.seqNum).squashed = false
  loads : BarrierSet trace.unit InstFlags.isLoadBarrier trace.unit.loadBarrierSNs
  stores : BarrierSet trace.unit InstFlags.isStoreBarrier trace.unit.storeBarrierSNs
  completed : ∀ number ∈ trace.completed, number ≤ trace.lastInserted ∧ number ∉ trace.unit.instList
  names : trace.unit.depPred.Names fun number => number ≤ trace.lastInserted ∧
    (trace.unit.entries number).inst.flags.writesMemory = true

namespace Tracked

theorem initial {entries : Nat → MemDepEntry} {clearPeriod ssitSize lfstSize : Nat} {ssit : Nat → Nat} :
    (MemDepTrace.initial (.initial entries (.init clearPeriod ssitSize lfstSize ssit))).Tracked := by
  constructor
  case loads => exact ⟨.nil, by simp [MemDepTrace.initial, MemDepUnit.initial]⟩
  case stores => exact ⟨.nil, by simp [MemDepTrace.initial, MemDepUnit.initial]⟩
  all_goals simp [MemDepTrace.initial, MemDepUnit.initial, StoreSet.init, StoreSet.Names]

section
variable (tracked : trace.Tracked)
include tracked

theorem inFlight_of_mem {number : Nat} (member : number ∈ trace.unit.instList) :
    ∃ inst ∈ trace.inFlight, inst.seqNum = number := by
  rw [tracked.list] at member
  exact mem_map.mp member

theorem mem_of_inFlight {inst : MemInst} (member : inst ∈ trace.inFlight) : inst.seqNum ∈ trace.unit.instList := by
  rw [tracked.list]
  exact mem_map_of_mem member

theorem distinct : trace.unit.instList.Nodup := tracked.sorted.imp fun smaller => smaller.ne

/-- The barriers in flight of a kind are the numbers in its set. -/
theorem mem_barriers {kind : InstFlags → Bool} {numbers : List Nat} {number : Nat}
    (set : BarrierSet trace.unit kind numbers) : number ∈ trace.barriers kind ↔ number ∈ numbers := by
  rw [set.iff, barriers]
  simp only [mem_map, mem_filter]
  constructor
  · rintro ⟨inst, ⟨member, barrier⟩, rfl⟩
    rw [(tracked.entry inst member).1]
    exact ⟨tracked.mem_of_inFlight member, barrier⟩
  · intro ⟨member, barrier⟩
    obtain ⟨inst, flies, rfl⟩ := tracked.inFlight_of_mem member
    rw [(tracked.entry inst flies).1] at barrier
    exact ⟨inst, ⟨flies, barrier⟩, rfl⟩

end

/-- A completion changes only the dependents of its own entry and the counts of others. -/
theorem afterComplete_entry {unit : MemDepUnit} {seqNum number : Nat} :
    let entry := (unit.afterComplete seqNum).entries number
    entry.inst = (unit.entries number).inst ∧ entry.squashed = (unit.entries number).squashed ∧
      entry.regsReady = (unit.entries number).regsReady ∧
      (number ≠ seqNum → entry.dependInsts = (unit.entries number).dependInsts) := by
  by_cases same : number = seqNum
  · simp [MemDepUnit.afterComplete, same]
  · simp only [MemDepUnit.afterComplete, if_neg same]
    split <;> simp

/-- A squash keeps everything in an entry but its mark. -/
theorem afterSquash_entry {unit : MemDepUnit} {squashedNum number : Nat} {insts : List Nat} :
    let entry := (unit.afterSquash squashedNum insts).entries number
    entry.inst = (unit.entries number).inst ∧ entry.dependInsts = (unit.entries number).dependInsts ∧
      entry.memDeps = (unit.entries number).memDeps ∧ entry.regsReady = (unit.entries number).regsReady := by
  unfold MemDepUnit.afterSquash
  dsimp only
  split <;> exact ⟨rfl, rfl, rfl, rfl⟩

theorem removed {seqNum : Nat} (tracked : trace.Tracked) (member : seqNum ∈ trace.unit.instList) :
    (trace.record (trace.unit.afterComplete seqNum) (.completeInst seqNum)).Tracked := by
  have distinct := tracked.distinct
  constructor
  · change trace.unit.instList.erase seqNum = (trace.inFlight.filter _).map _
    rw [distinct.erase_eq_filter, tracked.list, filter_map]
    congr 1
    apply filter_congr
    intro inst _
    rw [Bool.eq_iff_iff]
    simp
  · change trace.unit.memDepHash.erase seqNum = trace.unit.instList.erase seqNum
    rw [tracked.hash]
  · exact tracked.sorted.sublist erase_sublist
  · intro number inside
    exact tracked.bounded number (mem_of_mem_erase inside)
  · intro inst inside
    obtain ⟨before, _⟩ := mem_filter.mp inside
    change ((trace.unit.afterComplete seqNum).entries inst.seqNum).inst = inst ∧
      ((trace.unit.afterComplete seqNum).entries inst.seqNum).squashed = false
    rw [afterComplete_entry.1, afterComplete_entry.2.1]
    exact tracked.entry inst before
  · exact tracked.loads.removed distinct rfl fun number => afterComplete_entry.1
  · exact tracked.stores.removed distinct rfl fun number => afterComplete_entry.1
  · intro number finished
    change number ≤ trace.lastInserted ∧ number ∉ trace.unit.instList.erase seqNum
    rw [distinct.mem_erase_iff]
    rcases mem_cons.mp finished with rfl | before
    · exact ⟨tracked.bounded number member, fun both => both.1 rfl⟩
    · obtain ⟨bound, absent⟩ := tracked.completed number before
      exact ⟨bound, fun both => absent both.2⟩
  · intro ssid valid
    obtain ⟨bound, writes⟩ := tracked.names ssid valid
    refine ⟨bound, ?_⟩
    change ((trace.unit.afterComplete seqNum).entries _).inst.flags.writesMemory = true
    rw [afterComplete_entry.1]
    exact writes

/-- The squashed instructions are no longer tracked. -/
theorem squashed {squashedNum : Nat} {depPred : StoreSet} {replays : List Nat} (tracked : trace.Tracked)
    (names : depPred.Names fun number => number ≤ trace.lastInserted ∧
      (trace.unit.entries number).inst.flags.writesMemory = true) :
    (trace.record { trace.unit.afterSquash squashedNum trace.unit.instList.reverse with
      depPred, instsToReplay := replays } (.squash squashedNum)).Tracked := by
  have listed : ∀ number, number ∈ trace.unit.instList ↔ number ∈ trace.unit.instList.reverse := by
    intro number
    rw [mem_reverse]
  constructor
  · change trace.unit.instList.filter _ = (trace.inFlight.filter _).map _
    rw [tracked.list, filter_map]
    rfl
  · rfl
  · exact tracked.sorted.filter _
  · intro number inside
    exact tracked.bounded number (mem_of_mem_filter inside)
  · intro inst inside
    obtain ⟨before, early⟩ := mem_filter.mp inside
    obtain ⟨same, live⟩ := tracked.entry inst before
    have kept : ¬ (inst.seqNum ∈ trace.unit.instList.reverse ∧ squashedNum < inst.seqNum) := by
      intro both
      have bound : inst.seqNum ≤ squashedNum := by simpa using early
      omega
    change ((trace.unit.afterSquash squashedNum _).entries inst.seqNum).inst = inst ∧
      ((trace.unit.afterSquash squashedNum _).entries inst.seqNum).squashed = false
    rw [afterSquash_entry.1]
    refine ⟨same, ?_⟩
    unfold MemDepUnit.afterSquash
    dsimp only
    rw [if_neg kept]
    exact live
  · exact tracked.loads.squashed listed rfl fun number => afterSquash_entry.1
  · exact tracked.stores.squashed listed rfl fun number => afterSquash_entry.1
  · intro number finished
    obtain ⟨bound, absent⟩ := tracked.completed number finished
    exact ⟨bound, fun inside => absent (mem_of_mem_filter inside)⟩
  · intro ssid valid
    obtain ⟨bound, writes⟩ := names ssid valid
    refine ⟨bound, ?_⟩
    change ((trace.unit.afterSquash squashedNum _).entries _).inst.flags.writesMemory = true
    rw [afterSquash_entry.1]
    exact writes

end Tracked
end MemDepTrace
end Gem5.O3
