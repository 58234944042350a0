import Gem5.Proof.O3.InstQueueEntries

namespace Gem5.O3
open ToMathlib SrcReg DynInst Function List

namespace SrcReg
variable {Reg : Type}

/-- The source is not ready and waits for some register. -/
def waits : SrcReg Reg → Bool
  | ⟨.renamed _, false⟩ => true
  | _ => false

/-- Every waiting source waits for one register. -/
theorem sum_waitsFor [Fintype Reg] [DecidableEq Reg] (srcs : List (SrcReg Reg)) :
    ∑ flatIndex, srcs.countP (waitsFor flatIndex) = srcs.countP waits := by
  induction srcs with
  | nil => simp
  | cons src srcs ih =>
    simp only [countP_cons, Finset.sum_add_distrib, ih]
    congr 1
    obtain ⟨reg, ready⟩ := src
    cases reg with
    | fixedMapping => simp [waitsFor, waits]
    | renamed other => cases ready <;> simp [waitsFor, waits]

/-- A source that waits after the insertion was neither ready before nor became ready early. -/
theorem countP_waits (regScoreboard : Reg → Bool) (srcs : List (SrcReg Reg)) :
    (srcs.map (marked regScoreboard)).countP waits + srcs.countP (early regScoreboard) + srcs.countP SrcReg.ready ≤
      srcs.length := by
  induction srcs with
  | nil => simp
  | cons src srcs ih =>
    simp only [map_cons, countP_cons, length_cons]
    have one : (if ((src.marked regScoreboard).waits) = true then 1 else 0) +
        (if src.early regScoreboard = true then 1 else 0) + (if src.ready = true then 1 else 0) ≤ 1 := by
      obtain ⟨reg, ready⟩ := src
      cases reg with
      | fixedMapping => cases ready <;> simp [marked, early, waits]
      | renamed flatIndex =>
        cases ready with
        | true => simp [marked, early, waits]
        | false => cases board : regScoreboard flatIndex <;> simp [marked, early, waits, board]
    omega

end SrcReg

namespace InstQueue
variable {Reg Tid : Type} {queue next last : InstQueue Reg Tid} {inserted : List Nat} {before : Nat → Bool}
  {seqNum : Nat} {inst changed : DynInst Reg Tid}

section Entry
variable [DecidableEq Tid]

/-- The queue got one instruction more, but its entries are not counted yet. -/
structure Appended (queue : InstQueue Reg Tid) (inst changed : DynInst Reg Tid) (next : InstQueue Reg Tid) : Prop where
  numEntries : next.numEntries = queue.numEntries
  freeEntries : next.freeEntries = queue.freeEntries
  count : next.count = queue.count
  insts : next.insts = update queue.insts inst.seqNum changed
  instList : next.instList = update queue.instList inst.threadNumber
    (queue.instList inst.threadNumber ++ [inst.seqNum])

theorem Appended.own (appended : queue.Appended inst changed next) : next.insts inst.seqNum = changed := by
  rw [appended.insts, update_self]

theorem Counted.take [Fintype Tid] (held : queue.Counted inserted) (new : inst.seqNum ∉ inserted)
    (appended : queue.Appended inst changed next) (room : queue.freeEntries ≠ 0) (holds : changed.holdsEntry = true) :
    (next.takeEntry inst.seqNum).Counted (inst.seqNum :: inserted) := by
  have small := held.small
  have free := held.free
  have bound := le_sum id queue.count changed.threadNumber
  simp only [id] at bound
  have less : wrapDecrement queue.freeEntries = queue.freeEntries - 1 := by
    unfold wrapDecrement
    omega
  have more : wrapIncrement (queue.count changed.threadNumber) = queue.count changed.threadNumber + 1 := by
    unfold wrapIncrement
    omega
  unfold InstQueue.takeEntry
  dsimp only
  rw [appended.own, appended.count, appended.freeEntries, less, more]
  refine ⟨appended.numEntries.trans_lt small, ?_, fun tid => ?_⟩
  · have total := sum_update id queue.count changed.threadNumber (queue.count changed.threadNumber + 1)
    simp only [id] at total
    dsimp only
    rw [appended.numEntries]
    omega
  · have old : inserted.countP (fun number => (next.insts number).threadNumber = tid &&
        (next.insts number).holdsEntry) = queue.count tid := by
      rw [held.counts tid]
      apply countP_congr
      intro number inside
      have different : number ≠ inst.seqNum := fun same => new (same ▸ inside)
      rw [appended.insts, update_of_ne different]
    dsimp only
    rw [countP_cons, old, appended.own, holds]
    by_cases equal : tid = changed.threadNumber
    · subst equal
      rw [update_self]
      simp
    · rw [update_of_ne equal]
      simp [Ne.symm equal]

theorem Appended.insertMemInst (appended : queue.Appended inst changed next)
    (done : next.insertMemInst inst.seqNum = .ok last) :
    ∃ canIssue, queue.Appended inst { changed with canIssue } last := by
  obtain ⟨unit, _, done⟩ := bind_eq_ok.mp done
  obtain ⟨ready, rfl, _⟩ := setMemDepUnit_eq done
  refine ⟨(next.insts inst.seqNum).canIssue && (unit.entries inst.seqNum).memDeps = 0, { appended with insts := ?_ }⟩
  change update next.insts inst.seqNum { next.insts inst.seqNum with canIssue := _ } = _
  rw [appended.own, appended.insts, update_idem]

theorem Appended.addIfReady (appended : queue.Appended inst changed next) (done : next.addIfReady seqNum = .ok last) :
    queue.Appended inst changed last := by
  obtain ⟨ready, memDepUnit, rfl⟩ := addIfReady_shape done
  exact { appended with }

end Entry

section Dependent
variable [DecidableEq Reg]

/-- The dependency graph after `addToDependents`. -/
def dependGraphOf (queue : InstQueue Reg Tid) (inst : DynInst Reg Tid) : DependencyGraph Reg :=
  (addToDependentsLoop queue.regScoreboard inst.seqNum (inst.srcs.take (int8Bound inst.numSrcRegs))
    queue.dependGraph inst).1

/-- The instruction after `addToDependents`. -/
def dependentOf (queue : InstQueue Reg Tid) (inst : DynInst Reg Tid) : DynInst Reg Tid :=
  { (addToDependentsLoop queue.regScoreboard inst.seqNum (inst.srcs.take (int8Bound inst.numSrcRegs))
      queue.dependGraph inst).2.1 with
    srcs := (inst.srcs.take (int8Bound inst.numSrcRegs)).map (marked queue.regScoreboard) ++
      inst.srcs.drop (int8Bound inst.numSrcRegs) }

theorem addToDependents_eq [DecidableEq Tid] : (queue.appendInst inst).addToDependents inst.seqNum = { queue with
    insts := update queue.insts inst.seqNum (queue.dependentOf inst)
    instList := update queue.instList inst.threadNumber
      (queue.instList inst.threadNumber ++ [inst.seqNum])
    dependGraph := queue.dependGraphOf inst } := by
  unfold addToDependents appendInst dependentOf dependGraphOf
  dsimp only
  rw [update_self, update_idem, addToDependentsLoop_srcs]

/-- The instruction changes only in what it knows about its sources. -/
theorem dependentOf_eq : queue.dependentOf inst = { inst with
    readyRegs := (queue.dependentOf inst).readyRegs
    canIssue := (queue.dependentOf inst).canIssue
    srcs := (queue.dependentOf inst).srcs } := by
  unfold dependentOf
  conv_lhs => rw [addToDependentsLoop_inst]

theorem dependentOf_numSrcRegs : (queue.dependentOf inst).numSrcRegs = inst.numSrcRegs := by
  unfold dependentOf numSrcRegs
  rw [length_append, length_map, ← length_append, take_append_drop]

theorem count_dependGraphOf (flatIndex : Reg) {number : Nat} (different : number ≠ inst.seqNum) :
    ((queue.dependGraphOf inst).dependents flatIndex).count number =
      (queue.dependGraph.dependents flatIndex).count number := by
  unfold dependGraphOf
  rw [addToDependentsLoop_dependents, count_append, count_replicate]
  simp [Ne.symm different]

/-- A new instruction counts its ready sources. -/
theorem readyRegs_dependentOf (queue : InstQueue Reg Tid) (fresh : inst.Fresh) :
    (queue.dependentOf inst).readyRegs = inst.srcs.countP SrcReg.ready +
      (inst.srcs.take (int8Bound inst.numSrcRegs)).countP (early queue.regScoreboard) ∧
    ((queue.dependentOf inst).canIssue = true ↔ (queue.dependentOf inst).readyRegs = inst.numSrcRegs) ∧
    ((inst.srcs.take (int8Bound inst.numSrcRegs)).map (marked queue.regScoreboard)).countP waits +
      (queue.dependentOf inst).readyRegs ≤ inst.numSrcRegs := by
  have visited := countP_waits queue.regScoreboard (inst.srcs.take (int8Bound inst.numSrcRegs))
  have split := take_append_drop (int8Bound inst.numSrcRegs) inst.srcs
  have rest := (inst.srcs.drop (int8Bound inst.numSrcRegs)).countP_le_length (p := SrcReg.ready)
  have parts := congrArg (countP SrcReg.ready) split
  have total : _ = inst.numSrcRegs := congrArg length split
  rw [countP_append] at parts
  rw [length_append] at total
  have counted := fresh.readyRegs
  obtain ⟨ready, issue⟩ : (queue.dependentOf inst).readyRegs = inst.readyRegs +
      (inst.srcs.take (int8Bound inst.numSrcRegs)).countP (early queue.regScoreboard) ∧
      ((queue.dependentOf inst).canIssue = true ↔ (queue.dependentOf inst).readyRegs = inst.numSrcRegs) :=
    addToDependentsLoop_ready fresh.small (by omega) fresh.canIssue
  refine ⟨by rw [ready, counted], issue, ?_⟩
  omega

/-- The producers change the producer nodes and the scoreboard. -/
theorem addToProducers_eq (done : queue.addToProducers seqNum = .ok next) :
    ∃ producer regScoreboard, next = { queue with
      dependGraph := { queue.dependGraph with producer }, regScoreboard } := by
  obtain ⟨⟨⟨producer, _⟩, regScoreboard⟩, looped, done⟩ := bind_eq_ok.mp done
  cases addToProducersLoop_dependents looped
  exact ⟨producer, regScoreboard, (Except.ok.inj done).symm⟩

end Dependent

variable [Fintype Reg]

theorem Scheduled.insert {nonSpec : List Nat} {graph : DependencyGraph Reg}
    (held : queue.Scheduled before inserted) (new : seqNum ∉ inserted)
    (waiting : ∀ number, number ≠ seqNum → nonSpec.count number = queue.nonSpecInsts.count number)
    (edges : ∀ flatIndex number, number ≠ seqNum →
      (graph.dependents flatIndex).count number = (queue.dependGraph.dependents flatIndex).count number)
    (entry : EntryOk inst 0 (nonSpec.count seqNum) ({ queue with dependGraph := graph }.nodes seqNum)
      (before seqNum)) :
    { queue with
      insts := update queue.insts seqNum inst
      nonSpecInsts := nonSpec
      dependGraph := graph }.Scheduled before (seqNum :: inserted) := by
  have old : ∀ number ∈ inserted, number ≠ seqNum := fun number member same => new (same ▸ member)
  have memRefs : ∀ number, number ∈ inserted ∧ (queue.insts number).isMemRef = true →
      number ∈ seqNum :: inserted ∧ (update queue.insts seqNum inst number).isMemRef = true := by
    intro number known
    rw [update_of_ne (old number known.1)]
    exact ⟨mem_cons_of_mem _ known.1, known.2⟩
  have listed : ∀ {new old : List Nat}, (∀ number, number ≠ seqNum → new.count number = old.count number) →
      (∀ number ∈ old, number ∈ inserted) → ∀ number ∈ new, number ∈ seqNum :: inserted := by
    intro new old same known number member
    by_cases own : number = seqNum
    · rw [own]
      exact mem_cons_self
    · rw [← count_pos_iff, same number own, count_pos_iff] at member
      exact mem_cons_of_mem _ (known number member)
  constructor
  · intro opClass number member
    obtain ⟨known, ofClass⟩ := held.ready opClass number member
    dsimp only
    rw [update_of_ne (old number known)]
    exact ⟨mem_cons_of_mem _ known, ofClass⟩
  · exact listed waiting held.nonSpec
  · exact fun flatIndex => listed (edges flatIndex) (held.dependents flatIndex)
  · intro number member
    rcases mem_cons.mp member with same | known
    · subst same
      have absent : ∀ opClass, (queue.ready.readyInsts opClass).count number = 0 := by
        intro opClass
        apply count_eq_zero_of_not_mem
        intro ready
        exact new (held.ready opClass number ready).1
      rw [readyCount]
      dsimp only
      rw [update_self, absent]
      exact entry
    · have different := old number known
      have same : { queue with
          insts := update queue.insts seqNum inst
          nonSpecInsts := nonSpec
          dependGraph := graph }.nodes number = queue.nodes number :=
        Finset.sum_congr rfl fun flatIndex _ => edges flatIndex number different
      rw [same, readyCount]
      dsimp only
      rw [update_of_ne different, waiting number different]
      exact held.entry number known
  · intro tid
    have readies := held.units tid
    exact ⟨fun number bit => memRefs number (readies.regsReady number bit),
      fun number member => memRefs number (readies.instsToReplay number member),
      fun number member => memRefs number (readies.readied number member)⟩
  · exact held.drained
  · intro number listed
    exact memRefs number (held.memInsts number listed)

/-- A new instruction that was scheduled takes its entry. -/
theorem Sound.takeEntry [DecidableEq Tid] [Fintype Tid] (held : queue.Sound before inserted) (new : inst.seqNum ∉ inserted)
    (appended : queue.Appended inst changed next) (scheduled : next.Scheduled before (inst.seqNum :: inserted))
    (room : queue.freeEntries ≠ 0) (holds : changed.holdsEntry = true) :
    (next.takeEntry inst.seqNum).Sound before (inst.seqNum :: inserted) := by
  refine ⟨nodup_cons.mpr ⟨new, held.once⟩, ?_, held.counted.take new appended room holds, scheduled.congr ?_⟩
  · change ∀ tid, ∀ number ∈ next.instList tid, number ∈ inst.seqNum :: inserted
    rw [appended.instList]
    have listed := fun tid number member => mem_cons_of_mem inst.seqNum (held.listed tid number member)
    refine (forall_update_iff queue.instList fun _ numbers => ∀ number ∈ numbers, number ∈ inst.seqNum :: inserted).mpr
      ⟨?_, fun tid _ => listed tid⟩
    exact forall_mem_append.mpr ⟨listed _, forall_mem_singleton.mpr mem_cons_self⟩
  · unfold schedule InstQueue.takeEntry
    rfl

section Insert
variable [DecidableEq Reg]

/-- A new instruction has a node for every source that waits. -/
theorem nodes_dependGraphOf (absent : ∀ flatIndex, inst.seqNum ∉ queue.dependGraph.dependents flatIndex) :
    { queue with dependGraph := queue.dependGraphOf inst }.nodes inst.seqNum =
      ((inst.srcs.take (int8Bound inst.numSrcRegs)).map (marked queue.regScoreboard)).countP waits := by
  rw [← sum_waitsFor]
  apply Finset.sum_congr rfl
  intro flatIndex _
  unfold dependGraphOf
  rw [addToDependentsLoop_dependents, count_append, count_eq_zero_of_not_mem (absent flatIndex),
    count_replicate_self, countP_map, Nat.add_zero]
  rfl

/-- A new instruction waits for its sources, or it can issue and may be ready. -/
theorem EntryOk.dependentOf {ready : Nat} (fresh : inst.Fresh)
    (absent : ∀ flatIndex, inst.seqNum ∉ queue.dependGraph.dependents flatIndex)
    (may : ready = 0 ∨ ready = 1 ∧ (queue.dependentOf inst).canIssue = true) :
    EntryOk (queue.dependentOf inst) ready 0
      ({ queue with dependGraph := queue.dependGraphOf inst }.nodes inst.seqNum) true := by
  obtain ⟨_, issue, slots⟩ := readyRegs_dependentOf queue fresh
  rw [← nodes_dependGraphOf absent] at slots
  have same : (queue.dependentOf inst).numSrcRegs = inst.numSrcRegs := dependentOf_numSrcRegs
  apply EntryOk.ofFresh
  · rw [same]
    exact fresh.small
  · rw [same]
    exact slots
  · exact (congrArg issued dependentOf_eq).trans fresh.issued
  · exact (congrArg memOpDone dependentOf_eq).trans fresh.memOpDone
  · exact (congrArg squashedInIQ dependentOf_eq).trans fresh.squashedInIQ
  · rcases may with none | one
    · omega
    · have all := issue.mp one.2
      omega
  · intro some
    rw [Bool.eq_false_iff]
    intro can
    have all := issue.mp can
    omega

variable [DecidableEq Tid]

omit [DecidableEq Reg] in
/-- A memory reference enters the memory dependence unit of its thread. -/
theorem Scheduled.insertMemInst (held : queue.Scheduled before inserted) (member : seqNum ∈ inserted)
    (named : (queue.insts seqNum).seqNum = seqNum) (memRef : (queue.insts seqNum).isMemRef = true)
    (done : queue.insertMemInst seqNum = .ok next) : next.Scheduled before inserted := by
  obtain ⟨unit, predicted, done⟩ := bind_eq_ok.mp done
  have entry := held.entry seqNum member
  have resolved : (queue.modifyInst seqNum fun inst => { inst with
      canIssue := inst.canIssue && (unit.entries seqNum).memDeps = 0 }).Scheduled before inserted := by
    apply held.modify rfl
    intro _
    exact { entry with unready := fun other => nomatch memRef.symm.trans other }
  apply resolved.setMemDepUnit _ done
  refine (resolved.units (queue.insts seqNum).threadNumber).update (MemDepUnit.insert_moves predicted) fun _ => ?_
  rw [show (queue.insts seqNum).memInst.seqNum = seqNum from named, modifyInst_self]
  exact ⟨member, memRef⟩

variable [Fintype Tid]

section
variable (held : queue.Sound before inserted) (new : inst.seqNum ∉ inserted) (fresh : inst.Fresh)
  (free : before inst.seqNum = true)
include held new fresh free

theorem Sound.insert (done : queue.insert inst = .ok next) : next.Sound before (inst.seqNum :: inserted) := by
  have absent : ∀ flatIndex, inst.seqNum ∉ queue.dependGraph.dependents flatIndex :=
    fun flatIndex waits => new (held.scheduled.dependents flatIndex _ waits)
  have noNonSpec : queue.nonSpecInsts.count inst.seqNum = 0 :=
    count_eq_zero_of_not_mem fun waits => new (held.scheduled.nonSpec _ waits)
  have notReady : ∀ opClass, (queue.ready.readyInsts opClass).count inst.seqNum = 0 :=
    fun opClass => count_eq_zero_of_not_mem fun ready => new (held.scheduled.ready opClass _ ready).1
  have entry {ready : Nat} (may : ready = 0 ∨ ready = 1 ∧ (queue.dependentOf inst).canIssue = true) :
      EntryOk (queue.dependentOf inst) ready (queue.nonSpecInsts.count inst.seqNum)
        ({ queue with dependGraph := queue.dependGraphOf inst }.nodes inst.seqNum) (before inst.seqNum) := by
    rw [noNonSpec, free]
    exact EntryOk.dependentOf fresh absent may
  have holds : ∀ canIssue, holdsEntry { queue.dependentOf inst with canIssue } = true := by
    intro canIssue
    rw [dependentOf_eq]
    unfold holdsEntry
    simp only [fresh.squashedInIQ, fresh.memOpDone, fresh.issued]
    simp
  obtain ⟨room, done⟩ := assert_bind_eq_ok.mp done
  obtain ⟨middle, produced, done⟩ := bind_eq_ok.mp done
  rw [addToDependents_eq] at produced
  obtain ⟨producer, regScoreboard, shape⟩ := addToProducers_eq produced
  have appended : queue.Appended inst (queue.dependentOf inst) middle := by
    rw [shape]
    exact ⟨rfl, rfl, rfl, rfl, rfl⟩
  have scheduled : middle.Scheduled before (inst.seqNum :: inserted) := by
    rw [shape]
    exact (held.scheduled.insert new (fun _ _ => rfl)
      (fun flatIndex number different => count_dependGraphOf flatIndex different) (entry (.inl rfl))).congr rfl
  have own := appended.own
  have ofFlags : (middle.insts inst.seqNum).isMemRef = inst.isMemRef := by
    rw [own, dependentOf_eq]
    rfl
  split_ifs at done with memRef
  · simp only [bind_eq_ok] at done
    obtain ⟨last, predicted, _, _, taken⟩ := done
    cases taken
    obtain ⟨canIssue, changed⟩ := appended.insertMemInst predicted
    apply held.takeEntry new changed _ room (holds canIssue)
    apply scheduled.insertMemInst mem_cons_self _ (ofFlags.trans memRef) predicted
    rw [own, dependentOf_eq]
  · simp only [bind_eq_ok] at done
    obtain ⟨last, pushes, _, _, taken⟩ := done
    cases taken
    apply held.takeEntry new (appended.addIfReady pushes) _ room (holds _)
    rcases addIfReady_eq pushes with ⟨_, rfl⟩ | ⟨_, other, _⟩ | ⟨can, _, _, rfl, pushed⟩
    · exact scheduled
    · exact absurd (ofFlags.symm.trans other) memRef
    · apply scheduled.pushInst pushed mem_cons_self
      rw [own] at can
      rw [EntryAt, readyCount, own, shape]
      dsimp only
      rw [notReady]
      exact entry (.inr ⟨rfl, can⟩)

theorem Sound.insertNonSpec (done : queue.insertNonSpec inst = .ok next) :
    next.Sound before (inst.seqNum :: inserted) := by
  have absent : ∀ flatIndex, inst.seqNum ∉ queue.dependGraph.dependents flatIndex :=
    fun flatIndex waits => new (held.scheduled.dependents flatIndex _ waits)
  have noNodes : queue.nodes inst.seqNum = 0 :=
    Finset.sum_eq_zero fun flatIndex _ => count_eq_zero_of_not_mem (absent flatIndex)
  have outside : inst.seqNum ∉ queue.nonSpecInsts := fun waits => new (held.scheduled.nonSpec _ waits)
  have waiting : queue.nonSpecInsts.insert inst.seqNum = inst.seqNum :: queue.nonSpecInsts := insert_of_not_mem outside
  have entry : EntryOk inst 0 ((queue.nonSpecInsts.insert inst.seqNum).count inst.seqNum) (queue.nodes inst.seqNum)
      (before inst.seqNum) := by
    rw [free, noNodes, waiting, count_cons_self, count_eq_zero_of_not_mem outside]
    apply EntryOk.ofFresh fresh.small _ fresh.issued fresh.memOpDone fresh.squashedInIQ (by decide) (by simp)
    rw [fresh.readyRegs, Nat.zero_add]
    exact countP_le_length
  have scheduled : { queue with
      insts := update queue.insts inst.seqNum inst
      nonSpecInsts := queue.nonSpecInsts.insert inst.seqNum
      dependGraph := queue.dependGraph }.Scheduled before (inst.seqNum :: inserted) := by
    apply held.scheduled.insert new _ (fun _ _ _ => rfl) entry
    intro number different
    rw [waiting, count_cons_of_ne (Ne.symm different)]
  have holds : inst.holdsEntry = true := by
    unfold holdsEntry
    rw [fresh.squashedInIQ, fresh.memOpDone, fresh.issued]
    simp
  obtain ⟨room, done⟩ := assert_bind_eq_ok.mp done
  obtain ⟨middle, produced, done⟩ := bind_eq_ok.mp done
  obtain ⟨producer, regScoreboard, shape⟩ := addToProducers_eq produced
  have appended : queue.Appended inst inst middle := by
    rw [shape]
    exact ⟨rfl, rfl, rfl, rfl, rfl⟩
  have scheduled : middle.Scheduled before (inst.seqNum :: inserted) := by
    rw [shape]
    exact scheduled.congr rfl
  split_ifs at done with memRef
  · simp only [bind_eq_ok] at done
    obtain ⟨unit, told, last, passed, _, _, taken⟩ := done
    cases taken
    have behind : queue.Appended inst inst last := by
      obtain ⟨ready, moved, _⟩ := setMemDepUnit_eq passed
      rw [moved]
      exact { appended with }
    apply held.takeEntry new behind _ room holds
    exact scheduled.setMemDepUnit ((scheduled.units _).update (MemDepUnit.insertNonSpec_moves told) nofun) passed
  · simp only [bind_eq_ok, Except.ok.injEq] at done
    obtain ⟨_, rfl, _, _, rfl⟩ := done
    exact held.takeEntry new appended scheduled room holds

theorem Sound.insertBarrier (done : queue.insertBarrier inst = .ok next) :
    next.Sound before (inst.seqNum :: inserted) := by
  obtain ⟨middle, told, done⟩ := bind_eq_ok.mp done
  apply Sound.insertNonSpec _ new fresh free done
  exact held.setMemDepUnit ((held.scheduled.units _).update MemDepUnit.insertBarrier_moves nofun) told

end

end Insert
end InstQueue
end Gem5.O3
