import Gem5.Proof.O3.InstQueueMoves
import Gem5.Proof.O3.MemDepMoves

namespace Gem5.O3
open ToMathlib Function List

namespace DynInst
variable {Reg Tid : Type}

/-- A memory reference holds its entry until it completes, any other instruction until it issues, and no instruction
holds it after it was squashed in the queue. -/
def holdsEntry (inst : DynInst Reg Tid) : Bool :=
  !inst.squashedInIQ && if inst.isMemRef then !inst.memOpDone else !inst.issued

/-- No operation changes these parts of an instruction. -/
def fixed (inst : DynInst Reg Tid) := (inst.flags, inst.opClass, inst.threadNumber)

/-- The bits and the counter of an instruction agree before it reaches the queue. -/
structure Fresh (inst : DynInst Reg Tid) : Prop where
  issued : inst.issued = false
  memOpDone : inst.memOpDone = false
  squashedInIQ : inst.squashedInIQ = false
  small : inst.numSrcRegs < 2 ^ 8
  readyRegs : inst.readyRegs = inst.srcs.countP SrcReg.ready
  canIssue : inst.canIssue = true ↔ inst.readyRegs = inst.numSrcRegs

end DynInst

namespace InstQueue
variable {Reg Tid : Type} {queue next : InstQueue Reg Tid} {inserted : List Nat}
  {change : DynInst Reg Tid → DynInst Reg Tid}

/-- The number of nodes of an instruction in the dependency graph. -/
def nodes [Fintype Reg] (queue : InstQueue Reg Tid) (number : Nat) : Nat :=
  ∑ flatIndex, (queue.dependGraph.dependents flatIndex).count number

/-- The number of times that an instruction is in the queue of its class. -/
def readyCount (queue : InstQueue Reg Tid) (number : Nat) : Nat :=
  (queue.ready.readyInsts (queue.insts number).opClass).count number

/-- An instruction that is no memory reference waits for a register, waits for commit, is ready or has issued, and it
does only one of these at a time. -/
structure EntryOk (inst : DynInst Reg Tid) (ready nonSpec nodes : Nat) (before : Bool) : Prop where
  small : inst.numSrcRegs < 2 ^ 8
  slots : nodes + inst.readyRegs ≤ inst.numSrcRegs
  squashed : inst.squashedInIQ = true → inst.squashed = true
  done : inst.isMemRef = true → inst.memOpDone = true → inst.issued = true
  once : inst.isMemRef = false → inst.squashedInIQ = false → ready + inst.issued.toNat + nonSpec + min nodes 1 ≤ 1
  unready : inst.isMemRef = false → inst.squashedInIQ = false → 0 < nodes → inst.canIssue = false
  released : before = false → inst.holdsEntry = false

namespace EntryOk
variable {inst : DynInst Reg Tid} {ready nonSpec nodes : Nat} {before : Bool}

theorem fewer {less fewer down : Nat} (held : EntryOk inst ready nonSpec nodes before) (readyLess : less ≤ ready)
    (nonSpecLess : fewer ≤ nonSpec) (nodesLess : down ≤ nodes) : EntryOk inst less fewer down before := by
  refine { held with slots := ?_, once := ?_, unready := ?_ }
  · have slots := held.slots
    omega
  · intro other live
    have once := held.once other live
    omega
  · intro other live some
    exact held.unready other live (by omega)

/-- The entry of a new instruction is in order if it is at one place. -/
theorem ofFresh (small : inst.numSrcRegs < 2 ^ 8) (slots : nodes + inst.readyRegs ≤ inst.numSrcRegs)
    (issued : inst.issued = false) (memOpDone : inst.memOpDone = false) (squashedInIQ : inst.squashedInIQ = false)
    (once : ready + nonSpec + min nodes 1 ≤ 1) (unready : 0 < nodes → inst.canIssue = false) :
    EntryOk inst ready nonSpec nodes true := by
  constructor
  · exact small
  · exact slots
  · intro squashed
    cases squashedInIQ.symm.trans squashed
  · intro _ finished
    cases memOpDone.symm.trans finished
  · intro _ _
    rw [issued]
    simpa using once
  · intro _ _ some
    exact unready some
  · intro released
    cases released

/-- A memory reference may be ready several times. -/
theorem ofMemRef {other more : Nat} (held : EntryOk inst ready nonSpec nodes before) (memRef : inst.isMemRef = true) :
    EntryOk inst other more nodes before := by
  have foreign : inst.isMemRef ≠ false := by simp [memRef]
  exact { held with once := (absurd · foreign), unready := (absurd · foreign) }

/-- A woken instruction has one node less and one ready register more, and it may be ready if it can issue. -/
theorem markSrcRegReady (held : EntryOk inst ready nonSpec (nodes + 1) before) :
    EntryOk inst.markSrcRegReady ready nonSpec nodes before ∧
      (inst.isMemRef = false → inst.markSrcRegReady.canIssue = true →
        EntryOk inst.markSrcRegReady (ready + 1) nonSpec nodes before) := by
  have small := held.small
  have slots := held.slots
  have wrap : (inst.readyRegs + 1) % 2 ^ 8 = inst.readyRegs + 1 := Nat.mod_eq_of_lt (by omega)
  have count : nodes + inst.markSrcRegReady.readyRegs ≤ inst.numSrcRegs := by
    change nodes + (inst.readyRegs + 1) % 2 ^ 8 ≤ inst.numSrcRegs
    omega
  have issue : inst.isMemRef = false → inst.squashedInIQ = false → inst.markSrcRegReady.canIssue = true → nodes = 0 := by
    intro other live can
    have unready := held.unready other live (by omega)
    simp only [DynInst.markSrcRegReady, unready, wrap, Bool.false_or, decide_eq_true_eq] at can
    omega
  have marked : EntryOk inst.markSrcRegReady ready nonSpec nodes before := by
    refine { held with small, slots := count, once := ?_, unready := ?_ }
    · intro other live
      have once := held.once other live
      change ready + inst.issued.toNat + nonSpec + min nodes 1 ≤ 1
      omega
    · intro other live some
      rw [Bool.eq_false_iff]
      intro can
      have none := issue other live can
      omega
  refine ⟨marked, fun other can => { marked with once := fun _ live => ?_ }⟩
  have once := held.once other live
  have none := issue other live can
  change ready + 1 + inst.issued.toNat + nonSpec + min nodes 1 ≤ 1
  omega

end EntryOk

@[simp] theorem modifyInst_self {seqNum : Nat} :
    (queue.modifyInst seqNum change).insts seqNum = change (queue.insts seqNum) := update_self ..

theorem fixed_modifyInst {seqNum : Nat}
    (fixed : (change (queue.insts seqNum)).fixed = (queue.insts seqNum).fixed) (number : Nat) :
    ((queue.modifyInst seqNum change).insts number).fixed = (queue.insts number).fixed := by
  by_cases same : number = seqNum
  · rw [same, modifyInst_self, fixed]
  · exact congrArg _ (update_of_ne same ..)

theorem readyCount_modifyInst {seqNum : Nat}
    (opClass : (change (queue.insts seqNum)).opClass = (queue.insts seqNum).opClass) :
    (queue.modifyInst seqNum change).readyCount seqNum = queue.readyCount seqNum := by
  rw [readyCount, modifyInst_self, opClass]
  rfl

/-- Free entries and the entries of all threads make up the queue, and every thread counts the instructions that hold an
entry. -/
structure Counted [Fintype Tid] [DecidableEq Tid] (queue : InstQueue Reg Tid) (inserted : List Nat) : Prop where
  small : queue.numEntries < 2 ^ 32
  free : queue.freeEntries + ∑ tid, queue.count tid = queue.numEntries
  counts : ∀ tid, queue.count tid = inserted.countP fun number =>
    (queue.insts number).threadNumber = tid && (queue.insts number).holdsEntry

namespace Counted
variable [Fintype Tid] [DecidableEq Tid] {seqNum : Nat}

theorem congr (held : queue.Counted inserted) (numEntries : next.numEntries = queue.numEntries)
    (freeEntries : next.freeEntries = queue.freeEntries) (count : next.count = queue.count)
    (same : ∀ number ∈ inserted, (next.insts number).threadNumber = (queue.insts number).threadNumber ∧
      (next.insts number).holdsEntry = (queue.insts number).holdsEntry) : next.Counted inserted := by
  constructor
  · rw [numEntries]
    exact held.small
  · rw [freeEntries, count, numEntries]
    exact held.free
  · intro tid
    rw [count, held.counts tid]
    apply countP_congr
    intro number member
    obtain ⟨thread, holds⟩ := same number member
    rw [thread, holds]

theorem release (held : queue.Counted inserted) (once : inserted.Nodup)
    (member : seqNum ∈ inserted) (fixed : (change (queue.insts seqNum)).fixed = (queue.insts seqNum).fixed)
    (holds : (queue.insts seqNum).holdsEntry = true) (released : (change (queue.insts seqNum)).holdsEntry = false) :
    ((queue.modifyInst seqNum change).releaseEntry seqNum).Counted inserted := by
  have small := held.small
  have free := held.free
  have own := held.counts (queue.insts seqNum).threadNumber
  have threads : ∀ number, ((queue.modifyInst seqNum change).insts number).threadNumber =
    (queue.insts number).threadNumber := fun number => congrArg (·.2.2) (fixed_modifyInst fixed number)
  have others : ∀ number, number ≠ seqNum → (queue.modifyInst seqNum change).insts number = queue.insts number :=
    fun number different => update_of_ne different ..
  have flips : inserted.countP (fun number => (queue.insts number).threadNumber = (queue.insts seqNum).threadNumber &&
      ((queue.modifyInst seqNum change).insts number).holdsEntry) + 1 =
      queue.count (queue.insts seqNum).threadNumber := by
    rw [own]
    apply countP_add_one_of_eq once member
    · intro number _ different
      rw [others number different]
    · simp [holds]
    · simp [released]
  have bound := le_sum id queue.count (queue.insts seqNum).threadNumber
  simp only [id] at bound
  have less : wrapDecrement (queue.count (queue.insts seqNum).threadNumber) =
      queue.count (queue.insts seqNum).threadNumber - 1 := by
    unfold wrapDecrement
    omega
  have more : wrapIncrement queue.freeEntries = queue.freeEntries + 1 := by
    unfold wrapIncrement
    omega
  unfold releaseEntry
  dsimp only
  rw [threads, show (queue.modifyInst seqNum change).count = queue.count from rfl, less]
  refine ⟨small, ?_, fun tid => ?_⟩
  · have total := sum_update id queue.count (queue.insts seqNum).threadNumber
      (queue.count (queue.insts seqNum).threadNumber - 1)
    simp only [id] at total
    change wrapIncrement queue.freeEntries + ∑ tid, update queue.count _ _ tid = queue.numEntries
    omega
  · simp only [threads]
    by_cases same : tid = (queue.insts seqNum).threadNumber
    · subst same
      rw [update_self]
      omega
    · rw [update_of_ne same, held.counts tid]
      apply countP_congr
      intro number _
      by_cases equal : number = seqNum
      · subst equal
        simp [Ne.symm same]
      · rw [others number equal]

end Counted

variable [Fintype Reg]

theorem nodes_pop [DecidableEq Reg] {flatIndex : Reg} {depInst : Nat} {rest : List Nat}
    (list : queue.dependGraph.dependents flatIndex = depInst :: rest) (number : Nat) :
    { queue with dependGraph := queue.dependGraph.pop flatIndex }.nodes number +
      (if depInst = number then 1 else 0) = queue.nodes number := by
  have changed := sum_update (fun items : List Nat => items.count number) queue.dependGraph.dependents flatIndex
    (queue.dependGraph.dependents flatIndex).tail
  rw [list, tail_cons, count_cons] at changed
  change (∑ place, (update queue.dependGraph.dependents flatIndex
    (queue.dependGraph.dependents flatIndex).tail place).count number) + _ = _
  rw [list, tail_cons]
  unfold nodes
  simp only [beq_iff_eq] at changed
  omega

/-- The entry would be in order with this instruction and if it were ready more often. -/
abbrev EntryAt (queue : InstQueue Reg Tid) (before : Nat → Bool) (number : Nat) (inst : DynInst Reg Tid) (more : Nat) :
    Prop :=
  EntryOk inst (queue.readyCount number + more) (queue.nonSpecInsts.count number) (queue.nodes number) (before number)

/-- The instruction is an inserted memory reference. -/
abbrev MemRef (queue : InstQueue Reg Tid) (inserted : List Nat) (number : Nat) : Prop :=
  number ∈ inserted ∧ (queue.insts number).isMemRef = true

/-- All lists hold inserted instructions, only memory references are deferred, blocked, retried or readied by the memory
dependence units, and every instruction is scheduled once. -/
structure Scheduled (before : Nat → Bool) (queue : InstQueue Reg Tid) (inserted : List Nat) : Prop where
  ready : ∀ opClass, ∀ number ∈ queue.ready.readyInsts opClass,
    number ∈ inserted ∧ (queue.insts number).opClass = opClass
  nonSpec : ∀ number ∈ queue.nonSpecInsts, number ∈ inserted
  dependents : ∀ flatIndex, ∀ number ∈ queue.dependGraph.dependents flatIndex, number ∈ inserted
  entry : ∀ number ∈ inserted, EntryOk (queue.insts number) (queue.readyCount number)
    (queue.nonSpecInsts.count number) (queue.nodes number) (before number)
  units : ∀ tid, (queue.memDepUnit tid).Readies fun number =>
    number ∈ inserted ∧ (queue.insts number).isMemRef = true
  drained : ∀ tid, (queue.memDepUnit tid).readied = []
  memInsts : ∀ number, number ∈ queue.deferredMemInsts ∨ number ∈ queue.blockedMemInsts ∨
    number ∈ queue.retryMemInsts → number ∈ inserted ∧ (queue.insts number).isMemRef = true

/-- The parts of the queue that its schedule depends on. -/
def schedule (queue : InstQueue Reg Tid) :=
  (queue.insts, queue.deferredMemInsts, queue.blockedMemInsts, queue.retryMemInsts, queue.ready.readyInsts,
    queue.nonSpecInsts, queue.dependGraph.dependents, queue.memDepUnit)

namespace Scheduled
variable {before : Nat → Bool} {seqNum : Nat}

section
variable (held : queue.Scheduled before inserted) {ready : ReadyLists}
include held

theorem congr (same : next.schedule = queue.schedule) : next.Scheduled before inserted := by
  rcases next with ⟨_, _, _, _, _, _, _, _, _, ⟨_, _, _⟩, _, ⟨_, _⟩, _, _, _, _⟩
  rcases queue with ⟨_, _, _, _, _, _, _, _, _, ⟨_, _, _⟩, _, ⟨_, _⟩, _, _, _, _⟩
  cases same
  exact { held with }

/-- Pushed instructions are scheduled if they may be ready once more. -/
theorem push {seqNums : List Nat} (pushed : queue.Pushed seqNums ready)
    (entry : ∀ number ∈ seqNums, number ∈ inserted ∧ queue.EntryAt before number (queue.insts number)
      (seqNums.count number)) :
    { queue with ready }.Scheduled before inserted := by
  refine { held with ready := ?_, entry := ?_ }
  · intro opClass number member
    change number ∈ ready.readyInsts opClass at member
    have count := pushed opClass number
    by_cases known : number ∈ queue.ready.readyInsts opClass
    · exact held.ready opClass number known
    · rw [count_eq_zero_of_not_mem known, Nat.zero_add] at count
      have some := count_pos_iff.mpr member
      by_cases same : (queue.insts number).opClass = opClass
      · rw [if_pos same] at count
        exact ⟨(entry number (count_pos_iff.mp (by omega))).1, same⟩
      · rw [if_neg same] at count
        omega
  · intro number member
    have count := pushed (queue.insts number).opClass number
    rw [if_pos rfl] at count
    change EntryOk (queue.insts number) ((ready.readyInsts (queue.insts number).opClass).count number) _
      (queue.nodes number) _
    rw [count]
    by_cases new : number ∈ seqNums
    · exact (entry number new).2
    · rw [count_eq_zero_of_not_mem new, Nat.add_zero]
      exact held.entry number member

theorem pushMemRefs {seqNums : List Nat} (pushed : queue.Pushed seqNums ready)
    (memRefs : ∀ number ∈ seqNums, queue.MemRef inserted number) :
    { queue with ready }.Scheduled before inserted := by
  apply held.push pushed
  intro number member
  obtain ⟨known, memRef⟩ := memRefs number member
  exact ⟨known, (held.entry number known).ofMemRef memRef⟩

/-- An instruction that waits for nothing may be pushed if it is not ready yet. -/
theorem pushInst (pushed : queue.Pushed [seqNum] ready) (known : seqNum ∈ inserted)
    (entry : queue.EntryAt before seqNum (queue.insts seqNum) 1) : { queue with ready }.Scheduled before inserted := by
  apply held.push pushed
  intro number member
  obtain rfl := mem_singleton.mp member
  rw [count_singleton_self]
  exact ⟨known, entry⟩

theorem modify
    (fixed : (change (queue.insts seqNum)).fixed = (queue.insts seqNum).fixed)
    (entry : seqNum ∈ inserted → queue.EntryAt before seqNum (change (queue.insts seqNum)) 0) :
    (queue.modifyInst seqNum change).Scheduled before inserted := by
  have sameClass : ∀ number,
      ((queue.modifyInst seqNum change).insts number).opClass = (queue.insts number).opClass :=
    fun number => congrArg (·.2.1) (fixed_modifyInst fixed number)
  have memRef : ∀ number,
      ((queue.modifyInst seqNum change).insts number).isMemRef = (queue.insts number).isMemRef := by
    intro number
    have flags : ((queue.modifyInst seqNum change).insts number).flags = _ :=
      congrArg Prod.fst (fixed_modifyInst fixed number)
    rw [DynInst.isMemRef, flags]
    rfl
  refine { held with ready := ?_, entry := ?_, units := ?_, memInsts := ?_ }
  · intro opClass number member
    rw [sameClass]
    exact held.ready opClass number member
  · intro number member
    have count : (queue.modifyInst seqNum change).readyCount number = queue.readyCount number := by
      rw [readyCount, sameClass]
      rfl
    rw [count]
    change EntryOk (update queue.insts seqNum (change (queue.insts seqNum)) number) _ _ (queue.nodes number) _
    by_cases same : number = seqNum
    · subst same
      rw [update_self]
      exact entry member
    · rw [update_of_ne same]
      exact held.entry number member
  · intro tid
    simp only [memRef]
    exact held.units tid
  · intro number member
    rw [memRef]
    exact held.memInsts number member

/-- Fewer nodes keep the instructions scheduled. -/
theorem fewerNodes {graph : DependencyGraph Reg}
    (fewer : ∀ flatIndex, (graph.dependents flatIndex).Sublist (queue.dependGraph.dependents flatIndex)) :
    { queue with dependGraph := graph }.Scheduled before inserted := by
  refine { held with dependents := ?_, entry := ?_ }
  · intro flatIndex number member
    exact held.dependents flatIndex number ((fewer flatIndex).subset member)
  · intro number member
    apply (held.entry number member).fewer le_rfl le_rfl
    exact Finset.sum_le_sum fun flatIndex _ => (fewer flatIndex).count_le number

end

end Scheduled

section Units
variable [DecidableEq Tid] {before : Nat → Bool} {tid : Tid} {unit : MemDepUnit}

/-- A changed memory dependence unit passes on memory references. -/
theorem Scheduled.setMemDepUnit (held : queue.Scheduled before inserted)
    (readies : unit.Readies (queue.MemRef inserted))
    (done : queue.setMemDepUnit tid unit = .ok next) : next.Scheduled before inserted := by
  obtain ⟨ready, rfl, pushed⟩ := setMemDepUnit_eq done
  have changed : { queue with
      memDepUnit := update queue.memDepUnit tid { unit with readied := [] } }.Scheduled before inserted := by
    refine { held with units := ?_, drained := ?_ }
    · exact (forall_update_iff queue.memDepUnit fun _ unit => unit.Readies _).mpr
        ⟨⟨readies.regsReady, readies.instsToReplay, by simp⟩, fun other _ => held.units other⟩
    · exact (forall_update_iff queue.memDepUnit fun _ unit => unit.readied = []).mpr
        ⟨rfl, fun other _ => held.drained other⟩
  exact changed.pushMemRefs pushed readies.readied

end Units

variable [Fintype Tid] [DecidableEq Tid]

/-- The queue counts its entries, and every inserted instruction is scheduled once. -/
structure Sound (before : Nat → Bool) (queue : InstQueue Reg Tid) (inserted : List Nat) : Prop where
  once : inserted.Nodup
  listed : ∀ tid, ∀ number ∈ queue.instList tid, number ∈ inserted
  counted : queue.Counted inserted
  scheduled : queue.Scheduled before inserted

/-- The parts of the queue that its entries and its schedule depend on. -/
def view (queue : InstQueue Reg Tid) :=
  (queue.numEntries, queue.freeEntries, queue.count, queue.instList, queue.schedule)

namespace Sound
variable {before : Nat → Bool} {seqNum : Nat} {tid : Tid} {unit : MemDepUnit}

section
variable (held : queue.Sound before inserted)
include held

/-- The queue stays sound if its schedule is in order and its entries do not change. -/
theorem reschedule (same : (next.numEntries, next.freeEntries, next.count, next.instList, next.insts) =
      (queue.numEntries, queue.freeEntries, queue.count, queue.instList, queue.insts))
    (scheduled : next.Scheduled before inserted) : next.Sound before inserted := by
  cases next
  cases queue
  cases same
  exact { held with counted := { held.counted with }, scheduled }

theorem congr (same : next.view = queue.view) : next.Sound before inserted := by
  rcases next with ⟨_, _, _, _, _, _, _, _, _, ⟨_, _, _⟩, _, ⟨_, _⟩, _, _, _, _⟩
  rcases queue with ⟨_, _, _, _, _, _, _, _, _, ⟨_, _, _⟩, _, ⟨_, _⟩, _, _, _, _⟩
  cases same
  exact { held with counted := { held.counted with }, scheduled := { held.scheduled with } }

theorem setMemDepUnit (readies : unit.Readies (queue.MemRef inserted))
    (done : queue.setMemDepUnit tid unit = .ok next) : next.Sound before inserted := by
  have scheduled := held.scheduled.setMemDepUnit readies done
  obtain ⟨ready, rfl, _⟩ := setMemDepUnit_eq done
  exact held.reschedule rfl scheduled

/-- An operation of a memory dependence unit readies only memory references. -/
theorem moveMemDepUnit {bits : Nat → Bool} {extra : List Nat} (moves : (queue.memDepUnit tid).Moves bits extra unit)
    (ready : ∀ number, bits number = true → (queue.memDepUnit tid).bits number = true ∨ queue.MemRef inserted number)
    (given : ∀ number ∈ extra, queue.MemRef inserted number)
    (done : queue.setMemDepUnit tid unit = .ok next) : next.Sound before inserted := by
  have readies := held.scheduled.units tid
  apply held.setMemDepUnit _ done
  apply readies.moves moves _ given
  intro number bit
  exact (ready number bit).elim (readies.regsReady number) id

theorem modify
    (fixed : (change (queue.insts seqNum)).fixed = (queue.insts seqNum).fixed)
    (holds : seqNum ∈ inserted → (change (queue.insts seqNum)).holdsEntry = (queue.insts seqNum).holdsEntry)
    (entry : seqNum ∈ inserted → queue.EntryAt before seqNum (change (queue.insts seqNum)) 0) :
    (queue.modifyInst seqNum change).Sound before inserted := by
  refine ⟨held.once, held.listed, ?_, held.scheduled.modify fixed entry⟩
  refine held.counted.congr rfl rfl rfl ?_
  intro number member
  refine ⟨congrArg (·.2.2) (fixed_modifyInst fixed number), ?_⟩
  by_cases same : number = seqNum
  · subst same
    rw [modifyInst_self]
    exact holds member
  · exact congrArg _ (update_of_ne same ..)

/-- An instruction that held its entry returns it with a change of its bits. -/
theorem release (member : seqNum ∈ inserted)
    (fixed : (change (queue.insts seqNum)).fixed = (queue.insts seqNum).fixed)
    (holds : (queue.insts seqNum).holdsEntry = true) (released : (change (queue.insts seqNum)).holdsEntry = false)
    (entry : queue.EntryAt before seqNum (change (queue.insts seqNum)) 0) :
    ((queue.modifyInst seqNum change).releaseEntry seqNum).Sound before inserted := by
  have scheduled := held.scheduled.modify fixed fun _ => entry
  exact ⟨held.once, held.listed, held.counted.release held.once member fixed holds released, { scheduled with }⟩

/-- A ready instruction that may be pushed is pushed. -/
theorem addIfReady (known : seqNum ∈ inserted)
    (entry : (queue.insts seqNum).isMemRef = false → (queue.insts seqNum).canIssue = true →
      queue.EntryAt before seqNum (queue.insts seqNum) 1)
    (done : queue.addIfReady seqNum = .ok next) : next.Sound before inserted := by
  rcases addIfReady_eq done with ⟨_, rfl⟩ | ⟨_, memRef, unit, ready, done⟩ | ⟨issue, other, ready, rfl, pushed⟩
  · exact held
  · exact held.setMemDepUnit ((held.scheduled.units _).update (MemDepUnit.regsReady_moves ready) fun _ =>
      ⟨known, memRef⟩) done
  · exact held.reschedule rfl (held.scheduled.pushInst pushed known (entry other issue))

end

end Sound

section Wake

variable [DecidableEq Reg] {before : Nat → Bool} {seqNum : Nat} {flatIndex : Reg}

section
variable (held : queue.Sound before inserted)
include held

/-- One dependent is woken. -/
theorem Sound.wake {depInst : Nat} {rest : List Nat} (list : queue.dependGraph.dependents flatIndex = depInst :: rest)
    (done : ({ queue with dependGraph := queue.dependGraph.pop flatIndex }.modifyInst depInst
      DynInst.markSrcRegReady).addIfReady depInst = .ok next) : next.Sound before inserted := by
  have known : depInst ∈ inserted := held.scheduled.dependents flatIndex depInst (by rw [list]; exact mem_cons_self)
  have entry := held.scheduled.entry depInst known
  have pops := nodes_pop list depInst
  rw [if_pos rfl] at pops
  rw [← pops] at entry
  obtain ⟨marked, pushes⟩ := entry.markSrcRegReady
  have popped : { queue with dependGraph := queue.dependGraph.pop flatIndex }.Sound before inserted := by
    refine held.reschedule rfl (held.scheduled.fewerNodes ?_)
    exact (forall_update_iff queue.dependGraph.dependents fun other list =>
      list.Sublist (queue.dependGraph.dependents other)).mpr ⟨tail_sublist _, fun _ _ => .refl _⟩
  have changed : ({ queue with dependGraph := queue.dependGraph.pop flatIndex }.modifyInst depInst
      DynInst.markSrcRegReady).Sound before inserted := popped.modify rfl (fun _ => rfl) fun _ => marked
  apply changed.addIfReady known _ done
  rw [modifyInst_self, EntryAt, readyCount_modifyInst rfl]
  exact pushes

theorem Sound.wakeLoop {deps : List Nat} (list : queue.dependGraph.dependents flatIndex = deps)
    (done : wakeLoop flatIndex deps queue = .ok next) : next.Sound before inserted := by
  induction deps generalizing queue with
  | nil =>
    cases done
    exact held
  | cons depInst rest ih =>
    obtain ⟨middle, turn, done⟩ := bind_eq_ok.mp done
    refine ih (held.wake list turn) ?_ done
    obtain ⟨ready, memDepUnit, rfl⟩ := addIfReady_shape turn
    change update queue.dependGraph.dependents flatIndex (queue.dependGraph.dependents flatIndex).tail flatIndex = rest
    rw [update_self, list, tail_cons]

theorem Sound.wakeReg {dest : PhysReg Reg} (done : queue.wakeReg dest = .ok next) : next.Sound before inserted := by
  cases dest with
  | fixedMapping =>
    cases done
    exact held
  | renamed flatIndex =>
    unfold InstQueue.wakeReg at done
    dsimp only at done
    split at done
    · cases done
      exact held.congr rfl
    · obtain ⟨middle, looped, done⟩ := bind_eq_ok.mp done
      cases (assert_bind_eq_ok.mp done).2
      have counted : { queue with
          numPinnedWritesToComplete := update queue.numPinnedWritesToComplete flatIndex
            (queue.numPinnedWritesToComplete flatIndex - 1) }.Sound before inserted := held.congr rfl
      exact (counted.wakeLoop rfl looped).congr rfl

theorem Sound.wakeRegs {dests : List (PhysReg Reg)} (done : dests.foldlM InstQueue.wakeReg queue = .ok next) :
    next.Sound before inserted := by
  apply foldlM_invariant (fun queue => queue.Sound before inserted) held _ done
  intro queue dest next held turn
  exact held.wakeReg turn

end

end Wake
end InstQueue
end Gem5.O3
