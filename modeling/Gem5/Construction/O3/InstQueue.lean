import Gem5.Construction.O3.MemDepUnit

namespace Gem5.O3

namespace InstFlags

def isMemRef (flags : InstFlags) : Bool := flags.isLoad || flags.isStore || flags.isAtomic

def isFullMemBarrier (flags : InstFlags) : Bool := flags.isReadBarrier && flags.isWriteBarrier

/-- An acquiring load or a releasing store is a full barrier that still executes speculatively. -/
def isAcqRel (flags : InstFlags) : Bool :=
  flags.isFullMemBarrier && (flags.isLoad || (flags.isStore && !flags.isStoreConditional))

/-- This is the test of `InstructionQueue::doSquash` for instructions that are in the dependency graph. -/
def inDependGraph (flags : InstFlags) : Bool :=
  flags.isAcqRel || (!flags.isNonSpeculative && !flags.isStoreConditional && !flags.isAtomic &&
    !flags.isReadBarrier && !flags.isWriteBarrier)

end InstFlags

/-- An instruction has `No_OpClass` or the class of a functional unit. -/
inductive OpClass where
  | noOpClass
  | unit (number : Nat)
deriving DecidableEq, Repr

/-- Only registers without a fixed mapping have a list in the dependency graph. -/
inductive PhysReg (Reg : Type) where
  | fixedMapping
  | renamed (flatIndex : Reg)
deriving DecidableEq, Repr

/-- A source register has the bit that `readySrcIdx` returns. -/
structure SrcReg (Reg : Type) where
  reg : PhysReg Reg
  ready : Bool
deriving DecidableEq, Repr

@[ext] structure DynInst (Reg Tid : Type) where
  seqNum : Nat
  threadNumber : Tid
  pc : Nat
  opClass : OpClass
  flags : InstFlags
  srcs : List (SrcReg Reg)
  dests : List (PhysReg Reg)
  readyRegs : Nat
  canIssue : Bool
  issued : Bool
  squashed : Bool
  squashedInIQ : Bool
  completed : Bool
  memOpDone : Bool
  faulted : Bool
  translationCompleted : Bool
deriving DecidableEq, Repr

namespace DynInst
variable {Reg Tid : Type}

def numSrcRegs (inst : DynInst Reg Tid) : Nat := inst.srcs.length

def isMemRef (inst : DynInst Reg Tid) : Bool := inst.flags.isMemRef

/-- The memory dependence unit reads this part of an instruction. -/
def memInst (inst : DynInst Reg Tid) : MemInst := ⟨inst.seqNum, inst.pc, inst.flags⟩

/-- This function is `DynInst::markSrcRegReady`, which counts in eight bits. -/
def markSrcRegReady (inst : DynInst Reg Tid) : DynInst Reg Tid :=
  { inst with
    readyRegs := (inst.readyRegs + 1) % 2 ^ 8
    canIssue := inst.canIssue || (inst.readyRegs + 1) % 2 ^ 8 = inst.numSrcRegs }

end DynInst

/-- Other stages set these bits of an instruction. -/
inductive StatusBit where
  | squashed
  | completed
  | faulted
  | translationCompleted
deriving DecidableEq, Repr

def DynInst.setStatus {Reg Tid : Type} (inst : DynInst Reg Tid) : StatusBit → DynInst Reg Tid
  | .squashed => { inst with squashed := true }
  | .completed => { inst with completed := true }
  | .faulted => { inst with faulted := true }
  | .translationCompleted => { inst with translationCompleted := true }

open ToMathlib Function

/-- The head of a list holds the producer, and the newest dependent comes first. -/
structure DependencyGraph (Reg : Type) where
  producer : Reg → Option Nat
  dependents : Reg → List Nat

namespace DependencyGraph
variable {Reg : Type} [DecidableEq Reg]

def initial : DependencyGraph Reg := ⟨fun _ => none, fun _ => []⟩

variable (graph : DependencyGraph Reg) (idx : Reg)

def insert (newInst : Nat) : DependencyGraph Reg :=
  { graph with dependents := update graph.dependents idx (newInst :: graph.dependents idx) }

def setInst (newInst : Nat) : DependencyGraph Reg := { graph with producer := update graph.producer idx (some newInst) }

def clearInst : DependencyGraph Reg := { graph with producer := update graph.producer idx none }

/-- The loop of `DependencyGraph::remove` searches the list for the instruction. -/
def removeFrom (instToRemove : Nat) : List Nat → Except Fault (List Nat)
  | [] => .error (.assertion "curr != NULL")
  | curr :: rest =>
    if curr = instToRemove then .ok rest
    else do
      let rest ← removeFrom instToRemove rest
      .ok (curr :: rest)

def remove (instToRemove : Nat) : Except Fault (DependencyGraph Reg) :=
  if graph.dependents idx = [] then .ok graph
  else do
    let rest ← removeFrom instToRemove (graph.dependents idx)
    .ok { graph with dependents := update graph.dependents idx rest }

/-- The effect of `DependencyGraph::pop` on the lists. -/
def pop : DependencyGraph Reg := { graph with dependents := update graph.dependents idx (graph.dependents idx).tail }

end DependencyGraph

/-- A queue of ready instructions is ordered by its oldest instruction. -/
structure ListOrderEntry where
  queueType : OpClass
  oldestInst : Nat
deriving DecidableEq, Repr

/-- Every class has a queue of ready instructions with its oldest one first. The iterator `readyIt` of a class is the
entry of the class in `listOrder`. -/
structure ReadyLists where
  readyInsts : OpClass → List Nat
  listOrder : List ListOrderEntry
  queueOnList : OpClass → Bool

namespace ReadyLists

def initial : ReadyLists := ⟨fun _ => [], [], fun _ => false⟩

def addToOrderList (lists : ReadyLists) (opClass : OpClass) : Except Fault ReadyLists :=
  match lists.readyInsts opClass with
  | [] => .error (.assertion "!readyInsts[op_class].empty()")
  | oldest :: _ =>
    let older (entry : ListOrderEntry) : Bool := entry.oldestInst ≤ oldest
    .ok { lists with
      listOrder := lists.listOrder.takeWhile older ++ ⟨opClass, oldest⟩ :: lists.listOrder.dropWhile older
      queueOnList := update lists.queueOnList opClass true }

/-- A ready instruction enters the queue of its class, which moves forward if the instruction is the oldest one. -/
def push (lists : ReadyLists) (opClass : OpClass) (seqNum : Nat) : Except Fault ReadyLists :=
  let ready := (lists.readyInsts opClass).orderedInsert (· ≤ ·) seqNum
  let lists := { lists with readyInsts := update lists.readyInsts opClass ready }
  if lists.queueOnList opClass = false then lists.addToOrderList opClass
  else
    match lists.listOrder.find? (fun entry => entry.queueType = opClass), ready.head? with
    | some entry, some top =>
      if top < entry.oldestInst then
        { lists with
          listOrder := lists.listOrder.eraseP fun entry => entry.queueType = opClass }.addToOrderList opClass
      else .ok lists
    | _, _ => .error .nullDereference

/-- The oldest instruction of a class leaves its queue. The rest of the order stands behind the entry of the class, and
the function `moveToYoungerInst` places the class in it again. -/
def pop (lists : ReadyLists) (opClass : OpClass) (order : List ListOrderEntry) : ReadyLists × List ListOrderEntry :=
  let ready := (lists.readyInsts opClass).tail
  let lists := { lists with readyInsts := update lists.readyInsts opClass ready }
  match ready with
  | [] => ({ lists with queueOnList := update lists.queueOnList opClass false }, order)
  | next :: _ =>
    let older (entry : ListOrderEntry) : Bool := entry.oldestInst < next
    (lists, order.takeWhile older ++ ⟨opClass, next⟩ :: order.dropWhile older)

end ReadyLists

/-- Lists name instructions by their sequence numbers. The list `fuCompletions` holds the instructions with a pending
completion event. -/
structure InstQueue (Reg Tid : Type) where
  numEntries : Nat
  freeEntries : Nat
  count : Tid → Nat
  insts : Nat → DynInst Reg Tid
  instList : Tid → List Nat
  instsToExecute : List Nat
  deferredMemInsts : List Nat
  blockedMemInsts : List Nat
  retryMemInsts : List Nat
  ready : ReadyLists
  nonSpecInsts : List Nat
  dependGraph : DependencyGraph Reg
  regScoreboard : Reg → Bool
  numPinnedWritesToComplete : Reg → Int
  memDepUnit : Tid → MemDepUnit
  fuCompletions : List Nat

/-- Entries are counted in `unsigned` numbers. -/
def wrapIncrement (value : Nat) : Nat := (value + 1) % 2 ^ 32

def wrapDecrement (value : Nat) : Nat := (value + (2 ^ 32 - 1)) % 2 ^ 32

/-- The loops over registers compare with an `int8_t`, and a negative bound ends them at once. -/
def int8Bound (count : Nat) : Nat := if count % 2 ^ 8 < 2 ^ 7 then count % 2 ^ 8 else 0

/-- The pool returns the latency of a unit or the reason why there is none. -/
inductive FUResult where
  | noNeedFU
  | noCapableFU
  | noFreeFU
  | unit (opLatency : Nat)
deriving DecidableEq, Repr

namespace InstQueue
variable {Reg Tid : Type} [DecidableEq Reg] [DecidableEq Tid]

/-- This function is `InstructionQueue::resetState` for a queue with the given instructions and units. -/
def initial (numEntries : Nat) (insts : Nat → DynInst Reg Tid) (numPinnedWritesToComplete : Reg → Int)
    (memDepUnit : Tid → MemDepUnit) : InstQueue Reg Tid where
  numEntries := numEntries
  freeEntries := numEntries
  count _ := 0
  insts := insts
  instList _ := []
  instsToExecute := []
  deferredMemInsts := []
  blockedMemInsts := []
  retryMemInsts := []
  ready := .initial
  nonSpecInsts := []
  dependGraph := .initial
  regScoreboard _ := false
  numPinnedWritesToComplete := numPinnedWritesToComplete
  memDepUnit := memDepUnit
  fuCompletions := []

variable (queue : InstQueue Reg Tid) (seqNum : Nat)

def modifyInst (change : DynInst Reg Tid → DynInst Reg Tid) : InstQueue Reg Tid :=
  { queue with insts := update queue.insts seqNum (change (queue.insts seqNum)) }

def countInsts : Nat := (queue.numEntries + (2 ^ 32 - queue.freeEntries)) % 2 ^ 32

/-- Insertions and commits end with this assertion. -/
def checkCount : Except Fault Unit :=
  assert (queue.freeEntries = (queue.numEntries + (2 ^ 32 - queue.countInsts)) % 2 ^ 32)
    "freeEntries == (numEntries - countInsts())"

/-- An instruction takes an entry. -/
def takeEntry : InstQueue Reg Tid :=
  let tid := (queue.insts seqNum).threadNumber
  { queue with
    freeEntries := wrapDecrement queue.freeEntries
    count := update queue.count tid (wrapIncrement (queue.count tid)) }

/-- An instruction returns its entry. -/
def releaseEntry : InstQueue Reg Tid :=
  let tid := (queue.insts seqNum).threadNumber
  { queue with
    freeEntries := wrapIncrement queue.freeEntries
    count := update queue.count tid (wrapDecrement (queue.count tid)) }

def addReadyMemInst : Except Fault (InstQueue Reg Tid) := do
  let ready ← queue.ready.push (queue.insts seqNum).opClass seqNum
  .ok { queue with ready }

/-- The unit of a thread changes and passes on the instructions that it readied. -/
def setMemDepUnit (tid : Tid) (unit : MemDepUnit) : Except Fault (InstQueue Reg Tid) :=
  unit.readied.foldlM addReadyMemInst
    { queue with memDepUnit := update queue.memDepUnit tid { unit with readied := [] } }

def addIfReady : Except Fault (InstQueue Reg Tid) :=
  let inst := queue.insts seqNum
  if inst.canIssue = false then .ok queue
  else if inst.isMemRef then do
    let unit ← (queue.memDepUnit inst.threadNumber).regsReady seqNum
    queue.setMemDepUnit inst.threadNumber unit
  else do
    let ready ← queue.ready.push inst.opClass seqNum
    .ok { queue with ready }

/-- The loop of `InstructionQueue::addToDependents` returns the dependency graph, the instruction and the sources with
their new bits. -/
def addToDependentsLoop (regScoreboard : Reg → Bool) (seqNum : Nat) : List (SrcReg Reg) → DependencyGraph Reg →
    DynInst Reg Tid → DependencyGraph Reg × DynInst Reg Tid × List (SrcReg Reg)
  | [], graph, inst => (graph, inst, [])
  | ⟨.renamed flatIndex, false⟩ :: rest, graph, inst =>
    if regScoreboard flatIndex = false then
      let (graph, inst, srcs) := addToDependentsLoop regScoreboard seqNum rest (graph.insert flatIndex seqNum) inst
      (graph, inst, ⟨.renamed flatIndex, false⟩ :: srcs)
    else
      let (graph, inst, srcs) := addToDependentsLoop regScoreboard seqNum rest graph inst.markSrcRegReady
      (graph, inst, ⟨.renamed flatIndex, true⟩ :: srcs)
  | src :: rest, graph, inst =>
    let (graph, inst, srcs) := addToDependentsLoop regScoreboard seqNum rest graph inst
    (graph, inst, src :: srcs)

def addToDependents : InstQueue Reg Tid :=
  let inst := queue.insts seqNum
  let total := int8Bound inst.numSrcRegs
  let (graph, changed, srcs) :=
    addToDependentsLoop queue.regScoreboard seqNum (inst.srcs.take total) queue.dependGraph inst
  { queue with
    dependGraph := graph
    insts := update queue.insts seqNum { changed with srcs := srcs ++ inst.srcs.drop total } }

/-- The loop of `InstructionQueue::addToProducers` changes the dependency graph and the scoreboard. -/
def addToProducersLoop (seqNum : Nat) : List (PhysReg Reg) → DependencyGraph Reg → (Reg → Bool) →
    Except Fault (DependencyGraph Reg × (Reg → Bool))
  | [], graph, regScoreboard => .ok (graph, regScoreboard)
  | .fixedMapping :: rest, graph, regScoreboard => addToProducersLoop seqNum rest graph regScoreboard
  | .renamed flatIndex :: rest, graph, regScoreboard =>
    if graph.dependents flatIndex ≠ [] then .error (.panic "Dependency graph not empty!")
    else addToProducersLoop seqNum rest (graph.setInst flatIndex seqNum)
      (update regScoreboard flatIndex false)

def addToProducers : Except Fault (InstQueue Reg Tid) := do
  let dests := (queue.insts seqNum).dests
  let (graph, regScoreboard) ← addToProducersLoop seqNum (dests.take (int8Bound dests.length)) queue.dependGraph
    queue.regScoreboard
  .ok { queue with dependGraph := graph, regScoreboard }

/-- The memory dependence unit tells whether an inserted instruction can issue. -/
def insertMemInst : Except Fault (InstQueue Reg Tid) := do
  let inst := queue.insts seqNum
  let unit ← (queue.memDepUnit inst.threadNumber).insert inst.memInst inst.canIssue
  let resolved := (unit.entries seqNum).memDeps = 0
  (queue.modifyInst seqNum fun inst => { inst with canIssue := inst.canIssue && resolved }).setMemDepUnit
    inst.threadNumber unit

/-- Both insertions append the instruction to the list of its thread. -/
def appendInst (inst : DynInst Reg Tid) : InstQueue Reg Tid :=
  { queue with
    insts := update queue.insts inst.seqNum inst
    instList := update queue.instList inst.threadNumber
      (queue.instList inst.threadNumber ++ [inst.seqNum]) }

def insert (inst : DynInst Reg Tid) : Except Fault (InstQueue Reg Tid) := do
  assert (queue.freeEntries ≠ 0) "freeEntries != 0"
  let queue := (queue.appendInst inst).addToDependents inst.seqNum
  let queue ← queue.addToProducers inst.seqNum
  let queue ← if inst.isMemRef then queue.insertMemInst inst.seqNum else queue.addIfReady inst.seqNum
  let queue := queue.takeEntry inst.seqNum
  queue.checkCount
  .ok queue

def insertNonSpec (inst : DynInst Reg Tid) : Except Fault (InstQueue Reg Tid) := do
  assert (queue.freeEntries ≠ 0) "freeEntries != 0"
  let queue := { queue.appendInst inst with nonSpecInsts := queue.nonSpecInsts.insert inst.seqNum }
  let queue ← queue.addToProducers inst.seqNum
  let queue ← if inst.isMemRef then do
      let unit ← (queue.memDepUnit inst.threadNumber).insertNonSpec inst.memInst
      queue.setMemDepUnit inst.threadNumber unit
    else .ok queue
  let queue := queue.takeEntry inst.seqNum
  queue.checkCount
  .ok queue

def insertBarrier (inst : DynInst Reg Tid) : Except Fault (InstQueue Reg Tid) := do
  let queue ← queue.setMemDepUnit inst.threadNumber
    ((queue.memDepUnit inst.threadNumber).insertBarrier inst.memInst)
  queue.insertNonSpec inst

/-- The results of `FUPool::getUnit` come in the order of its calls. -/
def getUnit (opClass : OpClass) (units : List FUResult) : FUResult × List FUResult :=
  if opClass = .noOpClass then (.noNeedFU, units)
  else
    match units with
    | [] => (.noFreeFU, [])
    | unit :: units => (unit, units)

/-- An issued instruction executes at once or after the latency of its unit. -/
def execute : FUResult → InstQueue Reg Tid
  | .unit opLatency =>
    if opLatency = 1 then { queue with instsToExecute := queue.instsToExecute ++ [seqNum] }
    else { queue with fuCompletions := queue.fuCompletions ++ [seqNum] }
  | _ => { queue with instsToExecute := queue.instsToExecute ++ [seqNum] }

/-- An issued instruction that is no memory reference returns its entry. -/
def issueInst : Except Fault (InstQueue Reg Tid) := do
  let queue := queue.modifyInst seqNum fun inst => { inst with issued := true }
  let inst := queue.insts seqNum
  if inst.isMemRef then do
    let unit ← (queue.memDepUnit inst.threadNumber).issue inst.memInst
    queue.setMemDepUnit inst.threadNumber unit
  else .ok (queue.releaseEntry seqNum)

/-- The loop of `InstructionQueue::scheduleReadyInsts` with the entries before and behind its iterator. -/
def scheduleLoop : Nat → Nat → List FUResult → List ListOrderEntry → List ListOrderEntry → InstQueue Reg Tid →
    Except Fault (InstQueue Reg Tid)
  | 0, _, _, _, _, _ => .error .endlessLoop
  | _ + 1, _, _, visited, [], queue => .ok { queue with ready := { queue.ready with listOrder := visited } }
  | _ + 1, 0, _, visited, order, queue =>
    .ok { queue with ready := { queue.ready with listOrder := visited ++ order } }
  | turns + 1, width + 1, units, visited, entry :: order, queue =>
    match queue.ready.readyInsts entry.queueType with
    | [] => .error (.assertion "!readyInsts[op_class].empty()")
    | issuing :: _ => do
      assert (issuing = entry.oldestInst) "issuing_inst->seqNum == (*order_it).oldestInst"
      let (ready, younger) := queue.ready.pop entry.queueType order
      if (queue.insts issuing).squashed then
        scheduleLoop turns (width + 1) units visited younger { queue with ready }
      else
        let (unit, units) := getUnit entry.queueType units
        if unit = .noFreeFU then scheduleLoop turns (width + 1) units (visited ++ [entry]) order queue
        else
          let queue ← { queue.execute issuing unit with ready }.issueInst issuing
          scheduleLoop turns width units visited younger queue

/-- Every turn of the loop visits an entry or takes an instruction from a queue. -/
def scheduleTurns (lists : ReadyLists) : Nat :=
  (lists.listOrder.map fun entry => (lists.readyInsts entry.queueType).length + 1).sum + 1

def scheduleReadyInsts (totalWidth : Nat) (units : List FUResult) : Except Fault (InstQueue Reg Tid) := do
  let ready (seqNum : Nat) : Bool := (queue.insts seqNum).translationCompleted || (queue.insts seqNum).squashed
  let deferred := queue.deferredMemInsts
  let queue ← (deferred.filter ready).foldlM addReadyMemInst
    { queue with deferredMemInsts := deferred.filter fun seqNum => !ready seqNum }
  let queue ← queue.retryMemInsts.foldlM addReadyMemInst { queue with retryMemInsts := [] }
  scheduleLoop (scheduleTurns queue.ready) totalWidth units [] queue.ready.listOrder queue

def getInstToExecute : Except Fault (InstQueue Reg Tid) := do
  assert (queue.instsToExecute ≠ []) "!instsToExecute.empty()"
  .ok { queue with instsToExecute := queue.instsToExecute.tail }

/-- This function is `InstructionQueue::processFUCompletion` for a pending event. -/
def processFUCompletion : InstQueue Reg Tid :=
  if seqNum ∈ queue.fuCompletions then
    { queue with
      fuCompletions := queue.fuCompletions.erase seqNum
      instsToExecute := queue.instsToExecute ++ [seqNum] }
  else queue

def scheduleNonSpec : Except Fault (InstQueue Reg Tid) := do
  assert (seqNum ∈ queue.nonSpecInsts) "inst_it != nonSpecInsts.end()"
  let queue := queue.modifyInst seqNum fun inst => { inst with canIssue := true }
  let inst := queue.insts seqNum
  let queue ← if inst.isMemRef then do
      let unit ← (queue.memDepUnit inst.threadNumber).nonSpecInstReady seqNum
      queue.setMemDepUnit inst.threadNumber unit
    else queue.addIfReady seqNum
  .ok { queue with nonSpecInsts := queue.nonSpecInsts.erase seqNum }

def commit (tid : Tid) : Except Fault (InstQueue Reg Tid) := do
  let rest := (queue.instList tid).dropWhile fun number => number ≤ seqNum
  let queue := { queue with instList := update queue.instList tid rest }
  queue.checkCount
  .ok queue

/-- The dependents of a register become ready one after the other. -/
def wakeLoop (flatIndex : Reg) : List Nat → InstQueue Reg Tid → Except Fault (InstQueue Reg Tid)
  | [], queue => .ok queue
  | depInst :: rest, queue => do
    let queue := { queue with dependGraph := queue.dependGraph.pop flatIndex }
    let queue ← (queue.modifyInst depInst DynInst.markSrcRegReady).addIfReady depInst
    wakeLoop flatIndex rest queue

/-- One turn of the loop of `InstructionQueue::wakeDependents` over the destination registers. -/
def wakeReg : PhysReg Reg → Except Fault (InstQueue Reg Tid)
  | .fixedMapping => .ok queue
  | .renamed flatIndex => do
    let writes := queue.numPinnedWritesToComplete flatIndex - 1
    let queue := { queue with
      numPinnedWritesToComplete := update queue.numPinnedWritesToComplete flatIndex writes }
    if writes ≠ 0 then .ok queue
    else do
      let queue ← wakeLoop flatIndex (queue.dependGraph.dependents flatIndex) queue
      assert (queue.dependGraph.dependents flatIndex = []) "dependGraph.empty(dest_reg->flatIndex())"
      .ok { queue with
        dependGraph := queue.dependGraph.clearInst flatIndex
        regScoreboard := update queue.regScoreboard flatIndex true }

/-- Memory references and barriers complete in the memory dependence unit. -/
def completeMemInst : Except Fault (InstQueue Reg Tid) := do
  let tid := (queue.insts seqNum).threadNumber
  let unit ← (queue.memDepUnit tid).completeInst seqNum
  queue.setMemDepUnit tid unit

def wakeDependents : Except Fault (InstQueue Reg Tid) := do
  let inst := queue.insts seqNum
  assert (inst.squashed = false) "!completed_inst->isSquashed()"
  let queue ← if inst.isMemRef then do
      let queue ← queue.completeMemInst seqNum
      .ok ((queue.modifyInst seqNum fun inst => { inst with memOpDone := true }).releaseEntry seqNum)
    else if inst.flags.isReadBarrier || inst.flags.isWriteBarrier then queue.completeMemInst seqNum
    else .ok queue
  inst.dests.foldlM wakeReg queue

/-- This function is `InstructionQueue::rescheduleMemInst`. Its caller `LSQUnit::read` clears the issued bit. -/
def rescheduleMemInst : Except Fault (InstQueue Reg Tid) :=
  let queue := queue.modifyInst seqNum fun inst =>
    { inst with translationCompleted := false, canIssue := false, issued := false }
  let tid := (queue.insts seqNum).threadNumber
  queue.setMemDepUnit tid ((queue.memDepUnit tid).reschedule seqNum)

def replayMemInst : Except Fault (InstQueue Reg Tid) := do
  let tid := (queue.insts seqNum).threadNumber
  let unit ← (queue.memDepUnit tid).replay
  queue.setMemDepUnit tid unit

def deferMemInst : InstQueue Reg Tid := { queue with deferredMemInsts := queue.deferredMemInsts ++ [seqNum] }

def blockMemInst : InstQueue Reg Tid :=
  { queue.modifyInst seqNum fun inst => { inst with issued := false, canIssue := false } with
    blockedMemInsts := queue.blockedMemInsts ++ [seqNum] }

def cacheUnblocked : InstQueue Reg Tid :=
  { queue with
    retryMemInsts := queue.retryMemInsts ++ queue.blockedMemInsts
    blockedMemInsts := [] }

def violation (store faultingLoad : Nat) : Except Fault (InstQueue Reg Tid) := do
  let tid := (queue.insts store).threadNumber
  let unit ← (queue.memDepUnit tid).violation (queue.insts store).pc (queue.insts faultingLoad).pc
  queue.setMemDepUnit tid unit

/-- One turn of the loop of `InstructionQueue::doSquash` over the source registers. -/
def removeSource (graph : DependencyGraph Reg) : SrcReg Reg → Except Fault (DependencyGraph Reg)
  | ⟨.renamed flatIndex, false⟩ => graph.remove flatIndex seqNum
  | _ => .ok graph

/-- One turn of the loop of `InstructionQueue::doSquash` over the destination registers. -/
def clearDest (graph : DependencyGraph Reg) : PhysReg Reg → Except Fault (DependencyGraph Reg)
  | .fixedMapping => .ok graph
  | .renamed flatIndex => do
    assert (graph.dependents flatIndex = []) "dependGraph.empty(dest_reg->flatIndex())"
    .ok (graph.clearInst flatIndex)

/-- A squashed instruction leaves the dependency graph or the nonspeculative instructions. -/
def forgetInst : Except Fault (InstQueue Reg Tid) :=
  let inst := queue.insts seqNum
  if inst.flags.inDependGraph then do
    let graph ← inst.srcs.foldlM (removeSource seqNum) queue.dependGraph
    .ok { queue with dependGraph := graph }
  else if inst.flags.isStoreConditional = true ∧ inst.completed = true then .ok queue
  else if seqNum ∈ queue.nonSpecInsts then .ok { queue with nonSpecInsts := queue.nonSpecInsts.erase seqNum }
  else do
    assert (inst.faulted = true ∨ inst.isMemRef = true)
      "squashed_inst->getFault() != NoFault || squashed_inst->isMemRef()"
    .ok queue

/-- An instruction that still has its entry returns it. -/
def squashEntry : Except Fault (InstQueue Reg Tid) :=
  let inst := queue.insts seqNum
  if inst.issued = false ∨ inst.isMemRef = true ∧ inst.memOpDone = false then do
    let queue ← queue.forgetInst seqNum
    let queue := queue.modifyInst seqNum fun inst =>
      { inst with squashedInIQ := true, squashed := true, issued := true }
    .ok (queue.releaseEntry seqNum)
  else .ok queue

/-- The instruction is squashed in the queue. -/
def squashInst : Except Fault (InstQueue Reg Tid) := do
  let queue ← queue.squashEntry seqNum
  let graph ← (queue.insts seqNum).dests.foldlM clearDest queue.dependGraph
  .ok { queue with dependGraph := graph }

/-- The loop of `InstructionQueue::doSquash` visits the instructions of a thread from the last one on and keeps those
that are already squashed. -/
def doSquashLoop (tid : Tid) (squashedSeqNum : Nat) : List Nat → List Nat → InstQueue Reg Tid →
    Except Fault (InstQueue Reg Tid)
  | _, [], queue => .ok queue
  | kept, last :: older, queue =>
    if squashedSeqNum < last then
      if (queue.insts last).threadNumber ≠ tid ∨ (queue.insts last).squashedInIQ = true then
        doSquashLoop tid squashedSeqNum (last :: kept) older queue
      else do
        let queue ← queue.squashInst last
        doSquashLoop tid squashedSeqNum kept older
          { queue with instList := update queue.instList tid (older.reverse ++ kept) }
    else .ok queue

def doSquash (tid : Tid) (squashedSeqNum : Nat) : Except Fault (InstQueue Reg Tid) :=
  doSquashLoop tid squashedSeqNum [] (queue.instList tid).reverse queue

def squash (tid : Tid) (squashedSeqNum : Nat) : Except Fault (InstQueue Reg Tid) := do
  let queue ← queue.doSquash tid squashedSeqNum
  let unit ← (queue.memDepUnit tid).squash squashedSeqNum
  queue.setMemDepUnit tid unit

end InstQueue

/-- Other stages call the queue, set bits of instructions and count the writes of registers. -/
inductive InstQueueOp (Reg Tid : Type) where
  | insert (inst : DynInst Reg Tid)
  | insertNonSpec (inst : DynInst Reg Tid)
  | insertBarrier (inst : DynInst Reg Tid)
  | scheduleReadyInsts (totalWidth : Nat) (units : List FUResult)
  | getInstToExecute
  | processFUCompletion (seqNum : Nat)
  | scheduleNonSpec (seqNum : Nat)
  | commit (seqNum : Nat) (tid : Tid)
  | wakeDependents (seqNum : Nat)
  | rescheduleMemInst (seqNum : Nat)
  | replayMemInst (seqNum : Nat)
  | deferMemInst (seqNum : Nat)
  | blockMemInst (seqNum : Nat)
  | cacheUnblocked
  | violation (store faultingLoad : Nat)
  | squash (tid : Tid) (squashedSeqNum : Nat)
  | setStatus (seqNum : Nat) (status : StatusBit)
  | setNumPinnedWritesToComplete (flatIndex : Reg) (numWrites : Int)

def InstQueue.step {Reg Tid : Type} [DecidableEq Reg] [DecidableEq Tid] (queue : InstQueue Reg Tid) :
    InstQueueOp Reg Tid → Except Fault (InstQueue Reg Tid)
  | .insert inst => queue.insert inst
  | .insertNonSpec inst => queue.insertNonSpec inst
  | .insertBarrier inst => queue.insertBarrier inst
  | .scheduleReadyInsts totalWidth units => queue.scheduleReadyInsts totalWidth units
  | .getInstToExecute => queue.getInstToExecute
  | .processFUCompletion seqNum => .ok (queue.processFUCompletion seqNum)
  | .scheduleNonSpec seqNum => queue.scheduleNonSpec seqNum
  | .commit seqNum tid => queue.commit seqNum tid
  | .wakeDependents seqNum => queue.wakeDependents seqNum
  | .rescheduleMemInst seqNum => queue.rescheduleMemInst seqNum
  | .replayMemInst seqNum => queue.replayMemInst seqNum
  | .deferMemInst seqNum => .ok (queue.deferMemInst seqNum)
  | .blockMemInst seqNum => .ok (queue.blockMemInst seqNum)
  | .cacheUnblocked => .ok queue.cacheUnblocked
  | .violation store faultingLoad => queue.violation store faultingLoad
  | .squash tid squashedSeqNum => queue.squash tid squashedSeqNum
  | .setStatus seqNum status => .ok (queue.modifyInst seqNum fun inst => inst.setStatus status)
  | .setNumPinnedWritesToComplete flatIndex numWrites =>
    .ok { queue with
      numPinnedWritesToComplete := update queue.numPinnedWritesToComplete flatIndex numWrites }

end Gem5.O3
