import Gem5.Construction.O3.StoreSet

namespace Gem5.O3
open ToMathlib

/-- These are the flags of a static instruction that the back end reads. -/
structure InstFlags where
  isLoad : Bool
  isStore : Bool
  isAtomic : Bool
  isNonSpeculative : Bool
  isStoreConditional : Bool
  isReadBarrier : Bool
  isWriteBarrier : Bool
  isHtmCmd : Bool
deriving DecidableEq, Repr

structure MemInst where
  seqNum : Nat
  pc : Nat
  flags : InstFlags
deriving DecidableEq, Repr

namespace InstFlags

def isLoadBarrier (flags : InstFlags) : Bool := flags.isReadBarrier || flags.isHtmCmd

def isStoreBarrier (flags : InstFlags) : Bool := flags.isWriteBarrier || flags.isHtmCmd

def writesMemory (flags : InstFlags) : Bool := flags.isStore || flags.isAtomic

/-- Only stores, atomics and barriers have dependents. -/
def hasDependents (flags : InstFlags) : Bool := flags.writesMemory || flags.isLoadBarrier || flags.isStoreBarrier

end InstFlags

/-- An entry names its dependents by the sequence numbers of their entries. -/
structure MemDepEntry where
  inst : MemInst
  dependInsts : List Nat
  regsReady : Bool
  memDeps : Nat
  squashed : Bool
deriving DecidableEq, Repr

/-- Every thread has its own unit. An entry stays in memory while other entries refer to it, and the hash and the list
hold the entries of instructions in flight. The unit records the calls of `InstructionQueue::addReadyMemInst`. -/
structure MemDepUnit where
  entries : Nat → MemDepEntry
  memDepHash : List Nat
  instList : List Nat
  instsToReplay : List Nat
  depPred : StoreSet
  loadBarrierSNs : List Nat
  storeBarrierSNs : List Nat
  readied : List Nat

namespace MemDepUnit

def initial (entries : Nat → MemDepEntry) (depPred : StoreSet) : MemDepUnit :=
  ⟨entries, [], [], [], depPred, [], [], []⟩

variable (unit : MemDepUnit) (seqNum : Nat) (inst : MemInst)

def modifyEntry (change : MemDepEntry → MemDepEntry) : MemDepUnit :=
  { unit with entries := Function.update unit.entries seqNum (change (unit.entries seqNum)) }

def findInHash : Except Fault Unit := assert (seqNum ∈ unit.memDepHash) "hash_it != memDepHash.end()"

def moveToReady : Except Fault MemDepUnit := do
  assert ((unit.entries seqNum).squashed = false) "!woken_inst_entry->squashed"
  .ok { unit with readied := unit.readied ++ [seqNum] }

def insertBarrierSN : MemDepUnit :=
  { unit with
    loadBarrierSNs := if inst.flags.isLoadBarrier then unit.loadBarrierSNs.insert inst.seqNum else unit.loadBarrierSNs
    storeBarrierSNs :=
      if inst.flags.isStoreBarrier then unit.storeBarrierSNs.insert inst.seqNum else unit.storeBarrierSNs }

/-- Both insertions create an entry in the hash and in the list. -/
def addEntry : MemDepUnit :=
  { unit with
    entries := Function.update unit.entries inst.seqNum ⟨inst, [], false, 0, false⟩
    memDepHash := unit.memDepHash ++ [inst.seqNum]
    instList := unit.instList ++ [inst.seqNum] }

/-- Loads and atomics wait for load barriers, other stores and atomics for store barriers, and all others for the
predicted store. -/
def producingStores : Except Fault (List Nat) :=
  if (inst.flags.isLoad || inst.flags.isAtomic) = true ∧ unit.loadBarrierSNs ≠ [] then .ok unit.loadBarrierSNs
  else if inst.flags.writesMemory = true ∧ unit.storeBarrierSNs ≠ [] then .ok unit.storeBarrierSNs
  else do
    let dep ← unit.depPred.checkInst inst.pc
    .ok (if dep ≠ 0 then [dep] else [])

/-- The producers that are still in the hash. -/
def storeEntries (producingStores : List Nat) : List Nat :=
  producingStores.filter fun seqNum => seqNum ∈ unit.memDepHash

/-- The instruction becomes ready, or it depends on all its producers. -/
def awaitStores (storeEntries : List Nat) (readyToIssue : Bool) : Except Fault MemDepUnit :=
  let setReady (unit : MemDepUnit) := unit.modifyEntry seqNum fun entry => { entry with regsReady := true }
  if storeEntries = [] then do
    assert ((unit.entries seqNum).memDeps = 0) "inst_entry->memDeps == 0"
    if readyToIssue then (setReady unit).moveToReady seqNum else .ok unit
  else
    let unit := if readyToIssue then setReady unit else unit
    let unit := storeEntries.foldl (fun unit store =>
      unit.modifyEntry store fun entry => { entry with dependInsts := entry.dependInsts ++ [seqNum] }) unit
    .ok (unit.modifyEntry seqNum fun entry => { entry with memDeps := storeEntries.length })

/-- Both insertions tell the predictor about a store. -/
def predictStore : Except Fault MemDepUnit :=
  if inst.flags.writesMemory then do
    let depPred ← unit.depPred.insertStore inst.pc inst.seqNum
    .ok { unit with depPred }
  else if inst.flags.isLoad then .ok unit
  else .error (.panic "Unknown type! (most likely a barrier).")

/-- This function is `MemDepUnit::insert`. The instruction cannot issue while it has memory dependencies. -/
def insert (readyToIssue : Bool) : Except Fault MemDepUnit := do
  let unit := unit.addEntry inst
  let producingStores ← unit.producingStores inst
  let unit ← unit.awaitStores inst.seqNum (unit.storeEntries producingStores) readyToIssue
  (unit.insertBarrierSN inst).predictStore inst

def insertBarrier : MemDepUnit := (unit.addEntry inst).insertBarrierSN inst

def insertNonSpec : Except Fault MemDepUnit := (unit.insertBarrier inst).predictStore inst

def regsReady (unit : MemDepUnit) (seqNum : Nat) : Except Fault MemDepUnit := do
  unit.findInHash seqNum
  let unit := unit.modifyEntry seqNum fun entry => { entry with regsReady := true }
  if (unit.entries seqNum).memDeps = 0 then unit.moveToReady seqNum else .ok unit

def nonSpecInstReady : Except Fault MemDepUnit := do
  unit.findInHash seqNum
  unit.moveToReady seqNum

def reschedule : MemDepUnit := { unit with instsToReplay := unit.instsToReplay ++ [seqNum] }

/-- One turn of `MemDepUnit::replay`. -/
def replayInst : Except Fault MemDepUnit := do
  unit.findInHash seqNum
  let unit ← unit.moveToReady seqNum
  .ok { unit with instsToReplay := unit.instsToReplay.tail }

def replay : Except Fault MemDepUnit := unit.instsToReplay.foldlM replayInst unit

/-- One turn of `MemDepUnit::wakeDependents`. -/
def wake (woken : Nat) : Except Fault MemDepUnit := do
  assert (0 < (unit.entries woken).memDeps) "woken_inst->memDeps > 0"
  let unit := unit.modifyEntry woken fun entry => { entry with memDeps := entry.memDeps - 1 }
  let entry := unit.entries woken
  if entry.memDeps = 0 ∧ entry.regsReady = true ∧ entry.squashed = false then unit.moveToReady woken else .ok unit

def wakeDependents : Except Fault MemDepUnit :=
  if (unit.entries seqNum).inst.flags.hasDependents = false then .ok unit
  else do
    unit.findInHash seqNum
    let unit ← (unit.entries seqNum).dependInsts.foldlM wake unit
    .ok (unit.modifyEntry seqNum fun entry => { entry with dependInsts := [] })

def completed : Except Fault MemDepUnit := do
  unit.findInHash seqNum
  .ok { unit with
    instList := unit.instList.erase seqNum
    memDepHash := unit.memDepHash.erase seqNum }

def completeInst : Except Fault MemDepUnit := do
  let flags := (unit.entries seqNum).inst.flags
  let unit ← unit.wakeDependents seqNum
  let unit ← unit.completed seqNum
  assert (flags.isStoreBarrier = true → unit.storeBarrierSNs ≠ []) "hasStoreBarrier()"
  let unit := if flags.isStoreBarrier then { unit with storeBarrierSNs := unit.storeBarrierSNs.erase seqNum } else unit
  assert (flags.isLoadBarrier = true → unit.loadBarrierSNs ≠ []) "hasLoadBarrier()"
  .ok (if flags.isLoadBarrier then { unit with loadBarrierSNs := unit.loadBarrierSNs.erase seqNum } else unit)

/-- The loop of `MemDepUnit::squash` removes instructions from the last one on. -/
def squashLoop (squashedNum : Nat) : List Nat → MemDepUnit → Except Fault MemDepUnit
  | [], unit => .ok unit
  | last :: older, unit =>
    if squashedNum < last then do
      unit.findInHash last
      squashLoop squashedNum older
        { unit.modifyEntry last (fun entry => { entry with squashed := true }) with
          loadBarrierSNs := unit.loadBarrierSNs.erase last
          storeBarrierSNs := unit.storeBarrierSNs.erase last
          memDepHash := unit.memDepHash.erase last
          instList := older.reverse }
    else .ok unit

def squash (squashedNum : Nat) : Except Fault MemDepUnit := do
  let unit := { unit with instsToReplay := unit.instsToReplay.filter fun seqNum => seqNum ≤ squashedNum }
  let unit ← squashLoop squashedNum unit.instList.reverse unit
  let depPred ← unit.depPred.squash squashedNum
  .ok { unit with depPred }

def violation (storePC loadPC : Nat) : Except Fault MemDepUnit := do
  let depPred ← unit.depPred.violation storePC loadPC
  .ok { unit with depPred }

def issue : Except Fault MemDepUnit := do
  let depPred ← unit.depPred.issued inst.pc inst.seqNum inst.flags.isStore
  .ok { unit with depPred }

end MemDepUnit

inductive MemDepOp where
  | insert (inst : MemInst) (readyToIssue : Bool)
  | insertBarrier (inst : MemInst)
  | insertNonSpec (inst : MemInst)
  | regsReady (seqNum : Nat)
  | nonSpecInstReady (seqNum : Nat)
  | reschedule (seqNum : Nat)
  | replay
  | completeInst (seqNum : Nat)
  | squash (squashedNum : Nat)
  | violation (storePC loadPC : Nat)
  | issue (inst : MemInst)
deriving DecidableEq, Repr

def MemDepUnit.step (unit : MemDepUnit) : MemDepOp → Except Fault MemDepUnit
  | .insert inst readyToIssue => unit.insert inst readyToIssue
  | .insertBarrier inst => .ok (unit.insertBarrier inst)
  | .insertNonSpec inst => unit.insertNonSpec inst
  | .regsReady seqNum => unit.regsReady seqNum
  | .nonSpecInstReady seqNum => unit.nonSpecInstReady seqNum
  | .reschedule seqNum => .ok (unit.reschedule seqNum)
  | .replay => unit.replay
  | .completeInst seqNum => unit.completeInst seqNum
  | .squash squashedNum => unit.squash squashedNum
  | .violation storePC loadPC => unit.violation storePC loadPC
  | .issue inst => unit.issue inst

end Gem5.O3
