import Gem5.Construction.Base.Fault

namespace Gem5.O3
open ToMathlib Function

inductive RobStatus where
  | running | idle | robSquashing
deriving DecidableEq, Repr

/-- These are the status bits that the reorder buffer sets or reads. -/
structure InstStatus where
  squashed : Bool
  canCommit : Bool
  inROB : Bool
  committed : Bool
deriving DecidableEq, Repr

/-- An instruction of a thread is its sequence number, and an iterator is the instruction it points to. -/
structure Rob (numThreads : Nat) where
  numEntries : Nat
  squashWidth : Nat
  activeThreads : List (Fin numThreads)
  instList : Fin numThreads → List Nat
  status : Fin numThreads → Nat → InstStatus
  numInstsInROB : Nat
  threadEntries : Fin numThreads → Nat
  squashIt : Fin numThreads → Option Nat
  squashedSeqNum : Fin numThreads → Nat
  doneSquashing : Fin numThreads → Bool
  robStatus : Fin numThreads → RobStatus
  head : Option (Fin numThreads × Nat)
  tail : Option (Fin numThreads × Nat)

namespace Rob
variable {numThreads : Nat}

/-- The constructor ends with `ROB::resetState`. -/
def initial (numEntries squashWidth : Nat) (activeThreads : List (Fin numThreads))
    (status : Fin numThreads → Nat → InstStatus) (robStatus : Fin numThreads → RobStatus) : Rob numThreads where
  numEntries := numEntries
  squashWidth := squashWidth
  activeThreads := activeThreads
  instList := fun _ => []
  status := status
  numInstsInROB := 0
  threadEntries := fun _ => 0
  squashIt := fun _ => none
  squashedSeqNum := fun _ => 0
  doneSquashing := fun _ => true
  robStatus := robStatus
  head := none
  tail := none

variable (rob : Rob numThreads) (tid : Fin numThreads)

def setStatus (seqNum : Nat) (status : InstStatus) : Rob numThreads :=
  { rob with status := update rob.status tid (update (rob.status tid) seqNum status) }

def setInstList (insts : List Nat) : Rob numThreads := { rob with instList := update rob.instList tid insts }

def setSquashIt (seqNum : Option Nat) : Rob numThreads := { rob with squashIt := update rob.squashIt tid seqNum }

/-- The older of the head so far and the first instruction of a thread. -/
def olderHead (head : Option (Fin numThreads × Nat)) (tid : Fin numThreads) : Option (Fin numThreads × Nat) :=
  match rob.instList tid, head with
  | [], head => head
  | first :: _, none => some (tid, first)
  | first :: _, some (other, lowest) => if first < lowest then some (tid, first) else some (other, lowest)

def updateHead : Rob numThreads := { rob with head := rob.activeThreads.foldl rob.olderHead none }

/-- The younger of the tail so far and the last instruction of a thread. -/
def youngerTail (tail : Option (Fin numThreads × Nat)) (tid : Fin numThreads) : Option (Fin numThreads × Nat) :=
  match (rob.instList tid).getLast?, tail with
  | none, tail => tail
  | some last, none => some (tid, last)
  | some last, some (other, highest) => if highest < last then some (tid, last) else some (other, highest)

def updateTail : Rob numThreads := { rob with tail := rob.activeThreads.foldl rob.youngerTail none }

def insertInst (seqNum : Nat) : Except Fault (Rob numThreads) := do
  assert (rob.numInstsInROB ≠ rob.numEntries) "numInstsInROB != numEntries"
  let wasEmpty := rob.numInstsInROB = 0
  let rob := rob.setInstList tid (rob.instList tid ++ [seqNum])
  assert (wasEmpty → (rob.instList tid).head? = some seqNum) "(*head) == inst"
  assert ((rob.instList tid).getLast? = some seqNum) "(*tail) == inst"
  .ok { rob.setStatus tid seqNum { rob.status tid seqNum with inROB := true } with
    head := if wasEmpty then some (tid, seqNum) else rob.head
    tail := some (tid, seqNum)
    numInstsInROB := rob.numInstsInROB + 1
    threadEntries := update rob.threadEntries tid (rob.threadEntries tid + 1) }

def retireHead : Except Fault (Rob numThreads) := do
  assert (0 < rob.numInstsInROB) "numInstsInROB > 0"
  match rob.instList tid with
  | [] => .error .nullDereference
  | seqNum :: rest =>
    let rob := rob.setInstList tid rest
    assert (rob.status tid seqNum).canCommit "head_inst->readyToCommit()"
    let rob :=
      { rob.setStatus tid seqNum { rob.status tid seqNum with inROB := false, committed := true } with
        numInstsInROB := rob.numInstsInROB - 1
        threadEntries := update rob.threadEntries tid (rob.threadEntries tid - 1) }
    .ok rob.updateHead

/-- The squash iterator is read only while it points to an instruction of the list. -/
def squashInst : Except Fault Nat :=
  match rob.squashIt tid with
  | none => .error .nullDereference
  | some seqNum => if seqNum ∈ rob.instList tid then .ok seqNum else .error .nullDereference

/-- The squash loop marks an instruction as squashed and ready to drain out of the pipeline. -/
def markSquashed (seqNum : Nat) : Rob numThreads :=
  rob.setStatus tid seqNum { rob.status tid seqNum with squashed := true, canCommit := true }

/-- The iterator goes to the end when a squash is done. -/
def finishSquash : Rob numThreads :=
  { rob.setSquashIt tid none with doneSquashing := update rob.doneSquashing tid true }

/-- The instruction before another one in the list of its thread. -/
def previous (seqNum : Nat) : Option Nat := ((rob.instList tid).takeWhile fun other => other ≠ seqNum).getLast?

/-- The loop of `ROB::doSquash` returns whether it left the function and whether it passed the last instruction. -/
def squashLoop (tid : Fin numThreads) : Nat → Bool → Rob numThreads → Except Fault (Bool × Bool × Rob numThreads)
  | 0, robTailUpdate, rob => .ok (false, robTailUpdate, rob)
  | left + 1, robTailUpdate, rob =>
    if rob.squashIt tid = none then .ok (false, robTailUpdate, rob)
    else do
      let seqNum ← rob.squashInst tid
      if rob.squashedSeqNum tid < seqNum then
        let rob := rob.markSquashed tid seqNum
        if (rob.instList tid).head? = some seqNum then .ok (true, robTailUpdate, rob.finishSquash tid)
        else
          let robTailUpdate := robTailUpdate || (rob.instList tid).getLast? = some seqNum
          squashLoop tid left robTailUpdate (rob.setSquashIt tid (rob.previous tid seqNum))
      else .ok (false, robTailUpdate, rob)

/-- This function is `ROB::doSquash`, where the processor says whether the thread is exiting. -/
def doSquash (isThreadExiting : Bool) : Except Fault (Rob numThreads) := do
  assert (rob.squashIt tid ≠ none) "squashIt[tid] != instList[tid].end()"
  let seqNum ← rob.squashInst tid
  if seqNum < rob.squashedSeqNum tid then .ok (rob.finishSquash tid)
  else
    let numInstsToSquash := if isThreadExiting then rob.numEntries else rob.squashWidth
    let (returned, robTailUpdate, rob) ← squashLoop tid numInstsToSquash false rob
    if returned then .ok rob
    else do
      let seqNum ← rob.squashInst tid
      let rob := if seqNum ≤ rob.squashedSeqNum tid then rob.finishSquash tid else rob
      .ok (if robTailUpdate then rob.updateTail else rob)

def squash (squashNum : Nat) (tid : Fin numThreads) (isThreadExiting : Bool) : Except Fault (Rob numThreads) :=
  if rob.threadEntries tid = 0 then .ok rob
  else
    let rob :=
      { rob with
        robStatus := update rob.robStatus tid .robSquashing
        doneSquashing := update rob.doneSquashing tid false
        squashedSeqNum := update rob.squashedSeqNum tid squashNum }
    if rob.instList tid = [] then .ok rob
    else (rob.setSquashIt tid (rob.instList tid).getLast?).doSquash tid isThreadExiting

end Rob

/-- Other stages also mark instructions as squashed or ready to commit. -/
inductive RobOp (numThreads : Nat) where
  | insertInst (tid : Fin numThreads) (seqNum : Nat)
  | retireHead (tid : Fin numThreads)
  | squash (squashNum : Nat) (tid : Fin numThreads) (isThreadExiting : Bool)
  | doSquash (tid : Fin numThreads) (isThreadExiting : Bool)
  | mark (tid : Fin numThreads) (seqNum : Nat) (squashed canCommit : Bool)
deriving DecidableEq, Repr

namespace Rob
variable {numThreads : Nat}

def step (rob : Rob numThreads) : RobOp numThreads → Except Fault (Rob numThreads)
  | .insertInst tid seqNum => rob.insertInst tid seqNum
  | .retireHead tid => rob.retireHead tid
  | .squash squashNum tid isThreadExiting => rob.squash squashNum tid isThreadExiting
  | .doSquash tid isThreadExiting => rob.doSquash tid isThreadExiting
  | .mark tid seqNum squashed canCommit =>
    let status := rob.status tid seqNum
    .ok (rob.setStatus tid seqNum
      { status with squashed := status.squashed || squashed, canCommit := status.canCommit || canCommit })

/-- A new instruction is the youngest of its thread, a thread retires only while it does not squash, and a squash
continues only while it is not done. -/
def guard (rob : Rob numThreads) : RobOp numThreads → Prop
  | .insertInst tid seqNum => ∀ older ∈ rob.instList tid, older < seqNum
  | .retireHead tid => rob.doneSquashing tid = true
  | .doSquash tid _ => rob.doneSquashing tid = false
  | _ => True

end Rob

def reorderBuffer (numThreads : Nat) : Machine (Rob numThreads) (RobOp numThreads) Fault := ⟨Rob.guard, Rob.step⟩

end Gem5.O3
