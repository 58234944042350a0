import Gem5.Construction.Mem.Mshr

namespace Gem5

/-- This function delays a register relative to the current tick. -/
def MSHR.delay (mshr : MSHR) (delayTicks curTick : Nat) : Except Fault MSHR := do
  assert (mshr.readyTime ≤ curTick) "readyTime <= curTick()"
  .ok { mshr with readyTime := (curTick + delayTicks) % 2 ^ 64 }

/-- A queue of registers, whose three lists hold the indices of its entries. -/
structure MSHRQueue (numEntries : Nat) where
  entries : Fin numEntries → MSHR
  allocatedList : List (Fin numEntries)
  readyList : List (Fin numEntries)
  freeList : List (Fin numEntries)
  numInService : Int
  allocated : Int

namespace MSHRQueue
variable {numEntries : Nat}

/-- The largest tick. -/
def maxTick : Nat := 2 ^ 64 - 1

def init : MSHRQueue numEntries where
  entries := fun _ => .init
  allocatedList := []
  readyList := []
  freeList := List.finRange numEntries
  numInService := 0
  allocated := 0

variable (queue : MSHRQueue numEntries) (entry : Fin numEntries)

def readyTime : Nat := (queue.entries entry).readyTime

def setEntry (mshr : MSHR) : MSHRQueue numEntries := { queue with entries := Function.update queue.entries entry mshr }

/-- The `erase` of a list at the iterator that an entry keeps. -/
def eraseAt (list : List (Fin numEntries)) (entry : Fin numEntries) : Except Fault (List (Fin numEntries)) :=
  if entry ∈ list then .ok (list.erase entry) else .error .danglingIterator

/-- This loop inserts an entry before the first entry that becomes ready later. -/
def insertBeforeLater (readyTime : Fin numEntries → Nat) (entry : Fin numEntries) :
    List (Fin numEntries) → Except Fault (List (Fin numEntries))
  | [] => .error (.panic "Failed to add to ready list.")
  | other :: rest =>
    if readyTime other > readyTime entry then .ok (entry :: other :: rest)
    else do .ok (other :: (← insertBeforeLater readyTime entry rest))

/-- This function returns the ready list with a new entry. -/
def addToReadyList : Except Fault (List (Fin numEntries)) :=
  match queue.readyList.getLast? with
  | none => .ok [entry]
  | some back =>
    if queue.readyTime back ≤ queue.readyTime entry then .ok (queue.readyList ++ [entry])
    else insertBeforeLater queue.readyTime entry queue.readyList

def allocate (blkAddr : BitVec 64) (blkSize : Nat) (pkt : Packet)
    (whenReady order : Nat) (allocOnFill : Bool) : Except Fault (MSHRQueue numEntries) :=
  match queue.freeList with
  | [] => .error (.assertion "!freeList.empty()")
  | entry :: rest => do
    let mshr ← (queue.entries entry).allocate blkAddr blkSize pkt whenReady order allocOnFill
    let readyList ← (queue.setEntry entry mshr).addToReadyList entry
    .ok { queue.setEntry entry mshr with
      readyList
      freeList := rest
      allocatedList := queue.allocatedList ++ [entry]
      allocated := queue.allocated + 1 }

/-- This function is `splice` of one entry within a list, before a position or at the end. -/
def splice (list : List (Fin numEntries)) (position : Option (Fin numEntries)) (entry : Fin numEntries) :
    List (Fin numEntries) :=
  match position with
  | none => list.erase entry ++ [entry]
  | some before =>
    if before = entry then list
    else (list.erase entry).takeWhile (· ≠ before) ++ entry :: (list.erase entry).dropWhile (· ≠ before)

/-- This function moves an entry before the first entry, from its own place on, that is ready at the same time or
earlier. -/
def moveDelayed : Except Fault (MSHRQueue numEntries) :=
  if entry ∈ queue.readyList then
    let position := (queue.readyList.dropWhile (· ≠ entry)).find?
      fun other => queue.readyTime entry ≥ queue.readyTime other
    .ok { queue with readyList := splice queue.readyList position entry }
  else .error .danglingIterator

def delay (delayTicks curTick : Nat) : Except Fault (MSHRQueue numEntries) := do
  let mshr ← (queue.entries entry).delay delayTicks curTick
  (queue.setEntry entry mshr).moveDelayed entry

def markInService (pendingModifiedResp : Bool) : Except Fault (MSHRQueue numEntries) := do
  let mshr ← (queue.entries entry).markInService pendingModifiedResp
  let readyList ← eraseAt queue.readyList entry
  .ok { queue.setEntry entry mshr with readyList, numInService := queue.numInService + 1 }

def markPending : Except Fault (MSHRQueue numEntries) := do
  let mshr ← (queue.entries entry).markPending
  let readyList ← (queue.setEntry entry mshr).addToReadyList entry
  .ok { queue.setEntry entry mshr with readyList, numInService := queue.numInService - 1 }

/-- This function removes an entry from the count or the list of its state. -/
def release : Except Fault (MSHRQueue numEntries) :=
  if (queue.entries entry).inService then .ok { queue with numInService := queue.numInService - 1 }
  else do .ok { queue with readyList := ← eraseAt queue.readyList entry }

def deallocate : Except Fault (MSHRQueue numEntries) := do
  let allocatedList ← eraseAt queue.allocatedList entry
  let released ← ({ queue with
    allocatedList, freeList := entry :: queue.freeList
    allocated := queue.allocated - 1 } : MSHRQueue numEntries).release entry
  let mshr ← (queue.entries entry).deallocate
  .ok (released.setEntry entry mshr)

def getNext (curTick : Nat) : Option (Fin numEntries) :=
  match queue.readyList with
  | [] => none
  | front :: _ => if queue.readyTime front > curTick then none else some front

def nextReadyTime : Nat :=
  match queue.readyList with
  | [] => maxTick
  | front :: _ => queue.readyTime front

/-- A queue at the current tick. -/
structure Clocked (numEntries : Nat) where
  queue : MSHRQueue numEntries
  curTick : Nat

/-- The operations on a queue, with the passing of time and the other operations on one register. -/
inductive Op (numEntries : Nat) where
  | advance (tick : Nat)
  | allocate (blkAddr : BitVec 64) (blkSize : Nat) (pkt : Packet) (whenReady order : Nat) (allocOnFill : Bool)
  | delay (entry : Fin numEntries) (delayTicks : Nat)
  | markInService (entry : Fin numEntries) (pendingModifiedResp : Bool)
  | markPending (entry : Fin numEntries)
  | deallocate (entry : Fin numEntries)
  | access (entry : Fin numEntries) (op : MSHR.Op)

namespace Clocked

/-- This function performs an operation at the current tick. -/
def step (state : Clocked numEntries) : Op numEntries → Except Fault (Clocked numEntries)
  | .advance tick => .ok { state with curTick := tick }
  | .allocate blkAddr blkSize pkt whenReady order allocOnFill => do
    .ok { state with queue := ← state.queue.allocate blkAddr blkSize pkt whenReady order allocOnFill }
  | .delay entry delayTicks => do .ok { state with queue := ← state.queue.delay entry delayTicks state.curTick }
  | .markInService entry pendingModifiedResp => do
    .ok { state with queue := ← state.queue.markInService entry pendingModifiedResp }
  | .markPending entry => do .ok { state with queue := ← state.queue.markPending entry }
  | .deallocate entry => do .ok { state with queue := ← state.queue.deallocate entry }
  | .access entry op => do
    let (_, mshr) ← (state.queue.entries entry).step op
    .ok { state with queue := state.queue.setEntry entry mshr }

end Clocked
end MSHRQueue
end Gem5
