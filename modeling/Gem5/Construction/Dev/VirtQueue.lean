import Gem5.Construction.Base.Fault

namespace Gem5.Virtio
open ToMathlib

structure VringDesc where
  flags : BitVec 16
  next : BitVec 16
deriving DecidableEq, Repr

def VRING_DESC_F_NEXT : BitVec 16 := 1

def VringDesc.hasNext (desc : VringDesc) : Bool := desc.flags &&& VRING_DESC_F_NEXT ≠ 0

/-- The guest memory has the descriptor table and the ring of available chains. -/
structure GuestMemory where
  desc : Nat → VringDesc
  availIndex : BitVec 16
  availRing : Nat → BitVec 16

/-- The queue keeps a copy of each descriptor. -/
structure VirtQueue where
  size : Nat
  address : BitVec 64
  availBase : BitVec 64
  lastAvail : BitVec 16
  descriptors : Nat → VringDesc

namespace VirtQueue
variable (queue : VirtQueue) (memory : GuestMemory)

def copy (queue : VirtQueue) (index : Nat) : VirtQueue :=
  { queue with descriptors := Function.update queue.descriptors index (memory.desc index) }

def update (index : Nat) : Except Fault VirtQueue :=
  if queue.address = 0 then .ok queue
  else do
    assert (index < queue.size) "_index < queue->getSize()"
    .ok (queue.copy memory index)

def getDescriptor (index : Nat) : Except Fault Nat := if index < queue.size then .ok index else .error .outOfBounds

def next (index : Nat) : Except Fault (Option Nat) :=
  if (queue.descriptors index).hasNext then do
    let desc ← queue.getDescriptor (queue.descriptors index).next.toNat
    .ok (some desc)
  else .ok none

/-- This loop updates descriptors until the chain ends or is at its head again. -/
def updateLoop (memory : GuestMemory) (head : Nat) : Nat → VirtQueue → Nat → Except Fault (VirtQueue × Option Nat)
  | 0, _, _ => .error .endlessLoop
  | fuel + 1, queue, index => do
    let queue ← queue.update memory index
    let desc ← queue.next index
    match desc with
    | none => .ok (queue, none)
    | some desc => if desc = head then .ok (queue, some head) else updateLoop memory head fuel queue desc

def updateChain (fuel head : Nat) : Except Fault VirtQueue := do
  let (queue, desc) ← updateLoop memory head fuel queue head
  if desc = some head then .error (.panic "Loop in descriptor chain!\n") else .ok queue

/-- This index is the entry of the available ring that the queue takes next. -/
def pendingHead : Nat := (memory.availRing (queue.lastAvail.toNat % queue.size)).toNat

def consumeDescriptor (fuel : Nat) : Except Fault (VirtQueue × Option Nat) := do
  assert (queue.availBase ≠ 0) "_base != 0"
  if queue.lastAvail = memory.availIndex then .ok (queue, none)
  else if queue.size = 0 then .error .arithmetic
  else
    let head ← queue.getDescriptor (queue.pendingHead memory)
    let queue ← updateChain { queue with lastAvail := queue.lastAvail + 1 } memory fuel head
    .ok (queue, some head)

end VirtQueue
end Gem5.Virtio
