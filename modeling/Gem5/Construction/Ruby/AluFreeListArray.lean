import Gem5.Construction.Base.Bitfield

namespace Gem5.Ruby

abbrev Tick := BitVec 64

structure AccessRecord where
  lineAddr : Addr
  startTick : Tick
deriving DecidableEq, Repr

/-- The latency is the number of clocks times the clock period. -/
structure ALUParams where
  numALUs : BitVec 32
  accessLatency : Tick
  blockSizeBits : Nat

namespace ALUParams
variable (params : ALUParams) (curTick : Tick) (addr : Addr)

def makeLineAddress : Addr := (addr >>> params.blockSizeBits) <<< params.blockSizeBits

/-- This loop counts the accesses of the current tick and looks for the line. -/
def scan : BitVec 32 → List AccessRecord → Bool
  | _, [] => true
  | accessesThisTick, record :: rest =>
    let accessesThisTick := if record.startTick = curTick then accessesThisTick + 1 else accessesThisTick
    if record.startTick = curTick ∧ params.numALUs < accessesThisTick then false
    else if record.lineAddr = params.makeLineAddress addr then false
    else scan accessesThisTick rest

/-- This function removes old records from the back of the queue. -/
def prune (accessQueue : List AccessRecord) : List AccessRecord :=
  accessQueue.rdropWhile fun record => record.startTick < curTick - params.accessLatency

/-- The result is whether the access may start. -/
def tryAccess (accessQueue : List AccessRecord) : Bool × List AccessRecord :=
  (params.scan curTick addr 0 (params.prune curTick accessQueue), params.prune curTick accessQueue)

/-- The record that `reserve` pushes to the front of the queue. -/
def record : AccessRecord := ⟨params.makeLineAddress addr, curTick⟩

/-- The accesses are tried one after the other, with the newest one first in the list, and reserved if they may start.
The result is the queue with all the reservations. -/
def accessAll : List (Tick × Addr) → List AccessRecord × List AccessRecord
  | [] => ([], [])
  | (curTick, addr) :: earlier =>
    let (accessQueue, reservations) := accessAll earlier
    let (free, accessQueue) := params.tryAccess curTick addr accessQueue
    if free then (params.record curTick addr :: accessQueue, params.record curTick addr :: reservations)
    else (accessQueue, reservations)

end ALUParams
end Gem5.Ruby
