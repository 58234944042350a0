import Gem5.Construction.Base.Bitfield

namespace Gem5.Prefetch

structure PrefetchInfo where
  address : Addr
  secure : Bool
deriving DecidableEq, Repr

def PrefetchInfo.sameAddr (info pfi : PrefetchInfo) : Bool := info.address = pfi.address && info.secure = pfi.secure

/-- This structure has the parts of a deferred packet that the queue reads, and `pkt` is the packet it points to. -/
structure DeferredPacket where
  pfInfo : PrefetchInfo
  priority : Int
  pkt : Nat
deriving DecidableEq, Repr

/-- This loop steps its iterator once more after it has found the address. -/
def findAddr (pfi : PrefetchInfo) : List DeferredPacket → Nat → Bool × Nat
  | [], it => (false, it)
  | packet :: rest, it => if packet.pfInfo.sameAddr pfi then (true, it + 1) else findAddr pfi rest (it + 1)

/-- This loop swaps a packet with those before it that have a lower priority. -/
def moveUp : Nat → Nat → List DeferredPacket → List DeferredPacket
  | 0, _, queue => queue
  | prev + 1, it, queue =>
    match queue[it]?, queue[prev]? with
    | some moved, some other =>
      if moved.priority > other.priority then moveUp prev prev ((queue.set it other).set prev moved)
      else moveUp prev it queue
    | _, _ => queue

def alreadyInQueue (queue : List DeferredPacket) (pfi : PrefetchInfo) (priority : Int) : Bool × List DeferredPacket :=
  let (found, it) := findAddr pfi queue 0
  match queue[it]? with
  | none => (found, queue)
  | some packet =>
    if packet.priority < priority then (found, moveUp it it (queue.set it { packet with priority }))
    else (found, queue)

end Gem5.Prefetch
