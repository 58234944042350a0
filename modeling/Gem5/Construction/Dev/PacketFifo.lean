import Gem5.Construction.Base.Fault

namespace Gem5.Net
open ToMathlib

/-- A packet that `push` accepts has at least one byte. -/
structure EthPacketData where
  data : List UInt8
  nonempty : data ≠ []

def EthPacketData.length (packet : EthPacketData) : Nat := packet.data.length

/-- A queue from whose middle no packet was removed has the size of its packets. -/
structure PacketFifo where
  fifo : List EthPacketData
  size : Nat
  counted : size = (fifo.flatMap (·.data)).length
  narrow : size < 2 ^ 32

namespace PacketFifo

/-- The inner loop of `copyout` leaves the packets behind by the length of the one where it began. -/
def skip (length : Nat) : List EthPacketData → Nat → Except Fault (List EthPacketData × Nat)
  | [], offset => if length ≤ offset then .error .danglingIterator else .ok ([], offset)
  | entry :: rest, offset => if length ≤ offset then skip length rest (offset - length) else .ok (entry :: rest, offset)

/-- The outer loop of `copyout` with a bound on its passes returns the bytes that it writes. -/
def copyLoop : Nat → List EthPacketData → Nat → Nat → Except Fault (List UInt8)
  | _, _, _, 0 => .ok []
  | 0, _, _, _ + 1 => .error .endlessLoop
  | _ + 1, [], _, _ + 1 => .error .danglingIterator
  | passes + 1, pkt :: rest, offset, len + 1 => do
    let (i, offset) ← skip pkt.length (pkt :: rest) offset
    match i with
    | [] => .error (.panic "invalid fifo")
    | _ :: next => do
      -- The source still copies from the start of the packet where the inner loop began.
      let size := min (pkt.length - offset) (len + 1)
      .ok (pkt.data.take size ++ (← copyLoop passes next 0 (len + 1 - size)))

/-- This function has no bytes if the source returns false. -/
def copyout (fifo : PacketFifo) (offset len : Nat) : Except Fault (Option (List UInt8)) :=
  if fifo.size ≤ (offset + len) % 2 ^ 32 then .ok none
  else do .ok (some (← copyLoop len fifo.fifo offset len))

end PacketFifo

end Gem5.Net
