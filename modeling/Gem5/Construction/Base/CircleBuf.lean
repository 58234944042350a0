import Gem5.ToMathlib.Ring
import Gem5.Construction.Sim.Serialize

namespace Gem5
open ToMathlib

/-- The value of a sum as a `size_t`. -/
def sizeT (value : Nat) : Nat := value % 2 ^ 64

/-- The difference of two values of the type `size_t`. -/
def sizeTSub (value amount : Nat) : Nat := sizeT (value + 2 ^ 64 - amount)

/-- The circular buffer. A `std::vector` has fewer than `2 ^ 63` elements. -/
structure CircleBuf (T : Type) where
  maxSize : Nat
  limited : maxSize < 2 ^ 63
  buffer : Vector T maxSize
  start : Nat
  used : Nat

namespace CircleBuf
variable {T : Type}

def init [Inhabited T] (size : Nat) (limited : size < 2 ^ 63) : CircleBuf T where
  maxSize := size
  limited := limited
  buffer := Vector.replicate size default
  start := 0
  used := 0

variable (buf : CircleBuf T)

def flush : CircleBuf T := { buf with start := 0, used := 0 }

/-- This function finds the place of a position in the vector. -/
def place (position : Nat) : Except Fault Nat :=
  if buf.maxSize = 0 then .error .arithmetic else .ok (position % buf.maxSize)

def peek (offset len : Nat) : Except Fault (List T) :=
  if buf.used < sizeT (offset + len) then .error (.panic "Trying to read past end of circular buffer.")
  else if len = 0 then .ok []
  else do
    let next ← buf.place (sizeT (buf.start + offset))
    let toEnd := buf.maxSize - next
    if toEnd < len then .ok (copyFrom buf.buffer next toEnd ++ copyFrom buf.buffer 0 (len - toEnd))
    else .ok (copyFrom buf.buffer next len)

def read (len : Nat) : Except Fault (List T × CircleBuf T) := do
  let out ← buf.peek 0 len
  .ok (out, { buf with used := sizeTSub buf.used len, start := sizeT (buf.start + len) })

/-- This function writes data that is not longer than the buffer. -/
def writeFitting (input : List T) : Except Fault (CircleBuf T) := do
  let len := input.length
  let totalBytes := sizeT (buf.used + len)
  let overflow := if buf.maxSize < totalBytes then totalBytes - buf.maxSize else 0
  let next ← buf.place (sizeT (buf.start + buf.used))
  let toEnd := buf.maxSize - next
  let advanced := { buf with start := sizeT (buf.start + overflow) }
  if toEnd < len then
    let first := copyInto buf.buffer next (input.take toEnd)
    .ok { advanced with
      buffer := copyInto first 0 (input.drop toEnd)
      used := sizeTSub (sizeT (sizeT (buf.used + toEnd) + (len - toEnd))) overflow }
  else
    .ok { advanced with
      buffer := copyInto buf.buffer next input
      used := sizeTSub (sizeT (buf.used + len)) overflow }

def write (input : List T) : Except Fault (CircleBuf T) :=
  if input.length = 0 then .ok buf
  else if buf.maxSize < input.length then buf.flush.writeFitting (input.drop (input.length - buf.maxSize))
  else buf.writeFitting input

def arrayParamOut (cp : Checkpoint) (text : ParamText T) (name : String) : Except Fault Checkpoint := do
  .ok (cp.arrayParamOut text name (← buf.peek 0 buf.used))

def arrayParamIn (cp : Checkpoint) (text : ParamText T) (name : String) : Except Fault (CircleBuf T) := do
  let temp ← cp.arrayParamIn text name
  buf.flush.write temp

end CircleBuf

/-- The FIFO, whose writes do not overwrite. -/
structure Fifo (T : Type) where
  buf : CircleBuf T

namespace Fifo
variable {T : Type}

def flush (fifo : Fifo T) : Fifo T := { buf := fifo.buf.flush }

def peek (fifo : Fifo T) (len : Nat) : Except Fault (List T) := fifo.buf.peek 0 len

def write (fifo : Fifo T) (input : List T) : Except Fault (Fifo T) :=
  if fifo.buf.maxSize < sizeT (fifo.buf.used + input.length) then .error (.panic "Trying to overfill FIFO buffer.")
  else do .ok { buf := ← fifo.buf.write input }

def arrayParamOut (fifo : Fifo T) (cp : Checkpoint) (text : ParamText T) (name : String) : Except Fault Checkpoint := do
  .ok (cp.arrayParamOut text name (← fifo.peek fifo.buf.used))

def arrayParamIn (fifo : Fifo T) (cp : Checkpoint) (text : ParamText T) (name : String) : Except Fault (Fifo T) := do
  let temp ← cp.arrayParamIn text name
  if fifo.buf.maxSize < temp.length then .error (.fatal "Trying to unserialize data into too small FIFO")
  else fifo.flush.write temp

end Fifo

end Gem5
