import Gem5.Construction.Base.Fault

namespace Gem5.Ruby.Dma
open ToMathlib

/-- A sequence of bytes by position. -/
abbrev Bytes := Nat → BitVec 8

structure Params where
  blockSizeBits : Nat
  maxOutstandingRequests : Nat

namespace Params

def blockSize (params : Params) : Nat := 2 ^ params.blockSizeBits

def offset (params : Params) (address : Nat) : Nat := address % params.blockSize

def makeLineAddress (params : Params) (address : Nat) : Nat := address - params.offset address

end Params

structure Packet where
  addr : Nat
  size : Nat
  isWrite : Bool
  data : Bytes

structure SequencerMsg where
  PhysicalAddress : Nat
  LineAddress : Nat
  write : Bool
  Len : Nat
  DataBlk : Bytes

/-- The last two fields are history variables: the messages of the request in the order of their issue, and the blocks
that answered them. -/
structure DMARequest where
  start_paddr : Nat
  len : Nat
  write : Bool
  bytes_completed : Nat
  bytes_issued : Nat
  data : Bytes
  pkt : Packet
  messages : List SequencerMsg
  answers : List Bytes

/-- The field `unanswered` lists the messages that the DMA controller has not answered, `hits` the requests whose
packet was passed to `ruby_hit_callback`, and `accepted` the packets that a call issued. -/
structure DMASequencer where
  requestTable : List (Nat × DMARequest)
  outstandingCount : Nat
  unanswered : List SequencerMsg
  hits : List DMARequest
  accepted : List Packet

inductive RequestStatus where
  | BufferFull
  | Aliased
  | Issued
deriving DecidableEq, Repr

/-- This function copies `len` bytes to a place of a clear block. -/
def setData (data : Bytes) (offset len : Nat) : Bytes := fun place =>
  if offset ≤ place ∧ place < offset + len then data (place - offset) else 0

/-- This function copies `len` bytes of a block to a place of the packet's buffer. -/
def copyBack (buffer : Bytes) (place : Nat) (block : Bytes) (offset len : Nat) : Bytes := fun position =>
  if place ≤ position ∧ position < place + len then block (offset + (position - place)) else buffer position

namespace DMASequencer

def initial : DMASequencer := ⟨[], 0, [], [], []⟩

variable (params : Params) (sequencer : DMASequencer)

def find (address : Nat) : Option (Nat × DMARequest) := sequencer.requestTable.find? fun entry => entry.1 == address

/-- The first message ends with the request or with its first line. -/
def firstMessage (pkt : Packet) : SequencerMsg :=
  let offset := params.offset pkt.addr
  let len := if offset + pkt.size ≤ params.blockSize then pkt.size else params.blockSize - offset
  { PhysicalAddress := pkt.addr
    LineAddress := params.makeLineAddress pkt.addr
    write := pkt.isWrite
    Len := len
    DataBlk := if pkt.isWrite then setData pkt.data offset len else fun _ => 0 }

def makeRequest (pkt : Packet) : Except Fault (RequestStatus × DMASequencer) :=
  if sequencer.outstandingCount = params.maxOutstandingRequests then .ok (.BufferFull, sequencer)
  else do
    assert (sequencer.outstandingCount < params.maxOutstandingRequests)
      "m_outstanding_count < m_max_outstanding_requests"
    let line := params.makeLineAddress pkt.addr
    if (sequencer.find line).isSome then return (.Aliased, sequencer)
    else
      let msg := firstMessage params pkt
      return (.Issued, { sequencer with
        requestTable := sequencer.requestTable ++
          [(line, ⟨pkt.addr, pkt.size, pkt.isWrite, 0, msg.Len, pkt.data, pkt, [msg], []⟩)]
        outstandingCount := sequencer.outstandingCount + 1
        unanswered := sequencer.unanswered ++ [msg]
        accepted := pkt :: sequencer.accepted })

/-- Each later message starts at a line and covers what is left of the request or the whole line. -/
def nextMessage (request : DMARequest) : SequencerMsg :=
  let address := request.start_paddr + request.bytes_completed
  let left := request.len - request.bytes_completed
  let len := if left < params.blockSize then left else params.blockSize
  { PhysicalAddress := address
    LineAddress := params.makeLineAddress address
    write := request.write
    Len := len
    DataBlk := if request.write then setData (fun place => request.data (request.bytes_completed + place)) 0 len
      else fun _ => 0 }

/-- This function replaces the request that the table holds under an address. -/
def store (address : Nat) (request : DMARequest) : DMASequencer :=
  { sequencer with
    requestTable := sequencer.requestTable.map fun entry => if entry.1 = address then (address, request) else entry }

def issueNext (address : Nat) : Except Fault DMASequencer :=
  match sequencer.find address with
  | none => .error (.assertion "i != m_RequestTable.end()")
  | some (_, found) => do
    assert (sequencer.outstandingCount ≤ params.maxOutstandingRequests)
      "m_outstanding_count <= m_max_outstanding_requests"
    let request := { found with bytes_completed := found.bytes_issued }
    if request.len = request.bytes_completed then
      return { sequencer with
        requestTable := sequencer.requestTable.eraseP fun entry => entry.1 == address
        outstandingCount := sequencer.outstandingCount - 1
        hits := sequencer.hits ++ [request] }
    else
      let msg := nextMessage params request
      assert (params.offset msg.PhysicalAddress = 0) "(msg->getPhysicalAddress() & m_data_block_mask) == 0"
      return { sequencer.store address { request with
          bytes_issued := request.bytes_issued + msg.Len
          messages := request.messages ++ [msg] } with
        unanswered := sequencer.unanswered ++ [msg] }

/-- This function copies the line of an answer to the buffer of its request. -/
def received (request : DMARequest) (block : Bytes) : DMARequest :=
  let offset := if request.bytes_completed = 0 then params.offset request.start_paddr else 0
  { request with
    data := copyBack request.data request.bytes_completed block offset (request.bytes_issued - request.bytes_completed)
    answers := request.answers ++ [block] }

def dataCallback (block : Bytes) (address : Nat) : Except Fault DMASequencer :=
  match sequencer.find address with
  | none => .error (.assertion "i != m_RequestTable.end()")
  | some (_, request) => do
    assert (request.write = false) "!active_request.write"
    issueNext params (sequencer.store address (received params request block)) address

def ackCallback (address : Nat) : Except Fault DMASequencer := do
  assert ((sequencer.find address).isSome = true) "m_RequestTable.find(address) != m_RequestTable.end()"
  issueNext params sequencer address

end DMASequencer

/-- The DMA controller answers the messages in any order, each with the callback of its direction. -/
inductive Op where
  | makeRequest (pkt : Packet)
  | answer (index : Nat) (block : Bytes)

def DMASequencer.step (params : Params) (sequencer : DMASequencer) : Op → Except Fault DMASequencer
  | .makeRequest pkt => do
    let (_, next) ← sequencer.makeRequest params pkt
    return next
  | .answer index block =>
    match sequencer.unanswered[index]? with
    | none => .ok sequencer
    | some msg =>
      let popped := { sequencer with unanswered := sequencer.unanswered.eraseIdx index }
      if msg.write then popped.ackCallback params msg.LineAddress
      else popped.dataCallback params block msg.LineAddress

end Gem5.Ruby.Dma
