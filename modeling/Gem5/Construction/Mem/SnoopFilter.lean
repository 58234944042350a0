import Gem5.Construction.Base.Bitfield
import Gem5.Construction.Mem.Packet

namespace Gem5

/-- This structure has the fields of a packet that a snoop filter reads. -/
structure CoherentPacket where
  cmd : MemCmd
  req : Request
  addr : Addr
  isSecure : Bool
  cacheResponding : Bool
  hasSharers : Bool
  isBlockCached : Bool
deriving DecidableEq, Repr

/-- This packet is for the line at the address 0. -/
def CoherentPacket.atZero (cmd : MemCmd) (cacheResponding hasSharers : Bool) : CoherentPacket where
  cmd
  req := { flags := 0, masked := false }
  addr := 0
  isSecure := false
  cacheResponding := cacheResponding
  hasSharers := hasSharers
  isBlockCached := false

/-- A port of the crossbar on the side of the processors. -/
structure ResponsePort where
  id : Nat
  isSnooping : Bool
deriving DecidableEq, Repr

namespace SnoopFilter

abbrev SnoopMask := BitVec 256

def SNOOP_MASK_SIZE : Nat := 256

def LineSecure : Addr := 0x01

/-- This structure has the ports with an outstanding request for a line and the ports that share it. -/
structure SnoopItem where
  requested : SnoopMask
  holder : SnoopMask
deriving DecidableEq, Repr

/-- This structure has the parameters of a filter, and a line has an even number of bytes. -/
structure Params where
  linesize : Nat
  lookupLatency : Nat
  maxCapacity : Nat
  positive : 0 < linesize
  even : linesize % 2 = 0

namespace Params
variable (params : Params)

def maxEntryCount : Nat := params.maxCapacity / params.linesize % 2 ^ 32

def getBlockAddr (addr : Addr) : Addr := addr &&& ~~~BitVec.ofNat 64 (params.linesize - 1)

def lineAddr (addr : Addr) (isSecure : Bool) : Addr :=
  if isSecure then params.getBlockAddr addr ||| LineSecure else params.getBlockAddr addr

end Params

end SnoopFilter

/-- The filter, where `lookup` is the entry of the last request, if there is one. -/
structure SnoopFilter where
  cachedLocations : AList fun _ : Addr => SnoopFilter.SnoopItem
  lookup : Option Addr
  retryItem : SnoopFilter.SnoopItem
  cpuSidePorts : List ResponsePort
  localResponsePortIds : List (Option Nat)

namespace SnoopFilter
variable (params : Params) (filter : SnoopFilter)

def create : SnoopFilter where
  cachedLocations := ∅
  lookup := none
  retryItem := { requested := 0, holder := 0 }
  cpuSidePorts := []
  localResponsePortIds := []

/-- This function numbers a port if it is snooping. -/
def addPort (state : SnoopFilter × Nat) (port : ResponsePort) : Except Fault (SnoopFilter × Nat) :=
  if port.isSnooping then
    if port.id < state.1.localResponsePortIds.length then
      .ok ({ state.1 with
        cpuSidePorts := state.1.cpuSidePorts ++ [port],
        localResponsePortIds := state.1.localResponsePortIds.set port.id (some state.2) }, state.2 + 1)
    else .error .outOfBounds
  else .ok state

def setCPUSidePorts (ports : List ResponsePort) : Except Fault SnoopFilter := do
  let resized := { filter with localResponsePortIds := List.replicate ports.length none }
  let (numbered, id) ← ports.foldlM addPort (resized, 0)
  if id > SNOOP_MASK_SIZE then .error (.fatal "Snoop filter only supports %d snooping ports, got %d")
  else .ok numbered

def portToMask (port : ResponsePort) : Except Fault SnoopMask :=
  if port.isSnooping then
    match filter.localResponsePortIds[port.id]? with
    | some (some id) => .ok (1 <<< id)
    | _ => .error .outOfBounds
  else .ok 0

def maskToPortList (portMask : SnoopMask) : Except Fault (List ResponsePort) :=
  filter.cpuSidePorts.foldlM (fun res port => do
    let mask ← filter.portToMask port
    .ok (if portMask &&& mask ≠ 0 then res ++ [port] else res)) []

def snoopSelected (ports : List ResponsePort) : List ResponsePort × Nat := (ports, params.lookupLatency)

def snoopDown : List ResponsePort × Nat := ([], params.lookupLatency)

/-- This function replaces the entry of a line. -/
def setItem (lineAddr : Addr) (item : SnoopItem) : SnoopFilter :=
  { filter with cachedLocations := filter.cachedLocations.insert lineAddr item }

def eraseIfNullEntry (lineAddr : Addr) : SnoopFilter :=
  match filter.cachedLocations.lookup lineAddr with
  | none => filter
  | some item =>
    if item.requested ||| item.holder = 0 then
      { filter with cachedLocations := filter.cachedLocations.erase lineAddr }
    else filter

variable (cpkt : CoherentPacket)

/-- A request for a line that may be cached comes from a cache. -/
def allocates (port : ResponsePort) : Bool := !cpkt.req.isUncacheable && port.isSnooping && cpkt.cmd.fromCache

/-- The part of `lookupRequest` that marks the requests of a cache. -/
def SnoopItem.mark (item : SnoopItem) (cpkt : CoherentPacket) (reqPort : SnoopMask) : Except Fault SnoopItem :=
  if cpkt.cmd.needsResponse then
    if cpkt.cacheResponding then
      if item.holder &&& reqPort = 0 then .error (.panic "Need to hold the value!") else .ok item
    else if item.requested &&& reqPort ≠ 0 then .error (.panic "double request :( SF value %x.%x")
    else .ok { item with requested := item.requested ||| reqPort }
  else do
    assert (cpkt.cmd.isEviction = true) "cpkt->isEviction()"
    if item.holder &&& reqPort = 0 then .error (.panic "requestor %x is not a holder :( SF value %x.%x")
    else if cpkt.isBlockCached then .ok item
    else .ok { item with holder := item.holder &&& ~~~reqPort }

/-- The part of `lookupRequest` that looks at the entry of the line. -/
def lookupEntry (lineAddr : Addr) (item : SnoopItem) (cpkt : CoherentPacket) (port : ResponsePort)
    (reqPort : SnoopMask) : Except Fault ((List ResponsePort × Nat) × SnoopFilter) := do
  let interested := item.holder ||| item.requested
  let ports ← filter.maskToPortList (interested &&& ~~~reqPort)
  let found := { filter with lookup := some lineAddr, retryItem := item }
  if allocates cpkt port then do
    let marked ← item.mark cpkt reqPort
    .ok (snoopSelected params ports, found.setItem lineAddr marked)
  else .ok (snoopSelected params ports, found)

def lookupRequest (port : ResponsePort) : Except Fault ((List ResponsePort × Nat) × SnoopFilter) := do
  let reqPort ← filter.portToMask port
  let lineAddr := params.lineAddr cpkt.addr cpkt.isSecure
  match filter.cachedLocations.lookup lineAddr with
  | some item => filter.lookupEntry params lineAddr item cpkt port reqPort
  | none =>
    if allocates cpkt port then
      filter.lookupEntry params lineAddr { requested := 0, holder := 0 } cpkt port reqPort
    else .ok (snoopDown params, { filter with lookup := none })

def finishRequest (willRetry : Bool) (addr : Addr) (isSecure : Bool) : Except Fault SnoopFilter :=
  match filter.lookup with
  | none => .ok filter
  | some lineAddr =>
    if (filter.cachedLocations.lookup lineAddr).isSome then do
      assert (lineAddr = params.lineAddr addr isSecure) ("reqLookupResult.it->first == (is_secure ? " ++
        "((addr & ~(Addr(linesize - 1))) | LineSecure) : (addr & ~(Addr(linesize - 1))))")
      if willRetry then .ok ((filter.setItem lineAddr filter.retryItem).eraseIfNullEntry lineAddr)
      else .ok (filter.eraseIfNullEntry lineAddr)
    else .error .danglingIterator

def lookupSnoop : Except Fault ((List ResponsePort × Nat) × SnoopFilter) := do
  assert (cpkt.cmd.isRequest = true) "cpkt->isRequest()"
  let lineAddr := params.lineAddr cpkt.addr cpkt.isSecure
  match filter.cachedLocations.lookup lineAddr with
  | none =>
    if filter.cachedLocations.keys.length ≥ params.maxEntryCount then
      .error (.panic "snoop filter exceeded capacity of %d cache blocks")
    else .ok (snoopDown params, filter)
  | some item => do
    let interested := item.holder ||| item.requested
    assert (cpkt.cmd.isWriteback = true ∨ cpkt.req.isUncacheable = true ∨
        cpkt.cmd.isInvalidate = cpkt.cmd.needsWritable ∨ cpkt.req.isCacheMaintenance = true)
      ("cpkt->isWriteback() || cpkt->req->isUncacheable() || " ++
        "(cpkt->isInvalidate() == cpkt->needsWritable()) || cpkt->req->isCacheMaintenance()")
    let ports ← filter.maskToPortList interested
    if cpkt.cmd.isInvalidate ∧ item.requested = 0 then
      .ok (snoopSelected params ports, (filter.setItem lineAddr { item with holder := 0 }).eraseIfNullEntry lineAddr)
    else .ok (snoopSelected params ports, filter)

/-- The entry after a snoop response to a port. -/
def SnoopItem.respond (item : SnoopItem) (hasSharers : Bool) (reqMask : SnoopMask) : SnoopItem where
  requested := item.requested &&& ~~~reqMask
  holder := (if hasSharers then item.holder else 0) ||| reqMask

def updateSnoopResponse (rspPort reqPort : ResponsePort) : Except Fault SnoopFilter := do
  assert (cpkt.cmd.isResponse = true) "cpkt->isResponse()"
  assert (cpkt.cacheResponding = true) "cpkt->cacheResponding()"
  if cpkt.req.isUncacheable ∨ reqPort.isSnooping = false then .ok filter
  else do
    let lineAddr := params.lineAddr cpkt.addr cpkt.isSecure
    let rspMask ← filter.portToMask rspPort
    let reqMask ← filter.portToMask reqPort
    let item := (filter.cachedLocations.lookup lineAddr).getD { requested := 0, holder := 0 }
    if item.holder &&& rspMask = 0 then .error (.panic "SF value %x.%x does not have the line")
    else if item.requested &&& reqMask = 0 then .error (.panic "SF value %x.%x missing the original request")
    else do
      assert (cpkt.cmd.isWriteback = false) "!cpkt->isWriteback()"
      let next := item.respond cpkt.hasSharers reqMask
      assert (next.requested ||| next.holder ≠ 0) "(sf_item.requested | sf_item.holder).any()"
      .ok (filter.setItem lineAddr next)

def updateSnoopForward : Except Fault SnoopFilter := do
  assert (cpkt.cmd.isResponse = true) "cpkt->isResponse()"
  assert (cpkt.cacheResponding = true) "cpkt->cacheResponding()"
  let lineAddr := params.lineAddr cpkt.addr cpkt.isSecure
  match filter.cachedLocations.lookup lineAddr with
  | none => .ok filter
  | some item =>
    if cpkt.hasSharers then .ok filter
    else .ok ((filter.setItem lineAddr { item with holder := 0 }).eraseIfNullEntry lineAddr)

def updateResponse (port : ResponsePort) : Except Fault SnoopFilter := do
  assert (cpkt.cmd.isResponse = true) "cpkt->isResponse()"
  if cpkt.req.isUncacheable ∨ port.isSnooping = false then .ok filter
  else
    let lineAddr := params.lineAddr cpkt.addr cpkt.isSecure
    match filter.cachedLocations.lookup lineAddr with
    | none => .ok filter
    | some item => do
      let responseMask ← filter.portToMask port
      if item.requested &&& responseMask = 0 then .error (.panic "SF value %x.%x missing request bit")
      else
        let requested := item.requested &&& ~~~responseMask
        if cpkt.req.isCacheMaintenance then
          let holder := if cpkt.cmd.isInvalidate then item.holder &&& ~~~responseMask else item.holder
          .ok ((filter.setItem lineAddr { requested, holder }).eraseIfNullEntry lineAddr)
        else do
          let holder := item.holder ||| responseMask
          assert (holder ||| requested ≠ 0) "(sf_item.holder | sf_item.requested).any()"
          .ok (filter.setItem lineAddr { requested, holder })

/-- A line of the memory, whose address leaves the last bit free. -/
structure Line where
  block : Addr
  isSecure : Bool
  even : block.getLsbD 0 = false
deriving DecidableEq

theorem Params.getBlockAddr_even (params : Params) (addr : Addr) : (params.getBlockAddr addr).getLsbD 0 = false := by
  have odd : (params.linesize - 1) % 2 = 1 := by
    have positive := params.positive
    have even := params.even
    omega
  have low : (BitVec.ofNat 64 (params.linesize - 1)).getLsbD 0 = true := by
    rw [BitVec.getLsbD_ofNat, Nat.testBit_zero, odd]
    rfl
  rw [getBlockAddr, BitVec.getLsbD_and, BitVec.getLsbD_not, low]
  simp

/-- The line of an address. -/
def Params.line (addr : Addr) (isSecure : Bool) : Line where
  block := params.getBlockAddr addr
  isSecure := isSecure
  even := params.getBlockAddr_even addr

/-- The address under which the filter keeps a line. -/
def Line.address (line : Line) : Addr := if line.isSecure then line.block ||| LineSecure else line.block

/-- This structure has the ports that may hold a copy of a line and the ports that wait for one. -/
structure Sharers where
  copies : ResponsePort → Bool
  fills : ResponsePort → Bool

namespace Sharers
variable (sharers : Sharers) (cpkt : CoherentPacket)

/-- A cache asks for a line unless a cache above responds, and it gives a line up with an eviction. -/
def request (port : ResponsePort) : Sharers where
  copies other := sharers.copies other &&
    !(other = port && !cpkt.req.isUncacheable && cpkt.cmd.isEviction && !cpkt.isBlockCached)
  fills other := sharers.fills other ||
    (other = port && allocates cpkt port && cpkt.cmd.needsResponse && !cpkt.cacheResponding)

/-- An invalidating snoop removes the copies of the ports that it reaches. -/
def snoop (ports : List ResponsePort) : Sharers :=
  { sharers with copies := fun other => sharers.copies other && !(cpkt.cmd.isInvalidate && ports.contains other) }

/-- A response that may be cached reaches a cache. -/
def reaches (port : ResponsePort) : Bool := !cpkt.req.isUncacheable && port.isSnooping

/-- A snoop response passes the line on, and all other copies are gone if it has no sharers. -/
def snoopResponse (reqPort : ResponsePort) : Sharers :=
  if reaches cpkt reqPort then
    { copies := fun other => other = reqPort || (sharers.copies other && cpkt.hasSharers)
      fills := fun other => sharers.fills other && other ≠ reqPort }
  else sharers

/-- All copies are gone if a forwarded snoop response has no sharers. -/
def snoopForward : Sharers := { sharers with copies := fun other => sharers.copies other && cpkt.hasSharers }

/-- A response to a cache that waits for the line fills it, and the response of an invalidating maintenance operation
removes the copy. -/
def response (port : ResponsePort) : Sharers :=
  if reaches cpkt port then
    { copies := fun other =>
        if cpkt.req.isCacheMaintenance then sharers.copies other && !(other = port && cpkt.cmd.isInvalidate)
        else sharers.copies other || (other = port && sharers.fills other)
      fills := fun other => sharers.fills other && other ≠ port }
  else sharers

end Sharers

/-- The calls of a crossbar to its filter. -/
inductive Op where
  | lookupRequest (cpkt : CoherentPacket) (port : ResponsePort)
  | finishRequest (willRetry : Bool) (addr : Addr) (isSecure : Bool)
  | lookupSnoop (cpkt : CoherentPacket)
  | updateSnoopResponse (cpkt : CoherentPacket) (rspPort reqPort : ResponsePort)
  | updateSnoopForward (cpkt : CoherentPacket)
  | updateResponse (cpkt : CoherentPacket) (port : ResponsePort)

/-- This structure runs a filter next to the sharers of each line, and it remembers the line of a request that is not
finished with its sharers before. -/
structure Trace where
  filter : SnoopFilter
  sharers : Line → Sharers
  pending : Option Line
  retry : Sharers

def initial : Trace where
  filter := filter
  sharers _ := { copies := fun _ => false, fills := fun _ => false }
  pending := none
  retry := { copies := fun _ => false, fills := fun _ => false }

/-- This function changes the sharers of a line next to the filter. -/
def Trace.change (trace : Trace) (filter : SnoopFilter) (line : Line) (change : Sharers → Sharers) : Trace :=
  { trace with filter, sharers := Function.update trace.sharers line (change (trace.sharers line)) }

/-- This function runs a call next to the sharers of its line. -/
def Trace.step (trace : Trace) : Op → Except Fault Trace
  | .lookupRequest cpkt port => do
    let (_, filter) ← trace.filter.lookupRequest params cpkt port
    let line := params.line cpkt.addr cpkt.isSecure
    .ok { trace.change filter line (·.request cpkt port) with pending := some line, retry := trace.sharers line }
  | .finishRequest willRetry addr isSecure => do
    let filter ← trace.filter.finishRequest params willRetry addr isSecure
    let change := fun sharers => if willRetry then trace.retry else sharers
    .ok { trace.change filter (params.line addr isSecure) change with pending := none }
  | .lookupSnoop cpkt => do
    let ((ports, _), filter) ← trace.filter.lookupSnoop params cpkt
    .ok (trace.change filter (params.line cpkt.addr cpkt.isSecure) (·.snoop cpkt ports))
  | .updateSnoopResponse cpkt rspPort reqPort => do
    let filter ← trace.filter.updateSnoopResponse params cpkt rspPort reqPort
    .ok (trace.change filter (params.line cpkt.addr cpkt.isSecure) (·.snoopResponse cpkt reqPort))
  | .updateSnoopForward cpkt => do
    let filter ← trace.filter.updateSnoopForward params cpkt
    .ok (trace.change filter (params.line cpkt.addr cpkt.isSecure) (·.snoopForward cpkt))
  | .updateResponse cpkt port => do
    let filter ← trace.filter.updateResponse params cpkt port
    .ok (trace.change filter (params.line cpkt.addr cpkt.isSecure) (·.response cpkt port))

/-- The port is one of the crossbar. -/
def Attached (port : ResponsePort) : Prop := port.isSnooping = true → port ∈ filter.cpuSidePorts

/-- A request is finished before another one is looked up and before other calls for its line. -/
def Trace.Allowed (trace : Trace) : Op → Prop
  | .lookupRequest _ port => trace.pending = none ∧ trace.filter.Attached port
  | .finishRequest _ addr isSecure => trace.pending = some (params.line addr isSecure)
  | .lookupSnoop cpkt | .updateSnoopForward cpkt => trace.pending ≠ some (params.line cpkt.addr cpkt.isSecure)
  | .updateSnoopResponse cpkt rspPort reqPort => trace.pending ≠ some (params.line cpkt.addr cpkt.isSecure) ∧
      trace.filter.Attached rspPort ∧ trace.filter.Attached reqPort
  | .updateResponse cpkt port =>
    trace.pending ≠ some (params.line cpkt.addr cpkt.isSecure) ∧ trace.filter.Attached port

def filters : ToMathlib.Machine Trace Op Fault where
  guard := Trace.Allowed params
  step := Trace.step params

/-- This function numbers the ports of a crossbar from zero. -/
def crossbarPorts (snooping : List Bool) : List ResponsePort :=
  snooping.zipIdx.map fun flag => { id := flag.2, isSnooping := flag.1 }

end SnoopFilter
end Gem5
