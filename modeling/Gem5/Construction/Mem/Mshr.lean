import Gem5.Construction.Mem.Packet

namespace Gem5

/-- The source of a target. -/
inductive Target.Source where
  | fromCPU | fromSnoop | fromPrefetcher
deriving DecidableEq, Repr

/-- A pending request. -/
structure Target where
  pkt : Packet
  readyTime : Nat
  order : Nat
  source : Target.Source
  markedPending : Bool
  allocOnFill : Bool
deriving DecidableEq, Repr

/-- This structure has the summary flags of a target list. -/
structure TargetFlags where
  needsWritable : Bool
  hasUpgrade : Bool
  allocOnFill : Bool
  hasFromCache : Bool
  canMergeWrites : Bool
  writesBitmap : List Bool
deriving DecidableEq, Repr

namespace TargetFlags

def resetFlags (blkSize : Nat) : TargetFlags where
  needsWritable := false
  hasUpgrade := false
  allocOnFill := false
  hasFromCache := false
  canMergeWrites := true
  writesBitmap := List.replicate blkSize false

def isReset (flags : TargetFlags) : Bool :=
  !flags.needsWritable && !flags.hasUpgrade && !flags.allocOnFill && !flags.hasFromCache && flags.canMergeWrites

def isWholeLineWrite (flags : TargetFlags) : Bool := flags.writesBitmap.all id

/-- This function marks the bytes that a packet writes. -/
def fillBytes (bitmap : List Bool) (offset size : Nat) : List Bool :=
  bitmap.mapIdx fun i written => written || (offset ≤ i && i < offset + size)

/-- This function considers a packet for the write flags of a list. -/
def updateWriteFlags (flags : TargetFlags) (empty : Bool) (blkSize : Nat) (pkt : Packet) : TargetFlags :=
  if flags.isWholeLineWrite then flags
  else if flags.canMergeWrites then
    if pkt.cmd.isWrite then
      let compatWrite := !pkt.req.isSet Request.noMergeFlags
      { flags with
        writesBitmap :=
          if !pkt.isMaskedWrite && (empty || compatWrite) then
            fillBytes flags.writesBitmap (pkt.getOffset blkSize) pkt.size
          else flags.writesBitmap
        canMergeWrites := flags.canMergeWrites && compatWrite }
    else { flags with canMergeWrites := false }
  else flags

/-- This function considers a packet for the flags of a list. -/
def updateFlags (flags : TargetFlags) (empty : Bool) (blkSize : Nat) (pkt : Packet) (source : Target.Source)
    (allocOnFill : Bool) : TargetFlags :=
  if source = .fromSnoop then flags
  else
    let marked := { flags with
      needsWritable := flags.needsWritable || pkt.cmd.needsWritable
      hasUpgrade := flags.hasUpgrade || pkt.cmd.isUpgrade || pkt.cmd = .storeCondReq
      allocOnFill := flags.allocOnFill || allocOnFill }
    if source = .fromPrefetcher then marked
    else { marked with hasFromCache := marked.hasFromCache || pkt.cmd.fromCache }.updateWriteFlags empty blkSize pkt

end TargetFlags

/-- A list of targets with its flags. -/
structure TargetList extends TargetFlags where
  targets : List Target
  blkAddr : BitVec 64
  blkSize : Nat
deriving DecidableEq, Repr

namespace TargetList
variable (list : TargetList)

def init (blkAddr : BitVec 64) (blkSize : Nat) : TargetList :=
  { list with toTargetFlags := .resetFlags blkSize, blkAddr, blkSize }

def resetFlags : TargetList := { list with toTargetFlags := .resetFlags list.writesBitmap.length }

def updateFlags (pkt : Packet) (source : Target.Source) (allocOnFill : Bool) : TargetList :=
  { list with
    toTargetFlags := list.toTargetFlags.updateFlags list.targets.isEmpty list.blkSize pkt source allocOnFill }

/-- This function computes the flags from the targets of the list. -/
def populateFlags : TargetList :=
  list.targets.foldl (fun list t => list.updateFlags t.pkt t.source t.allocOnFill) list.resetFlags

def add (pkt : Packet) (readyTime order : Nat) (source : Target.Source) (markPending allocOnFill : Bool) : TargetList :=
  let updated := list.updateFlags pkt source allocOnFill
  { updated with
    targets := updated.targets ++
      [{ pkt, readyTime, order, source, markedPending := markPending && pkt.senderMSHR, allocOnFill }] }

def replaceUpgrades : TargetList :=
  if list.hasUpgrade then
    { list with targets := list.targets.map fun t => { t with pkt := t.pkt.replaceUpgrade }, hasUpgrade := false }
  else list

/-- This function clears the pending marks of targets. -/
def clearPending (targets : List Target) : List Target := targets.map fun t => { t with markedPending := false }

def clearDownstreamPending : TargetList := { list with targets := clearPending list.targets }

/-- This function reads the first target of a list that has one. -/
def front : Except Fault Target :=
  match list.targets with
  | t :: _ => .ok t
  | [] => .error .outOfBounds

end TargetList

/-- A miss status and handling register. -/
structure MSHR where
  downstreamPending : Bool
  pendingModified : Bool
  postInvalidate : Bool
  postDowngrade : Bool
  wasWholeLineWrite : Bool
  isForward : Bool
  inService : Bool
  readyTime : Nat
  order : Nat
  blkAddr : BitVec 64
  blkSize : Nat
  isSecure : Bool
  isUncacheable : Bool
  targets : TargetList
  deferredTargets : TargetList
deriving DecidableEq, Repr

namespace MSHR

/-- This list has no targets, and its block is not set yet. -/
def emptyList : TargetList := { TargetFlags.resetFlags 0 with targets := [], blkAddr := 0, blkSize := 0 }

def init : MSHR where
  downstreamPending := false
  pendingModified := false
  postInvalidate := false
  postDowngrade := false
  wasWholeLineWrite := false
  isForward := false
  inService := false
  readyTime := 0
  order := 0
  blkAddr := 0
  blkSize := 0
  isSecure := false
  isUncacheable := false
  targets := emptyList
  deferredTargets := emptyList

variable (mshr : MSHR)

def getNumTargets : Nat := mshr.targets.targets.length + mshr.deferredTargets.targets.length

/-- This function is `allocate` with the check of the queue that the register is free. -/
def allocate (blkAddr : BitVec 64) (blkSize : Nat) (target : Packet) (whenReady order : Nat)
    (allocOnFill : Bool) : Except Fault MSHR := do
  assert (mshr.getNumTargets = 0) "mshr->getNumTargets() == 0"
  let source := if target.cmd = .hardPFReq then .fromPrefetcher else .fromCPU
  let targets := (mshr.targets.init blkAddr blkSize).add target whenReady order source true allocOnFill
  let front ← targets.front
  assert (target.matchBlockAddr front.pkt blkSize = true) "target->matchBlockAddr(targets.front().pkt, blkSize)"
  .ok { mshr with
    blkAddr, blkSize, order, targets
    isSecure := target.isSecure
    readyTime := whenReady
    isForward := false
    wasWholeLineWrite := false
    isUncacheable := target.req.isUncacheable
    inService := false
    downstreamPending := false
    deferredTargets := mshr.deferredTargets.init blkAddr blkSize }

/-- This function is called by the cache below when the request has been issued. -/
def clearDownstreamPending : Except Fault MSHR := do
  assert (mshr.downstreamPending = true) "downstreamPending"
  .ok { mshr with downstreamPending := false, targets := mshr.targets.clearDownstreamPending }

def markInService (pendingModifiedResp : Bool) : Except Fault MSHR := do
  assert (mshr.inService = false) "!inService"
  .ok { mshr with
    inService := true
    pendingModified := mshr.targets.needsWritable || pendingModifiedResp
    postInvalidate := false
    postDowngrade := false
    targets := if mshr.downstreamPending then mshr.targets else mshr.targets.clearDownstreamPending
    wasWholeLineWrite := mshr.targets.isWholeLineWrite }

/-- This function is `markPending` of the queue. -/
def markPending : Except Fault MSHR := do
  assert (mshr.inService = true) "mshr->inService"
  .ok { mshr with inService := false }

def deallocate : Except Fault MSHR := do
  assert (mshr.targets.targets = []) "targets.empty()"
  assert (mshr.deferredTargets.isReset = true) "deferredTargets.isReset()"
  .ok { mshr with targets := mshr.targets.resetFlags, inService := false }

/-- A new target has to wait for the response to the requests before it. -/
def defers (front pkt : Packet) : Bool :=
  pkt.req.isCacheMaintenance || front.req.isCacheMaintenance || !mshr.deferredTargets.targets.isEmpty ||
    (mshr.inService && (mshr.postInvalidate ||
      (pkt.cmd.needsWritable && (!mshr.pendingModified || mshr.postDowngrade || mshr.isForward))))

def allocateTarget (pkt : Packet) (whenReady order : Nat) (allocOnFill : Bool) : Except Fault MSHR := do
  assert (pkt.cmd ≠ .hardPFReq) "pkt->cmd != MemCmd::HardPFReq"
  let front ← mshr.targets.front
  if mshr.defers front.pkt pkt then
    let pkt := if mshr.inService && mshr.postInvalidate then pkt.replaceUpgrade else pkt
    .ok { mshr with deferredTargets := mshr.deferredTargets.add pkt whenReady order .fromCPU true allocOnFill }
  else .ok { mshr with targets := mshr.targets.add pkt whenReady order .fromCPU (!mshr.inService) allocOnFill }

/-- This function tells the snooped packet about the block that the register waits for. -/
def answerSnoop (pkt : Packet) (willRespond : Bool) : Except Fault Packet :=
  if willRespond then do (← pkt.setCacheResponding).setResponderHadWritable
  else if mshr.pendingModified && pkt.cmd.isClean then pkt.setSatisfied
  else .ok pkt

/-- This function saves a copy of the snooped packet behind the targets. -/
def saveSnoop (pkt : Packet) (order curTick : Nat) (willRespond : Bool) : MSHR :=
  let copy := if willRespond then pkt.copyCleared else pkt.wholeBlock mshr.blkSize
  { mshr with
    targets := mshr.targets.add copy curTick order .fromSnoop (mshr.downstreamPending && mshr.targets.needsWritable)
      false
    postInvalidate := mshr.postInvalidate || pkt.cmd.needsWritable || pkt.cmd.isInvalidate }

/-- This function marks that the snooped packet gets a shared copy. -/
def downgrade (pkt : Packet) : Packet × MSHR :=
  if !pkt.cmd.needsWritable && !pkt.req.isUncacheable then
    ({ pkt with hasSharers := true }, { mshr with postDowngrade := true })
  else (pkt, mshr)

/-- This function handles a snoop that precedes the request of the register. -/
def snoopBefore (pkt : Packet) : MSHR :=
  if pkt.cmd.needsWritable || pkt.req.isCacheInvalidate then
    { mshr with targets := mshr.targets.replaceUpgrades, deferredTargets := mshr.deferredTargets.replaceUpgrades }
  else mshr

/-- This function handles the deferred targets for a snoop that the request of the register precedes. -/
def snoopDeferred (pkt : Packet) : MSHR :=
  if pkt.cmd.needsWritable || pkt.req.isCacheInvalidate then
    { mshr with deferredTargets := mshr.deferredTargets.replaceUpgrades }
  else mshr

/-- This function handles a snoop that the request of the register precedes. -/
def snoopAfter (pkt : Packet) (order curTick : Nat) : Except Fault (Bool × Packet × MSHR) := do
  let front ← mshr.targets.front
  if mshr.postInvalidate || front.pkt.req.isCacheInvalidate then .ok (true, pkt, mshr)
  else
    let willRespond := mshr.pendingModified && pkt.cmd.needsResponse && !pkt.cmd.isClean
    if mshr.pendingModified || pkt.cmd.isInvalidate then do
      let answered ← mshr.answerSnoop pkt willRespond
      .ok (willRespond, (mshr.saveSnoop pkt order curTick willRespond).downgrade answered)
    else .ok (willRespond, mshr.downgrade pkt)

def handleSnoop (pkt : Packet) (order curTick : Nat) : Except Fault (Bool × Packet × MSHR) :=
  if pkt.cmd.needsWritable ≠ pkt.cmd.isInvalidate ∧ pkt.req.isCacheMaintenance = false then
    .error (.panic "%s got snoop %s where needsWritable, does not match isInvalidate")
  else if !mshr.inService || (pkt.expressSnoop && mshr.downstreamPending) then .ok (false, pkt, mshr.snoopBefore pkt)
  else (mshr.snoopDeferred pkt).snoopAfter pkt order curTick

/-- This loop services the snoops behind the first target. -/
def serviceSnoops : List Target → Except Fault (List Target × List Target)
  | [] => .ok ([], [])
  | t :: rest =>
    if t.source = .fromCPU then do
      let (ready, kept) ← serviceSnoops rest
      .ok (ready, t :: kept)
    else do
      assert (t.source = .fromSnoop) "it->source == Target::FromSnoop"
      let (ready, kept) ← serviceSnoops rest
      .ok (t :: ready, kept)

/-- This function services the first target and the snoops, but leaves a locked read. -/
def serviceFirst : List Target → Except Fault (List Target × List Target)
  | [] => .error .outOfBounds
  | t :: rest => do
    assert (t.source = .fromCPU ∨ t.source = .fromPrefetcher)
      "(it->source == Target::FromCPU) || (it->source == Target::FromPrefetcher)"
    if t.pkt.cmd = .lockedRMWReadReq then .ok ([t], t :: rest)
    else do
      let (ready, kept) ← serviceSnoops rest
      .ok (t :: ready, kept)

/-- This loop services the targets up to a locked read, which it leaves. -/
def serviceAll : List Target → List Target × List Target
  | [] => ([], [])
  | t :: rest =>
    if t.pkt.cmd = .lockedRMWReadReq then ([t], t :: rest)
    else
      let (ready, kept) := serviceAll rest
      (t :: ready, kept)

/-- This function returns the targets that a response services and those that stay. -/
def service (response : MemCmd) (targets : List Target) : Except Fault (List Target × List Target) :=
  if response = .readRespWithInvalidate then serviceFirst targets else .ok (serviceAll targets)

def extractServiceableTargets (response : MemCmd) : Except Fault (TargetList × MSHR) := do
  let (ready, kept) ← service response mshr.targets.targets
  let readyTargets : TargetList := { emptyList.init mshr.blkAddr mshr.blkSize with targets := ready }
  .ok (readyTargets.populateFlags, { mshr with targets := { mshr.targets with targets := kept }.populateFlags })

/-- This function splits the deferred targets into those that are promoted and the others. -/
def promotable (noTargets : Bool) (deferred : List Target) : List Target × List Target :=
  let first := deferred.takeWhile fun t => !t.pkt.req.isCacheMaintenance
  let rest := deferred.dropWhile fun t => !t.pkt.req.isCacheMaintenance
  if first = [] then if noTargets then (rest.take 1, rest.drop 1) else ([], rest)
  else (first, rest)

def promoteDeferredTargets (curTick : Nat) : Except Fault (Bool × MSHR) :=
  if mshr.targets.targets = [] ∧ mshr.deferredTargets.targets = [] then .ok (false, mshr)
  else do
    let (promoted, rest) := promotable mshr.targets.targets.isEmpty mshr.deferredTargets.targets
    let targets := { mshr.targets with targets := mshr.targets.targets ++ promoted }.populateFlags
    let front ← targets.front
    .ok (true, { mshr with
      targets
      deferredTargets := { mshr.deferredTargets with targets := rest }.populateFlags
      order := front.order
      readyTime := max curTick front.readyTime })

/-- This loop splits a list at the first target that does not satisfy a condition. -/
def splitWhile (pred : Target → Except Fault Bool) : List Target → Except Fault (List Target × List Target)
  | [] => .ok ([], [])
  | t :: rest => do
    let holds ← pred t
    if holds then do
      let (first, last) ← splitWhile pred rest
      .ok (t :: first, last)
    else .ok ([], t :: rest)

def promoteIf (pred : Target → Except Fault Bool) : Except Fault MSHR := do
  assert (mshr.downstreamPending = false) "!downstreamPending"
  let (promoted, rest) ← splitWhile pred mshr.deferredTargets.targets
  .ok { mshr with
    targets := { mshr.targets with targets := mshr.targets.targets ++ TargetList.clearPending promoted }
    deferredTargets := { mshr.deferredTargets with targets := rest }.populateFlags }

/-- A deferred target can use a block that is not writable. -/
def readable (t : Target) : Except Fault Bool := do
  assert (t.source = .fromCPU) "t.source == Target::FromCPU"
  .ok (!t.pkt.req.isCacheInvalidate && !t.pkt.cmd.needsWritable)

def promoteReadable : Except Fault MSHR :=
  if mshr.deferredTargets.targets = [] then .ok mshr
  else do
    assert (mshr.inService = true) "inService"
    if mshr.postInvalidate then .ok mshr else mshr.promoteIf readable

/-- A deferred target can use a writable block. -/
def writable (t : Target) : Except Fault Bool := do
  assert (t.source = .fromCPU) "t.source == Target::FromCPU"
  .ok (!t.pkt.req.isCacheInvalidate)

/-- The deferred targets wait for a writable block only. -/
def awaitsWritable (front : Target) : Except Fault Bool :=
  if mshr.deferredTargets.needsWritable then do
    assert (mshr.inService = true) "inService"
    .ok (!(mshr.postInvalidate || mshr.postDowngrade) && !front.pkt.req.isCacheInvalidate)
  else .ok false

def promoteWritable : Except Fault MSHR :=
  match mshr.deferredTargets.targets with
  | [] => .ok mshr
  | front :: _ => do
    let awaits ← mshr.awaitsWritable front
    if awaits then do
      assert (mshr.targets.needsWritable = false) "!targets.needsWritable"
      { mshr with targets := { mshr.targets with needsWritable := true } }.promoteIf writable
    else .ok mshr

/-- The operations on a register, with the changes that the cache and the caches below make to it. -/
inductive Op where
  | allocate (blkAddr : BitVec 64) (blkSize : Nat) (target : Packet) (whenReady order : Nat) (allocOnFill : Bool)
  | markInService (pendingModifiedResp : Bool)
  | markPending
  | deallocate
  | allocateTarget (pkt : Packet) (whenReady order : Nat) (allocOnFill : Bool)
  | handleSnoop (pkt : Packet) (order curTick : Nat)
  | extractServiceableTargets (response : MemCmd)
  | promoteReadable
  | promoteWritable
  | promoteDeferredTargets (curTick : Nat)
  | setDownstreamPending
  | clearDownstreamPending
  | setForward (isForward : Bool)
deriving DecidableEq, Repr

/-- This function performs an operation and returns the targets that it hands out. -/
def step : Op → Except Fault (List Target × MSHR)
  | .allocate blkAddr blkSize target whenReady order allocOnFill => do
    .ok ([], ← mshr.allocate blkAddr blkSize target whenReady order allocOnFill)
  | .markInService pendingModifiedResp => do .ok ([], ← mshr.markInService pendingModifiedResp)
  | .markPending => do .ok ([], ← mshr.markPending)
  | .deallocate => do .ok ([], ← mshr.deallocate)
  | .allocateTarget pkt whenReady order allocOnFill => do
    .ok ([], ← mshr.allocateTarget pkt whenReady order allocOnFill)
  | .handleSnoop pkt order curTick => do .ok ([], (← mshr.handleSnoop pkt order curTick).2.2)
  | .extractServiceableTargets response => do
    let (ready, next) ← mshr.extractServiceableTargets response
    .ok (ready.targets, next)
  | .promoteReadable => do .ok ([], ← mshr.promoteReadable)
  | .promoteWritable => do .ok ([], ← mshr.promoteWritable)
  | .promoteDeferredTargets curTick => do .ok ([], (← mshr.promoteDeferredTargets curTick).2)
  | .setDownstreamPending => .ok ([], { mshr with downstreamPending := true })
  | .clearDownstreamPending => do .ok ([], ← mshr.clearDownstreamPending)
  | .setForward isForward => .ok ([], { mshr with isForward })

end MSHR

end Gem5
