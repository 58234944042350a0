import Gem5.Construction.Base.Fault

namespace Gem5

/-- The commands of a packet. -/
inductive MemCmd where
  | invalidCmd | readReq | readResp | readRespWithInvalidate | writeReq | writeResp | writeCompleteResp
  | writebackDirty | writebackClean | writeClean | cleanEvict | softPFReq | softPFExReq | hardPFReq
  | softPFResp | hardPFResp | writeLineReq | upgradeReq | scUpgradeReq | upgradeResp | scUpgradeFailReq
  | upgradeFailResp | readExReq | readExResp | readCleanReq | readSharedReq | loadLockedReq | storeCondReq
  | storeCondFailReq | storeCondResp | lockedRMWReadReq | lockedRMWReadResp | lockedRMWWriteReq
  | lockedRMWWriteResp | swapReq | swapResp | memFenceReq | memSyncReq | memSyncResp | memFenceResp
  | cleanSharedReq | cleanSharedResp | cleanInvalidReq | cleanInvalidResp | invalidDestError | badAddressError
  | readError | writeError | functionalReadError | functionalWriteError | printReq | flushReq | invalidateReq
  | invalidateResp | htmReq | htmReqResp | htmAbort | tlbiExtSync
deriving DecidableEq, Repr

/-- The attributes of a command. -/
inductive MemCmd.Attribute where
  | isRead | isWrite | isUpgrade | isInvalidate | isClean | needsWritable | isRequest | isResponse
  | needsResponse | isEviction | isSWPrefetch | isHWPrefetch | isLlsc | isLockedRMW | hasData | isError
  | isPrint | isFlush | fromCache
deriving DecidableEq, Repr

namespace MemCmd
open Attribute

/-- This table has the attributes of each command. -/
def commandInfo : MemCmd → List Attribute
  | .invalidCmd => []
  | .readReq => [isRead, isRequest, needsResponse]
  | .readResp => [isRead, isResponse, hasData]
  | .readRespWithInvalidate => [isRead, isResponse, hasData, isInvalidate]
  | .writeReq => [isWrite, needsWritable, isRequest, needsResponse, hasData]
  | .writeResp => [isWrite, isResponse]
  | .writeCompleteResp => [isWrite, isResponse]
  | .writebackDirty => [isWrite, isRequest, isEviction, hasData, fromCache]
  | .writebackClean => [isWrite, isRequest, isEviction, hasData, fromCache]
  | .writeClean => [isWrite, isRequest, hasData, fromCache]
  | .cleanEvict => [isRequest, isEviction, fromCache]
  | .softPFReq => [isRead, isRequest, isSWPrefetch, needsResponse]
  | .softPFExReq => [isRead, needsWritable, isInvalidate, isRequest, isSWPrefetch, needsResponse]
  | .hardPFReq => [isRead, isRequest, isHWPrefetch, needsResponse, fromCache]
  | .softPFResp => [isRead, isResponse, isSWPrefetch, hasData]
  | .hardPFResp => [isRead, isResponse, isHWPrefetch, hasData]
  | .writeLineReq => [isWrite, needsWritable, isRequest, needsResponse, hasData]
  | .upgradeReq => [isInvalidate, needsWritable, isUpgrade, isRequest, needsResponse, fromCache]
  | .scUpgradeReq => [isInvalidate, needsWritable, isUpgrade, isLlsc, isRequest, needsResponse, fromCache]
  | .upgradeResp => [isUpgrade, isResponse]
  | .scUpgradeFailReq => [isRead, needsWritable, isInvalidate, isLlsc, isRequest, needsResponse, fromCache]
  | .upgradeFailResp => [isRead, isResponse, hasData]
  | .readExReq => [isRead, needsWritable, isInvalidate, isRequest, needsResponse, fromCache]
  | .readExResp => [isRead, isResponse, hasData]
  | .readCleanReq => [isRead, isRequest, needsResponse, fromCache]
  | .readSharedReq => [isRead, isRequest, needsResponse, fromCache]
  | .loadLockedReq => [isRead, isLlsc, isRequest, needsResponse]
  | .storeCondReq => [isWrite, needsWritable, isLlsc, isRequest, needsResponse, hasData]
  | .storeCondFailReq => [isWrite, needsWritable, isLlsc, isRequest, needsResponse, hasData]
  | .storeCondResp => [isWrite, isLlsc, isResponse]
  | .lockedRMWReadReq => [isRead, isLockedRMW, needsWritable, isRequest, needsResponse]
  | .lockedRMWReadResp => [isRead, isLockedRMW, needsWritable, isResponse, hasData]
  | .lockedRMWWriteReq => [isWrite, isLockedRMW, needsWritable, isRequest, needsResponse, hasData]
  | .lockedRMWWriteResp => [isWrite, isLockedRMW, needsWritable, isResponse]
  | .swapReq => [isRead, isWrite, needsWritable, isRequest, hasData, needsResponse]
  | .swapResp => [isRead, isWrite, isResponse, hasData]
  | .memFenceReq => [isRequest, needsResponse]
  | .memSyncReq => [isRequest, needsResponse]
  | .memSyncResp => [isResponse]
  | .memFenceResp => [isResponse]
  | .cleanSharedReq => [isRequest, isClean, needsResponse, fromCache]
  | .cleanSharedResp => [isResponse, isClean]
  | .cleanInvalidReq => [isRequest, isInvalidate, isClean, needsResponse, fromCache]
  | .cleanInvalidResp => [isResponse, isInvalidate, isClean]
  | .invalidDestError => [isResponse, isError]
  | .badAddressError => [isResponse, isError]
  | .readError => [isRead, isResponse, isError]
  | .writeError => [isWrite, isResponse, isError]
  | .functionalReadError => [isRead, isResponse, isError]
  | .functionalWriteError => [isWrite, isResponse, isError]
  | .printReq => [isRequest, isPrint]
  | .flushReq => [isRequest, isFlush, needsWritable]
  | .invalidateReq => [isInvalidate, isRequest, needsWritable, needsResponse, fromCache]
  | .invalidateResp => [isInvalidate, isResponse]
  | .htmReq => [isRead, isRequest, needsResponse]
  | .htmReqResp => [isRead, isResponse]
  | .htmAbort => [isRead, isRequest]
  | .tlbiExtSync => [isRequest]

variable (cmd : MemCmd)

def testCmdAttrib (attrib : Attribute) : Bool := cmd.commandInfo.contains attrib

def isWrite : Bool := cmd.testCmdAttrib .isWrite
def isUpgrade : Bool := cmd.testCmdAttrib .isUpgrade
def isRequest : Bool := cmd.testCmdAttrib .isRequest
def isResponse : Bool := cmd.testCmdAttrib .isResponse
def needsWritable : Bool := cmd.testCmdAttrib .needsWritable
def needsResponse : Bool := cmd.testCmdAttrib .needsResponse
def isInvalidate : Bool := cmd.testCmdAttrib .isInvalidate
def isEviction : Bool := cmd.testCmdAttrib .isEviction
def isClean : Bool := cmd.testCmdAttrib .isClean
def fromCache : Bool := cmd.testCmdAttrib .fromCache
def isWriteback : Bool := cmd.testCmdAttrib .isEviction && cmd.testCmdAttrib .hasData

/-- This function replaces an upgrade by the request for a line that has become invalid. -/
def replaceUpgrade : MemCmd :=
  if cmd = .upgradeReq then .readExReq
  else if cmd = .scUpgradeReq then .scUpgradeFailReq
  else if cmd = .storeCondReq then .storeCondFailReq
  else cmd

/-- The replacement keeps every attribute that the flags of a target list read, except the upgrade. -/
theorem replaceUpgrade_attributes :
    cmd.replaceUpgrade.isRequest = cmd.isRequest ∧ cmd.replaceUpgrade.needsWritable = cmd.needsWritable ∧
    cmd.replaceUpgrade.fromCache = cmd.fromCache ∧ cmd.replaceUpgrade.isWrite = cmd.isWrite ∧
    (cmd.replaceUpgrade = .writeReq ↔ cmd = .writeReq) := by
  cases cmd <;> decide

theorem replaceUpgrade_noUpgrade {cmd : MemCmd} (request : cmd.isRequest = true) :
    cmd.replaceUpgrade.isUpgrade = false ∧ cmd.replaceUpgrade ≠ .storeCondReq := by
  revert request
  cases cmd <;> decide

end MemCmd

/-- This structure has the flags of a request and whether some of its bytes are not enabled. -/
structure Request where
  flags : BitVec 64
  masked : Bool
deriving DecidableEq, Repr

namespace Request

def UNCACHEABLE : BitVec 64 := 0x00000400
def STRICT_ORDER : BitVec 64 := 0x00000800
def PRIVILEGED : BitVec 64 := 0x00008000
def LOCKED_RMW : BitVec 64 := 0x00100000
def LLSC : BitVec 64 := 0x00200000
def MEM_SWAP : BitVec 64 := 0x00400000
def MEM_SWAP_COND : BitVec 64 := 0x00800000
def SECURE : BitVec 64 := 0x10000000
def INVALIDATE : BitVec 64 := 0x0000000100000000
def CLEAN : BitVec 64 := 0x0000000200000000

/-- Some flag of a mask is set. -/
def isSet (req : Request) (mask : BitVec 64) : Bool := req.flags &&& mask ≠ 0

def isUncacheable (req : Request) : Bool := req.isSet UNCACHEABLE
def isCacheInvalidate (req : Request) : Bool := req.isSet INVALIDATE
def isCacheMaintenance (req : Request) : Bool := req.isSet (CLEAN ||| INVALIDATE)

/-- The flags of a write that is not merged with other writes. -/
def noMergeFlags : BitVec 64 :=
  UNCACHEABLE ||| STRICT_ORDER ||| PRIVILEGED ||| LLSC ||| MEM_SWAP ||| MEM_SWAP_COND ||| SECURE ||| LOCKED_RMW

end Request

/-- A request packet. Its `senderMSHR` holds when its sender states have the MSHR of a cache above. -/
structure Packet where
  id : Nat
  cmd : MemCmd
  request : cmd.isRequest = true
  req : Request
  addr : BitVec 64
  size : Nat
  isSecure : Bool
  expressSnoop : Bool
  cacheResponding : Bool
  responderHadWritable : Bool
  satisfied : Bool
  hasSharers : Bool
  senderMSHR : Bool
deriving DecidableEq, Repr

namespace Packet

/-- This packet is for the first bytes of the block at the address 0. -/
def atZero (id : Nat) (cmd : MemCmd) (request : cmd.isRequest = true) (size : Nat) (flags : BitVec 64) : Packet where
  id := id
  cmd := cmd
  request := request
  req := { flags, masked := false }
  addr := 0
  size := size
  isSecure := { flags, masked := false : Request }.isSet Request.SECURE
  expressSnoop := false
  cacheResponding := false
  responderHadWritable := false
  satisfied := false
  hasSharers := false
  senderMSHR := false

variable (pkt : Packet)

def isMaskedWrite : Bool := pkt.cmd = .writeReq && pkt.req.masked

def getOffset (blkSize : Nat) : Nat := (pkt.addr &&& (BitVec.ofNat 64 blkSize - 1)).toNat

def getBlockAddr (blkSize : Nat) : BitVec 64 := pkt.addr &&& ~~~(BitVec.ofNat 64 blkSize - 1)

def matchBlockAddr (pkt other : Packet) (blkSize : Nat) : Bool :=
  pkt.getBlockAddr blkSize = other.getBlockAddr blkSize && pkt.isSecure = other.isSecure

def replaceUpgrade : Packet :=
  { pkt with cmd := pkt.cmd.replaceUpgrade, request := pkt.cmd.replaceUpgrade_attributes.1.trans pkt.request }

/-- The copy of a packet without its response flags. -/
def copyCleared : Packet :=
  { pkt with
    expressSnoop := false, cacheResponding := false, responderHadWritable := false, satisfied := false,
    hasSharers := false }

/-- The packet for the whole block of a request. -/
def wholeBlock (blkSize : Nat) : Packet :=
  { pkt.copyCleared with
    addr := pkt.getBlockAddr blkSize, size := blkSize, isSecure := pkt.req.isSet Request.SECURE, senderMSHR := false }

def setCacheResponding : Except Fault Packet := do
  assert (pkt.cacheResponding = false) "!flags.isSet(CACHE_RESPONDING)"
  .ok { pkt with cacheResponding := true }

def setResponderHadWritable : Except Fault Packet := do
  assert (pkt.cacheResponding = true) "cacheResponding()"
  assert (pkt.responderHadWritable = false) "!responderHadWritable()"
  .ok { pkt with responderHadWritable := true }

def setSatisfied : Except Fault Packet := do
  assert (pkt.cmd.isClean = true) "cmd.isClean()"
  assert (pkt.satisfied = false) "!flags.isSet(SATISFIED)"
  .ok { pkt with satisfied := true }

end Packet

end Gem5
