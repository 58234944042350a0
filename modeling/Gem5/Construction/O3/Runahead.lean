import Gem5.Construction.O3.LoopBoundPredictor

namespace Gem5.O3

inductive StrideState where
  | init
  | steady
  | trans
  | noPred
deriving DecidableEq, Repr

structure RPTEntry where
  seen : Bool
  state : StrideState
  canPrf : Bool
  tag : BitVec 64
  prevAddr : BitVec 64
  stride : BitVec 64
deriving DecidableEq, Repr

namespace RPTEntry

def new (tag : BitVec 64) : RPTEntry := ⟨false, .init, false, tag, 0, 0⟩

def stateTrans (entry : RPTEntry) (corr : Bool) : RPTEntry :=
  match entry.state, corr with
  | .init, true => { entry with canPrf := true, state := .steady }
  | .init, false => { entry with canPrf := false, state := .trans }
  | .steady, true => { entry with canPrf := true, state := .steady }
  | .steady, false => { entry with canPrf := true, state := .init }
  | .trans, true => { entry with canPrf := true, state := .steady }
  | .trans, false => { entry with canPrf := false, state := .noPred }
  | .noPred, true => { entry with canPrf := false, state := .trans }
  | .noPred, false => { entry with canPrf := false, state := .noPred }

def updateStride (entry : RPTEntry) (corr : Bool) (newStride : BitVec 64) : RPTEntry :=
  if entry.state = .init ∧ corr = false then { entry with stride := newStride }
  else if entry.state = .trans ∧ corr = false then { entry with stride := newStride }
  else if entry.state = .noPred ∧ corr = false then { entry with stride := newStride }
  else entry

end RPTEntry

/-- The member `stride` of the table has 16 bits and no initial value. -/
structure RptFiles where
  nSets : BitVec 64
  hasSets : nSets ≠ 0
  rpt : BitVec 64 → Option RPTEntry
  strideLoadPC : BitVec 64
  prefAddr : BitVec 64
  prevAddr : BitVec 64
  stride : BitVec 16

namespace RptFiles

def initial (nSets : BitVec 64) (hasSets : nSets ≠ 0) (stride : BitVec 16) : RptFiles :=
  ⟨nSets, hasSets, fun _ => none, 0, 0, 0, stride⟩

variable (files : RptFiles) (pc : BitVec 64)

def idx : BitVec 64 := pc % files.nSets

def tag : BitVec 64 := pc / files.nSets

/-- The entry at the index of a program counter hits if it has the same tag. -/
def hit : Option RPTEntry := (files.rpt (files.idx pc)).filter fun entry => entry.tag = files.tag pc

def store (entry : RPTEntry) : RptFiles := { files with rpt := Function.update files.rpt (files.idx pc) (some entry) }

def createNewEntry : RptFiles :=
  match files.hit pc with
  | some _ => files
  | none => files.store pc (.new (files.tag pc))

def getRptStats : Bool :=
  match files.hit pc with
  | some entry => entry.canPrf
  | none => false

def clearAllSeen : RptFiles :=
  { files with rpt := fun idx => (files.rpt idx).map fun entry => { entry with seen := false } }

/-- This function is `rptFiles::UpdateEntrySeen`, which returns `towait` before `clear_vtt`. -/
def updateEntrySeen : (Bool × Bool) × RptFiles :=
  match files.hit pc with
  | none => ((false, false), files)
  | some entry =>
    let entry := { entry with seen := true }
    if entry.canPrf = true ∧ entry.seen = true ∧ files.strideLoadPC ≠ pc then
      ((false, true), ({ files.clearAllSeen with strideLoadPC := pc }).store pc entry)
    else if entry.canPrf = true ∧ entry.seen = true ∧ files.strideLoadPC = pc then
      ((true, true), files.clearAllSeen.store pc entry)
    else ((false, false), files.store pc entry)

def updateEntry (pc address : BitVec 64) : Except Fault RptFiles :=
  match files.hit pc with
  | none => .error (.assertion "hit")
  | some entry =>
    let newStride := address - entry.prevAddr
    let strideCorr : Bool := newStride = entry.stride && newStride ≠ 0
    let entry := (entry.stateTrans strideCorr).updateStride strideCorr newStride
    .ok (files.store pc { entry with prevAddr := address })

/-- This function is `rptFiles::UpdatePrefAddr`, which multiplies in 32 bits. -/
def updatePrefAddr (loopNumber : BitVec 16) : RptFiles :=
  { files with
    prefAddr := files.prevAddr + (loopNumber.setWidth 32 * files.stride.signExtend 32).signExtend 64 }

end RptFiles

/-- The runahead unit reads the indices of the renamed registers. -/
structure DispatchInst where
  pc : BitVec 64
  isAtomic : Bool
  isLoad : Bool
  srcs : List Nat
  dests : List Nat
deriving DecidableEq, Repr

structure TaintTracker where
  regTable : List Bool
  finalLoadPC : BitVec 64
deriving DecidableEq, Repr

namespace TaintTracker

def initial (numPhysIntRegs : Nat) : TaintTracker := ⟨List.replicate numPhysIntRegs false, 0⟩

/-- The table is a vector without a check of its indices. -/
def setReg (tainted : Bool) (tracker : TaintTracker) (reg : Nat) : Except Fault TaintTracker :=
  if reg < tracker.regTable.length then .ok { tracker with regTable := tracker.regTable.set reg tainted }
  else .error .outOfBounds

variable (tracker : TaintTracker) (inst : DispatchInst)

def isRegTainted (reg : Nat) : Except Fault Bool :=
  match tracker.regTable[reg]? with
  | some tainted => .ok tainted
  | none => .error .outOfBounds

def taintReg : Except Fault TaintTracker := inst.dests.foldlM (setReg true) tracker

def unTaintReg : Except Fault TaintTracker := inst.dests.foldlM (setReg false) tracker

def process : Except Fault TaintTracker := do
  let isTainted ← inst.srcs.mapM tracker.isRegTainted
  if isTainted.any id then do
    let tracker ← tracker.taintReg inst
    .ok (if inst.isLoad then { tracker with finalLoadPC := inst.pc } else tracker)
  else tracker.unTaintReg inst

def clearFinalLoadPC : TaintTracker := { tracker with finalLoadPC := 0 }

def clearVTTIfSeen : TaintTracker := { tracker with regTable := tracker.regTable.map fun _ => false }

end TaintTracker

inductive RunaheadMode where
  | init
  | discover
  | wait
  | vector
deriving DecidableEq, Repr

/-- The stage has its own copies of the table, the mode and the buffer. -/
structure Runahead where
  rpts : RptFiles
  mode : RunaheadMode
  tk : TaintTracker
  lbp : LoopBoundaryPredictor
  dvrBuffer : List DispatchInst

/-- The flags of one turn of the dispatch loop. -/
structure DispatchFlags where
  clearVtt : Bool
  towait : Bool
  ifPrf : Bool
deriving DecidableEq, Repr

namespace Runahead

def initial (rpts : RptFiles) (numPhysIntRegs : Nat) (lbp : LoopBoundaryPredictor) : Runahead :=
  ⟨rpts, .init, .initial numPhysIntRegs, lbp, []⟩

variable (dvr : Runahead) (inst : DispatchInst)

/-- A dispatched load updates the table. The call assigns the first result to `clear_vtt`. -/
def seeLoad : DispatchFlags × Runahead :=
  if inst.isAtomic = false ∧ inst.isLoad = true then
    let ((clearVtt, towait), rpts) := dvr.rpts.updateEntrySeen inst.pc
    (⟨clearVtt, towait, rpts.getRptStats inst.pc⟩, { dvr with rpts })
  else (⟨false, false, false⟩, dvr)

/-- The case `Mode::INIT` of the switch. -/
def leaveInit (flags : DispatchFlags) : Except Fault Runahead :=
  if flags.ifPrf then do
    let tk ← dvr.tk.taintReg inst
    .ok { dvr with tk, rpts := { dvr.rpts with strideLoadPC := inst.pc }, mode := .discover }
  else .ok dvr

/-- The case `Mode::DISCOVER` of the switch also returns the number of loops. -/
def leaveDiscover (flags : DispatchFlags) (timeOut : BitVec 64)
    (loopNumber : BitVec 16) : Except Fault (Runahead × BitVec 16) :=
  if flags.towait then
    let cleared := dvr.tk.clearFinalLoadPC.clearVTTIfSeen
    if dvr.tk.finalLoadPC ≠ dvr.rpts.strideLoadPC then
      .ok ({ dvr with mode := .vector, tk := cleared }, dvr.lbp.getLoopNumber dvr.rpts.strideLoadPC loopNumber)
    else .ok ({ dvr with mode := .init, tk := cleared }, loopNumber)
  else if 256 ≤ timeOut then
    .ok ({ dvr with mode := .init, tk := dvr.tk.clearVTTIfSeen.clearFinalLoadPC, dvrBuffer := [] }, loopNumber)
  else if inst.isLoad = true ∧ flags.ifPrf = true then do
    let tk := if flags.clearVtt then dvr.tk.clearVTTIfSeen.clearFinalLoadPC else dvr.tk
    let tk ← tk.taintReg inst
    .ok ({ dvr with tk }, loopNumber)
  else do
    let tk ← dvr.tk.process inst
    .ok ({ dvr with tk }, loopNumber)

/-- The case `Mode::VECTOR` of the switch. -/
def leaveVector (flags : DispatchFlags) (timeOut : BitVec 64) (loopNumber : BitVec 16) : Except Fault Runahead :=
  let timeOut := timeOut + 1
  if flags.clearVtt = true ∧ flags.towait = true then
    .ok { dvr with
      mode := .wait
      tk := dvr.tk.clearFinalLoadPC.clearVTTIfSeen
      rpts := dvr.rpts.updatePrefAddr loopNumber }
  else if flags.clearVtt then do
    let tk ← dvr.tk.clearFinalLoadPC.clearVTTIfSeen.taintReg inst
    .ok { dvr with
      mode := .discover, tk, rpts := { dvr.rpts with strideLoadPC := inst.pc }, dvrBuffer := [] }
  else if 256 ≤ timeOut then
    .ok { dvr with mode := .init, tk := dvr.tk.clearVTTIfSeen.clearFinalLoadPC, dvrBuffer := [] }
  else .ok dvr

/-- The case `Mode::WAIT` of the switch. -/
def leaveWait (flags : DispatchFlags) : Except Fault Runahead :=
  if flags.clearVtt = true ∧ flags.towait = false then do
    let tk ← dvr.tk.clearVTTIfSeen.clearFinalLoadPC.taintReg inst
    .ok { dvr with mode := .discover, tk, rpts := { dvr.rpts with strideLoadPC := inst.pc } }
  else .ok dvr

/-- One turn of the loop of `IEW::dispatchInsts` for an instruction that is dispatched. The variables `time_out` and
`loop_number` are new in every turn, and the last number of loops is returned. -/
def dispatch : Except Fault (Runahead × BitVec 16) :=
  let loopNumber : BitVec 16 := 0
  let timeOut : BitVec 64 := 0
  let (flags, dvr) := dvr.seeLoad inst
  match dvr.mode with
  | .init => (dvr.leaveInit inst flags).map (·, loopNumber)
  | .discover => dvr.leaveDiscover inst flags timeOut loopNumber
  | .vector => (dvr.leaveVector inst flags timeOut loopNumber).map (·, loopNumber)
  | .wait => (dvr.leaveWait inst flags).map (·, loopNumber)

/-- A load with a valid address is executed. -/
def executeLoad (pc effAddr : BitVec 64) : Except Fault Runahead := do
  let rpts ← (dvr.rpts.createNewEntry pc).updateEntry pc effAddr
  .ok { dvr with rpts := if pc = rpts.strideLoadPC then { rpts with prevAddr := effAddr } else rpts }

/-- A conditional branch with a target and a first operand is executed. -/
def executeBranch (pc npc operand : BitVec 64) : Except Fault Runahead := do
  let lbp ← dvr.lbp.updateLoopBoundaryDetector dvr.rpts.strideLoadPC pc npc operand
  .ok { dvr with lbp }

end Runahead

/-- Instructions are dispatched and executed in any order. -/
inductive RunaheadOp where
  | dispatch (inst : DispatchInst)
  | executeLoad (pc effAddr : BitVec 64)
  | executeBranch (pc npc operand : BitVec 64)
deriving DecidableEq, Repr

def Runahead.step (dvr : Runahead) : RunaheadOp → Except Fault Runahead
  | .dispatch inst => (dvr.dispatch inst).map Prod.fst
  | .executeLoad pc effAddr => dvr.executeLoad pc effAddr
  | .executeBranch pc npc operand => dvr.executeBranch pc npc operand

end Gem5.O3
