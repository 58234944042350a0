import Gem5.Construction.Base.Bitfield

namespace Gem5.BPred

/-- This type keeps the address of an instruction and of the next one. -/
structure PCState where
  pc : Addr
  npc : Addr
deriving DecidableEq, Repr

/-- This function steps over one instruction of four bytes. -/
def PCState.advance (state : PCState) : PCState := ⟨state.npc, state.npc + 4⟩

/-- The return address of a call on RISC-V. -/
def buildRetPC (_curPC callPC : PCState) : PCState := callPC.advance

/-- These flags of an instruction decide how it is predicted. -/
structure StaticInst where
  isCall : Bool
  isReturn : Bool
  isUncondCtrl : Bool
  isCondCtrl : Bool
  isDirectCtrl : Bool
  isIndirectCtrl : Bool
deriving DecidableEq, Repr

inductive BranchType where
  | noBranch
  | ret
  | callDirect
  | callIndirect
  | directCond
  | directUncond
  | indirectCond
  | indirectUncond
deriving DecidableEq, Repr

def getBranchType (inst : StaticInst) : BranchType :=
  if inst.isReturn then .ret
  else if inst.isCall then if inst.isDirectCtrl then .callDirect else .callIndirect
  else if inst.isDirectCtrl then if inst.isCondCtrl then .directCond else .directUncond
  else if inst.isIndirectCtrl then if inst.isCondCtrl then .indirectCond else .indirectUncond
  else .noBranch

/-- The stack is a ring of entries, and entry `tos` is its top. -/
structure AddrStack where
  addrStack : Nat → Option PCState
  numEntries : Nat
  usedEntries : Nat
  tos : Nat

namespace AddrStack

def init (numEntries : Nat) : AddrStack where
  addrStack := fun _ => none
  numEntries
  usedEntries := 0
  tos := 0

variable (stack : AddrStack)

def incrTos : AddrStack := { stack with tos := if stack.tos + 1 = stack.numEntries then 0 else stack.tos + 1 }

def decrTos : AddrStack := { stack with tos := if stack.tos = 0 then stack.numEntries - 1 else stack.tos - 1 }

def top : Option PCState := stack.addrStack stack.tos

def use : AddrStack :=
  { stack with usedEntries := if stack.usedEntries = stack.numEntries then stack.usedEntries else stack.usedEntries + 1 }

def push (returnAddr : PCState) : AddrStack :=
  let moved := stack.incrTos
  { moved with addrStack := Function.update moved.addrStack moved.tos (some returnAddr) }.use

def pop : AddrStack := { stack with usedEntries := stack.usedEntries - 1 }.decrTos

def restore (tos : Nat) (restored : Option PCState) : AddrStack :=
  { stack with tos, addrStack := Function.update stack.addrStack tos restored }.use

end AddrStack

/-- This record tells what a branch did to the stack. -/
structure RASHistory where
  pushed : Bool
  poped : Bool
  rasEntry : Option PCState
  tos : Nat
deriving DecidableEq, Repr

namespace ReturnAddrStack

def makeRASHistory : RASHistory := ⟨false, false, none, 0⟩

def push (stack : AddrStack) (pc : PCState) (rasHistory : Option RASHistory) : AddrStack × RASHistory :=
  (stack.push pc, { rasHistory.getD makeRASHistory with pushed := true })

def pop (stack : AddrStack) (rasHistory : Option RASHistory) : AddrStack × RASHistory :=
  (stack.pop, { rasHistory.getD makeRASHistory with poped := true, tos := stack.tos, rasEntry := stack.top })

/-- This function takes back what one branch did to the stack. -/
def squash (stack : AddrStack) (history : RASHistory) : AddrStack :=
  let stack := if history.pushed then stack.pop else stack
  if history.poped then stack.restore history.tos history.rasEntry else stack

/-- A speculative operation pushes an address or, when there is none, pops the top. -/
def speculate (stack : AddrStack) : Option PCState → AddrStack × RASHistory
  | some address => push stack address none
  | none => pop stack none

/-- This function performs operations one after the other and returns their records, the youngest first. -/
def speculateAll (stack : AddrStack) : List (Option PCState) → AddrStack × List RASHistory
  | [] => (stack, [])
  | op :: ops =>
    let (next, history) := speculate stack op
    let (final, histories) := speculateAll next ops
    (final, histories ++ [history])

/-- Only calls and returns may keep a record until they commit. -/
def commit (brType : BranchType) (rasHistory : Option RASHistory) : Except Fault Unit :=
  if brType = .ret ∨ brType = .callDirect ∨ brType = .callIndirect then .ok ()
  else assert (rasHistory = none) "ras_history == nullptr"

end ReturnAddrStack

open ToMathlib Function

abbrev ThreadID := Nat

/-- These functions are the virtual methods of a direction predictor. -/
structure DirectionPredictor where
  State : Type
  History : Type
  lookup : State → ThreadID → Addr → Except Fault (Bool × History)
  updateHistories : State → ThreadID → Addr → (uncond taken : Bool) → Option History → Except Fault (State × History)
  update : State → ThreadID → Addr → (taken : Bool) → Option History → (squashed : Bool) →
    Except Fault (State × Option History)
  squash : State → ThreadID → Option History → Except Fault State

inductive TargetProvider where
  | noTarget
  | btb
  | ras
  | indirect
deriving DecidableEq, Repr

/-- The field `before` is a history variable: it holds the direction predictor before the prediction. -/
structure PredictorHistory (direction : DirectionPredictor) where
  seqNum : Nat
  pc : PCState
  inst : StaticInst
  predTaken : Bool
  actuallyTaken : Bool
  btbHit : Bool
  targetProvider : TargetProvider
  target : PCState
  mispredict : Bool
  bpHistory : Option direction.History
  rasHistory : Option RASHistory
  before : direction.State

/-- The flag `ras` tells whether the unit has a return address stack. -/
structure UnitParams where
  requiresBTBHit : Bool
  ras : Bool
  iPred : Bool
  numEntries : Nat
deriving DecidableEq, Repr

/-- The list `committed` is a history variable that keeps the committed branches of a thread. -/
structure BPredUnit (direction : DirectionPredictor) where
  predictor : direction.State
  predHist : ThreadID → List (PredictorHistory direction)
  addrStacks : ThreadID → AddrStack
  committed : ThreadID → List (PredictorHistory direction)

namespace BPredUnit
variable {direction : DirectionPredictor} (params : UnitParams)

def initial (start : direction.State) : BPredUnit direction where
  predictor := start
  predHist := fun _ => []
  addrStacks := fun _ => .init params.numEntries
  committed := fun _ => []

variable (unit : BPredUnit direction)

/-- This function looks the direction of a conditional branch up. -/
def predictDirection (inst : StaticInst) (pc : PCState) (tid : ThreadID) :
    Except Fault (Bool × Option direction.History) :=
  if inst.isUncondCtrl then .ok (true, none)
  else do
    let (condPred, history) ← direction.lookup unit.predictor tid pc.pc
    return (condPred, some history)

/-- This function performs the stack operation of a detected branch and returns the address that it popped. -/
def predictRAS (stack : AddrStack) (inst : StaticInst) (pc : PCState) (branchDetected : Bool) :
    AddrStack × Option RASHistory × Option PCState :=
  if params.ras && branchDetected then
    if inst.isCall then
      let (stack, history) := ReturnAddrStack.push stack (buildRetPC pc pc) none
      (stack, some history, none)
    else if inst.isReturn then
      let (stack, history) := ReturnAddrStack.pop stack none
      (stack, some history, history.rasEntry)
    else (stack, none, none)
  else (stack, none, none)

/-- The target comes from the indirect predictor, else from the stack, else from the buffer of targets. -/
def predictTarget (inst : StaticInst) (condPred branchDetected : Bool) (btbTarget returnAddr itarget : Option PCState) :
    Option (TargetProvider × PCState) :=
  let fromBTB := if condPred then btbTarget.map (TargetProvider.btb, ·) else none
  let fromRAS := (returnAddr.map (TargetProvider.ras, ·)).or fromBTB
  if params.iPred && condPred && branchDetected && inst.isIndirectCtrl && !inst.isReturn then
    (itarget.map (TargetProvider.indirect, ·)).or fromRAS
  else fromRAS

/-- The arguments `btbTarget` and `itarget` are what the other target predictors return. -/
def predict (inst : StaticInst) (seqNum : Nat) (pc : PCState) (tid : ThreadID)
    (btbTarget itarget : Option PCState) : Except Fault (BPredUnit direction) := do
  let (condPred, bpHistory) ← unit.predictDirection inst pc tid
  let btbHit := btbTarget.isSome
  let branchDetected := btbHit || !params.requiresBTBHit
  let (stack, rasHistory, returnAddr) := predictRAS params (unit.addrStacks tid) inst pc branchDetected
  let found := predictTarget params inst condPred branchDetected btbTarget returnAddr itarget
  let predTaken := condPred && found.isSome
  let (predictor, bpHistory) ←
    direction.updateHistories unit.predictor tid pc.pc inst.isUncondCtrl predTaken bpHistory
  let (targetProvider, target) := found.getD (.noTarget, pc.advance)
  let hist : PredictorHistory direction :=
    ⟨seqNum, pc, inst, predTaken, predTaken, btbHit, targetProvider, target, false, some bpHistory, rasHistory,
      unit.predictor⟩
  return { unit with
    predictor
    predHist := update unit.predHist tid (hist :: unit.predHist tid)
    addrStacks := update unit.addrStacks tid stack }

/-- This function takes back the stack operation of a branch if it has one. -/
def squashRAS (stack : AddrStack) : Option RASHistory → Except Fault AddrStack
  | none => .ok stack
  | some rasHistory => do
    assert (params.ras = true) "ras"
    return ReturnAddrStack.squash stack rasHistory

/-- This function takes back the stack operation and the history update of one branch. -/
def squashHistory (tid : ThreadID) (history : PredictorHistory direction) : Except Fault (BPredUnit direction) := do
  let stack ← squashRAS params (unit.addrStacks tid) history.rasHistory
  let predictor ← direction.squash unit.predictor tid history.bpHistory
  return { unit with predictor, addrStacks := update unit.addrStacks tid stack }

/-- This loop removes the branches after `squashedSn` with the youngest one first. -/
def squashLoop (squashedSn : Nat) (tid : ThreadID) :
    List (PredictorHistory direction) → BPredUnit direction → Except Fault (BPredUnit direction)
  | [], unit => .ok { unit with predHist := update unit.predHist tid [] }
  | hist :: rest, unit =>
    if squashedSn < hist.seqNum then do
      let unit ← unit.squashHistory params tid hist
      squashLoop squashedSn tid rest unit
    else .ok { unit with predHist := update unit.predHist tid (hist :: rest) }

/-- The squash that no mispredicted branch caused. -/
def squash (squashedSn : Nat) (tid : ThreadID) : Except Fault (BPredUnit direction) :=
  squashLoop params squashedSn tid (unit.predHist tid) unit

/-- A mispredicted return pops the stack if its prediction did not. -/
def correctReturn (stack : AddrStack) (inst : StaticInst) : AddrStack × Option RASHistory :=
  if getBranchType inst = .ret then
    let (stack, history) := ReturnAddrStack.pop stack none
    (stack, some history)
  else (stack, none)

/-- A mispredicted call pushes the return address of the corrected target if its prediction did not push. -/
def correctCall (stack : AddrStack) (rasHistory : Option RASHistory) (inst : StaticInst) (corrTarget : PCState) :
    AddrStack × Option RASHistory :=
  if inst.isCall then
    let (stack, history) := ReturnAddrStack.push stack (buildRetPC corrTarget corrTarget) rasHistory
    (stack, some history)
  else (stack, rasHistory)

/-- This function repairs the stack for a mispredicted branch. -/
def correctRAS (stack : AddrStack) (hist : PredictorHistory direction) (corrTarget : PCState) (actuallyTaken : Bool) :
    AddrStack × Option RASHistory :=
  if params.ras then
    match hist.rasHistory with
    | none =>
      if actuallyTaken then
        let (stack, rasHistory) := correctReturn stack hist.inst
        correctCall stack rasHistory hist.inst corrTarget
      else (stack, none)
    | some rasHistory =>
      if actuallyTaken then (stack, some rasHistory) else (ReturnAddrStack.squash stack rasHistory, none)
  else (stack, hist.rasHistory)

/-- The squash after a mispredicted branch, which corrects the youngest branch that is left. -/
def squashMispredict (squashedSn : Nat) (corrTarget : PCState) (actuallyTaken : Bool)
    (tid : ThreadID) : Except Fault (BPredUnit direction) := do
  let unit ← unit.squash params squashedSn tid
  match unit.predHist tid with
  | [] => return unit
  | hist :: rest =>
    let (predictor, bpHistory) ←
      direction.update unit.predictor tid hist.pc.pc actuallyTaken hist.bpHistory true
    let (stack, rasHistory) := correctRAS params (unit.addrStacks tid) hist corrTarget actuallyTaken
    let corrected :=
      { hist with
        mispredict := true, actuallyTaken, target := corrTarget, bpHistory
        rasHistory }
    return { unit with
      predictor
      predHist := update unit.predHist tid (corrected :: rest)
      addrStacks := update unit.addrStacks tid stack }

def commitRAS (hist : PredictorHistory direction) : Except Fault Unit :=
  if params.ras then ReturnAddrStack.commit (getBranchType hist.inst) hist.rasHistory else .ok ()

/-- This function updates the predictors with the outcome of the oldest branch. -/
def commitBranch (tid : ThreadID) (hist : PredictorHistory direction) : Except Fault (BPredUnit direction) := do
  let (predictor, _) ← direction.update unit.predictor tid hist.pc.pc hist.actuallyTaken hist.bpHistory false
  commitRAS params hist
  return { unit with predictor }

/-- This loop commits the branches up to `doneSn` with the oldest one first. -/
def updateLoop (doneSn : Nat) (tid : ThreadID) :
    List (PredictorHistory direction) → BPredUnit direction → Except Fault (BPredUnit direction)
  | [], unit => .ok { unit with predHist := update unit.predHist tid [] }
  | hist :: younger, unit =>
    if hist.seqNum ≤ doneSn then do
      let unit ← unit.commitBranch params tid hist
      updateLoop doneSn tid younger { unit with committed := update unit.committed tid (hist :: unit.committed tid) }
    else .ok { unit with predHist := update unit.predHist tid (hist :: younger).reverse }

def update (doneSn : Nat) (tid : ThreadID) : Except Fault (BPredUnit direction) :=
  updateLoop params doneSn tid (unit.predHist tid).reverse unit

end BPredUnit

inductive PredictOp where
  | predict (inst : StaticInst) (seqNum : Nat) (pc : PCState) (tid : ThreadID) (btbTarget itarget : Option PCState)
  | squash (squashedSn : Nat) (tid : ThreadID)
  | squashMispredict (squashedSn : Nat) (corrTarget : PCState) (actuallyTaken : Bool) (tid : ThreadID)
  | update (doneSn : Nat) (tid : ThreadID)
deriving DecidableEq, Repr

def PredictOp.tid : PredictOp → ThreadID
  | .predict _ _ _ tid _ _ => tid
  | .squash _ tid => tid
  | .squashMispredict _ _ _ tid => tid
  | .update _ tid => tid

def BPredUnit.step {direction : DirectionPredictor} (params : UnitParams) (unit : BPredUnit direction) :
    PredictOp → Except Fault (BPredUnit direction)
  | .predict inst seqNum pc tid btbTarget itarget => unit.predict params inst seqNum pc tid btbTarget itarget
  | .squash squashedSn tid => unit.squash params squashedSn tid
  | .squashMispredict squashedSn corrTarget actuallyTaken tid =>
    unit.squashMispredict params squashedSn corrTarget actuallyTaken tid
  | .update doneSn tid => unit.update params doneSn tid

/-- A branch that the front end saw and that cannot fall through is taken; another one is as predicted or corrected. -/
def PredictorHistory.taken {direction : DirectionPredictor} (params : UnitParams) (hist : PredictorHistory direction) :
    Bool :=
  hist.actuallyTaken || (hist.inst.isUncondCtrl && (hist.btbHit || !params.requiresBTBHit))

/-- The return address that the prediction of a call pushes. -/
def PredictorHistory.returnAddr {direction : DirectionPredictor} (hist : PredictorHistory direction) : PCState :=
  buildRetPC hist.pc hist.pc

/-- This function lists the return addresses of the taken calls that no taken return matches, the newest one first. -/
def returnAddresses {direction : DirectionPredictor} (params : UnitParams) :
    List (PredictorHistory direction) → List PCState
  | [] => []
  | hist :: older =>
    let addresses := returnAddresses params older
    if hist.taken params then
      let left := if hist.inst.isReturn then addresses.tail else addresses
      if hist.inst.isCall then hist.returnAddr :: left else left
    else addresses

/-- The surviving branches of a thread are those in flight and those committed. -/
def BPredUnit.survivors {direction : DirectionPredictor} (unit : BPredUnit direction) (tid : ThreadID) :
    List (PredictorHistory direction) := unit.predHist tid ++ unit.committed tid

/-- This function reads the entry that lies `index` places below the top. -/
def AddrStack.below (stack : AddrStack) (index : Nat) : Option PCState :=
  stack.addrStack (if index ≤ stack.tos then stack.tos - index else stack.tos + stack.numEntries - index)

/-- A call is seen when it is predicted and has room, and calls and returns are unconditional and not both. -/
structure Foreseen {direction : DirectionPredictor} (params : UnitParams) (unit : BPredUnit direction) (inst : StaticInst)
    (tid : ThreadID) (btbTarget : Option PCState) : Prop where
  uncond : inst.isCall = true ∨ inst.isReturn = true → inst.isUncondCtrl = true
  single : ¬(inst.isCall = true ∧ inst.isReturn = true)
  detected : inst.isCall = true → btbTarget.isSome = true ∨ params.requiresBTBHit = false
  depth : inst.isCall = true → (returnAddresses params (unit.survivors tid)).length < params.numEntries

/-- A resolution names the branch that it corrects, and an unconditional branch is resolved as taken. -/
def Resolves {direction : DirectionPredictor} (unit : BPredUnit direction) (squashedSn : Nat) (actuallyTaken : Bool)
    (tid : ThreadID) : Prop :=
  ∀ hist rest, ((unit.predHist tid).dropWhile fun hist => decide (squashedSn < hist.seqNum)) = hist :: rest →
    hist.seqNum = squashedSn ∧ (hist.inst.isUncondCtrl = true → actuallyTaken = true)

/-- These runs see every call when it is predicted. -/
def foreseenUnits (direction : DirectionPredictor) (params : UnitParams) :
    Machine (BPredUnit direction) PredictOp Fault where
  guard := fun unit op => match op with
    | .predict inst _ _ tid btbTarget _ => Foreseen params unit inst tid btbTarget
    | .squashMispredict squashedSn _ actuallyTaken tid => Resolves unit squashedSn actuallyTaken tid
    | _ => True
  step := BPredUnit.step params

end Gem5.BPred
