import Gem5.Construction.Pred.BPredUnit
import Gem5.Construction.Pred.Tage

namespace Gem5.BPred
open ToMathlib

/-- The low part of a mask in the unsigned type. -/
def maskBits (nbits : Nat) : BitVec 32 := (Bitfield.mask nbits).setWidth 32

/-- This function increments a saturating counter of `nbits` bits. -/
def increment (nbits : Nat) (counters : Nat → Nat) (index : Nat) : Nat → Nat :=
  Function.update counters index (if counters index < 2 ^ nbits - 1 then counters index + 1 else counters index)

/-- This function decrements a saturating counter. -/
def decrement (counters : Nat → Nat) (index : Nat) : Nat → Nat := Function.update counters index (counters index - 1)

/-- The value above which a counter predicts taken. -/
def threshold (nbits : Nat) : Nat := 2 ^ (nbits - 1) - 1

/-- The sizes of the tables are powers of two that fit the unsigned type. -/
structure TournamentParams where
  localHistoryBits : Nat
  localHistoryTableBits : Nat
  globalPredictorBits : Nat
  choicePredictorBits : Nat
  localCtrBits : Nat
  globalCtrBits : Nat
  choiceCtrBits : Nat
  instShiftAmt : Nat
  localHistoryBits_lt : localHistoryBits < 32
  localHistoryTableBits_lt : localHistoryTableBits < 32
  globalPredictorBits_lt : globalPredictorBits < 32
  choicePredictorBits_lt : choicePredictorBits < 32

namespace TournamentBP
variable (params : TournamentParams)

structure State where
  localCtrs : Nat → Nat
  localHistoryTable : Nat → BitVec 32
  globalCtrs : Nat → Nat
  globalHistory : ThreadID → BitVec 32
  choiceCtrs : Nat → Nat

structure BPHistory where
  globalHistory : BitVec 32
  localHistoryIdx : BitVec 32
  localHistory : BitVec 32
  localPredTaken : Bool
  globalPredTaken : Bool
  globalUsed : Bool
deriving DecidableEq, Repr

def invalidPredictorIndex : BitVec 32 := -1

def initial : State where
  localCtrs := fun _ => 0
  localHistoryTable := fun _ => 0
  globalCtrs := fun _ => 0
  globalHistory := fun _ => 0
  choiceCtrs := fun _ => 0

def localPredictorMask : BitVec 32 := maskBits params.localHistoryBits

def globalHistoryMask : BitVec 32 := maskBits params.globalPredictorBits

def choiceHistoryMask : BitVec 32 := maskBits params.choicePredictorBits

def historyRegisterMask : BitVec 32 := maskBits (max params.globalPredictorBits params.choicePredictorBits)

def calcLocHistIdx (branchAddr : Addr) : BitVec 32 :=
  ((branchAddr >>> params.instShiftAmt) &&& Bitfield.mask params.localHistoryTableBits).setWidth 32

/-- This function shifts an outcome into a history. -/
def shiftIn (history : BitVec 32) (taken : Bool) : BitVec 32 := (history <<< 1) ||| (BitVec.ofBool taken).setWidth 32

variable (state : State) (tid : ThreadID)

def updateGlobalHist (taken : Bool) : State :=
  { state with
    globalHistory := Function.update state.globalHistory tid
      (shiftIn (state.globalHistory tid) taken &&& historyRegisterMask params) }

def updateLocalHist (localHistoryIdx : BitVec 32) (taken : Bool) : State :=
  { state with
    localHistoryTable := Function.update state.localHistoryTable localHistoryIdx.toNat
      (shiftIn (state.localHistoryTable localHistoryIdx.toNat) taken) }

def lookup (pc : Addr) : Except Fault (Bool × BPHistory) := do
  let localHistoryIdx := calcLocHistIdx params pc
  let localPredictorIdx := state.localHistoryTable localHistoryIdx.toNat &&& localPredictorMask params
  let localPrediction := decide (threshold params.localCtrBits < state.localCtrs localPredictorIdx.toNat)
  let globalPrediction := decide (threshold params.globalCtrBits <
    state.globalCtrs (state.globalHistory tid &&& globalHistoryMask params).toNat)
  let choicePrediction := decide (threshold params.choiceCtrBits <
    state.choiceCtrs (state.globalHistory tid &&& choiceHistoryMask params).toNat)
  assert (localHistoryIdx.toNat < 2 ^ params.localHistoryTableBits) "local_history_idx < localHistoryTableSize"
  return (if choicePrediction then globalPrediction else localPrediction,
    ⟨state.globalHistory tid, localHistoryIdx, localPredictorIdx, localPrediction, globalPrediction, choicePrediction⟩)

/-- The history of an unconditional branch. -/
def uncondHistory : BPHistory :=
  ⟨state.globalHistory tid, invalidPredictorIndex, invalidPredictorIndex, true, true, true⟩

def updateHistories (_pc : Addr) (uncond taken : Bool) (bpHistory : Option BPHistory) :
    Except Fault (State × BPHistory) :=
  match uncond, bpHistory with
  | true, _ => .ok (updateGlobalHist params state tid taken, uncondHistory state tid)
  | false, none => .error (.assertion "uncond || bp_history")
  | false, some history =>
    .ok (updateLocalHist (updateGlobalHist params state tid taken) history.localHistoryIdx taken, history)

/-- A misprediction restores the histories and shifts the right outcome in. -/
def restoreAndUpdate (pc : Addr) (taken : Bool) (history : BPHistory) : State :=
  { state with
    globalHistory := Function.update state.globalHistory tid
      (shiftIn history.globalHistory taken &&& historyRegisterMask params)
    localHistoryTable :=
      if history.localHistory ≠ invalidPredictorIndex then
        Function.update state.localHistoryTable (calcLocHistIdx params pc).toNat (shiftIn history.localHistory taken)
      else state.localHistoryTable }

/-- The choice counter moves to the predictor that was right when the two disagree. -/
def updateChoice (taken : Bool) (history : BPHistory) : Nat → Nat :=
  let choicePredictorIdx := (history.globalHistory &&& choiceHistoryMask params).toNat
  if history.localPredTaken ≠ history.globalPredTaken ∧ history.localHistory ≠ invalidPredictorIndex then
    if history.localPredTaken = taken then decrement state.choiceCtrs choicePredictorIdx
    else if history.globalPredTaken = taken then increment params.choiceCtrBits state.choiceCtrs choicePredictorIdx
    else state.choiceCtrs
  else state.choiceCtrs

/-- The counters of the branch move towards its outcome. -/
def updateCounters (taken : Bool) (history : BPHistory) : State :=
  let globalPredictorIdx := (history.globalHistory &&& globalHistoryMask params).toNat
  let oldLocalPredIndex := (history.localHistory &&& localPredictorMask params).toNat
  { state with
    choiceCtrs := updateChoice params state taken history
    globalCtrs :=
      if taken then increment params.globalCtrBits state.globalCtrs globalPredictorIdx
      else decrement state.globalCtrs globalPredictorIdx
    localCtrs :=
      if history.localHistory = invalidPredictorIndex then state.localCtrs
      else if taken then increment params.localCtrBits state.localCtrs oldLocalPredIndex
      else decrement state.localCtrs oldLocalPredIndex }

def update (pc : Addr) (taken : Bool) (bpHistory : Option BPHistory) (squashed : Bool) :
    Except Fault (State × Option BPHistory) :=
  match bpHistory with
  | none => .error (.assertion "bp_history")
  | some history => do
    assert ((calcLocHistIdx params pc).toNat < 2 ^ params.localHistoryTableBits)
      "local_history_idx < localHistoryTableSize"
    if squashed then return (restoreAndUpdate params state tid pc taken history, some history)
    else
      assert ((history.localHistory &&& localPredictorMask params).toNat < 2 ^ params.localHistoryBits)
        "old_local_pred_index < localPredictorSize"
      return (updateCounters params state taken history, none)

def squash : Option BPHistory → Except Fault State
  | none => .error .nullDereference
  | some history =>
    .ok { state with
      globalHistory := Function.update state.globalHistory tid history.globalHistory
      localHistoryTable :=
        if history.localHistoryIdx ≠ invalidPredictorIndex then
          Function.update state.localHistoryTable history.localHistoryIdx.toNat history.localHistory
        else state.localHistoryTable }

end TournamentBP

def tournamentBP (params : TournamentParams) : DirectionPredictor where
  State := TournamentBP.State
  History := TournamentBP.BPHistory
  lookup := TournamentBP.lookup params
  updateHistories := TournamentBP.updateHistories params
  update := TournamentBP.update params
  squash := TournamentBP.squash

structure BiModeParams where
  choicePredictorBits : Nat
  globalPredictorBits : Nat
  choiceCtrBits : Nat
  globalCtrBits : Nat
  instShiftAmt : Nat
  choicePredictorBits_lt : choicePredictorBits < 32
  globalPredictorBits_lt : globalPredictorBits < 32

namespace BiModeBP
variable (params : BiModeParams)

structure State where
  globalHistoryReg : ThreadID → BitVec 32
  choiceCounters : Nat → Nat
  takenCounters : Nat → Nat
  notTakenCounters : Nat → Nat

structure BPHistory where
  globalHistoryReg : BitVec 32
  takenUsed : Bool
  takenPred : Bool
  notTakenPred : Bool
  finalPred : Bool
deriving DecidableEq, Repr

def initial : State where
  globalHistoryReg := fun _ => 0
  choiceCounters := fun _ => 0
  takenCounters := fun _ => 0
  notTakenCounters := fun _ => 0

def choiceHistoryIdx (branchAddr : Addr) : BitVec 32 :=
  ((branchAddr >>> params.instShiftAmt) &&& (maskBits params.choicePredictorBits).setWidth 64).setWidth 32

def globalHistoryIdx (branchAddr : Addr) (globalHistoryReg : BitVec 32) : BitVec 32 :=
  (((branchAddr >>> params.instShiftAmt) ^^^ globalHistoryReg.setWidth 64) &&&
    (maskBits params.globalPredictorBits).setWidth 64).setWidth 32

variable (state : State) (tid : ThreadID)

def uncondBranch : BPHistory := ⟨state.globalHistoryReg tid, true, true, true, true⟩

def updateGlobalHistReg (taken : Bool) : State :=
  { state with
    globalHistoryReg := Function.update state.globalHistoryReg tid
      (TournamentBP.shiftIn (state.globalHistoryReg tid) taken &&& maskBits params.globalPredictorBits) }

def lookup (branchAddr : Addr) : Except Fault (Bool × BPHistory) := do
  let choiceIdx := (choiceHistoryIdx params branchAddr).toNat
  let globalIdx := (globalHistoryIdx params branchAddr (state.globalHistoryReg tid)).toNat
  assert (choiceIdx < 2 ^ params.choicePredictorBits) "choiceHistoryIdx < choicePredictorSize"
  assert (globalIdx < 2 ^ params.globalPredictorBits) "globalHistoryIdx < globalPredictorSize"
  let choicePrediction := decide (threshold params.choiceCtrBits < state.choiceCounters choiceIdx)
  let takenGHBPrediction := decide (threshold params.globalCtrBits < state.takenCounters globalIdx)
  let notTakenGHBPrediction := decide (threshold params.globalCtrBits < state.notTakenCounters globalIdx)
  let finalPrediction := if choicePrediction then takenGHBPrediction else notTakenGHBPrediction
  return (finalPrediction,
    ⟨state.globalHistoryReg tid, choicePrediction, takenGHBPrediction, notTakenGHBPrediction, finalPrediction⟩)

def updateHistories (_pc : Addr) (uncond taken : Bool) (bpHistory : Option BPHistory) :
    Except Fault (State × BPHistory) :=
  match uncond, bpHistory with
  | true, _ => .ok (updateGlobalHistReg params state tid taken, uncondBranch state tid)
  | false, none => .error (.assertion "uncond || bp_history")
  | false, some history => .ok (updateGlobalHistReg params state tid taken, history)

/-- The counter moves up for a taken branch and down for another one. -/
def train (nbits : Nat) (counters : Nat → Nat) (index : Nat) (taken : Bool) : Nat → Nat :=
  if taken then increment nbits counters index else decrement counters index

/-- The array that was used learns the outcome, and the choice learns it unless it opposed a right prediction. -/
def updateCounters (taken : Bool) (history : BPHistory) (choiceIdx globalIdx : Nat) : State :=
  { state with
    takenCounters :=
      if history.takenUsed then train params.globalCtrBits state.takenCounters globalIdx taken else state.takenCounters
    notTakenCounters :=
      if history.takenUsed then state.notTakenCounters
      else train params.globalCtrBits state.notTakenCounters globalIdx taken
    choiceCounters :=
      if history.finalPred = taken ∧ history.finalPred ≠ history.takenUsed then state.choiceCounters
      else train params.choiceCtrBits state.choiceCounters choiceIdx taken }

def update (branchAddr : Addr) (taken : Bool) (bpHistory : Option BPHistory)
    (squashed : Bool) : Except Fault (State × Option BPHistory) :=
  match bpHistory with
  | none => .error (.assertion "bp_history")
  | some history =>
    if squashed then
      .ok ({ state with
        globalHistoryReg := Function.update state.globalHistoryReg tid
          (TournamentBP.shiftIn history.globalHistoryReg taken) }, some history)
    else do
      let choiceIdx := (choiceHistoryIdx params branchAddr).toNat
      let globalIdx := (globalHistoryIdx params branchAddr history.globalHistoryReg).toNat
      assert (choiceIdx < 2 ^ params.choicePredictorBits) "choiceHistoryIdx < choicePredictorSize"
      assert (globalIdx < 2 ^ params.globalPredictorBits) "globalHistoryIdx < globalPredictorSize"
      return (updateCounters params state taken history choiceIdx globalIdx, none)

def squash : Option BPHistory → Except Fault State
  | none => .error .nullDereference
  | some history =>
    .ok { state with globalHistoryReg := Function.update state.globalHistoryReg tid history.globalHistoryReg }

end BiModeBP

def biModeBP (params : BiModeParams) : DirectionPredictor where
  State := BiModeBP.State
  History := BiModeBP.BPHistory
  lookup := BiModeBP.lookup params
  updateHistories := BiModeBP.updateHistories params
  update := BiModeBP.update params
  squash := BiModeBP.squash

namespace TAGE

/-- The tagged tables only choose a direction, so an arbitrary function of the histories stands for them. -/
abbrev Tables := (ThreadID → Tage.ThreadHistory) → ThreadID → Addr → Bool

variable (params : Tage.Params) (tables : Tables) (state : ThreadID → Tage.ThreadHistory) (tid : ThreadID)

def lookup (pc : Addr) : Except Fault (Bool × Tage.BranchInfo) := .ok (tables state tid pc, .fresh)

def updateHistories (pc : Addr) (uncond taken : Bool)
    (bpHistory : Option Tage.BranchInfo) : Except Fault ((ThreadID → Tage.ThreadHistory) × Tage.BranchInfo) := do
  assert (uncond = true ∨ bpHistory.isSome) "uncond || bp_history"
  let bi := if uncond then .fresh else bpHistory.getD .fresh
  let (tHist, bi) ← Tage.updateHistories params (state tid) pc taken bi true
  return (Function.update state tid tHist, bi)

def update (pc : Addr) (taken : Bool) (bpHistory : Option Tage.BranchInfo) (squashed : Bool) :
    Except Fault ((ThreadID → Tage.ThreadHistory) × Option Tage.BranchInfo) :=
  match bpHistory with
  | none => .error (.assertion "bp_history")
  | some bi =>
    if squashed then .ok (Function.update state tid (Tage.squash params (state tid) taken bi), some bi)
    else do
      let (tHist, _) ← Tage.updateHistories params (state tid) pc taken bi false
      return (Function.update state tid tHist, none)

/-- This function only deletes the branch info. -/
def squash (_tid : ThreadID) (_bpHistory : Option Tage.BranchInfo) :
    Except Fault (ThreadID → Tage.ThreadHistory) := .ok state

end TAGE

def tage (params : Tage.Params) (tables : TAGE.Tables) : DirectionPredictor where
  State := ThreadID → Tage.ThreadHistory
  History := Tage.BranchInfo
  lookup := TAGE.lookup tables
  updateHistories := TAGE.updateHistories params
  update := TAGE.update params
  squash := TAGE.squash

/-- The unit uses one of the three predictors. -/
inductive Predictor where
  | tournament (params : TournamentParams)
  | biMode (params : BiModeParams)
  | tage (params : Tage.Params) (tables : TAGE.Tables)

def Predictor.direction : Predictor → DirectionPredictor
  | .tournament params => tournamentBP params
  | .biMode params => biModeBP params
  | .tage params tables => BPred.tage params tables

/-- The predictor after its constructor, with any bytes around the histories of TAGE. -/
def Predictor.initial (memory : Nat → BitVec 8) : (predictor : Predictor) → predictor.direction.State
  | .tournament _ => TournamentBP.initial
  | .biMode _ => BiModeBP.initial
  | .tage params _ => fun _ => Tage.init params memory

/-- Two states give the same histories to the lookups of a thread. -/
def Predictor.SameHistories (tid : ThreadID) :
    (predictor : Predictor) → (first second : predictor.direction.State) → Prop
  | .tournament params, first, second =>
    TournamentBP.State.globalHistory first tid = TournamentBP.State.globalHistory second tid ∧
      ∀ index, TournamentBP.State.localHistoryTable first index &&& TournamentBP.localPredictorMask params =
        TournamentBP.State.localHistoryTable second index &&& TournamentBP.localPredictorMask params
  | .biMode _, first, second => BiModeBP.State.globalHistoryReg first tid = BiModeBP.State.globalHistoryReg second tid
  | .tage params _, first, second =>
    Tage.ThreadHistory.pathHist (first tid) = Tage.ThreadHistory.pathHist (second tid) ∧
      Tage.ThreadHistory.tables (first tid) = Tage.ThreadHistory.tables (second tid) ∧
      ∀ index < params.maxHist,
        Tage.ThreadHistory.window (first tid) index = Tage.ThreadHistory.window (second tid) index

/-- The state before the oldest branch after `squashedSn` was predicted, or the present state. -/
def BPredUnit.beforeSquashed {direction : DirectionPredictor} (unit : BPredUnit direction) (squashedSn : Nat)
    (tid : ThreadID) : direction.State :=
  (((unit.predHist tid).takeWhile fun hist => decide (squashedSn < hist.seqNum)).getLast?.map (·.before)).getD unit.predictor

end Gem5.BPred
