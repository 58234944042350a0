import Mathlib

namespace Gem5.LoopPredictor
open Function

/-- The parameters satisfy the assertions of `init`. -/
structure Params where
  logSizeLoopPred : Nat
  loopTableConfidenceBits : Nat
  loopTableTagBits : Nat
  loopTableIterBits : Nat
  logLoopTableAssoc : Nat
  useDirectionBit : Bool
  useSpeculation : Bool
  useHashing : Bool
  tagBits_le : loopTableTagBits ≤ 16
  iterBits_le : loopTableIterBits ≤ 16
  assoc_le : logLoopTableAssoc ≤ logSizeLoopPred

structure LoopEntry where
  numIter : Nat := 0
  currentIter : Nat := 0
  currentIterSpec : Nat := 0
  confidence : Nat := 0
  tag : Nat := 0
  dir : Bool := false
deriving DecidableEq, Repr

/-- The way of a hit is absent where the source has a negative number. -/
structure BranchInfo where
  loopTag : Nat := 0
  currentIter : Nat := 0
  loopPred : Bool := false
  loopPredValid : Bool := false
  loopIndex : Nat := 0
  loopIndexB : Nat := 0
  loopHit : Option Nat := some 0
deriving DecidableEq, Repr

abbrev Table := Nat → LoopEntry

variable (params : Params) (instShiftAmt : Nat) (ltable : Table) (pc : Nat) (bi : BranchInfo)

def loopSetMask : Nat := 2 ^ (params.logSizeLoopPred - params.logLoopTableAssoc) - 1

/-- The first entry of a set. -/
def lindex : Nat :=
  ((if params.useHashing then (pc >>> instShiftAmt) ^^^ pc else pc >>> instShiftAmt) &&& loopSetMask params) <<<
    params.logLoopTableAssoc

def finallindex (index lowPcBits way : Nat) : Nat :=
  (if params.useHashing then index ^^^ ((lowPcBits >>> way) <<< params.logLoopTableAssoc) else index) + way

/-- The entry of a way for a branch. -/
def BranchInfo.place (way : Nat) : Nat := finallindex params bi.loopIndex bi.loopIndexB way

/-- The entry that a branch has hit. -/
def BranchInfo.hitEntry : Option Nat := bi.loopHit.map (bi.place params)

/-- This part of `getLoop` computes where a branch is looked up. -/
def locate : BranchInfo :=
  let bi := { bi with loopHit := none, loopPredValid := false, loopIndex := lindex params instShiftAmt pc }
  let pcShift := params.logSizeLoopPred - params.logLoopTableAssoc
  let loopTagMask := 2 ^ params.loopTableTagBits - 1
  if params.useHashing then
    { bi with
      loopIndexB := (pc >>> pcShift) &&& loopSetMask params
      loopTag := ((pc >>> pcShift) ^^^ (pc >>> (pcShift + params.loopTableTagBits))) &&& loopTagMask }
  else { bi with loopTag := (pc >>> (instShiftAmt + pcShift)) &&& loopTagMask }

/-- The first way of the set with the tag of the branch. -/
def BranchInfo.findWay : Option Nat :=
  (List.range (2 ^ params.logLoopTableAssoc)).find? fun way => (ltable (bi.place params way)).tag = bi.loopTag

def calcConf (index : Nat) : Bool := (ltable index).confidence = 2 ^ params.loopTableConfidenceBits - 1

/-- The result is the prediction with the filled record of the branch. -/
def getLoop (speculative : Bool) : Bool × BranchInfo :=
  let bi := locate params instShiftAmt pc bi
  match bi.findWay params ltable with
  | none => (false, bi)
  | some way =>
    let entry := ltable (bi.place params way)
    let iter := if speculative then entry.currentIterSpec else entry.currentIter
    let dir := if params.useDirectionBit then entry.dir else true
    (if iter + 1 = entry.numIter then !dir else dir,
      { bi with loopHit := some way, loopPredValid := calcConf params ltable (bi.place params way) })

def specLoopUpdate (taken : Bool) : Table :=
  match bi.hitEntry params with
  | none => ltable
  | some index =>
    let entry := ltable index
    update ltable index { entry with
      currentIterSpec := if taken ≠ entry.dir then 0
        else (entry.currentIterSpec + 1) &&& (2 ^ params.loopTableIterBits - 1) }

/-- The result is the prediction with the record of the branch and the table. -/
def loopPredict (loopUseCounter : Int) (condBranch prevPredTaken : Bool) : Bool × BranchInfo × Table :=
  if condBranch then
    let (loopPred, bi) := getLoop params instShiftAmt ltable pc bi params.useSpeculation
    let bi := { bi with loopPred }
    let predTaken := if 0 ≤ loopUseCounter ∧ bi.loopPredValid then bi.loopPred else prevPredTaken
    (predTaken, bi, if params.useSpeculation then specLoopUpdate params ltable bi predTaken else ltable)
  else (prevPredTaken, bi, ltable)

/-- This function is both `squash` and `squashLoop`. -/
def squash : Table :=
  match bi.hitEntry params with
  | none => ltable
  | some index => update ltable index { ltable index with currentIterSpec := bi.currentIter }

/-- Conditional branches are predicted one after the other, each with a new record. The records are returned with the
youngest one first. -/
def predictAll (loopUseCounter : Int) : List (Nat × Bool) → Table → List BranchInfo × Table
  | [], ltable => ([], ltable)
  | (pc, prevPredTaken) :: later, ltable =>
    let (_, bi, ltable) := loopPredict params instShiftAmt ltable pc {} loopUseCounter true prevPredTaken
    let (records, ltable) := predictAll loopUseCounter later ltable
    (records ++ [bi], ltable)

/-- The branches are predicted and then squashed with the youngest one first. -/
def predictAndSquash (loopUseCounter : Int) (branches : List (Nat × Bool)) : Table :=
  let (records, ltable) := predictAll params instShiftAmt loopUseCounter branches ltable
  records.foldl (squash params) ltable

end Gem5.LoopPredictor
