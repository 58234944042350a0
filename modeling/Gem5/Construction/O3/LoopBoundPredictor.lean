import Gem5.Construction.Base.Fault

namespace Gem5.O3

structure LastCompare where
  pc : BitVec 64
  src1 : BitVec 64
  src2 : BitVec 64
deriving DecidableEq, Repr

/-- A division of signed numbers traps without a divisor and on overflow. -/
def divide (dividend divisor : BitVec 64) : Except Fault (BitVec 64) :=
  if divisor = 0 ∨ dividend = BitVec.intMin 64 ∧ divisor = -1 then .error .arithmetic
  else .ok (dividend.sdiv divisor)

structure LoopBoundaryDetector where
  loopIncrement : BitVec 16
  lc : LastCompare
  loopNumber : BitVec 16
deriving DecidableEq, Repr

namespace LoopBoundaryDetector

def new (lc : LastCompare) : LoopBoundaryDetector := ⟨0, lc, 0⟩

def updateLoopIncrement (detector : LoopBoundaryDetector) (lc : LastCompare) : Except Fault LoopBoundaryDetector :=
  if detector.lc.src1 = lc.src1 ∧ detector.lc.src2 ≠ lc.src2 then do
    let loopIncrement := (lc.src2 - detector.lc.src2).setWidth 16
    let loops ← divide (lc.src1 - lc.src2) (loopIncrement.signExtend 64)
    .ok ⟨loopIncrement, { detector.lc with src2 := lc.src2 }, loops.setWidth 16⟩
  else if detector.lc.src2 = lc.src2 ∧ detector.lc.src1 ≠ lc.src1 then do
    let loopIncrement := (lc.src1 - detector.lc.src1).setWidth 16
    let loops ← divide (lc.src2 - lc.src1) (loopIncrement.signExtend 64)
    .ok ⟨loopIncrement, { detector.lc with src1 := lc.src1 }, loops.setWidth 16⟩
  else if detector.lc.src2 ≠ lc.src2 then do
    let temp ← divide (lc.src2 - lc.src1) (detector.loopIncrement.signExtend 64)
    let loops := if temp.slt 0 then -temp else temp
    .ok { detector with lc := { detector.lc with src1 := lc.src1, src2 := lc.src2 }, loopNumber := loops.setWidth 16 }
  else .ok detector

end LoopBoundaryDetector

/-- A component of the predictor has the tag of a load. -/
structure LoopBoundaryComponents where
  tag : BitVec 64
  detector : LoopBoundaryDetector
deriving DecidableEq, Repr

structure LoopBoundaryPredictor where
  nEntry : BitVec 8
  hasEntries : nEntry ≠ 0
  n : BitVec 8
  lc : LastCompare
  lbps : BitVec 8 → Option LoopBoundaryComponents

namespace LoopBoundaryPredictor

def initial (nEntry : BitVec 8) (hasEntries : nEntry ≠ 0) (n : BitVec 8) : LoopBoundaryPredictor :=
  ⟨nEntry, hasEntries, n, ⟨0, 0, 0⟩, fun _ => none⟩

variable (predictor : LoopBoundaryPredictor) (strideLoadPC : BitVec 64)

def idx : BitVec 8 := (strideLoadPC % predictor.nEntry.setWidth 64).setWidth 8

def tag : BitVec 64 := strideLoadPC / predictor.nEntry.setWidth 64

def store (detector : LoopBoundaryDetector) : LoopBoundaryPredictor :=
  { predictor with
    lbps := Function.update predictor.lbps (predictor.idx strideLoadPC)
      (some ⟨predictor.tag strideLoadPC, detector⟩) }

/-- This function is `LoopBoundaryPredictor::UpdateLoopBoundaryDetector` for a branch and its first operand, which the
function `UpdateLastCompareSrc` reads for both sources. -/
def updateLoopBoundaryDetector (strideLoadPC pc npc operand : BitVec 64) : Except Fault LoopBoundaryPredictor :=
  if strideLoadPC < npc ∨ pc < npc then .ok predictor
  else
    let predictor := { predictor with lc := ⟨pc, operand, operand⟩ }
    match (predictor.lbps (predictor.idx strideLoadPC)).filter (fun entry => entry.tag = predictor.tag strideLoadPC) with
    | none => .ok (predictor.store strideLoadPC (.new predictor.lc))
    | some entry =>
      if entry.detector.lc.pc ≠ pc then
        .ok (predictor.store strideLoadPC { entry.detector with lc := predictor.lc })
      else do
        let detector ← entry.detector.updateLoopIncrement predictor.lc
        .ok (predictor.store strideLoadPC detector)

/-- This function is `LoopBoundaryPredictor::GetLoopNumber`, which leaves the number of its caller if the tag differs. -/
def getLoopNumber (loopNumber : BitVec 16) : BitVec 16 :=
  match predictor.lbps (predictor.idx strideLoadPC) with
  | none => predictor.n.setWidth 16
  | some entry =>
    if entry.tag = predictor.tag strideLoadPC then
      if predictor.n.setWidth 16 < entry.detector.loopNumber then predictor.n.setWidth 16
      else entry.detector.loopNumber
    else loopNumber

end LoopBoundaryPredictor
end Gem5.O3
