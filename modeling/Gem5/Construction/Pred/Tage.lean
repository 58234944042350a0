import Gem5.Construction.Base.Bitfield

namespace Gem5.Tage
open ToMathlib

/-- A folded history compresses the last `origLength` outcomes into `compLength` bits. -/
structure FoldedHistory where
  comp : BitVec 32
  compLength : Nat
  origLength : Nat
  outpoint : Nat
deriving DecidableEq, Repr

def FoldedHistory.init (originalLength compressedLength : Nat) : FoldedHistory where
  comp := 0
  compLength := compressedLength
  origLength := originalLength
  outpoint := originalLength % compressedLength

/-- This function shifts the outcome `h 0` in and the outcome `h origLength` out. -/
def FoldedHistory.update (folded : FoldedHistory) (h : Nat → BitVec 8) : FoldedHistory :=
  let comp := (folded.comp <<< 1) ||| (h 0).setWidth 32
  let comp := comp ^^^ ((h folded.origLength).setWidth 32 <<< folded.outpoint)
  let comp := comp ^^^ (comp >>> folded.compLength)
  { folded with comp := comp &&& (Bitfield.mask folded.compLength).setWidth 32 }

/-- These parameters belong to one tagged table. -/
structure TableParams where
  histLength : Nat
  logTagTableSize : Nat
  tagTableTagWidth : Nat
deriving DecidableEq, Repr

/-- The parameters satisfy the assertions of `init`, and no shift of the source exceeds its type. -/
structure Params where
  maxHist : Nat
  histBufferSize : Nat
  pathHistBits : Nat
  instShiftAmt : Nat
  speculativeHistUpdate : Bool
  tables : List TableParams
  room : maxHist * 2 < histBufferSize
  pathHistBits_le : pathHistBits ≤ 32
  histLength_le : ∀ table ∈ tables, table.histLength ≤ maxHist
  logTagTableSize_pos : ∀ table ∈ tables, 0 < table.logTagTableSize
  logTagTableSize_lt : ∀ table ∈ tables, table.logTagTableSize < 32
  tagTableTagWidth_gt : ∀ table ∈ tables, 1 < table.tagTableTagWidth
  tagTableTagWidth_lt : ∀ table ∈ tables, table.tagTableTagWidth < 32

/-- Each tagged table has one folded history for its index and two for its tag. -/
structure TableHistory where
  computeIndices : FoldedHistory
  computeTags0 : FoldedHistory
  computeTags1 : FoldedHistory
deriving DecidableEq, Repr

def TableHistory.init (table : TableParams) : TableHistory where
  computeIndices := .init table.histLength table.logTagTableSize
  computeTags0 := .init table.histLength table.tagTableTagWidth
  computeTags1 := .init table.histLength (table.tagTableTagWidth - 1)

def TableHistory.update (table : TableHistory) (h : Nat → BitVec 8) : TableHistory where
  computeIndices := table.computeIndices.update h
  computeTags0 := table.computeTags0.update h
  computeTags1 := table.computeTags1.update h

/-- These words are the folded histories of one table that a branch saves. -/
structure SavedComps where
  ci : BitVec 32
  ct0 : BitVec 32
  ct1 : BitVec 32
deriving DecidableEq, Repr

def TableHistory.comps (table : TableHistory) : SavedComps where
  ci := table.computeIndices.comp
  ct0 := table.computeTags0.comp
  ct1 := table.computeTags1.comp

def TableHistory.restore (table : TableHistory) (saved : SavedComps) : TableHistory where
  computeIndices := { table.computeIndices with comp := saved.ci }
  computeTags0 := { table.computeTags0 with comp := saved.ct0 }
  computeTags1 := { table.computeTags1 with comp := saved.ct1 }

/-- The bytes of `globalHistory` past `histBufferSize` are other memory of the process. -/
structure ThreadHistory where
  pathHist : BitVec 32
  globalHistory : Nat → BitVec 8
  gHist : Nat
  ptGhist : Nat
  tables : List TableHistory

variable (params : Params) (tHist : ThreadHistory)

/-- This function reads the history through the pointer `gHist`. -/
def ThreadHistory.window (index : Nat) : BitVec 8 := tHist.globalHistory (tHist.gHist + index)

/-- A branch keeps what the repair of its misprediction needs. -/
structure BranchInfo where
  pathHist : BitVec 32
  ptGhist : Nat
  comps : List SavedComps
deriving DecidableEq, Repr

/-- The branch info that the constructor of the source makes. -/
def BranchInfo.fresh : BranchInfo := ⟨0, 0, []⟩

/-- This function writes an outcome as the byte of the source. -/
def outcome (taken : Bool) : BitVec 8 := if taken then 1 else 0

/-- The state of one thread after `init`. -/
def init (memory : Nat → BitVec 8) : ThreadHistory where
  pathHist := 0
  globalHistory := fun index => if index < params.histBufferSize then 0 else memory index
  gHist := 0
  ptGhist := 0
  tables := params.tables.map .init

/-- This function copies the first `maxHist` outcomes to the end of the buffer. -/
def rollOver (tab : Nat → BitVec 8) : Nat → BitVec 8 :=
  (List.range params.maxHist).foldl
    (fun tab i => Function.update tab (params.histBufferSize - params.maxHist + i) (tab i)) tab

def updateGHist (dir : Bool) : ThreadHistory :=
  let tHist :=
    if tHist.ptGhist = 0 then
      { tHist with
        globalHistory := rollOver params tHist.globalHistory
        ptGhist := params.histBufferSize - params.maxHist
        gHist := params.histBufferSize - params.maxHist }
    else tHist
  { tHist with
    ptGhist := tHist.ptGhist - 1
    gHist := tHist.gHist - 1
    globalHistory := Function.update tHist.globalHistory (tHist.gHist - 1) (outcome dir) }

def pathbit (branchPC : Addr) : Bool := (branchPC >>> params.instShiftAmt).getLsbD 0

def updatePathHist (pathHist : BitVec 32) (bit : Bool) : BitVec 32 :=
  ((pathHist <<< 1) + (BitVec.ofBool bit).setWidth 32) &&& (Bitfield.mask params.pathHistBits).setWidth 32

/-- This function shifts the outcome and the path bit of a branch into the histories. -/
def shiftHistories (branchPC : Addr) (taken : Bool) : ThreadHistory :=
  let shifted := updateGHist params tHist taken
  { shifted with pathHist := updatePathHist params shifted.pathHist (pathbit params branchPC) }

/-- This function updates the folded histories of all tables. -/
def ThreadHistory.updateTables : ThreadHistory := { tHist with tables := tHist.tables.map (·.update tHist.window) }

/-- A speculative update saves the pointers after the shift and the folded histories before their update. -/
def ThreadHistory.save : BranchInfo where
  pathHist := tHist.pathHist
  ptGhist := tHist.ptGhist
  comps := tHist.tables.map TableHistory.comps

def updateHistories (branchPC : Addr) (taken : Bool) (bi : BranchInfo)
    (speculative : Bool) : Except Fault (ThreadHistory × BranchInfo) :=
  if speculative ≠ params.speculativeHistUpdate then .ok (tHist, bi)
  else do
    let shifted := shiftHistories params tHist branchPC taken
    let bi := if speculative then shifted.save else bi
    let updated := shifted.updateTables
    assert (updated.gHist = updated.ptGhist)
      "threadHistory[tid].gHist == &threadHistory[tid].globalHistory[threadHistory[tid].ptGhist]"
    return (updated, bi)

/-- This function repairs the histories when a branch went the other way. -/
def squash (taken : Bool) (bi : BranchInfo) : ThreadHistory :=
  if ¬params.speculativeHistUpdate then tHist
  else
    let tHist :=
      { tHist with
        pathHist := bi.pathHist
        ptGhist := bi.ptGhist
        gHist := bi.ptGhist
        globalHistory := Function.update tHist.globalHistory bi.ptGhist (outcome taken) }
    { tHist with
      tables := List.zipWith (fun table saved => (table.restore saved).update tHist.window) tHist.tables bi.comps }

/-- A surviving branch counts the predictions that were made after its own. -/
structure Branch where
  branchPC : Addr
  taken : Bool
  info : BranchInfo
  younger : Nat
deriving DecidableEq, Repr

def Branch.age (branch : Branch) : Branch := { branch with younger := branch.younger + 1 }

/-- The surviving branches stand with the newest one first. -/
structure Speculation where
  history : ThreadHistory
  survivors : List Branch

inductive Op where
  | updateHistories (branchPC : Addr) (taken : Bool)
  | squash (index : Nat) (taken : Bool)
deriving DecidableEq, Repr

/-- A squash discards all branches younger than the squashed one and corrects its outcome. -/
def Speculation.step (state : Speculation) : Op → Except Fault Speculation
  | .updateHistories branchPC taken => do
    let (history, info) ← Tage.updateHistories params state.history branchPC taken .fresh true
    return ⟨history, ⟨branchPC, taken, info, 0⟩ :: state.survivors.map .age⟩
  | .squash index taken =>
    match state.survivors.drop index with
    | [] => .ok state
    | branch :: older => .ok ⟨Tage.squash params state.history taken branch.info, { branch with taken } :: older⟩

/-- A branch is squashed only while few enough branches were predicted after it. -/
def Speculation.allowed (state : Speculation) : Op → Prop
  | .updateHistories _ _ => True
  | .squash index _ =>
    ∃ branch, state.survivors[index]? = some branch ∧ branch.younger < params.histBufferSize - 2 * params.maxHist

def speculations : Machine Speculation Op Fault where
  guard := Speculation.allowed params
  step := Speculation.step params

/-- This state is the start of every run. -/
def Speculation.initial (memory : Nat → BitVec 8) : Speculation := ⟨init params memory, []⟩

/-- This function lists the outcomes of the surviving branches, which are zero before the start. -/
def outcomes (survivors : List Branch) (index : Nat) : Bool := ((survivors.map Branch.taken)[index]?).getD false

/-- The XOR of the outcomes, each at its place modulo the length. -/
def xorOfOutcomes (h : Nat → BitVec 8) (histLength compLength : Nat) : BitVec 32 :=
  (List.range histLength).foldl (fun comp i => comp ^^^ ((h i).setWidth 32 <<< (i % compLength))) 0

/-- The folded histories of a table are the XOR of the history that it uses. -/
structure TableHistory.Exact (table : TableParams) (history : TableHistory) (h : Nat → BitVec 8) : Prop where
  indices : history.computeIndices.comp = xorOfOutcomes h table.histLength table.logTagTableSize
  tags0 : history.computeTags0.comp = xorOfOutcomes h table.histLength table.tagTableTagWidth
  tags1 : history.computeTags1.comp = xorOfOutcomes h table.histLength (table.tagTableTagWidth - 1)

end Gem5.Tage
