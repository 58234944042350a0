import Gem5.Construction.Base.Fault

namespace Gem5.O3
open ToMathlib Function

inductive RegClassType where
  | intReg | floatReg | vecReg | vecElem | vecPredReg | matReg | ccReg | miscReg | invalid
deriving DecidableEq, Repr

/-- These are the classes up to `CCRegClass`, which have a rename map and a free list. -/
def RegClassType.mapped : List RegClassType := [.intReg, .floatReg, .vecReg, .vecElem, .vecPredReg, .matReg, .ccReg]

structure RegId where
  regClass : RegClassType
  index : Nat
  numPinnedWrites : Int
deriving DecidableEq, Repr

def RegClassType.isRenameable (regClass : RegClassType) : Prop := regClass ≠ .miscReg ∧ regClass ≠ .invalid

instance (regClass : RegClassType) : Decidable regClass.isRenameable := inferInstanceAs (Decidable (_ ∧ _))

/-- The address of a physical register is its class with its index. -/
structure PhysRegId where
  regClass : RegClassType
  index : Nat
deriving DecidableEq, Repr

structure RenameHistory where
  instSeqNum : Nat
  archReg : RegId
  newPhysReg : PhysRegId
  prevPhysReg : PhysRegId
deriving DecidableEq, Repr

/-- The rename stage reads the flattened destination registers of an instruction. -/
structure RenameInst where
  seqNum : Nat
  destRegs : List RegId
deriving DecidableEq, Repr

def RenameInst.numDestRegs (inst : RenameInst) (regClass : RegClassType) : Nat :=
  inst.destRegs.countP fun reg => reg.regClass = regClass

/-- The threads have their own maps and histories, and they share the free lists. -/
structure Rename (numThreads : Nat) where
  renameMap : Fin numThreads → RegClassType → List PhysRegId
  freeList : RegClassType → List PhysRegId
  numPinnedWrites : PhysRegId → Int
  numPinnedWritesToComplete : PhysRegId → Int
  historyBuffer : Fin numThreads → List RenameHistory
  freeingInProgress : Fin numThreads → List PhysRegId

namespace Rename
variable {numThreads : Nat} (rename : Rename numThreads) (tid : Fin numThreads)

def getReg (regClass : RegClassType) : Except Fault (PhysRegId × Rename numThreads) :=
  match rename.freeList regClass with
  | [] => .error (.assertion "!freeRegs.empty()")
  | reg :: rest => .ok (reg, { rename with freeList := update rename.freeList regClass rest })

def addReg (reg : PhysRegId) : Rename numThreads :=
  { rename with
    freeList := update rename.freeList reg.regClass (rename.freeList reg.regClass ++ [reg]) }

/-- This function assigns one entry of a rename map. -/
def setMap (regClass : RegClassType) (index : Nat) (reg : PhysRegId) : Rename numThreads :=
  { rename with
    renameMap := update rename.renameMap tid
      (update (rename.renameMap tid) regClass ((rename.renameMap tid regClass).set index reg)) }

def setHistory (history : List RenameHistory) : Rename numThreads :=
  { rename with historyBuffer := update rename.historyBuffer tid history }

def setFreeing (regs : List PhysRegId) : Rename numThreads :=
  { rename with freeingInProgress := update rename.freeingInProgress tid regs }

def setPinned (reg : PhysRegId) (writes : Int) : Rename numThreads :=
  { rename with numPinnedWrites := update rename.numPinnedWrites reg writes }

def setToComplete (reg : PhysRegId) (writes : Int) : Rename numThreads :=
  { rename with numPinnedWritesToComplete := update rename.numPinnedWritesToComplete reg writes }

def lookup (archReg : RegId) : Except Fault PhysRegId :=
  if archReg.regClass = .invalid then .ok ⟨.invalid, 0⟩
  else if archReg.regClass = .miscReg then .ok ⟨.miscReg, archReg.index⟩
  else do
    assert (archReg.index ≤ (rename.renameMap tid archReg.regClass).length) "arch_reg.index() <= map.size()"
    match (rename.renameMap tid archReg.regClass)[archReg.index]? with
    | none => .error .outOfBounds
    | some reg => .ok reg

/-- This function is `SimpleRenameMap::rename` with the new and the previous register. -/
def simpleRename (archReg : RegId) : Except Fault ((PhysRegId × PhysRegId) × Rename numThreads) :=
  match (rename.renameMap tid archReg.regClass)[archReg.index]? with
  | none => .error .outOfBounds
  | some prevReg =>
    if archReg.regClass = .invalid then do
      assert (prevReg.regClass = .invalid) "prev_reg->is(InvalidRegClass)"
      .ok ((prevReg, prevReg), rename)
    else if 0 < rename.numPinnedWrites prevReg then do
      assert (archReg.numPinnedWrites = 0) "arch_reg.getNumPinnedWrites() == 0"
      .ok ((prevReg, prevReg), rename.setPinned prevReg (rename.numPinnedWrites prevReg - 1))
    else do
      let (renamedReg, rename) ← rename.getReg archReg.regClass
      let rename := rename.setMap tid archReg.regClass archReg.index renamedReg
      let rename := rename.setPinned renamedReg archReg.numPinnedWrites
      .ok ((renamedReg, prevReg), rename.setToComplete renamedReg (archReg.numPinnedWrites + 1))

/-- This function is `UnifiedRenameMap::rename`. -/
def renameReg (archReg : RegId) : Except Fault ((PhysRegId × PhysRegId) × Rename numThreads) :=
  if archReg.regClass.isRenameable then rename.simpleRename tid archReg
  else do
    let physReg ← rename.lookup tid archReg
    .ok ((physReg, physReg), rename)

def setEntry (archReg : RegId) (physReg : PhysRegId) : Except Fault (Rename numThreads) := do
  assert (physReg.regClass = archReg.regClass) "phys_reg->is(arch_reg.classValue())"
  if archReg.regClass.isRenameable then do
    assert (archReg.index ≤ (rename.renameMap tid archReg.regClass).length) "arch_reg.index() <= map.size()"
    if archReg.index < (rename.renameMap tid archReg.regClass).length then
      .ok (rename.setMap tid archReg.regClass archReg.index physReg)
    else .error .outOfBounds
  else do
    let found ← rename.lookup tid archReg
    assert (physReg = found) "phys_reg == lookup(arch_reg)"
    .ok rename

def canRename (inst : RenameInst) : Prop :=
  ∀ regClass ∈ RegClassType.mapped, inst.numDestRegs regClass ≤ (rename.freeList regClass).length

instance (rename : Rename numThreads) (inst : RenameInst) : Decidable (rename.canRename inst) :=
  inferInstanceAs (Decidable (∀ _ ∈ _, _))

/-- One turn of `Rename::renameDestRegs` renames one register and records it. -/
def renameDestReg (seqNum : Nat) (rename : Rename numThreads) (archReg : RegId) : Except Fault (Rename numThreads) := do
  let ((newReg, prevReg), rename) ← rename.renameReg tid archReg
  .ok (rename.setHistory tid (⟨seqNum, archReg, newReg, prevReg⟩ :: rename.historyBuffer tid))

def renameDestRegs (inst : RenameInst) : Except Fault (Rename numThreads) :=
  inst.destRegs.foldlM (renameDestReg tid inst.seqNum) rename

/-- One turn of `Rename::doSquash` undoes the newest entry if it changed the map. -/
def undo (entry : RenameHistory) : Except Fault (Rename numThreads) :=
  if entry.newPhysReg ≠ entry.prevPhysReg then do
    let rename ← rename.setEntry tid entry.archReg entry.prevPhysReg
    .ok (rename.setFreeing tid (rename.freeingInProgress tid ++ [entry.newPhysReg]))
  else .ok rename

/-- This loop undoes the entries from the newest one. -/
def squashLoop (tid : Fin numThreads) (squashed : Nat) :
    List RenameHistory → Rename numThreads → Except Fault (Rename numThreads)
  | [], rename => .ok rename
  | entry :: older, rename =>
    if squashed < entry.instSeqNum then do
      let rename ← rename.undo tid entry
      squashLoop tid squashed older (rename.setHistory tid older)
    else .ok rename

def doSquash (squashed : Nat) (tid : Fin numThreads) : Except Fault (Rename numThreads) :=
  squashLoop tid squashed (rename.historyBuffer tid) rename

/-- One turn of `Rename::removeFromHistory` frees what the oldest entry replaced. -/
def retire (entry : RenameHistory) : Rename numThreads :=
  if entry.newPhysReg ≠ entry.prevPhysReg then rename.addReg entry.prevPhysReg else rename

/-- This loop commits the entries from the oldest one. -/
def commitLoop (tid : Fin numThreads) (committed : Nat) : List RenameHistory → Rename numThreads → Rename numThreads
  | [], rename => rename
  | entry :: newer, rename =>
    if entry.instSeqNum ≤ committed then
      commitLoop tid committed newer ((rename.retire entry).setHistory tid newer.reverse)
    else rename

def removeFromHistory (committed : Nat) (tid : Fin numThreads) : Rename numThreads :=
  commitLoop tid committed (rename.historyBuffer tid).reverse rename

/-- This part of `Rename::checkSignalsAndUpdate` frees the registers of squashed instructions. -/
def release : Rename numThreads := ((rename.freeingInProgress tid).foldl addReg rename).setFreeing tid []

end Rename

/-- Instructions also change the pin counters of registers outside the rename stage. -/
inductive RenameOp (numThreads : Nat) where
  | rename (tid : Fin numThreads) (inst : RenameInst)
  | squash (tid : Fin numThreads) (squashed : Nat)
  | commit (tid : Fin numThreads) (committed : Nat)
  | release (tid : Fin numThreads)
  | pin (reg : PhysRegId) (writes toComplete : Int)
deriving DecidableEq, Repr

namespace Rename
variable {numThreads : Nat}

def step (rename : Rename numThreads) : RenameOp numThreads → Except Fault (Rename numThreads)
  | .rename tid inst => rename.renameDestRegs tid inst
  | .squash tid squashed => rename.doSquash squashed tid
  | .commit tid committed => .ok (rename.removeFromHistory committed tid)
  | .release tid => .ok (rename.release tid)
  | .pin reg writes toComplete => .ok ((rename.setPinned reg writes).setToComplete reg toComplete)

/-- An instruction is renamed only when every class has enough free registers. -/
def guard (rename : Rename numThreads) : RenameOp numThreads → Prop
  | .rename _ inst => rename.canRename inst
  | _ => True

end Rename

def renameStage (numThreads : Nat) : Machine (Rename numThreads) (RenameOp numThreads) Fault :=
  ⟨Rename.guard, Rename.step⟩

end Gem5.O3
