import Gem5.Construction.O3.Rename
import Gem5.Construction.O3.Runahead

namespace Gem5.O3
open ToMathlib TaintTracker

/-- An instruction reads and writes physical registers of several classes. -/
structure TaintInst where
  pc : BitVec 64
  isLoad : Bool
  srcs : List PhysRegId
  dests : List PhysRegId

/-- The tracker reads the indices of the registers only. -/
def TaintInst.indices (inst : TaintInst) : DispatchInst where
  pc := inst.pc
  isAtomic := false
  isLoad := inst.isLoad
  srcs := inst.srcs.map PhysRegId.index
  dests := inst.dests.map PhysRegId.index

inductive TaintOp where
  | taintReg (inst : TaintInst)
  | process (inst : TaintInst)
  | clearVTTIfSeen

def TaintOp.regs : TaintOp → List PhysRegId
  | .taintReg inst => inst.dests
  | .process inst => inst.srcs ++ inst.dests
  | .clearVTTIfSeen => []

def taints : Machine TaintTracker TaintOp Fault where
  guard _ _ := True
  step tracker
    | .taintReg inst => tracker.taintReg inst.indices
    | .process inst => tracker.process inst.indices
    | .clearVTTIfSeen => .ok tracker.clearVTTIfSeen

/-- The latest writer of the register since the last clear was a seed or read a tainted register. -/
def tainted : List TaintOp → PhysRegId → Bool
  | [], _ => false
  | .taintReg inst :: earlier, reg => reg ∈ inst.dests || tainted earlier reg
  | .process inst :: earlier, reg =>
    if reg ∈ inst.dests then inst.srcs.any (tainted earlier) else tainted earlier reg
  | .clearVTTIfSeen :: _, _ => false

/-- A loop over registers writes their bits. -/
theorem setRegs_eq (value : Bool) {indices : List Nat} {tracker : TaintTracker}
    (inside : ∀ index ∈ indices, index < tracker.regTable.length) :
    ∃ next, indices.foldlM (setReg value) tracker = .ok next ∧
      ∀ index : Nat, next.regTable[index]? = if index ∈ indices then some value else tracker.regTable[index]? := by
  induction indices generalizing tracker with
  | nil => exact ⟨tracker, rfl, fun _ => rfl⟩
  | cons first rest ih =>
    have room := inside first List.mem_cons_self
    let written := { tracker with regTable := tracker.regTable.set first value }
    have later : ∀ index ∈ rest, index < written.regTable.length := by
      intro index member
      rw [List.length_set]
      exact inside index (List.mem_cons_of_mem _ member)
    obtain ⟨next, done, table⟩ := ih later
    refine ⟨next, ?_, fun index => ?_⟩
    · rw [List.foldlM_cons, setReg, if_pos room]
      exact done
    · rw [table, List.getElem?_set]
      grind

section Exact
variable {regs : Set PhysRegId} {history : List TaintOp} {tracker : TaintTracker}

/-- The table has the right bits of some registers. -/
def Exact (regs : Set PhysRegId) (history : List TaintOp) (tracker : TaintTracker) : Prop :=
  ∀ reg ∈ regs, tracker.regTable[reg.index]? = some (tainted history reg)

/-- The writes of an instruction change the bits of its destinations. -/
theorem Exact.write (exact : Exact regs history tracker) (apart : Set.InjOn PhysRegId.index regs)
    {dests : List PhysRegId} (used : ∀ reg ∈ dests, reg ∈ regs) (value : Bool) :
    ∃ next, (dests.map PhysRegId.index).foldlM (setReg value) tracker = .ok next ∧
      ∀ reg ∈ regs, next.regTable[reg.index]? = some (if reg ∈ dests then value else tainted history reg) := by
  have inside : ∀ index ∈ dests.map PhysRegId.index, index < tracker.regTable.length := by
    intro index member
    obtain ⟨reg, written, rfl⟩ := List.mem_map.mp member
    exact (List.getElem?_eq_some_iff.mp (exact reg (used reg written))).1
  obtain ⟨next, done, table⟩ := setRegs_eq value inside
  refine ⟨next, done, fun reg member => ?_⟩
  have same : reg.index ∈ dests.map PhysRegId.index ↔ reg ∈ dests := by
    rw [List.mem_map]
    constructor
    · rintro ⟨other, written, equal⟩
      rwa [← apart (used other written) member equal]
    · exact fun written => ⟨reg, written, rfl⟩
  rw [table, exact reg member]
  simp only [same]
  split <;> rfl

theorem Exact.srcs (exact : Exact regs history tracker) {srcs : List PhysRegId} (used : ∀ reg ∈ srcs, reg ∈ regs) :
    (srcs.map PhysRegId.index).mapM tracker.isRegTainted = .ok (srcs.map (tainted history)) := by
  induction srcs with
  | nil => rfl
  | cons reg rest ih =>
    have first : tracker.isRegTainted reg.index = .ok (tainted history reg) := by
      rw [isRegTainted, exact reg (used reg List.mem_cons_self)]
    rw [List.map_cons, List.mapM_cons, first, ih fun other member => used other (List.mem_cons_of_mem _ member)]
    rfl

theorem Exact.step (exact : Exact regs history tracker) (apart : Set.InjOn PhysRegId.index regs) {op : TaintOp}
    (used : ∀ reg ∈ op.regs, reg ∈ regs) :
    ∃ next, taints.step tracker op = .ok next ∧ Exact regs (op :: history) next := by
  cases op with
  | taintReg inst =>
    have written : ∀ reg ∈ inst.dests, reg ∈ regs := used
    obtain ⟨next, done, table⟩ := exact.write apart written true
    refine ⟨next, done, fun reg member => (table reg member).trans ?_⟩
    rw [tainted]
    by_cases written : reg ∈ inst.dests <;> simp [written]
  | process inst =>
    have read := exact.srcs fun reg member => used reg (List.mem_append_left inst.dests member)
    obtain ⟨next, done, table⟩ := exact.write apart (fun reg member => used reg (List.mem_append_right _ member))
      (inst.srcs.any (tainted history))
    have flags : ((inst.srcs.map (tainted history)).any id) = inst.srcs.any (tainted history) := List.any_map
    simp only [taints, process, TaintInst.indices, read, ok_bind, flags, taintReg, unTaintReg]
    cases any : inst.srcs.any (tainted history) with
    | false =>
      rw [any] at done table
      refine ⟨next, done, fun reg member => (table reg member).trans ?_⟩
      rw [tainted, any]
    | true =>
      rw [any] at done table
      simp only [if_true, done, ok_bind]
      refine ⟨_, rfl, fun reg member => ?_⟩
      rw [tainted, any, ← table reg member]
      by_cases load : inst.isLoad <;> simp [load]
  | clearVTTIfSeen =>
    refine ⟨_, rfl, fun reg member => ?_⟩
    rw [clearVTTIfSeen, List.getElem?_map, exact reg member]
    rfl

end Exact

/-- The table is exact if it has a bit for every register and the registers have different indices. -/
theorem taint_exact {numPhysIntRegs : Nat} {regs : Set PhysRegId} (inside : ∀ reg ∈ regs, reg.index < numPhysIntRegs)
    (apart : Set.InjOn PhysRegId.index regs) {history : List TaintOp}
    (used : ∀ op ∈ history, ∀ reg ∈ op.regs, reg ∈ regs) :
    ∃ tracker, taints.Run (initial numPhysIntRegs) history tracker ∧
      ∀ reg ∈ regs, tracker.isRegTainted reg.index = .ok (tainted history reg) := by
  have exact : ∃ tracker, taints.Run (initial numPhysIntRegs) history tracker ∧ Exact regs history tracker := by
    induction history with
    | nil =>
      refine ⟨_, .nil, fun reg member => ?_⟩
      rw [TaintTracker.initial, List.getElem?_replicate, if_pos (inside reg member)]
      rfl
    | cons op history ih =>
      obtain ⟨tracker, run, exact⟩ := ih fun other member => used other (List.mem_cons_of_mem op member)
      obtain ⟨next, stepped, exact⟩ := exact.step apart (used op List.mem_cons_self)
      exact ⟨next, run.cons trivial stepped, exact⟩
  obtain ⟨tracker, run, exact⟩ := exact
  refine ⟨tracker, run, fun reg member => ?_⟩
  rw [isRegTainted, exact reg member]

/-- A load taints the integer register 5, which an addition to the floating-point register 6 reads. -/
def sampleTaints : List TaintOp :=
  [.process ⟨4, false, [⟨.intReg, 5⟩], [⟨.floatReg, 6⟩]⟩, .taintReg ⟨0, true, [], [⟨.intReg, 5⟩]⟩]

theorem taint_exact_addition : ∃ tracker, taints.Run (initial 8) sampleTaints tracker ∧
    tracker.isRegTainted 6 = .ok true := by
  obtain ⟨tracker, run, exact⟩ := @taint_exact 8 {⟨.intReg, 5⟩, ⟨.floatReg, 6⟩} (by simp) (by simp [Set.InjOn])
    sampleTaints (by simp [sampleTaints, TaintOp.regs])
  exact ⟨tracker, run, exact ⟨.floatReg, 6⟩ (by simp)⟩

/-- The floating-point register 5 has no writer, but it is tainted as well. -/
theorem taint_shared : ∃ tracker, taints.Run (initial 8) sampleTaints tracker ∧
    tracker.isRegTainted (PhysRegId.mk .floatReg 5).index = .ok true ∧ tainted sampleTaints ⟨.floatReg, 5⟩ = false :=
  ⟨_, .cons (.cons .nil trivial rfl) trivial rfl, rfl, rfl⟩

end Gem5.O3
