import Gem5.Construction.O3.InstQueue

namespace Gem5.O3
open ToMathlib SrcReg Function List

namespace DependencyGraph
variable {Reg : Type} [DecidableEq Reg] {graph next : DependencyGraph Reg} {idx : Reg} {seqNum : Nat}

theorem removeFrom_sublist {items rest : List Nat} (done : removeFrom seqNum items = .ok rest) :
    rest.Sublist items := by
  induction items generalizing rest with
  | nil => simp [removeFrom] at done
  | cons curr items ih =>
    unfold removeFrom at done
    split at done
    · cases done
      exact sublist_cons_self _ _
    · obtain ⟨removed, found, rfl⟩ := bind_ok_eq_ok.mp done
      exact (ih found).cons_cons curr

/-- Removal leaves the other nodes in their order. -/
theorem remove_sublist (done : graph.remove idx seqNum = .ok next) (other : Reg) :
    (next.dependents other).Sublist (graph.dependents other) := by
  unfold remove at done
  split at done
  · cases done
    exact .refl _
  · obtain ⟨rest, found, rfl⟩ := bind_ok_eq_ok.mp done
    exact (forall_update_iff graph.dependents fun other list => list.Sublist (graph.dependents other)).mpr
      ⟨removeFrom_sublist found, fun _ _ => .refl _⟩ other

end DependencyGraph

namespace InstQueue
variable {Reg Tid : Type} {queue next : InstQueue Reg Tid} {seqNum : Nat} {lists ready : ReadyLists} {opClass : OpClass}

/-- The instructions were pushed into the queues of their classes. -/
def Pushed (queue : InstQueue Reg Tid) (seqNums : List Nat) (ready : ReadyLists) : Prop :=
  ∀ opClass number, (ready.readyInsts opClass).count number = (queue.ready.readyInsts opClass).count number +
    if (queue.insts number).opClass = opClass then seqNums.count number else 0

theorem addToOrderList_eq (done : lists.addToOrderList opClass = .ok ready) : ready.readyInsts = lists.readyInsts := by
  unfold ReadyLists.addToOrderList at done
  split at done
  · simp at done
  · cases done
    rfl

/-- A push adds the instruction to the queue of its class. -/
theorem push_readyInsts (done : lists.push opClass seqNum = .ok ready) :
    ready.readyInsts = update lists.readyInsts opClass
      ((lists.readyInsts opClass).orderedInsert (· ≤ ·) seqNum) := by
  unfold ReadyLists.push at done
  dsimp only at done
  split at done
  · exact addToOrderList_eq done
  · split at done
    · split at done
      · exact addToOrderList_eq done
      · cases done
        rfl
    · simp at done

theorem Pushed.push (done : queue.ready.push (queue.insts seqNum).opClass seqNum = .ok ready) :
    queue.Pushed [seqNum] ready := by
  intro opClass number
  rw [push_readyInsts done]
  by_cases same : opClass = (queue.insts seqNum).opClass
  · subst same
    rw [update_self, (perm_orderedInsert _ _ _).count_eq, count_cons, count_singleton]
    by_cases equal : seqNum = number
    · simp [equal]
    · simp [equal]
  · rw [update_of_ne same]
    by_cases equal : seqNum = number
    · subst equal
      rw [if_neg (Ne.symm same), Nat.add_zero]
    · simp [equal]

theorem Pushed.append {first second : List Nat} {middle : ReadyLists} (before : queue.Pushed first middle)
    (after : { queue with ready := middle }.Pushed second ready) : queue.Pushed (first ++ second) ready := by
  intro opClass number
  have own := before opClass number
  have others := after opClass number
  rw [others, own, count_append]
  split <;> omega

/-- The function `addReadyMemInst` pushes one instruction. -/
theorem addReadyMemInst_eq (done : queue.addReadyMemInst seqNum = .ok next) :
    ∃ ready, next = { queue with ready } ∧ queue.Pushed [seqNum] ready := by
  obtain ⟨ready, pushed, done⟩ := bind_eq_ok.mp done
  exact ⟨ready, (Except.ok.inj done).symm, .push pushed⟩

theorem addReadyMemInsts_eq {seqNums : List Nat} (done : seqNums.foldlM addReadyMemInst queue = .ok next) :
    ∃ ready, next = { queue with ready } ∧ queue.Pushed seqNums ready := by
  induction seqNums generalizing queue with
  | nil =>
    cases done
    refine ⟨_, rfl, ?_⟩
    intro opClass number
    simp
  | cons first rest ih =>
    obtain ⟨middle, turn, done⟩ := bind_eq_ok.mp done
    obtain ⟨ready, rfl, pushed⟩ := addReadyMemInst_eq turn
    obtain ⟨final, rfl, later⟩ := ih done
    exact ⟨final, rfl, pushed.append later⟩

theorem pop_readyInsts (lists : ReadyLists) (opClass : OpClass) (order : List ListOrderEntry) :
    (lists.pop opClass order).1.readyInsts = update lists.readyInsts opClass (lists.readyInsts opClass).tail := by
  unfold ReadyLists.pop
  dsimp only
  split <;> rfl

/-- The oldest instruction of a class leaves the queue of its class. -/
theorem count_pop {issuing : Nat} {rest : List Nat} (list : lists.readyInsts opClass = issuing :: rest)
    (order : List ListOrderEntry) (other : OpClass) (number : Nat) :
    ((lists.pop opClass order).1.readyInsts other).count number +
      (if other = opClass ∧ issuing = number then 1 else 0) = (lists.readyInsts other).count number := by
  rw [pop_readyInsts]
  by_cases same : other = opClass
  · subst same
    rw [update_self, list, tail_cons, count_cons]
    simp
  · rw [update_of_ne same]
    simp [same]

theorem execute_eq (queue : InstQueue Reg Tid) (seqNum : Nat) (unit : FUResult) :
    ∃ instsToExecute fuCompletions, queue.execute seqNum unit = { queue with
      instsToExecute, fuCompletions } := by
  unfold execute
  split
  · split
    · exact ⟨_, _, rfl⟩
    · exact ⟨_, _, rfl⟩
  · exact ⟨_, _, rfl⟩

section Units
variable [DecidableEq Tid]

/-- A change of a memory dependence unit pushes the instructions that it readied. -/
theorem setMemDepUnit_eq {tid : Tid} {unit : MemDepUnit} (done : queue.setMemDepUnit tid unit = .ok next) :
    ∃ ready, next = { queue with
      memDepUnit := update queue.memDepUnit tid { unit with readied := [] }, ready } ∧
      queue.Pushed unit.readied ready := by
  obtain ⟨ready, shape, pushed⟩ := addReadyMemInsts_eq done
  exact ⟨ready, shape, pushed⟩

/-- A ready instruction is pushed, and a memory reference tells its unit that its registers are ready. -/
theorem addIfReady_eq (done : queue.addIfReady seqNum = .ok next) :
    (queue.insts seqNum).canIssue = false ∧ next = queue ∨
    (queue.insts seqNum).canIssue = true ∧ (queue.insts seqNum).isMemRef = true ∧
      (∃ unit, (queue.memDepUnit (queue.insts seqNum).threadNumber).regsReady seqNum = .ok unit ∧
        queue.setMemDepUnit (queue.insts seqNum).threadNumber unit = .ok next) ∨
    (queue.insts seqNum).canIssue = true ∧ (queue.insts seqNum).isMemRef = false ∧
      ∃ ready, next = { queue with ready } ∧ queue.Pushed [seqNum] ready := by
  unfold addIfReady at done
  dsimp only at done
  cases issue : (queue.insts seqNum).canIssue with
  | false =>
    rw [issue, if_pos rfl] at done
    exact .inl ⟨rfl, (Except.ok.inj done).symm⟩
  | true =>
    rw [issue, if_neg (by decide)] at done
    cases memRef : (queue.insts seqNum).isMemRef with
    | true =>
      rw [memRef, if_pos rfl, bind_eq_ok] at done
      exact .inr (.inl ⟨rfl, rfl, done⟩)
    | false =>
      rw [memRef, if_neg (by decide)] at done
      exact .inr (.inr ⟨rfl, rfl, addReadyMemInst_eq done⟩)

/-- Only the ready queues and the memory dependence units change. -/
theorem addIfReady_shape (done : queue.addIfReady seqNum = .ok next) :
    ∃ ready memDepUnit, next = { queue with ready, memDepUnit } := by
  rcases addIfReady_eq done with ⟨_, rfl⟩ | ⟨_, _, unit, _, done⟩ | ⟨_, _, ready, rfl, _⟩
  · exact ⟨_, _, rfl⟩
  · obtain ⟨ready, rfl, _⟩ := setMemDepUnit_eq done
    exact ⟨_, _, rfl⟩
  · exact ⟨_, _, rfl⟩

end Units
end InstQueue

namespace SrcReg
variable {Reg : Type}

/-- The source is not ready and waits for the register. -/
def waitsFor [DecidableEq Reg] (flatIndex : Reg) (src : SrcReg Reg) : Bool := src.reg = .renamed flatIndex && !src.ready

/-- The register of the source became ready before the instruction reached the queue. -/
def early (regScoreboard : Reg → Bool) : SrcReg Reg → Bool
  | ⟨.renamed flatIndex, false⟩ => regScoreboard flatIndex
  | _ => false

/-- The source with its bit after the insertion. -/
def marked (regScoreboard : Reg → Bool) (src : SrcReg Reg) : SrcReg Reg :=
  { src with ready := src.ready || src.early regScoreboard }

/-- A marked source waits if it waited and its register is not ready. -/
theorem waitsFor_marked [DecidableEq Reg] {regScoreboard : Reg → Bool} {flatIndex : Reg} {src : SrcReg Reg} :
    (src.marked regScoreboard).waitsFor flatIndex = (src.waitsFor flatIndex && !regScoreboard flatIndex) := by
  obtain ⟨reg, ready⟩ := src
  cases reg with
  | fixedMapping => simp [marked, waitsFor]
  | renamed other =>
    cases ready with
    | true => simp [marked, waitsFor]
    | false =>
      by_cases same : other = flatIndex
      · subst same
        simp [marked, waitsFor, early]
      · simp [marked, waitsFor, same]

/-- A source that is ready or has no renamed register does not wait. -/
theorem not_waitsFor [DecidableEq Reg] {src : SrcReg Reg} (ready : ∀ other, src = ⟨.renamed other, false⟩ → False) :
    (∀ flatIndex, src.waitsFor flatIndex = false) ∧ ∀ regScoreboard, src.early regScoreboard = false := by
  obtain ⟨reg, bit⟩ := src
  cases reg with
  | fixedMapping => simp [waitsFor, early]
  | renamed other =>
    cases bit with
    | true => simp [waitsFor, early]
    | false => exact absurd rfl (ready other)

end SrcReg

namespace InstQueue
variable {Reg Tid : Type} [DecidableEq Reg]

section Dependents
variable {regScoreboard : Reg → Bool} {seqNum : Nat} {srcs : List (SrcReg Reg)} {graph : DependencyGraph Reg}
  {inst : DynInst Reg Tid}

/-- The loop over the sources marks the sources that became ready early. -/
theorem addToDependentsLoop_srcs :
    (addToDependentsLoop regScoreboard seqNum srcs graph inst).2.2 = srcs.map (marked regScoreboard) := by
  fun_induction addToDependentsLoop regScoreboard seqNum srcs graph inst <;>
    simp_all [marked, early]

/-- The loop over the sources adds a node for every source that remains unready. -/
theorem addToDependentsLoop_dependents (flatIndex : Reg) :
    (addToDependentsLoop regScoreboard seqNum srcs graph inst).1.dependents flatIndex =
      replicate (srcs.countP fun src => (src.marked regScoreboard).waitsFor flatIndex) seqNum ++
        graph.dependents flatIndex := by
  simp only [waitsFor_marked]
  fun_induction addToDependentsLoop regScoreboard seqNum srcs graph inst with
  | case1 => rfl
  | case2 other rest graph inst waits _ _ _ same ih =>
    rw [same] at ih
    rw [ih, countP_cons]
    by_cases equal : flatIndex = other
    · subst equal
      simp [waitsFor, waits, DependencyGraph.insert, replicate_succ']
    · simp [waitsFor, DependencyGraph.insert, equal, Ne.symm equal]
  | case3 other rest graph inst some _ _ _ same ih =>
    rw [same] at ih
    rw [ih, countP_cons]
    have late : (waitsFor flatIndex ⟨.renamed other, false⟩ && !regScoreboard flatIndex) = false := by
      by_cases equal : other = flatIndex
      · subst equal
        simp [some]
      · simp [waitsFor, equal]
    rw [late]
    rfl
  | case4 src rest graph inst ready _ _ _ same ih =>
    rw [same] at ih
    rw [ih, countP_cons]
    rw [(not_waitsFor ready).1]
    rfl

/-- The loop over the sources changes only what the instruction knows about its sources. -/
theorem addToDependentsLoop_inst : (addToDependentsLoop regScoreboard seqNum srcs graph inst).2.1 = { inst with
      readyRegs := (addToDependentsLoop regScoreboard seqNum srcs graph inst).2.1.readyRegs
      canIssue := (addToDependentsLoop regScoreboard seqNum srcs graph inst).2.1.canIssue } := by
  fun_induction addToDependentsLoop regScoreboard seqNum srcs graph inst with
  | case1 => rfl
  | case2 _ _ _ _ _ _ _ _ same ih | case3 _ _ _ _ _ _ _ _ same ih | case4 _ _ _ _ _ _ _ _ same ih =>
    rw [same] at ih
    exact ih

/-- The loop over the sources counts the sources that became ready early. -/
theorem addToDependentsLoop_ready (small : inst.numSrcRegs < 2 ^ 8)
    (room : inst.readyRegs + srcs.countP (early regScoreboard) ≤ inst.numSrcRegs)
    (issue : inst.canIssue = true ↔ inst.readyRegs = inst.numSrcRegs) :
    let changed := (addToDependentsLoop regScoreboard seqNum srcs graph inst).2.1
    changed.readyRegs = inst.readyRegs + srcs.countP (early regScoreboard) ∧
      (changed.canIssue = true ↔ changed.readyRegs = inst.numSrcRegs) := by
  fun_induction addToDependentsLoop regScoreboard seqNum srcs graph inst with
  | case1 => exact ⟨rfl, issue⟩
  | case2 other rest graph inst waits _ _ _ same ih =>
    have late : early regScoreboard ⟨.renamed other, false⟩ = false := waits
    rw [countP_cons_of_neg (by simp [late])] at room ⊢
    have rest := ih small room issue
    rw [same] at rest
    exact rest
  | case3 other rest graph inst some _ _ _ same ih =>
    have early : early regScoreboard ⟨.renamed other, false⟩ = true := by simpa [early] using some
    rw [countP_cons_of_pos early] at room ⊢
    have wrap : (inst.readyRegs + 1) % 2 ^ 8 = inst.readyRegs + 1 := Nat.mod_eq_of_lt (by omega)
    have marked : inst.markSrcRegReady.readyRegs = inst.readyRegs + 1 := wrap
    have bit : inst.markSrcRegReady.canIssue = true ↔ inst.markSrcRegReady.readyRegs = inst.numSrcRegs := by
      simp only [DynInst.markSrcRegReady, wrap, Bool.or_eq_true, decide_eq_true_eq, issue]
      omega
    have rest := ih small (by rw [marked]; change _ ≤ inst.numSrcRegs; omega) bit
    rw [same, marked] at rest
    refine ⟨?_, rest.2⟩
    rw [rest.1]
    omega
  | case4 src rest graph inst ready _ _ _ same ih =>
    rw [countP_cons_of_neg (by simp [(not_waitsFor ready).2])] at room ⊢
    have rest := ih small room issue
    rw [same] at rest
    exact rest

end Dependents

section Producers
variable {seqNum : Nat} {dests : List (PhysReg Reg)} {graph next : DependencyGraph Reg}
  {regScoreboard scoreboard : Reg → Bool}

/-- The loop over the destinations keeps the dependents. -/
theorem addToProducersLoop_dependents
    (done : addToProducersLoop seqNum dests graph regScoreboard = .ok (next, scoreboard)) :
    next.dependents = graph.dependents := by
  fun_induction addToProducersLoop seqNum dests graph regScoreboard with
  | case1 graph regScoreboard =>
    cases done
    rfl
  | case2 rest graph regScoreboard ih => exact ih done
  | case3 other rest graph regScoreboard some => simp at done
  | case4 other rest graph regScoreboard none ih => exact ih done

end Producers

section Squash
variable {seqNum : Nat} {srcs : List (SrcReg Reg)} {dests : List (PhysReg Reg)} {graph next : DependencyGraph Reg}

theorem removeSources_sublist (done : srcs.foldlM (removeSource seqNum) graph = .ok next) (flatIndex : Reg) :
    (next.dependents flatIndex).Sublist (graph.dependents flatIndex) := by
  refine foldlM_invariant (fun middle => (middle.dependents flatIndex).Sublist (graph.dependents flatIndex)) (.refl _)
    ?_ done
  intro middle src next fewer turn
  unfold removeSource at turn
  split at turn
  · exact (DependencyGraph.remove_sublist turn flatIndex).trans fewer
  · cases turn
    exact fewer

theorem clearDests_eq (done : dests.foldlM clearDest graph = .ok next) : next.dependents = graph.dependents := by
  refine foldlM_invariant (·.dependents = graph.dependents) rfl ?_ done
  intro middle dest next same turn
  cases dest with
  | fixedMapping =>
    cases turn
    exact same
  | renamed flatIndex =>
    cases (assert_bind_eq_ok.mp turn).2
    exact same

end Squash

end InstQueue
end Gem5.O3
