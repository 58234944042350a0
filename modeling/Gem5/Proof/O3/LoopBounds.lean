import Gem5.Construction.O3.LoopBoundPredictor

namespace Gem5.O3.LoopBoundaryPredictor
open ToMathlib

/-- A conditional branch comes with the load of its loop and its first operand. -/
structure Branch where
  strideLoadPC : BitVec 64
  pc : BitVec 64
  npc : BitVec 64
  operand : BitVec 64
deriving DecidableEq, Repr

/-- The first operand is recorded for both sources. -/
def Branch.compare (branch : Branch) : LastCompare := ⟨branch.pc, branch.operand, branch.operand⟩

def deliver (predictor : LoopBoundaryPredictor) (branch : Branch) : Except Fault LoopBoundaryPredictor :=
  predictor.updateLoopBoundaryDetector branch.strideLoadPC branch.pc branch.npc branch.operand

/-- The predictor receives one branch after the other. -/
def branches : Machine LoopBoundaryPredictor Branch Fault := ⟨fun _ _ => True, deliver⟩

/-- The branch jumps back before itself and before the load. -/
def Branch.Backward (branch : Branch) : Prop := branch.npc ≤ branch.strideLoadPC ∧ branch.npc ≤ branch.pc

/-- This entry of the table belongs to the load. -/
def entry (predictor : LoopBoundaryPredictor) (strideLoadPC : BitVec 64) : Option LoopBoundaryComponents :=
  (predictor.lbps (predictor.idx strideLoadPC)).filter fun entry => entry.tag = predictor.tag strideLoadPC

/-- A branch that the detector of the load already follows has the operand that the detector recorded. -/
def Steady (predictor : LoopBoundaryPredictor) (branch : Branch) : Prop :=
  branch.Backward → ∀ entry ∈ predictor.entry branch.strideLoadPC, entry.detector.lc.pc = branch.pc →
    entry.detector.lc.src1 = branch.operand

/-- A detector has recorded one operand twice and has no increment. -/
structure Blank (detector : LoopBoundaryDetector) : Prop where
  same : detector.lc.src2 = detector.lc.src1
  increment : detector.loopIncrement = 0
  number : detector.loopNumber = 0

/-- Every detector of the table is blank. -/
def Untaught (predictor : LoopBoundaryPredictor) : Prop := ∀ index, ∀ entry ∈ predictor.lbps index, Blank entry.detector

variable {predictor next : LoopBoundaryPredictor} {branch : Branch} {detector : LoopBoundaryDetector}
  {nEntry n : BitVec 8} {hasEntries : nEntry ≠ 0} {ops : List Branch}

/-- The detector of the load follows the branch and has its operand. -/
def Recorded (predictor : LoopBoundaryPredictor) (branch : Branch) : Prop :=
  ∃ entry, predictor.entry branch.strideLoadPC = some entry ∧ entry.detector.lc.pc = branch.pc ∧
    entry.detector.lc.src1 = branch.operand

theorem Recorded.steady (recorded : Recorded predictor branch) : Steady predictor branch := by
  obtain ⟨entry, found, _, operand⟩ := recorded
  intro _ other member _
  cases found.symm.trans member
  exact operand

/-- A blank detector keeps its operand or divides by its missing increment. -/
theorem Blank.updateLoopIncrement (blank : Blank detector) (pc operand : BitVec 64) :
    detector.updateLoopIncrement ⟨pc, operand, operand⟩ =
      if detector.lc.src1 = operand then .ok detector else .error .arithmetic := by
  obtain ⟨same, increment, _⟩ := blank
  unfold LoopBoundaryDetector.updateLoopIncrement
  rw [same, increment]
  by_cases equal : detector.lc.src1 = operand
  · simp [equal]
  · simp [equal, divide, bind, Except.bind]

/-- A stored blank detector records its operand. -/
theorem Untaught.store (untaught : Untaught predictor) (branch : Branch) (detector : LoopBoundaryDetector)
    (blank : Blank detector) (pc : detector.lc.pc = branch.pc) (operand : detector.lc.src1 = branch.operand) :
    Untaught (predictor.store branch.strideLoadPC detector) ∧
      Recorded (predictor.store branch.strideLoadPC detector) branch := by
  constructor
  · exact (Function.forall_update_iff predictor.lbps fun _ found => ∀ entry ∈ found, Blank entry.detector).mpr
      ⟨fun entry same => Option.some.inj same ▸ blank, fun index _ => untaught index⟩
  · refine ⟨⟨predictor.tag branch.strideLoadPC, detector⟩, ?_, pc, operand⟩
    exact Option.filter_eq_some_iff.mpr ⟨Function.update_self _ _ _, decide_eq_true rfl⟩

/-- A steady backward branch is recorded, and a branch that is not steady divides by zero. -/
theorem Untaught.deliver (untaught : Untaught predictor) (branch : Branch) :
    (Steady predictor branch ∧ ∃ next, predictor.deliver branch = .ok next ∧ Untaught next ∧
      (branch.Backward → Recorded next branch)) ∨
    (¬ Steady predictor branch ∧ predictor.deliver branch = .error .arithmetic) := by
  unfold LoopBoundaryPredictor.deliver updateLoopBoundaryDetector
  have skipped : (branch.strideLoadPC < branch.npc ∨ branch.pc < branch.npc) ↔ ¬ branch.Backward := by
    rw [Branch.Backward, not_and_or, BitVec.not_le, BitVec.not_le]
  by_cases backward : branch.Backward
  · rw [if_neg (mt skipped.mp (not_not.mpr backward))]
    have relabeled : Untaught { predictor with lc := branch.compare } := untaught
    dsimp only
    split
    next missing =>
      obtain ⟨kept, recorded⟩ := relabeled.store branch (.new branch.compare) ⟨rfl, rfl, rfl⟩ rfl rfl
      exact Or.inl ⟨fun _ _ member => (nomatch missing.symm.trans member), _, rfl, kept, fun _ => recorded⟩
    next entry found =>
      have blank := untaught _ entry (Option.filter_eq_some_iff.mp found).1
      have steady (same : entry.detector.lc.pc = branch.pc → entry.detector.lc.src1 = branch.operand) :
          Steady predictor branch := by
        intro _ other member
        cases found.symm.trans member
        exact same
      by_cases known : entry.detector.lc.pc = branch.pc
      · rw [if_neg (not_not.mpr known), blank.updateLoopIncrement]
        by_cases same : entry.detector.lc.src1 = branch.operand
        · rw [if_pos same]
          obtain ⟨kept, recorded⟩ := relabeled.store branch entry.detector blank known same
          exact Or.inl ⟨steady fun _ => same, _, rfl, kept, fun _ => recorded⟩
        · rw [if_neg same]
          exact Or.inr ⟨fun steady => same (steady backward entry found known), rfl⟩
      · rw [if_pos known]
        obtain ⟨kept, recorded⟩ := relabeled.store branch { entry.detector with lc := branch.compare }
          ⟨rfl, blank.increment, blank.number⟩ rfl rfl
        exact Or.inl ⟨steady fun pc => absurd pc known, _, rfl, kept, fun _ => recorded⟩
  · rw [if_pos (skipped.mpr backward)]
    exact Or.inl ⟨fun other => absurd other backward, _, rfl, untaught, fun other => absurd other backward⟩

theorem untaught_of_run (run : branches.Run (initial nEntry hasEntries n) ops predictor) : Untaught predictor := by
  refine run.invariant Untaught (fun _ entry member => absurd member (Option.not_mem_none entry)) ?_
  intro state branch next held _ stepped
  rcases held.deliver branch with ⟨_, _, done, kept, _⟩ | ⟨_, failed⟩
  · cases done.symm.trans stepped
    exact kept
  · cases failed.symm.trans stepped

/-- Along every run the next branch is handled without a division by zero exactly when it is steady. -/
theorem detector_divides_by_zero_iff (run : branches.Run (initial nEntry hasEntries n) ops predictor)
    (branch : Branch) :
    (Steady predictor branch → ∃ next, predictor.deliver branch = .ok next) ∧
    (¬ Steady predictor branch → predictor.deliver branch = .error .arithmetic) := by
  rcases (untaught_of_run run).deliver branch with ⟨steady, next, done, _⟩ | ⟨unsteady, failed⟩
  · exact ⟨fun _ => ⟨next, done⟩, fun other => absurd steady other⟩
  · exact ⟨fun steady => absurd steady unsteady, fun _ => failed⟩

theorem detector_divides_by_zero_iff_loop :
    ∃ predictor, branches.Run (initial 1 (by decide) 8) [⟨8, 8, 4, 5⟩] predictor ∧
      Steady predictor ⟨8, 8, 4, 5⟩ ∧ ∃ next, predictor.deliver ⟨8, 8, 4, 5⟩ = .ok next := by
  refine ⟨_, and_of_imp (.cons .nil trivial rfl) fun run => ?_⟩
  refine and_of_imp (Recorded.steady ?_) (detector_divides_by_zero_iff run _).1
  exact ⟨_, rfl, rfl, rfl⟩

/-- The second arrival of a branch with another operand divides by zero. -/
theorem changed_operand_divides_by_zero :
    ∃ predictor, branches.Run (initial 1 (by decide) 8) [⟨8, 8, 4, 5⟩] predictor ∧
      predictor.deliver ⟨8, 8, 4, 6⟩ = .error .arithmetic :=
  ⟨_, .cons .nil trivial rfl, rfl⟩

/-- A counted loop compares its induction variable with its bound in the branch that closes it. -/
structure CountedLoop where
  strideLoadPC : BitVec 64
  pc : BitVec 64
  npc : BitVec 64
  start : Int
  bound : Int
  step : Int
  moves : step ≠ 0
  short : step.natAbs < 2 ^ 15
  inductionFirst : Bool

namespace CountedLoop

def current (loop : CountedLoop) (iteration : Nat) : Int := loop.start + iteration * loop.step

/-- The branch has the induction variable and the bound in its two operands. -/
def sources (loop : CountedLoop) (iteration : Nat) : BitVec 64 × BitVec 64 :=
  if loop.inductionFirst then (.ofInt 64 (loop.current iteration), .ofInt 64 loop.bound)
  else (.ofInt 64 loop.bound, .ofInt 64 (loop.current iteration))

def closing (loop : CountedLoop) (iteration : Nat) : Branch :=
  ⟨loop.strideLoadPC, loop.pc, loop.npc, (loop.sources iteration).1⟩

/-- This quotient is the number of iterations between the induction variable and the bound. -/
def left (loop : CountedLoop) (iteration : Nat) : Int := (loop.bound - loop.current iteration).tdiv loop.step

end CountedLoop

/-- The detector handles the branches of the first iterations of a loop. -/
def CountedLoop.deliver (loop : CountedLoop) (iterations : Nat) (predictor : LoopBoundaryPredictor) :
    Except Fault LoopBoundaryPredictor :=
  (List.range iterations).foldlM (fun state iteration => state.deliver (loop.closing iteration)) predictor

/-- The prediction is right for a loop whose branch the detector follows only if the bound is in the first operand and
nothing is left or asked for. Otherwise the answer is the one of the table before the loop. -/
def Foreseen (predictor : LoopBoundaryPredictor) (loop : CountedLoop) (rest : Int) (loopNumber : BitVec 16) : Prop :=
  ((loop.closing 0).Backward →
    loop.inductionFirst = false ∧ Steady predictor (loop.closing 0) ∧ (rest = 0 ∨ predictor.n = 0)) ∧
  (¬ (loop.closing 0).Backward → match predictor.lbps (predictor.idx loop.strideLoadPC) with
    | none => predictor.n.toNat ≤ rest
    | some entry =>
      if entry.tag = predictor.tag loop.strideLoadPC then rest = 0 ∨ predictor.n = 0
      else (loopNumber.toNat : Int) = min (predictor.n.toNat : Int) rest)

section Loops
variable {loop : CountedLoop} {last : Nat} {rest : Int} {loopNumber : BitVec 16}

/-- A blank detector of the load answers zero. -/
theorem Untaught.getLoopNumber (untaught : Untaught predictor) {strideLoadPC : BitVec 64}
    {entry : LoopBoundaryComponents} (found : predictor.lbps (predictor.idx strideLoadPC) = some entry)
    (tag : entry.tag = predictor.tag strideLoadPC) (loopNumber : BitVec 16) :
    predictor.getLoopNumber strideLoadPC loopNumber = 0 := by
  have number : entry.detector.loopNumber = 0 := (untaught _ _ found).number
  simp [LoopBoundaryPredictor.getLoopNumber, found, tag, number]

/-- The detector answers zero for a loop that it follows with the bound in the first operand. -/
theorem Untaught.follow (untaught : Untaught predictor) (backward : (loop.closing 0).Backward)
    (boundFirst : loop.inductionFirst = false) (steady : Steady predictor (loop.closing 0)) (last : Nat)
    (loopNumber : BitVec 16) : ∃ next, loop.deliver (last + 1) predictor = .ok next ∧
      next.getLoopNumber loop.strideLoadPC loopNumber = 0 := by
  have same : ∀ iteration, loop.closing iteration = loop.closing 0 := by
    intro iteration
    simp [CountedLoop.closing, CountedLoop.sources, boundFirst]
  obtain ⟨next, done, held, _, recorded⟩ := foldlM_range_ok
    (fun count state =>
      Untaught state ∧ Steady state (loop.closing 0) ∧ (0 < count → Recorded state (loop.closing 0)))
    ⟨untaught, steady, fun none => absurd none (Nat.lt_irrefl 0)⟩ fun iteration _ state held => by
      rcases held.1.deliver (loop.closing iteration) with ⟨_, next, done, kept, recorded⟩ | ⟨unsteady, _⟩
      · have now := recorded (same iteration ▸ backward)
        rw [same] at now
        exact ⟨next, done, kept, now.steady, fun _ => now⟩
      · rw [same] at unsteady
        exact absurd held.2.1 unsteady
  obtain ⟨entry, found, _⟩ := recorded (Nat.succ_pos last)
  obtain ⟨member, tag⟩ := Option.filter_eq_some_iff.mp found
  exact ⟨next, done, held.getLoopNumber member (of_decide_eq_true tag) loopNumber⟩

/-- A loop that the detector follows through two iterations is steady and has the bound in its first operand. -/
theorem Untaught.followed (untaught : Untaught predictor) (backward : (loop.closing 0).Backward)
    (done : loop.deliver (last + 2) predictor = .ok next) :
    loop.inductionFirst = false ∧ Steady predictor (loop.closing 0) := by
  rw [CountedLoop.deliver, List.range_succ_eq_map, List.range_succ_eq_map, List.map_cons, List.foldlM_cons] at done
  obtain ⟨first, stepped, done⟩ := bind_eq_ok.mp done
  rw [List.foldlM_cons] at done
  obtain ⟨second, again, _⟩ := bind_eq_ok.mp done
  rcases untaught.deliver (loop.closing 0) with ⟨steady, _, same, kept, recorded⟩ | ⟨_, failed⟩
  · cases same.symm.trans stepped
    refine ⟨?_, steady⟩
    rcases kept.deliver (loop.closing 1) with ⟨still, _⟩ | ⟨_, failed⟩
    · obtain ⟨entry, found, pc, operand⟩ := recorded backward
      have operands := operand.symm.trans (still backward entry found pc)
      by_contra boundLater
      have variableFirst := Bool.eq_true_of_not_eq_false boundLater
      have moves := loop.moves
      have short := loop.short
      -- Two values of the induction variable are a step apart.
      simp only [CountedLoop.closing, CountedLoop.sources, CountedLoop.current, variableFirst, if_true] at operands
      have values := congrArg BitVec.toNat operands
      simp only [BitVec.toNat_ofInt] at values
      omega
    · cases failed.symm.trans again
  · cases failed.symm.trans stepped

end Loops

end Gem5.O3.LoopBoundaryPredictor
