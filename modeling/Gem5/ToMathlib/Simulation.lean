import Gem5.ToMathlib.Counting
import Gem5.ToMathlib.Except

namespace Gem5.ToMathlib

/-- A fact is given together with what follows from it. -/
theorem and_of_imp {fact other : Prop} (holds : fact) (follows : fact → other) : fact ∧ other := ⟨holds, follows holds⟩

/-- A machine performs guarded operations that return a new state or a fault. -/
structure Machine (State Op Fault : Type*) where
  guard : State → Op → Prop
  step : State → Op → Except Fault State

namespace Machine
variable {State Op Fault : Type*} (machine : Machine State Op Fault)

/-- A run keeps its operations with the newest one first. -/
inductive Run (start : State) : List Op → State → Prop
  | nil : Run start [] start
  | cons {history : List Op} {state next : State} {op : Op} (before : Run start history state)
      (allowed : machine.guard state op) (stepped : machine.step state op = .ok next) :
      Run start (op :: history) next

variable {machine} {start middle final : State} {first second : List Op}

/-- A property of the history and the state holds along every run that keeps it. -/
theorem Run.induct (Inv : List Op → State → Prop) (initial : Inv [] start)
    (keeps : ∀ history state op next, machine.Run start history state → Inv history state →
      machine.guard state op → machine.step state op = .ok next → Inv (op :: history) next)
    (run : machine.Run start first final) : Inv first final := by
  induction run with
  | nil => exact initial
  | cons before allowed stepped ih => exact keeps _ _ _ _ before ih allowed stepped

/-- A state property that every allowed step keeps holds at the end of every run. -/
theorem Run.invariant (Inv : State → Prop) (initial : Inv start)
    (keeps : ∀ state op next, Inv state → machine.guard state op → machine.step state op = .ok next → Inv next)
    (run : machine.Run start first final) : Inv final :=
  run.induct (fun _ state => Inv state) initial
    fun _ state op next _ held allowed stepped => keeps state op next held allowed stepped

end Machine

section WhileLoop
variable {State Fault : Type*} (fault : Fault) (test : State → Prop) [DecidablePred test] (body : State → State)

/-- This loop repeats its body while the test holds, and faults if `fuel` tests are not enough. -/
def whileLoop : Nat → State → Except Fault State
  | 0, _ => .error fault
  | fuel + 1, state => if test state then whileLoop fuel (body state) else .ok state

/-- A loop whose body keeps an invariant and decreases a measure ends with the invariant and without its test. -/
theorem whileLoop_spec (fuel : Nat) (state : State) (Inv : State → Prop) (measure : State → Nat)
    (keeps : ∀ state, Inv state → test state → Inv (body state) ∧ measure (body state) < measure state)
    (initial : Inv state) (enough : measure state < fuel) :
    ∃ final, whileLoop fault test body fuel state = .ok final ∧ Inv final ∧ ¬ test final := by
  induction fuel generalizing state with
  | zero => exact absurd enough (Nat.not_lt_zero _)
  | succ fuel ih =>
    rw [whileLoop]
    split
    · rename_i again
      obtain ⟨kept, less⟩ := keeps state initial again
      exact ih _ kept (Nat.lt_of_lt_of_le less (Nat.le_of_lt_succ enough))
    · rename_i stops
      exact ⟨state, rfl, initial, stops⟩

end WhileLoop

/-- Two computations agree when they fail alike or return related values. -/
def Agree {Error Left Right : Type*} (related : Left → Right → Prop) : Except Error Left → Except Error Right → Prop
  | .ok left, .ok right => related left right
  | .error fault, .error other => fault = other
  | .ok _, .error _ => False
  | .error _, .ok _ => False

namespace Agree
variable {Error : Type*} {Left Right Result Outcome : Type} {related : Left → Right → Prop}
  {final : Result → Outcome → Prop} {left : Except Error Left} {right : Except Error Right}

@[simp] theorem ok_iff {first : Left} {second : Right} :
    Agree related (.ok first : Except Error Left) (.ok second) ↔ related first second := Iff.rfl

@[simp] theorem error_iff {fault other : Error} :
    Agree related (.error fault) (.error other) ↔ fault = other := Iff.rfl

/-- Sequences agree when their parts do. -/
theorem bind {next : Left → Except Error Result} {after : Right → Except Error Outcome}
    (first : Agree related left right)
    (second : ∀ value other, related value other → Agree final (next value) (after other)) :
    Agree final (left >>= next) (right >>= after) := by
  cases left with
  | error fault =>
    cases right with
    | error other => exact first
    | ok value => exact first.elim
  | ok value =>
    cases right with
    | error other => exact first.elim
    | ok other => exact second value other first

/-- Equivalent conditions choose branches that agree. -/
theorem ite {condition same : Prop} [Decidable condition] [Decidable same] {other : Except Error Left}
    {another : Except Error Right} (equal : condition ↔ same) (first : same → Agree related left right)
    (second : ¬ same → Agree related other another) :
    Agree related (if condition then left else other) (if same then right else another) := by
  by_cases holds : same
  · rw [if_pos holds, if_pos (equal.mpr holds)]
    exact first holds
  · rw [if_neg holds, if_neg fun wrong => holds (equal.mp wrong)]
    exact second holds

theorem exists_ok {value : Left} (agree : Agree related left right) (done : left = .ok value) :
    ∃ other, right = .ok other ∧ related value other := by
  subst done
  cases right with
  | error fault => exact agree.elim
  | ok other => exact ⟨other, rfl, agree⟩

/-- Two computations that agree with a third one agree with each other. -/
theorem through {Middle : Type} {middle : Except Error Middle} {other : Right → Middle → Prop}
    {joined : Left → Middle → Prop} (join : ∀ first second third, related first second → other second third →
      joined first third) (one : Agree related left right) (two : Agree other right middle) :
    Agree joined left middle := by
  cases left with
  | error fault =>
    cases right with
    | ok value => exact one.elim
    | error same =>
      obtain rfl : fault = same := one
      cases middle with
      | ok value => exact two.elim
      | error last => exact two
  | ok value =>
    cases right with
    | error fault => exact one.elim
    | ok second =>
      cases middle with
      | error fault => exact two.elim
      | ok third => exact join value second third one two

theorem swap (agree : Agree related left right) : Agree (fun second first => related first second) right left := by
  cases left <;> cases right <;> first | exact agree | exact agree.elim | exact Eq.symm agree

end Agree

namespace Machine
variable {State Model Op Fault : Type} {machine : Machine State Op Fault} {model : Machine Model Op Fault}
  {start final : State} {first : Model} {history : List Op}

/-- A relation that every step keeps carries each run of the machine to a run of its model. -/
theorem Run.simulate (related : State → Model → Prop) (initial : related start first)
    (guards : ∀ state other op, related state other → machine.guard state op → model.guard other op)
    (steps : ∀ state other op, related state other → machine.guard state op →
      Agree related (machine.step state op) (model.step other op))
    (run : machine.Run start history final) :
    ∃ last, model.Run first history last ∧ related final last := by
  induction run with
  | nil => exact ⟨first, .nil, initial⟩
  | cons before allowed stepped ih =>
    obtain ⟨middle, reached, held⟩ := ih
    obtain ⟨last, moved, kept⟩ := (steps _ middle _ held allowed).exists_ok stepped
    exact ⟨last, .cons reached (guards _ middle _ held allowed) moved, kept⟩

end Machine
end Gem5.ToMathlib
