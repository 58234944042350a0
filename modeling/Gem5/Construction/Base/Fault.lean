import Gem5.ToMathlib.Simulation

namespace Gem5

/-- A fault stops the simulator with the text that it prints. -/
inductive Fault where
  | panic (message : String)
  | fatal (message : String)
  | assertion (condition : String)
  | nullDereference
  | danglingIterator
  | outOfBounds
  | endlessLoop
  | arithmetic
deriving DecidableEq, Repr

/-- The `assert` of the source with the text of its condition. -/
def assert (condition : Prop) [Decidable condition] (text : String) : Except Fault Unit :=
  if condition then .ok () else .error (.assertion text)

@[simp] theorem assert_eq_ok {condition : Prop} [Decidable condition] {text : String} {value : Unit} :
    assert condition text = .ok value ↔ condition := by
  unfold assert
  split <;> simp_all

@[simp] theorem assert_of {condition : Prop} [Decidable condition] {text : String} (holds : condition) :
    assert condition text = .ok () := by
  simp [holds]

/-- What follows an assertion is reached exactly when the condition holds. -/
theorem assert_bind_eq_ok {Result : Type} {condition : Prop} [Decidable condition] {text : String}
    {next : Unit → Except Fault Result} {result : Result} :
    assert condition text >>= next = .ok result ↔ condition ∧ next () = .ok result := by
  by_cases holds : condition <;> simp [assert, holds]

/-- Equivalent assertions agree, and what follows them may use the condition. -/
theorem Agree.assert {Left Right : Type} {related : Left → Right → Prop} {condition other : Prop}
    [Decidable condition] [Decidable other] {text : String} {left : Except Fault Left}
    {right : Except Fault Right} (same : condition ↔ other)
    (follows : condition → ToMathlib.Agree related left right) :
    ToMathlib.Agree related (Gem5.assert condition text >>= fun _ => left)
      (Gem5.assert other text >>= fun _ => right) := by
  by_cases holds : condition
  · simpa [Gem5.assert, holds, ← same] using follows holds
  · simp [Gem5.assert, holds, ← same]

end Gem5
