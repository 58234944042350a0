import Mathlib

namespace Gem5.ToMathlib
open List
variable {Error : Type*} {Value Result : Type} {next : Value → Except Error Result}

/-- A sequence succeeds exactly when its first part succeeds and its second part does after it. -/
theorem bind_eq_ok {first : Except Error Value} {result : Result} :
    first >>= next = .ok result ↔ ∃ value, first = .ok value ∧ next value = .ok result := by
  cases first with
  | error fault | ok value => simp [Bind.bind, Except.bind]

/-- A sequence that ends with a result returns it exactly when its first part succeeds. -/
theorem bind_ok_eq_ok {first : Except Error Value} {result : Value → Result} {final : Result} :
    (first >>= fun value => .ok (result value)) = .ok final ↔ ∃ value, first = .ok value ∧ result value = final := by
  simp only [bind_eq_ok, Except.ok.injEq]

/-- A sequence that ends with a pair returns it exactly when its first part succeeds. -/
theorem bind_pair_eq_ok {Other : Type} {first : Except Error Value} {left : Value → Result} {right : Value → Other}
    {finalLeft : Result} {finalRight : Other} :
    (first >>= fun value => .ok (left value, right value)) = .ok (finalLeft, finalRight) ↔
      ∃ value, first = .ok value ∧ left value = finalLeft ∧ right value = finalRight := by
  simp only [bind_ok_eq_ok, Prod.mk.injEq]

section
variable {fails : Prop} [Decidable fails] {fault : Error} {other : Except Error Value} {value : Value}

/-- A check that fails is not passed. -/
theorem ite_error_eq_ok : (if fails then .error fault else other) = .ok value ↔ ¬ fails ∧ other = .ok value := by
  by_cases failed : fails <;> simp [failed]

theorem ite_else_error_eq_ok : (if fails then other else .error fault) = .ok value ↔ fails ∧ other = .ok value := by
  by_cases failed : fails <;> simp [failed]

end

/-- A sequence fails in its first part or in its second part. -/
theorem bind_eq_error {first : Except Error Value} {fault : Error} : first >>= next = .error fault ↔
      first = .error fault ∨ ∃ value, first = .ok value ∧ next value = .error fault := by
  cases first with
  | error other | ok value => simp [Bind.bind, Except.bind]

@[simp] theorem ok_bind {value : Value} : (Except.ok value >>= next) = next value := rfl

@[simp] theorem error_bind {fault : Error} : (Except.error fault >>= next) = .error fault := rfl

/-- A list passes through two functions if each item does. -/
theorem mapM_mapM_of_forall {Middle : Type} {first : Value → Except Error Middle} {second : Middle → Except Error Value}
    {items : List Value} (returns : ∀ item ∈ items, ∃ middle, first item = .ok middle ∧ second middle = .ok item) :
    ∃ middles, items.mapM first = .ok middles ∧ middles.mapM second = .ok items := by
  induction items with
  | nil => exact ⟨[], rfl, rfl⟩
  | cons item rest ih =>
    obtain ⟨middle, there, back⟩ := returns item mem_cons_self
    obtain ⟨middles, allThere, allBack⟩ := ih fun item member => returns item (mem_cons_of_mem _ member)
    refine ⟨middle :: middles, ?_, ?_⟩
    · rw [mapM_cons, there, allThere]
      rfl
    · rw [mapM_cons, back, allBack]
      rfl

/-- A loop over a list succeeds if each of its steps does, with an invariant over the items before the current one. -/
theorem foldlM_ok {Item : Type} (step : Value → Item → Except Error Value) (items : List Item) (start : Value)
    (Inv : List Item → Value → Prop) (initial : Inv [] start) (keeps : ∀ before item after value,
      items = before ++ item :: after → Inv before value → ∃ next, step value item = .ok next ∧ Inv (before ++ [item]) next) :
    ∃ final, items.foldlM step start = .ok final ∧ Inv items final := by
  have rest : ∀ after before value, items = before ++ after → Inv before value →
      ∃ final, after.foldlM step value = .ok final ∧ Inv items final := by
    intro after
    induction after with
    | nil =>
      intro before value parts held
      rw [append_nil] at parts
      exact ⟨value, rfl, parts ▸ held⟩
    | cons item after ih =>
      intro before value parts held
      obtain ⟨next, stepped, kept⟩ := keeps before item after value parts held
      rw [foldlM_cons, stepped]
      exact ih (before ++ [item]) next (by rw [parts, append_assoc]; rfl) kept
  exact rest items [] start rfl initial

/-- A loop over a list keeps what each of its steps keeps. -/
theorem foldlM_invariant {Item : Type} {step : Value → Item → Except Error Value} {items : List Item} {start final : Value}
    (Inv : Value → Prop) (initial : Inv start) (keeps : ∀ value item next, Inv value → step value item = .ok next → Inv next)
    (done : items.foldlM step start = .ok final) : Inv final := by
  induction items generalizing start with
  | nil =>
    cases done
    exact initial
  | cons item items ih =>
    obtain ⟨middle, turn, done⟩ := bind_eq_ok.mp done
    exact ih (keeps start item middle initial turn) done

/-- A counting loop succeeds if each of its steps does. -/
theorem foldlM_range_ok {step : Value → Nat → Except Error Value} (Inv : Nat → Value → Prop) {start : Value} {count : Nat}
    (initial : Inv 0 start)
    (keeps : ∀ index < count, ∀ value, Inv index value → ∃ next, step value index = .ok next ∧ Inv (index + 1) next) :
    ∃ final, (range count).foldlM step start = .ok final ∧ Inv count final := by
  induction count with
  | zero => exact ⟨start, rfl, initial⟩
  | succ count ih =>
    obtain ⟨middle, loop, held⟩ := ih fun index below => keeps index (Nat.lt_succ_of_lt below)
    obtain ⟨final, last, kept⟩ := keeps count (Nat.lt_succ_self count) middle held
    refine ⟨final, ?_, kept⟩
    rw [range_succ, foldlM_append, loop, ok_bind, foldlM_cons, last, ok_bind]
    rfl

end Gem5.ToMathlib
