import Mathlib.Order.Basic

/-!
When a computation that can fail returns a value.
-/

namespace Fallible

variable {Error Other Value Result : Type} {first result : Except Error Value}
  {next : Value → Except Error Result} {error : Error} {condition : Prop}

theorem bind_eq_ok {result : Result} :
    (first >>= next) = .ok result ↔ ∃ value, first = .ok value ∧ next value = .ok result := by
  cases first <;> simp [bind, Except.bind]

theorem bind_of_ok {value : Value} (succeeds : first = .ok value) :
    (first >>= next) = next value := by
  rw [succeeds]
  rfl

theorem bind_eq_error : (first >>= next) = .error error ↔
      first = .error error ∨ ∃ value, first = .ok value ∧ next value = .error error := by
  cases first <;> simp [bind, Except.bind]

theorem mapError_eq_ok {convert : Error → Other} {value : Value} :
    first.mapError convert = .ok value ↔ first = .ok value := by
  cases first <;> simp [Except.mapError]

theorem ite_error_eq_ok [Decidable condition] {value : Value} :
    (if condition then .error error else first) = .ok value ↔ ¬condition ∧ first = .ok value := by
  split <;> simp_all

theorem ite_eq_ok [Decidable condition] {value : Value} :
    (if condition then first else .error error) = .ok value ↔ condition ∧ first = .ok value := by
  split <;> simp_all

theorem pure_eq_ok {value result : Value} :
    (pure value : Except Error Value) = .ok result ↔ value = result := by
  simp [pure, Except.pure]

def value (result : Except Error Value) (succeeds : result.isOk = true) : Value :=
  match result, succeeds with
  | .ok value, _ => value

theorem eq_value (succeeds : result.isOk = true) : result = .ok (value result succeeds) := by
  cases result with
  | error error => simp [Except.isOk, Except.toBool] at succeeds
  | ok value => rfl

def failure : Except Error Value → Option Error
  | .ok _ => none
  | .error error => some error

theorem failure_eq_some : failure result = some error ↔ result = .error error := by
  cases result <;> simp [failure]

end Fallible
