import TableScript.Eval

/-!
# What operators and readers give

A *scalar* is a value that is neither a table nor a list.  Operators give scalars, whatever their
operands are, and what is read from a literal or from an input line is one.  So tables come from
table constructors and lists from a `return` only.
-/

namespace TableScript

namespace Value

/-- Whether a value is neither a table nor a list. -/
def isScalar : Value → Bool
  | .table _ | .list _ => false
  | _ => true

/-- A number is neither. -/
theorem isScalar_of_isNumber {value : Value} (hnumber : value.isNumber = true) :
    value.isScalar = true := by
  cases value with
  | integer value | float value => rfl
  | _ => cases hnumber

end Value

namespace Operator

/-- Arithmetic gives a number. -/
theorem arithmetic_isNumber {operator : BinaryOperator} {left right value : Value}
    (hresult : arithmetic operator left right = .ok value) : value.isNumber = true := by
  unfold arithmetic at hresult
  split at hresult
  · simp only [Except.map] at hresult
    split at hresult
    · cases hresult
    · cases hresult
      rfl
  · simp only [bind, Except.bind, pure, Except.pure] at hresult
    grind [Value.isNumber]

theorem power_isScalar {left right value : Value} (hresult : power left right = .ok value) :
    value.isScalar = true := by
  simp only [power, bind, Except.bind, pure, Except.pure, throw, throwThe,
    MonadExceptOf.throw] at hresult
  grind [Value.isScalar]

theorem binary_isScalar {operator : BinaryOperator} {left right value : Value}
    (hresult : binary operator left right = .ok value) : value.isScalar = true := by
  cases operator with
  | add | subtract | multiply | divide | modulo =>
      exact Value.isScalar_of_isNumber (arithmetic_isNumber hresult)
  | power => exact power_isScalar hresult
  | concat | equal | notEqual | less | lessEqual | greater | greaterEqual =>
      cases hresult
      rfl
  | and | or => cases hresult

theorem unary_isScalar {operator : UnaryOperator} {operand value : Value}
    (hresult : unary operator operand = .ok value) : value.isScalar = true := by
  unfold unary at hresult
  split at hresult <;> cases hresult <;> rfl

end Operator

namespace Eval

/-- A counter that is moved on stays a number. -/
theorem advance_isNumber {counter step next : Value}
    (hadvance : advance counter step = .ok (some next)) : next.isNumber = true := by
  unfold advance at hadvance
  split at hadvance
  · dsimp only at hadvance
    split at hadvance
    · cases hadvance
      rfl
    · cases hadvance
  · cases hsum : Operator.arithmetic .add counter step with
    | ok sum =>
        rw [hsum] at hadvance
        cases hadvance
        exact Operator.arithmetic_isNumber hsum
    | error cause =>
        rw [hsum] at hadvance
        cases hadvance

end Eval

namespace Reading

theorem ofLiteral_isScalar {form : NumberForm} {text : String} {value : Value}
    (hread : ofLiteral form text = .ok value) : value.isScalar = true := by
  unfold ofLiteral at hread
  split at hread
  · split at hread
    · cases hread
      rfl
    · cases hread
  · split at hread
    · cases hread
      rfl
    · cases hread

theorem ofLine_isScalar {line : String} {value : Value} (hread : ofLine line = .ok value) :
    value.isScalar = true := by
  unfold ofLine at hread
  dsimp only at hread
  split at hread
  · split at hread
    · cases hread
      rfl
    · cases hread
  · split at hread
    · cases hread
      rfl
    · cases hread

end Reading

end TableScript
