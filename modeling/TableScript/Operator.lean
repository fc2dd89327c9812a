import TableScript.Fault
import TableScript.Number.Numeral

/-!
# Operators on values

What the operators give on values that have been evaluated.  Two integers stay integers and wrap
around at 64 bits; any other arithmetic is done in floating point, on numbers and on texts that
are decimal numerals.  `and` and `or` are not here: they may leave their second operand
unevaluated.
-/

namespace TableScript.Operator

/-! ## Arithmetic -/

/-- The floored remainder: zero, or of the sign of the divisor.  The truncated remainder is
corrected when its sign bit differs from the divisor's. -/
def flooredRemainder (left right : Int64) : Int64 :=
  let remainder := left % right
  if remainder ≠ 0 ∧ remainder ^^^ right < 0 then remainder + right else remainder

/-- Arithmetic on two integers. -/
def integerArithmetic (operator : BinaryOperator) (left right : Int64) : Except Cause Int64 :=
  match operator with
  | .add => .ok (left + right)
  | .subtract => .ok (left - right)
  | .multiply => .ok (left * right)
  | .divide => if right = 0 then .error .divisionByZero else .ok (left / right)
  | .modulo => if right = 0 then .error .remainderByZero else .ok (flooredRemainder left right)
  | _ => .error (.notArithmetic operator)

/-- Arithmetic on two floating-point numbers. -/
def floatArithmetic (operator : BinaryOperator) (left right : Float) : Except Cause Float :=
  match operator with
  | .add => .ok (left + right)
  | .subtract => .ok (left - right)
  | .multiply => .ok (left * right)
  | .divide => .ok (left / right)
  | .modulo => .ok (left - (left / right).floor * right)
  | _ => .error (.notArithmetic operator)

/-- An operand as a floating-point number: a number itself, or a text that is a decimal
numeral. -/
def toFloat (operator : BinaryOperator) : Value → Except Cause Float
  | .integer value => .ok (Number.ofInteger value)
  | .float value => .ok value
  | .string text =>
    match Number.parseFloat? text with
    | some value => .ok value
    | none => .error (.notDecimal operator text)
  | operand => .error (.notNumeric operator operand)

/-- Addition, subtraction, multiplication, division and remainder. -/
def arithmetic (operator : BinaryOperator) (left right : Value) : Except Cause Value :=
  match left, right with
  | .integer leftInteger, .integer rightInteger =>
    (integerArithmetic operator leftInteger rightInteger).map .integer
  | left, right => do
    let leftFloat ← toFloat operator left
    let rightFloat ← toFloat operator right
    let result ← floatArithmetic operator leftFloat rightFloat
    return .float result

/-- A power, whose exponent has to be a whole number. -/
def power (left right : Value) : Except Cause Value := do
  let base ← toFloat .power left
  let exponent ← toFloat .power right
  if Number.isWhole exponent then return .float (base.pow exponent)
  else throw (.fractionalExponent right)

/-! ## Text and order -/

/-- The texts of two values, one after the other. -/
def concat (left right : Value) : Value := .string (left.text ++ right.text)

/-- Whether two values are in the order that an operator asks for.  Values without an order are
in none. -/
def ordered (operator : BinaryOperator) (left right : Value) : Bool :=
  match left.compare right with
  | none => false
  | some ordering =>
    match operator with
    | .less => ordering == .lt
    | .lessEqual => ordering != .gt
    | .greater => ordering == .gt
    | .greaterEqual => ordering != .lt
    | _ => false

/-! ## All operators -/

/-- What a binary operator gives. -/
def binary (operator : BinaryOperator) (left right : Value) : Except Cause Value :=
  match operator with
  | .add | .subtract | .multiply | .divide | .modulo => arithmetic operator left right
  | .power => power left right
  | .concat => .ok (concat left right)
  | .equal => .ok (.boolean (left.equals right))
  | .notEqual => .ok (.boolean (!left.equals right))
  | .less | .lessEqual | .greater | .greaterEqual => .ok (.boolean (ordered operator left right))
  | .and | .or => .error (.lazyOperator operator)

/-- What a unary operator gives. -/
def unary (operator : UnaryOperator) (operand : Value) : Except Cause Value :=
  match operator, operand with
  | .negate, .integer value => .ok (.integer (-value))
  | .negate, .float value => .ok (.float (-value))
  | .negate, operand => .error (.notNegatable operand)
  | .not, .boolean value => .ok (.boolean (!value))
  | .not, operand => .error (.notInvertible operand)
  | .length, .list items => .ok (.integer (Int64.ofNat items.length))
  | .length, operand => .error (.noLength operand)

end TableScript.Operator
