import TableScript.Number.Binary
import TableScript.Value.Basic

/-!
# Equality and order of values

Values of one kind are compared as what they are: numbers by magnitude, texts by the codes of
their characters, tables by identity.  Values of different kinds are compared by their texts,
with two exceptions: nil equals nothing but itself, and integers and floating-point numbers are
ordered by magnitude.
-/

namespace TableScript

/-- The order of two floating-point numbers; none if one of them is not a number. -/
def Number.compareFloats (left right : Float) : Option Ordering :=
  if left < right then some .lt
  else if left == right then some .eq
  else if right < left then some .gt
  else none

namespace Value

/-- Whether two values are equal in the language. -/
def equals : Value → Value → Bool
  | .nil, .nil => true
  | .nil, _ => false
  | _, .nil => false
  | .boolean left, .boolean right => left == right
  | .integer left, .integer right => left == right
  | .float left, .float right => left == right
  | .string left, .string right => left == right
  | .table left, .table right => left == right
  | left, right => left.text == right.text

/-- The order of two values in the language.  Only two numbers can be without an order. -/
def compare : Value → Value → Option Ordering
  | .integer left, .integer right => some (Ord.compare left.toInt right.toInt)
  | .float left, .float right => Number.compareFloats left right
  | .integer left, .float right => Number.compareFloats (Number.ofInteger left) right
  | .float left, .integer right => Number.compareFloats left (Number.ofInteger right)
  | left, right => some (Ord.compare left.text right.text)

end Value

end TableScript
