import TableScript.Number.IntegerText
import TableScript.Number.Shortest

/-!
# The text of a floating-point number

A number is written so that it can be told from an integer and reads back as itself: whole
numbers keep a point and a zero, other numbers of middling size are written positionally with the
fewest digits that read back, and very large or very small ones with an exponent.
-/

namespace TableScript.Number

namespace Decimal

/-- The decimal as one digit, a point and further digits if there are any, and an exponent
without a plus sign. -/
def scientific (decimal : Decimal) : List Char :=
  let digits := digitsOf decimal.digits
  let power := decimal.exponent + digits.length - 1
  let mantissa := match digits with
    | first :: second :: rest => first :: '.' :: second :: rest
    | short => short
  mantissa ++ 'e' :: integerText power

/-- The decimal without an exponent: zeros fill the places that its digits do not reach. -/
def positional (decimal : Decimal) : List Char :=
  let digits := digitsOf decimal.digits
  let places := (-decimal.exponent).toNat
  if places = 0 then digits ++ List.replicate decimal.exponent.toNat '0'
  else if places < digits.length then
    digits.take (digits.length - places) ++ '.' :: digits.drop (digits.length - places)
  else '0' :: '.' :: List.replicate (places - digits.length) '0' ++ digits

end Decimal

/-- Where positional writing starts: magnitudes below this one have an exponent. -/
def leastPositional : Float := 1e-5

/-- Where positional writing ends: magnitudes from this one on have an exponent. -/
def positionalLimit : Float := 1e16

/-- The text of a finite magnitude without its sign. -/
def magnitudeText (number : Float) (significand : Nat) (exponent : Int) : List Char :=
  if significand ≠ 0 ∧ ¬ (leastPositional ≤ number.abs ∧ number.abs < positionalLimit) then
    (shortest significand exponent).scientific
  else if isWhole number then digitsOf (decode number).wholePart ++ ['.', '0']
  else (shortest significand exponent).positional

/-- The text of a floating-point number. -/
def floatText (number : Float) : String :=
  match decode number with
  | .nan => "nan"
  | .infinite negative => if negative then "-inf" else "inf"
  | .finite negative significand exponent =>
    let magnitude := magnitudeText number significand exponent
    String.ofList (if negative then '-' :: magnitude else magnitude)

end TableScript.Number
