/-!
# The text of an integer
-/

namespace TableScript.Number

/-- The digits of a natural number. -/
def digitsOf (number : Nat) : List Char := Nat.toDigits 10 number

/-- An integer in decimal, with a minus sign if it is negative. -/
def integerText (integer : Int) : List Char :=
  if integer < 0 then '-' :: digitsOf integer.natAbs else digitsOf integer.natAbs

end TableScript.Number
