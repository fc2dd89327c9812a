import TableScript.Number.Binary

/-!
# The nearest floating-point number to a fraction

The bit patterns of the floating-point numbers that are not negative count through these numbers in
their order, from zero to infinity.  So a fraction is rounded by finding the pattern of the last
number that is not above it, and choosing between this pattern and the next one: the nearer number
is taken, and of two that are equally near the one with the even significand.  All arithmetic is on
natural numbers and exact.
-/

namespace TableScript.Number

/-- The bit pattern of infinity. -/
def infinityBits : Nat := 2047 * Nat.pow 2 fractionBits

/-- A fraction in units of `2 ^ exponent`, as another fraction. -/
def inUnits (numerator denominator : Nat) (exponent : Int) : Nat × Nat :=
  (numerator * Nat.pow 2 (-exponent).toNat, denominator * Nat.pow 2 exponent.toNat)

/-- The whole number of units of `2 ^ exponent` in a fraction. -/
def wholeUnits (numerator denominator : Nat) (exponent : Int) : Nat :=
  let (scaled, unit) := inUnits numerator denominator exponent
  scaled / unit

/-- The exponent of the last floating-point number that is not above a fraction.  The numbers of
bits of numerator and denominator give it up to one. -/
def unitExponent (numerator denominator : Nat) : Int :=
  let guess : Int := max leastExponent (numerator.log2 - denominator.log2 - 53)
  if wholeUnits numerator denominator guess < Nat.pow 2 53 then guess else guess + 1

/-- A fraction rounded to the nearest natural number, a half going to the even neighbour. -/
def roundHalfEven (numerator denominator : Nat) : Nat :=
  let below := numerator / denominator
  let rest := numerator % denominator
  if denominator < 2 * rest ∨ denominator = 2 * rest ∧ below % 2 = 1 then below + 1 else below

/-- The bit pattern of the nearest floating-point number to a positive fraction.  A significand that
is rounded up to the next power of two carries into the exponent. -/
def nearestBits (numerator denominator : Nat) : Nat :=
  let exponent := unitExponent numerator denominator
  let (scaled, unit) := inUnits numerator denominator exponent
  let binade := (exponent - leastExponent).toNat
  min (binade * Nat.pow 2 fractionBits + roundHalfEven scaled unit) infinityBits

end TableScript.Number
