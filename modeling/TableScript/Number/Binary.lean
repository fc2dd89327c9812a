/-!
# Binary floating-point numbers read from their bits

A number of 64 bits is a sign, eleven bits of exponent and 52 bits of fraction.  `decode` takes
them apart, so that what the library says about a number is said about a natural significand and
a power of two.  Nothing here rounds.
-/

namespace TableScript.Number

/-- What a floating-point number stands for. -/
inductive Decoded where
  /-- Not a number. -/
  | nan
  /-- One of the two infinities. -/
  | infinite (negative : Bool)
  /-- The magnitude `significand * 2 ^ exponent` with a sign; both zeros have significand zero. -/
  | finite (negative : Bool) (significand : Nat) (exponent : Int)
  deriving DecidableEq, Repr

/-- The number of bits of a stored fraction. -/
def fractionBits : Nat := 52

/-- The power of two that belongs to the fraction of the smallest numbers. -/
def leastExponent : Int := -1074

/-- Takes a bit pattern apart.  A stored exponent of zero has no leading one. -/
def decodeBits (bits : Nat) : Decoded :=
  let fraction : Nat := bits % Nat.pow 2 fractionBits
  let stored : Nat := bits / Nat.pow 2 fractionBits % Nat.pow 2 11
  let negative := bits / Nat.pow 2 63 % 2 = 1
  if stored = Nat.pow 2 11 - 1 then
    if fraction = 0 then .infinite negative else .nan
  else if stored = 0 then .finite negative fraction leastExponent
  else .finite negative (Nat.pow 2 fractionBits + fraction) (leastExponent + stored - 1)

/-- Takes a floating-point number apart. -/
def decode (number : Float) : Decoded := decodeBits number.toBits.toNat

namespace Decoded

/-- Whether the significand is a multiple of the power of two that the exponent takes away, so
that the magnitude is a whole number. -/
def isWhole : Decoded → Bool
  | .finite _ significand exponent => significand % Nat.pow 2 (-exponent).toNat = 0
  | _ => false

/-- The whole part of a finite magnitude. -/
def wholePart : Decoded → Nat
  | .finite _ significand exponent =>
    significand * Nat.pow 2 exponent.toNat / Nat.pow 2 (-exponent).toNat
  | _ => 0

end Decoded

/-- Whether a number is finite and has no fractional part. -/
def isWhole (number : Float) : Bool := (decode number).isWhole

/-- The nearest floating-point number to an integer, a half going to the even neighbour. -/
def ofInteger (integer : Int64) : Float :=
  let magnitude := integer.toInt.natAbs.toUInt64.toFloat
  if integer < 0 then -magnitude else magnitude

end TableScript.Number
