import TableScript.Number.Nearest
import TableScript.Text.Blank

/-!
# Reading numbers

A decimal numeral is an optional sign, digits with at most one point among them and at least one
digit, and an optional exponent.  An integer numeral is an optional sign and digits, and has to
fit in 64 bits.
-/

namespace TableScript.Number

/-- The value of a run of decimal digits. -/
def digitsValue (digits : List Char) : Nat :=
  digits.foldl (fun value digit => 10 * value + (digit.toNat - '0'.toNat)) 0

/-- Splits off a leading sign; the flag says whether it was a minus. -/
def splitSign : List Char → Bool × List Char
  | '-' :: rest => (true, rest)
  | '+' :: rest => (false, rest)
  | unsigned => (false, unsigned)

/-- Splits off the longest run of decimal digits. -/
def splitDigits (characters : List Char) : List Char × List Char :=
  (characters.takeWhile Char.isDigit, characters.dropWhile Char.isDigit)

/-- A decimal number with a sign, `digits * 10 ^ exponent`. -/
structure Numeral where
  negative : Bool
  digits : Nat
  exponent : Int
  deriving DecidableEq, Repr

/-- Reads what follows the digits: nothing, or a mark, an optional sign and at least one digit. -/
def readExponent? : List Char → Option Int
  | [] => some 0
  | mark :: rest =>
    if mark = 'e' ∨ mark = 'E' then
      let (negative, unsigned) := splitSign rest
      let (digits, remainder) := splitDigits unsigned
      if digits.isEmpty || !remainder.isEmpty then none
      else some (if negative then -(digitsValue digits : Int) else digitsValue digits)
    else none

/-- Reads a decimal numeral without its sign: the digits before the point, the digits after it,
and the exponent. -/
def readUnsigned? (characters : List Char) : Option (List Char × List Char × Int) :=
  let (whole, rest) := splitDigits characters
  let (fraction, remainder) := match rest with
    | '.' :: decimals => splitDigits decimals
    | other => ([], other)
  if whole.isEmpty && fraction.isEmpty then none
  else (readExponent? remainder).map fun exponent => (whole, fraction, exponent)

/-- Reads a decimal numeral. -/
def readNumeral? (characters : List Char) : Option Numeral :=
  let (negative, unsigned) := splitSign characters
  (readUnsigned? unsigned).map fun (whole, fraction, exponent) =>
    ⟨negative, digitsValue (whole ++ fraction), exponent - fraction.length⟩

/-- The number of decimal digits of a natural number, zero having none. -/
def digitCount (number : Nat) : Nat :=
  if number = 0 then 0 else (Nat.toDigits 10 number).length

namespace Numeral

/-- The bits of the nearest floating-point number to a magnitude.  One with more than 310 places
before the point is above all finite numbers, and one whose first digit stands after the 330th place
rounds to zero. -/
def magnitudeBits (numeral : Numeral) : Nat :=
  let places := numeral.exponent + digitCount numeral.digits
  if numeral.digits = 0 then 0
  else if 310 < places then infinityBits
  else if places < -330 then 0
  else nearestBits (numeral.digits * Nat.pow 10 numeral.exponent.toNat)
    (Nat.pow 10 (-numeral.exponent).toNat)

/-- The nearest floating-point number. -/
def toFloat (numeral : Numeral) : Float :=
  let sign := if numeral.negative then Nat.pow 2 63 else 0
  Float.ofBits (UInt64.ofNat (sign + numeral.magnitudeBits))

end Numeral

/-- Reads an integer of 64 bits. -/
def parseInteger? (characters : List Char) : Option Int64 :=
  let (negative, digits) := splitSign characters
  if digits.isEmpty || !digits.all Char.isDigit then none
  else
    let magnitude : Int := digitsValue digits
    let value := if negative then -magnitude else magnitude
    if Int64.minValue.toInt ≤ value ∧ value ≤ Int64.maxValue.toInt then some (Int64.ofInt value)
    else none

/-- The names of the numbers that have no digits, in lower case. -/
def namedNumber? (name : List Char) : Option Float :=
  match String.ofList (name.map Char.toLower) with
  | "inf" => some (1.0 / 0.0)
  | "infinity" => some (1.0 / 0.0)
  | "nan" => some (0.0 / 0.0)
  | _ => none

/-- Reads a floating-point number: a decimal numeral, or the name of an infinity or of a number that
is none, in any case and with any sign. -/
def readFloat? (characters : List Char) : Option Float :=
  match readNumeral? characters with
  | some numeral => some numeral.toFloat
  | none =>
    let (negative, name) := splitSign characters
    (namedNumber? name).map fun number => if negative then -number else number

/-- Whether a character can stand in a decimal numeral. -/
def isNumeralCharacter (character : Char) : Bool :=
  character.isDigit || ['.', 'e', 'E', '+', '-'].contains character

/-- Reads decimal text, blanks at both ends apart, as a floating-point number.  Numbers that have
names are not read: a name has other characters. -/
def parseFloat? (text : String) : Option Float :=
  let characters := Text.trim text.toList
  if characters.isEmpty || !characters.all isNumeralCharacter then none
  else readFloat? characters

/-- Reads the text of a floating-point literal. -/
def readFloatLiteral? (text : String) : Option Float := readFloat? text.toList

/-- Reads the text of an integer literal. -/
def readIntegerLiteral? (text : String) : Option Int64 := parseInteger? text.toList

end TableScript.Number
