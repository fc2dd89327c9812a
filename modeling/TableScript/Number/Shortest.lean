import TableScript.Number.Binary

/-!
# The fewest digits that read back

A finite non-zero magnitude `significand * 2 ^ exponent` stands for all reals that round to it:
an interval whose ends lie halfway to its two neighbours, and belong to it exactly when the
significand is even.  `shortest` finds the coarsest decimal grid that has a point in the interval
and takes the point nearest to the magnitude; of two points equally near it takes the upper.

## Strategy

Everything is scaled to quarters of the last binary place, so that the ends of the interval are
whole multiples of one unit, and compared with the grid after multiplying out the powers of two
and ten.  All arithmetic is on natural numbers and exact.
-/

namespace TableScript.Number

/-- The decimal number `digits * 10 ^ exponent`. -/
structure Decimal where
  digits : Nat
  exponent : Int
  deriving DecidableEq, Repr

/-- The reals that round to one magnitude, in units of `2 ^ exponent`. -/
structure Interval where
  low : Nat
  middle : Nat
  high : Nat
  exponent : Int
  /-- Whether the two ends belong to the interval. -/
  closed : Bool

/-- The interval of reals that round to `significand * 2 ^ exponent`.  Below a power of two the
neighbour is half as far away, unless the exponent is already the least. -/
def interval (significand : Nat) (exponent : Int) : Interval :=
  let below := if significand = Nat.pow 2 fractionBits ∧ leastExponent < exponent then 1 else 2
  { low := 4 * significand - below
    middle := 4 * significand
    high := 4 * significand + 2
    exponent := exponent - 2
    closed := significand % 2 = 0 }

namespace Interval

/-- The factor that turns a multiple of `10 ^ grid` into common units. -/
def gridFactor (range : Interval) (grid : Int) : Nat :=
  Nat.pow 10 grid.toNat * Nat.pow 2 (-range.exponent).toNat

/-- The factor that turns a multiple of `2 ^ exponent` into common units. -/
def unitFactor (range : Interval) (grid : Int) : Nat :=
  Nat.pow 10 (-grid).toNat * Nat.pow 2 range.exponent.toNat

/-- Whether `point * 10 ^ grid` lies in the interval. -/
def contains (range : Interval) (grid : Int) (point : Nat) : Bool :=
  let scaled := point * range.gridFactor grid
  let low := range.low * range.unitFactor grid
  let high := range.high * range.unitFactor grid
  if range.closed then low ≤ scaled && scaled ≤ high else low < scaled && scaled < high

/-- The point of a grid that lies in the interval and is nearest to its middle, if there is one:
only the two neighbours of the middle have to be tried. -/
def nearest? (range : Interval) (grid : Int) : Option Decimal :=
  let middle := range.middle * range.unitFactor grid
  let below := middle / range.gridFactor grid
  match range.contains grid below, range.contains grid (below + 1) with
  | true, true =>
    if 2 * middle < (2 * below + 1) * range.gridFactor grid then some ⟨below, grid⟩
    else some ⟨below + 1, grid⟩
  | true, false => some ⟨below, grid⟩
  | false, true => some ⟨below + 1, grid⟩
  | false, false => none

/-- Tries `steps` grids, each ten times finer than the one before. -/
def search (range : Interval) (grid : Int) : Nat → Option Decimal
  | 0 => none
  | steps + 1 => (range.nearest? grid).or (range.search (grid - 1) steps)

end Interval

/-- The magnitude written with all its digits. -/
def exact (significand : Nat) (exponent : Int) : Decimal :=
  if exponent < 0 then ⟨significand * Nat.pow 5 (-exponent).toNat, exponent⟩
  else ⟨significand * Nat.pow 2 exponent.toNat, 0⟩

/-- A power of ten that is above every number of the interval, found from the number of bits by
`log 2 / log 10 ≈ 0.30103`. -/
def firstGrid (significand : Nat) (exponent : Int) : Int :=
  (exponent + significand.log2 + 2) * 30103 / 100000 + 2

/-- The decimal with the fewest digits among those that round to `significand * 2 ^ exponent`,
and of these the nearest.  Seventeen digits always suffice, so the search does not run out; it
starts two grids above the first digit. -/
def shortest (significand : Nat) (exponent : Int) : Decimal :=
  ((interval significand exponent).search (firstGrid significand exponent) 24).getD
    (exact significand exponent)

end TableScript.Number
