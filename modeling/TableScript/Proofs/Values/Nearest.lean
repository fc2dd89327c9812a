import TableScript.Proofs.Values.WholeNumbers

/-!
# The nearest floating-point number to a numeral

A numeral is read as the nearest floating-point number: no finite number is nearer to what it stands
for, of two that are equally near it is the one with the even significand, and what is too large for
all of them is read as infinity (`toFloat_nearest`).

## Strategy

What a number is nearest to is an interval of magnitudes, which is known from the way back, from
numbers to texts (`Interval.Covers`).  So it is enough that the magnitude of a numeral lies in the
interval of the number that it is read as (`RoundsTo`).

* The exponent is chosen so that the whole units below a fraction are a significand
  (`stored_wholeUnits`).  Numerator and denominator give the size of a fraction up to one bit.
* The units are rounded to a neighbour at most half a unit away (`RoundsUnits`), which puts the
  fraction into the interval of that significand, or into that of the next power of two.
* The bit patterns count through the numbers, so that the rounded significand is added to the place
  of its binade and carries into the exponent by itself (`rounds_count`).
-/

namespace TableScript.Number

open Float.Model (Format UnpackedFloat)

/-! ## Bit patterns -/

/-- The number with a bit pattern has the parts of the pattern, unless it is none. -/
theorem decode_ofBits {bits : UInt64} (hnumber : decodeBits bits.toNat ≠ .nan) :
    decode (Float.ofBits bits) = decodeBits bits.toNat := by
  have hvalid : Format.binary64.Valid bits.toBitVec := by
    refine ⟨fun hmost hsome => (hnumber ?_).elim⟩
    have hfraction : (@UnpackedFloat.unpackMantissa .binary64 bits.toBitVec).toNat ≠ 0 :=
      fun hzero => hsome (BitVec.toNat_inj.mp hzero)
    calc decodeBits bits.toNat = ofFields _ _ _ := decodeBits_eq_unpacked bits.toBitVec
      _ = .nan := by
          have hstored : (-BitVec.ofNat Format.binary64.exponentBits 1).toNat = 2047 := rfl
          rw [hmost, ofFields, if_pos hstored, if_neg hfraction]
  change decodeBits (UnpackedFloat.pack .binary64 (UnpackedFloat.unpack .binary64
    bits.toBitVec)).toNat = _
  rw [UnpackedFloat.pack_unpack_of_valid hvalid]
  rfl

/-- The fields of the pattern of a magnitude, with a sign before it. -/
theorem decodeBits_sign (negative : Bool) {magnitude : Nat} (hmost : magnitude ≤ infinityBits) :
    decodeBits ((if negative then Nat.pow 2 63 else 0) + magnitude) =
      ofFields negative (magnitude / 2 ^ 52) (magnitude % 2 ^ 52) := by
  simp only [infinityBits, fractionBits, Nat.pow_eq] at hmost
  rw [decodeBits_eq_ofFields, Nat.pow_eq]
  cases negative with
  | false =>
      rw [if_neg Bool.false_ne_true, zero_add,
        Nat.mod_eq_of_lt (show magnitude / 2 ^ 52 < _ by omega)]
      congr 1
      exact decide_eq_false (by omega)
  | true =>
      have hstored : (2 ^ 63 + magnitude) / 2 ^ 52 % 2 ^ 11 = magnitude / 2 ^ 52 := by omega
      have hfraction : (2 ^ 63 + magnitude) % 2 ^ 52 = magnitude % 2 ^ 52 := by omega
      rw [if_pos rfl, hstored, hfraction]
      congr 1
      exact decide_eq_true (by omega)

/-- Counting through the patterns: the numbers of a binade have their significand added to it. -/
theorem ofFields_count {negative : Bool} {binade significand : Nat}
    (hleading : binade = 0 ∨ 2 ^ 52 ≤ significand) (hbounded : significand < 2 ^ 53)
    (hmost : binade < 2046) :
    ofFields negative ((binade * 2 ^ 52 + significand) / 2 ^ 52)
        ((binade * 2 ^ 52 + significand) % 2 ^ 52) =
      .finite negative significand (leastExponent + binade) := by
  unfold ofFields
  split_ifs with hinfinite hfraction hnone
  · omega
  · omega
  · rw [Decoded.finite.injEq]
    exact ⟨rfl, by omega, by omega⟩
  · rw [Decoded.finite.injEq]
    exact ⟨rfl, by omega, by omega⟩

/-! ## Rounding a fraction -/

/-- A fraction is rounded to a natural number at most half away from it, and at less than that if
the number is odd. -/
theorem roundHalfEven_bounds (numerator : Nat) {denominator : Nat} (hsome : 0 < denominator) :
    let rounded := roundHalfEven numerator denominator
    numerator / denominator ≤ rounded ∧ rounded ≤ numerator / denominator + 1 ∧
      2 * rounded * denominator ≤ 2 * numerator + denominator ∧
      2 * numerator ≤ 2 * rounded * denominator + denominator ∧
      (rounded % 2 = 1 → 2 * rounded * denominator < 2 * numerator + denominator ∧
        2 * numerator < 2 * rounded * denominator + denominator) := by
  intro rounded
  have hdivision := Nat.div_add_mod numerator denominator
  have hrest := Nat.mod_lt numerator hsome
  simp only [rounded, roundHalfEven]
  generalize numerator / denominator = below at hdivision ⊢
  generalize numerator % denominator = rest at hdivision hrest ⊢
  have hcommute : 2 * below * denominator = 2 * (denominator * below) := by ring
  have hnext : 2 * (below + 1) * denominator = 2 * (denominator * below) + 2 * denominator := by
    ring
  split_ifs with hup
  · rw [hnext]
    omega
  · rw [hcommute]
    omega

section Units

variable (numerator : Nat) {denominator : Nat} (hsome : 0 < denominator) (exponent : Int)

include hsome

theorem unit_pos : 0 < (inUnits numerator denominator exponent).2 :=
  Nat.mul_pos hsome (Nat.two_pow_pos _)

/-- A fraction in units is the fraction. -/
theorem inUnits_value :
    ((inUnits numerator denominator exponent).1 / (inUnits numerator denominator exponent).2 : ℚ) *
      2 ^ exponent = numerator / denominator := by
  have htwo := zpow_mul_pow_toNat (show (2 : ℚ) ≠ 0 by norm_num) exponent
  have hdenominator : (denominator : ℚ) ≠ 0 := by positivity
  simp only [inUnits, Nat.pow_eq]
  push_cast
  rw [div_mul_eq_mul_div, div_eq_div_iff (by positivity) hdenominator]
  calc (numerator * 2 ^ (-exponent).toNat * 2 ^ exponent * denominator : ℚ)
      = numerator * denominator * (2 ^ exponent * 2 ^ (-exponent).toNat) := by ring
    _ = numerator * (denominator * 2 ^ exponent.toNat) := by rw [htwo]; ring

theorem wholeUnits_eq_floor :
    wholeUnits numerator denominator exponent =
      ⌊(numerator / denominator / 2 ^ exponent : ℚ)⌋₊ := by
  have hpower : (2 : ℚ) ^ exponent ≠ 0 := by positivity
  rw [← inUnits_value numerator hsome exponent, mul_div_cancel_right₀ _ hpower,
    Nat.floor_div_eq_div]
  rfl

end Units

/-- The numbers of bits of numerator and denominator give the size of a fraction up to one bit. -/
theorem fraction_bounds {numerator denominator : Nat} (hnumerator : 0 < numerator)
    (hdenominator : 0 < denominator) :
    (2 : ℚ) ^ ((numerator.log2 : ℤ) - denominator.log2 - 1) < numerator / denominator ∧
      (numerator / denominator : ℚ) < 2 ^ ((numerator.log2 : ℤ) - denominator.log2 + 1) := by
  obtain ⟨hlow, hhigh⟩ := (Nat.log2_eq_iff hnumerator.ne').mp rfl
  obtain ⟨hlow', hhigh'⟩ := (Nat.log2_eq_iff hdenominator.ne').mp rfl
  have hpositive : (0 : ℚ) < denominator := by exact_mod_cast hdenominator
  have htwo : (2 : ℚ) ≠ 0 := by norm_num
  constructor
  · -- the numerator is at least its leading bit, and the denominator less than the bit above its
    -- own
    rw [lt_div_iff₀ hpositive]
    calc (2 : ℚ) ^ ((numerator.log2 : ℤ) - denominator.log2 - 1) * denominator
        < 2 ^ ((numerator.log2 : ℤ) - denominator.log2 - 1) * 2 ^ (denominator.log2 + 1) := by
          gcongr
          exact_mod_cast hhigh'
      _ = 2 ^ numerator.log2 := by
          rw [← zpow_natCast, ← zpow_natCast, ← zpow_add₀ htwo]
          congr 1
          push_cast
          ring
      _ ≤ numerator := by exact_mod_cast hlow
  · rw [div_lt_iff₀ hpositive]
    calc (numerator : ℚ) < 2 ^ (numerator.log2 + 1) := by exact_mod_cast hhigh
      _ = 2 ^ ((numerator.log2 : ℤ) - denominator.log2 + 1) * 2 ^ denominator.log2 := by
          rw [← zpow_natCast, ← zpow_natCast, ← zpow_add₀ htwo]
          congr 1
          push_cast
          ring
      _ ≤ 2 ^ ((numerator.log2 : ℤ) - denominator.log2 + 1) * denominator := by
          gcongr
          exact_mod_cast hlow'

/-- The whole units in a fraction are the significand of the last number not above it. -/
theorem stored_wholeUnits {numerator denominator : Nat} (hnumerator : 0 < numerator)
    (hdenominator : 0 < denominator) :
    Stored (wholeUnits numerator denominator (unitExponent numerator denominator))
      (unitExponent numerator denominator) := by
  obtain ⟨hlow, hhigh⟩ := fraction_bounds hnumerator hdenominator
  have htwo : (2 : ℚ) ≠ 0 := by norm_num
  -- a unit that is too small by the size of the fraction leaves 53 or 54 bits
  generalize hlength : (numerator.log2 : ℤ) - denominator.log2 = length at hlow hhigh
  have hmost {exponent : ℤ} {bits : ℕ} (hbits : length + 1 ≤ exponent + bits) :
      wholeUnits numerator denominator exponent < 2 ^ bits := by
    rw [wholeUnits_eq_floor numerator hdenominator, Nat.floor_lt (by positivity),
      div_lt_iff₀ (by positivity)]
    calc (numerator / denominator : ℚ) < 2 ^ (length + 1) := hhigh
      _ ≤ 2 ^ (exponent + bits) := zpow_le_zpow_right₀ (by norm_num) hbits
      _ = ((2 ^ bits : ℕ) : ℚ) * 2 ^ exponent := by
          rw [zpow_add₀ htwo, zpow_natCast, mul_comm]
          push_cast
          rfl
  have hleast {exponent : ℤ} {bits : ℕ} (hbits : exponent + bits ≤ length - 1) :
      2 ^ bits ≤ wholeUnits numerator denominator exponent := by
    rw [wholeUnits_eq_floor numerator hdenominator, Nat.le_floor_iff (by positivity),
      le_div_iff₀ (by positivity)]
    calc ((2 ^ bits : ℕ) : ℚ) * 2 ^ exponent = 2 ^ (exponent + bits) := by
          rw [zpow_add₀ htwo, zpow_natCast, mul_comm]
          push_cast
          rfl
      _ ≤ 2 ^ (length - 1) := zpow_le_zpow_right₀ (by norm_num) hbits
      _ ≤ numerator / denominator := hlow.le
  -- the units of twice the size are half as many, rounded down
  have hhalf (exponent : ℤ) : wholeUnits numerator denominator (exponent + 1) =
      wholeUnits numerator denominator exponent / 2 := by
    rw [wholeUnits_eq_floor numerator hdenominator, wholeUnits_eq_floor numerator hdenominator,
      ← Nat.floor_div_ofNat, zpow_add_one₀ htwo, div_mul_eq_div_div]
  unfold unitExponent
  rw [hlength]
  simp only [Nat.pow_eq]
  split
  · next hfew =>
      refine ⟨hfew, le_max_left _ _, ?_⟩
      rcases le_total (length - 53) leastExponent with htiny | hlarge
      · exact .inl (max_eq_left htiny)
      · rw [max_eq_right hlarge]
        exact .inr (hleast (by push_cast; omega))
  · -- one bit too many, so that the unit is doubled; this happens to no subnormal number
    next hmany =>
      have hlarge : leastExponent ≤ length - 53 := by
        by_contra htiny
        refine hmany (hmost ?_)
        rw [max_eq_left (not_le.mp htiny).le]
        push_cast
        omega
      have hbits : wholeUnits numerator denominator (length - 53) < 2 ^ 54 :=
        hmost (by push_cast; omega)
      rw [max_eq_right hlarge] at hmany ⊢
      rw [hhalf]
      exact ⟨by omega, by omega, by omega⟩

/-! ## The rounded fraction -/

/-- From here on magnitudes are rounded to infinity: halfway between the greatest finite number and
the power of two above it. -/
def overflow : ℚ := (2 ^ 54 - 1) * 2 ^ (970 : ℤ)

/-- What a magnitude is rounded to: the finite number in whose interval it lies, or infinity. -/
inductive RoundsTo (magnitude : ℚ) (negative : Bool) : Decoded → Prop
  | finite {significand : Nat} {exponent : Int} (hstored : Stored significand exponent)
      (hcovers : (interval significand exponent).Covers magnitude) :
      RoundsTo magnitude negative (.finite negative significand exponent)
  | infinite (hover : overflow ≤ magnitude) : RoundsTo magnitude negative (.infinite negative)

/-- What lies in an interval, in units of the last place. -/
theorem covers_of_units {significand : Nat} {exponent : Int} {units : ℚ}
    (hlow : ((interval significand exponent).low : ℚ) ≤ 4 * units)
    (hhigh : 4 * units ≤ (4 * significand + 2 : Nat))
    (hodd : significand % 2 = 1 → ((interval significand exponent).low : ℚ) < 4 * units ∧
      4 * units < (4 * significand + 2 : Nat)) :
    (interval significand exponent).Covers (units * 2 ^ exponent) := by
  have hunit : (0 : ℚ) < 2 ^ (exponent - 2) := by positivity
  have hquarters : units * (2 : ℚ) ^ exponent = 4 * units * 2 ^ (exponent - 2) := by
    rw [zpow_sub₀ (by norm_num)]
    ring
  rw [hquarters]
  refine ⟨?_, ?_, fun hopen => ?_⟩
  · exact mul_le_mul_of_nonneg_right hlow hunit.le
  · exact mul_le_mul_of_nonneg_right hhigh hunit.le
  · have hsignificand : significand % 2 = 1 := by
      have hclosed : ¬ significand % 2 = 0 := of_decide_eq_false hopen
      omega
    obtain ⟨hlow', hhigh'⟩ := hodd hsignificand
    exact ⟨mul_lt_mul_of_pos_right hlow' hunit, mul_lt_mul_of_pos_right hhigh' hunit⟩

/-- How far the units of a fraction are from the whole units below them, and from the number that
they are rounded to. -/
structure RoundsUnits (units : ℚ) (whole rounded : Nat) : Prop where
  whole_le : (whole : ℚ) ≤ units
  le_rounded : whole ≤ rounded
  rounded_le : rounded ≤ whole + 1
  low : (2 * rounded : ℚ) ≤ 2 * units + 1
  high : 2 * units ≤ 2 * rounded + 1
  odd : rounded % 2 = 1 → (2 * rounded : ℚ) < 2 * units + 1 ∧ 2 * units < 2 * rounded + 1

theorem roundsUnits (numerator : Nat) {denominator : Nat} (hsome : 0 < denominator) :
    RoundsUnits (numerator / denominator) (numerator / denominator)
      (roundHalfEven numerator denominator) := by
  obtain ⟨hwhole, hnext, hlow, hhigh, hodd⟩ := roundHalfEven_bounds numerator hsome
  -- of the rounded number only these five bounds are used
  generalize roundHalfEven numerator denominator = rounded at hwhole hnext hlow hhigh hodd ⊢
  have hpositive : (0 : ℚ) < denominator := by exact_mod_cast hsome
  have hunits : (numerator / denominator : ℚ) * denominator = numerator :=
    div_mul_cancel₀ _ hpositive.ne'
  -- every bound is one in natural numbers after multiplying by the denominator
  have hlow' : (2 * rounded * denominator : ℚ) ≤ 2 * numerator + denominator := by
    exact_mod_cast hlow
  have hhigh' : (2 * numerator : ℚ) ≤ 2 * rounded * denominator + denominator := by
    exact_mod_cast hhigh
  refine ⟨Nat.cast_div_le, hwhole, hnext, ?_, ?_, fun hrounded => ?_⟩
  · exact le_of_mul_le_mul_right (by linarith) hpositive
  · exact le_of_mul_le_mul_right (by linarith) hpositive
  · obtain ⟨hless, hmore⟩ := hodd hrounded
    have hless' : (2 * rounded * denominator : ℚ) < 2 * numerator + denominator := by
      exact_mod_cast hless
    have hmore' : (2 * numerator : ℚ) < 2 * rounded * denominator + denominator := by
      exact_mod_cast hmore
    exact ⟨lt_of_mul_lt_mul_right (by linarith) hpositive.le,
      lt_of_mul_lt_mul_right (by linarith) hpositive.le⟩

section Rounded

variable {units : ℚ} {whole rounded : Nat} (hunits : RoundsUnits units whole rounded)
  {exponent : Int} (hwhole : Stored whole exponent)

include hunits hwhole

/-- What is rounded to a significand of 53 bits lies in its interval. -/
theorem covers_of_rounded : (interval rounded exponent).Covers (units * 2 ^ exponent) := by
  have hlow := hunits.low
  have hhigh := hunits.high
  have hnatural : 0 ≤ units := (Nat.cast_nonneg _).trans hunits.whole_le
  rcases @interval_low rounded exponent with ⟨hbelow, hpower, hleast⟩ | ⟨hbelow, -⟩
  · -- the neighbour below a power of two is nearer, but the units are not below
    have hexact : (2 ^ 52 : ℚ) ≤ units := by
      have hleading : 2 ^ 52 ≤ whole := hwhole.leading.resolve_left hleast.ne'
      exact le_trans (by exact_mod_cast hleading) hunits.whole_le
    refine covers_of_units ?_ ?_ fun hodd => absurd hodd (by omega)
    · rw [hbelow, hpower]
      norm_num
      linarith
    · push_cast
      linarith
  · -- elsewhere the interval reaches half a unit down, as rounding does
    have hdown : ((interval rounded exponent).low : ℚ) ≤ 4 * units := by
      rw [hbelow]
      rcases Nat.eq_zero_or_pos rounded with rfl | hpositive
      · simpa using hnatural
      · rw [Nat.cast_sub (by omega)]
        push_cast
        linarith
    refine covers_of_units hdown ?_ fun hodd => ?_
    · push_cast
      linarith
    · obtain ⟨hlow', hhigh'⟩ := hunits.odd hodd
      rw [hbelow, Nat.cast_sub (by omega)]
      push_cast
      constructor <;> linarith

/-- What is rounded up to a power of two lies in the interval of the next binade. -/
theorem covers_of_carry (hcarry : rounded = 2 ^ 53) :
    (interval (2 ^ 52) (exponent + 1)).Covers (units * 2 ^ exponent) := by
  have hlow := hunits.low
  have hhigh := hunits.high
  have hleast := hwhole.least
  rw [hcarry] at hlow hhigh
  -- one unit of the next binade is two of this one
  have hhalf : units * (2 : ℚ) ^ exponent = units / 2 * 2 ^ (exponent + 1) := by
    rw [zpow_add_one₀ (by norm_num)]
    ring
  rw [hhalf]
  have hbelow : (interval (2 ^ 52) (exponent + 1)).low = 4 * 2 ^ 52 - 1 := by
    have hends := @interval_low (2 ^ 52) (exponent + 1)
    omega
  refine covers_of_units ?_ ?_ fun hodd => absurd hodd (by decide)
  · rw [hbelow]
    push_cast at hlow ⊢
    norm_num at hlow ⊢
    linarith
  · push_cast at hhigh ⊢
    linarith

end Rounded

/-- From the binade of the greatest numbers on, what is rounded up to the next power of two is above
all finite numbers, and so is everything in the binades that follow. -/
theorem overflow_le_of_count {units : ℚ} {whole rounded binade : Nat}
    (hunits : RoundsUnits units whole rounded) (hwhole : Stored whole (leastExponent + binade))
    (hmany : 2046 ≤ binade ∨ binade = 2045 ∧ rounded = 2 ^ 53) :
    overflow ≤ units * 2 ^ (leastExponent + binade) := by
  have hunit : leastExponent = -1074 := rfl
  rcases hmany with hmany | ⟨rfl, hcarry⟩
  · have hleading : 2 ^ 52 ≤ whole := hwhole.leading.resolve_left (by omega)
    have hexact : (2 ^ 52 : ℚ) ≤ units :=
      le_trans (by exact_mod_cast hleading) hunits.whole_le
    -- the least significand of the binade, times its unit, is above the overflow already
    calc overflow ≤ 2 ^ 52 * 2 ^ (2 : ℤ) * 2 ^ (970 : ℤ) :=
          mul_le_mul_of_nonneg_right (by norm_num) (zpow_nonneg (by norm_num) _)
      _ = 2 ^ 52 * 2 ^ (972 : ℤ) := by rw [mul_assoc, ← zpow_add₀ (by norm_num)]; rfl
      _ ≤ units * 2 ^ (leastExponent + binade) := by
          gcongr
          · norm_num
          · omega
  · have hlow := hunits.low
    rw [hcarry] at hlow
    calc overflow ≤ units * 2 ^ (1 : ℤ) * 2 ^ (970 : ℤ) := by
          refine mul_le_mul_of_nonneg_right ?_ (zpow_nonneg (by norm_num) _)
          push_cast at hlow
          norm_num at hlow ⊢
          linarith
      _ = units * 2 ^ (leastExponent + (2045 : ℕ)) := by
          rw [mul_assoc, ← zpow_add₀ (by norm_num)]
          rfl

/-- **The patterns are counted through**: what is rounded to a number of units gets the pattern of
the number that it rounds to, by adding that number to the place of its binade. -/
theorem rounds_count {units : ℚ} {whole rounded binade : Nat}
    (hunits : RoundsUnits units whole rounded) (hwhole : Stored whole (leastExponent + binade))
    (negative : Bool) :
    RoundsTo (units * 2 ^ (leastExponent + binade)) negative
      (ofFields negative (min (binade * 2 ^ 52 + rounded) infinityBits / 2 ^ 52)
        (min (binade * 2 ^ 52 + rounded) infinityBits % 2 ^ 52)) := by
  have hinfinity : infinityBits = 2047 * 2 ^ 52 := rfl
  have hbounded := hwhole.bounded
  have hleading := hwhole.leading
  have hdown := hunits.le_rounded
  have hup := hunits.rounded_le
  by_cases hmany : 2046 ≤ binade ∨ binade = 2045 ∧ rounded = 2 ^ 53
  · have hmost : min (binade * 2 ^ 52 + rounded) infinityBits = 2047 * 2 ^ 52 := by omega
    rw [hmost]
    exact .infinite (overflow_le_of_count hunits hwhole hmany)
  have hleast : min (binade * 2 ^ 52 + rounded) infinityBits = binade * 2 ^ 52 + rounded := by omega
  rw [hleast]
  -- rounding up may have filled the significand, and the count goes over into the next binade by
  -- itself
  by_cases hcarry : rounded = 2 ^ 53
  · have hnext : binade * 2 ^ 52 + rounded = (binade + 1) * 2 ^ 52 + 2 ^ 52 := by omega
    rw [hnext, ofFields_count (.inr le_rfl) (by norm_num) (by omega), Nat.cast_succ, ← add_assoc]
    refine .finite ⟨by norm_num, by omega, .inr le_rfl⟩ ?_
    exact covers_of_carry hunits hwhole hcarry
  · rw [ofFields_count (by omega) (by omega) (by omega)]
    exact .finite ⟨by omega, hwhole.least, by omega⟩ (covers_of_rounded hunits hwhole)

/-- A fraction gets the pattern of the number that it rounds to. -/
theorem nearestBits_rounds {numerator denominator : Nat} (hnumerator : 0 < numerator)
    (hdenominator : 0 < denominator) (negative : Bool) :
    RoundsTo (numerator / denominator) negative
      (ofFields negative (nearestBits numerator denominator / 2 ^ 52)
        (nearestBits numerator denominator % 2 ^ 52)) := by
  have hwhole := stored_wholeUnits hnumerator hdenominator
  obtain ⟨binade, hbinade⟩ : ∃ binade : ℕ,
      unitExponent numerator denominator = leastExponent + binade :=
    ⟨(unitExponent numerator denominator - leastExponent).toNat, by have := hwhole.least; omega⟩
  have hunits := roundsUnits (inUnits numerator denominator (leastExponent + binade)).1
    (unit_pos numerator hdenominator (leastExponent + binade))
  have hcount : (leastExponent + (binade : ℤ) - leastExponent).toNat = binade := by omega
  rw [← inUnits_value numerator hdenominator (leastExponent + binade)]
  rw [hbinade] at hwhole
  unfold nearestBits
  simp only [hbinade, hcount]
  exact rounds_count hunits hwhole negative

/-! ## Numerals -/

/-- The magnitude that a numeral stands for. -/
def Numeral.magnitude (numeral : Numeral) : ℚ := numeral.digits * 10 ^ numeral.exponent

theorem digitCount_bounds {number : Nat} (hsome : 0 < number) :
    10 ^ (digitCount number - 1) ≤ number ∧ number < 10 ^ digitCount number := by
  have hcount : digitCount number = (Nat.toDigits 10 number).length := if_neg hsome.ne'
  have hpositive : 0 < (Nat.toDigits 10 number).length := Nat.length_toDigits_pos
  rw [hcount]
  refine ⟨?_, (Nat.length_toDigits_le_iff (by norm_num) hpositive).mp le_rfl⟩
  rcases Nat.eq_zero_or_pos ((Nat.toDigits 10 number).length - 1) with hsingle | hmore
  · rw [hsingle]
    exact hsome
  · by_contra hbelow
    have hless := (Nat.length_toDigits_le_iff (by norm_num) hmore).mpr (not_le.mp hbelow)
    omega

/-- Zero, and all that is too small for the least number, lies in the interval of zero. -/
theorem covers_zero {value : ℚ} (hnatural : 0 ≤ value) (htiny : value ≤ 2 ^ (-1075 : ℤ)) :
    (interval 0 leastExponent).Covers value := by
  have hhigh : (interval 0 leastExponent).highValue = 2 ^ (-1075 : ℤ) := by
    have htwo : ((4 * 0 + 2 : ℕ) : ℚ) = 2 := by norm_num
    rw [Interval.highValue, interval_high, interval_exponent, htwo,
      ← zpow_one_add₀ (by norm_num)]
    rfl
  have hlow : (interval 0 leastExponent).lowValue = 0 := by
    simp [Interval.lowValue, interval]
  refine ⟨hlow.trans_le hnatural, htiny.trans_eq hhigh.symm, fun hopen => ?_⟩
  cases hopen

namespace Numeral

variable {numeral : Numeral}

theorem ten_pow_le_magnitude (hsome : 0 < numeral.digits) :
    (10 : ℚ) ^ (numeral.exponent + digitCount numeral.digits - 1) ≤ numeral.magnitude := by
  have hpositive : 0 < digitCount numeral.digits := by
    rw [digitCount, if_neg hsome.ne']
    exact Nat.length_toDigits_pos
  calc (10 : ℚ) ^ (numeral.exponent + digitCount numeral.digits - 1)
      = ((10 ^ (digitCount numeral.digits - 1) : ℕ) : ℚ) * 10 ^ numeral.exponent := by
        push_cast
        rw [← zpow_natCast, ← zpow_add₀ (by norm_num)]
        congr 1
        omega
    _ ≤ numeral.magnitude := by
        unfold magnitude
        gcongr
        exact (digitCount_bounds hsome).1

theorem magnitude_lt_ten_pow (hsome : 0 < numeral.digits) :
    numeral.magnitude < 10 ^ (numeral.exponent + digitCount numeral.digits) := by
  calc numeral.magnitude < ((10 ^ digitCount numeral.digits : ℕ) : ℚ) * 10 ^ numeral.exponent := by
        unfold magnitude
        gcongr
        exact (digitCount_bounds hsome).2
    _ = 10 ^ (numeral.exponent + digitCount numeral.digits) := by
        push_cast
        rw [← zpow_natCast, ← zpow_add₀ (by norm_num), add_comm]

theorem overflow_le_of_places (hsome : 0 < numeral.digits)
    (hplaces : 310 < numeral.exponent + digitCount numeral.digits) :
    overflow ≤ numeral.magnitude := by
  have hpowers : (2 : ℚ) ^ (1024 : ℤ) ≤ 10 ^ (310 : ℤ) := by
    exact_mod_cast (show 2 ^ 1024 ≤ 10 ^ 310 by decide +kernel)
  calc overflow ≤ 2 ^ (54 : ℤ) * 2 ^ (970 : ℤ) :=
        mul_le_mul_of_nonneg_right (by norm_num) (zpow_nonneg (by norm_num) _)
    _ = 2 ^ (1024 : ℤ) := by
        rw [← zpow_add₀ (by norm_num)]
        rfl
    _ ≤ 10 ^ (310 : ℤ) := hpowers
    _ ≤ 10 ^ (numeral.exponent + digitCount numeral.digits - 1) :=
        zpow_le_zpow_right₀ (by norm_num) (by omega)
    _ ≤ numeral.magnitude := ten_pow_le_magnitude hsome

theorem magnitude_le_of_places (hsome : 0 < numeral.digits)
    (hplaces : numeral.exponent + digitCount numeral.digits < -330) :
    numeral.magnitude ≤ 2 ^ (-1075 : ℤ) := by
  have hpowers : (2 : ℚ) ^ (1075 : ℤ) ≤ 10 ^ (331 : ℤ) := by
    exact_mod_cast (show 2 ^ 1075 ≤ 10 ^ 331 by decide +kernel)
  calc numeral.magnitude ≤ 10 ^ (numeral.exponent + digitCount numeral.digits) :=
        (magnitude_lt_ten_pow hsome).le
    _ ≤ 10 ^ (-331 : ℤ) := zpow_le_zpow_right₀ (by norm_num) (by omega)
    _ = (10 ^ (331 : ℤ))⁻¹ := zpow_neg 10 331
    _ ≤ (2 ^ (1075 : ℤ))⁻¹ := inv_anti₀ (zpow_pos (by norm_num) _) hpowers
    _ = 2 ^ (-1075 : ℤ) := (zpow_neg 2 1075).symm

/-- The fraction that a numeral is rounded as is its magnitude. -/
theorem fraction_eq_magnitude (numeral : Numeral) :
    ((numeral.digits * Nat.pow 10 numeral.exponent.toNat : ℕ) : ℚ) /
      (Nat.pow 10 (-numeral.exponent).toNat : ℕ) = numeral.magnitude := by
  have hten := zpow_mul_pow_toNat (show (10 : ℚ) ≠ 0 by norm_num) numeral.exponent
  simp only [Nat.pow_eq]
  rw [div_eq_iff (by positivity), magnitude]
  push_cast
  rw [← hten, mul_assoc]

theorem magnitudeBits_rounds (numeral : Numeral) (negative : Bool) :
    RoundsTo numeral.magnitude negative
      (ofFields negative (numeral.magnitudeBits / 2 ^ 52) (numeral.magnitudeBits % 2 ^ 52)) := by
  unfold magnitudeBits
  dsimp only
  split_ifs with hzero hlarge hsmall
  · have hmagnitude : numeral.magnitude = 0 := by simp [magnitude, hzero]
    rw [hmagnitude]
    exact .finite ⟨by norm_num, le_rfl, .inl rfl⟩ (covers_zero le_rfl (by positivity))
  · exact .infinite (overflow_le_of_places (Nat.pos_of_ne_zero hzero) hlarge)
  · have htiny := magnitude_le_of_places (Nat.pos_of_ne_zero hzero) hsmall
    have hnatural : 0 ≤ numeral.magnitude := by
      unfold magnitude
      positivity
    exact .finite ⟨by norm_num, le_rfl, .inl rfl⟩ (covers_zero hnatural htiny)
  · rw [← fraction_eq_magnitude]
    refine nearestBits_rounds ?_ (Nat.pow_pos (by norm_num)) negative
    exact Nat.mul_pos (Nat.pos_of_ne_zero hzero) (Nat.pow_pos (by norm_num))

theorem magnitudeBits_le (numeral : Numeral) : numeral.magnitudeBits ≤ infinityBits := by
  unfold magnitudeBits
  dsimp only
  split_ifs
  · exact Nat.zero_le _
  · exact le_rfl
  · exact Nat.zero_le _
  · exact min_le_right _ _

/-- **A numeral is rounded correctly.** -/
theorem toFloat_rounds (numeral : Numeral) :
    RoundsTo numeral.magnitude numeral.negative (decode numeral.toFloat) := by
  have hrounds := numeral.magnitudeBits_rounds numeral.negative
  rw [← decodeBits_sign numeral.negative numeral.magnitudeBits_le] at hrounds
  have hbits : (UInt64.ofNat ((if numeral.negative then Nat.pow 2 63 else 0) +
      numeral.magnitudeBits)).toNat =
        (if numeral.negative then Nat.pow 2 63 else 0) + numeral.magnitudeBits := by
    have hmost := numeral.magnitudeBits_le
    simp only [infinityBits, fractionBits, Nat.pow_eq] at hmost ⊢
    refine UInt64.toNat_ofNat_of_lt' (show _ < 2 ^ 64 from ?_)
    cases numeral.negative <;> simp <;> omega
  rw [← hbits] at hrounds
  unfold toFloat
  rw [decode_ofBits]
  · exact hrounds
  · intro hnan
    rw [hnan] at hrounds
    cases hrounds

end Numeral

/-! ## The nearest number -/

/-- Below the overflow lies all that lies in the interval of a finite number. -/
theorem lt_overflow_of_covers {number : Float} {negative : Bool} {significand : Nat}
    {exponent : Int} {value : ℚ} (hfinite : decode number = .finite negative significand exponent)
    (hcovers : (interval significand exponent).Covers value) : value < overflow := by
  have hbounded := (stored_of_decode hfinite).bounded
  have hmost := exponent_le_of_decode hfinite
  have hhigh : (interval significand exponent).highValue =
      (4 * significand + 2 : ℕ) * 2 ^ (exponent - 2) := rfl
  have hunit : (2 : ℚ) ^ (exponent - 2) ≤ 2 ^ (969 : ℤ) :=
    zpow_le_zpow_right₀ (by norm_num) (by omega)
  -- in quarters of the unit of the greatest numbers
  have hoverflow : overflow = (2 ^ 55 - 2) * 2 ^ (969 : ℤ) := by
    rw [overflow, show (970 : ℤ) = 969 + 1 from rfl, zpow_add_one₀ (by norm_num)]
    ring
  rcases Nat.lt_or_ge significand (2 ^ 53 - 1) with hless | hgreatest
  · calc value ≤ (4 * significand + 2 : ℕ) * 2 ^ (exponent - 2) := hcovers.most
      _ ≤ (2 ^ 55 - 6 : ℕ) * 2 ^ (969 : ℤ) := by
          gcongr
          omega
      _ < overflow := by
          rw [hoverflow]
          refine mul_lt_mul_of_pos_right (by norm_num) (zpow_pos (by norm_num) _)
  · -- the greatest significand is odd, so that its interval is open
    have hopen : (interval significand exponent).closed = false :=
      decide_eq_false (by omega)
    calc value < (4 * significand + 2 : ℕ) * 2 ^ (exponent - 2) := (hcovers.inside hopen).2
      _ ≤ (2 ^ 55 - 2 : ℕ) * 2 ^ (969 : ℤ) := by
          gcongr
          omega
      _ = overflow := by
          rw [hoverflow]
          norm_num

/-- **A numeral is read as the nearest floating-point number.**  No finite number is nearer to its
magnitude, and it lies in the interval of the one that is read: of two that are equally near it is
the one with the even significand.  From the overflow on infinity is read, and only from there. -/
theorem toFloat_nearest (numeral : Numeral) :
    (numeral.magnitude < overflow → ∃ significand exponent,
      decode numeral.toFloat = .finite numeral.negative significand exponent ∧
      (interval significand exponent).Covers numeral.magnitude ∧
      ∀ number negative significand' exponent',
        decode number = .finite negative significand' exponent' →
          |numeral.magnitude - significand * 2 ^ exponent| ≤
            |numeral.magnitude - significand' * 2 ^ exponent'|) ∧
    (overflow ≤ numeral.magnitude → decode numeral.toFloat = .infinite numeral.negative) := by
  have hrounds := numeral.toFloat_rounds
  generalize hread : decode numeral.toFloat = read at hrounds
  -- the pattern read is the one that the magnitude rounds to, and intervals do not meet
  cases hrounds with
  | @finite significand exponent hstored hcovers =>
      refine ⟨fun _ => ⟨significand, exponent, rfl, hcovers, ?_⟩, fun hover => ?_⟩
      · intro number negative significand' exponent' hfinite
        exact hcovers.nearest hstored (stored_of_decode hfinite)
      · exact absurd (lt_overflow_of_covers hread hcovers) (not_lt.mpr hover)
  | infinite hover => exact ⟨fun hbelow => absurd hbelow (not_lt.mpr hover), fun _ => rfl⟩

/-- `2 ^ 53 + 1` is halfway between two numbers, and `2 ^ 53 + 3` between two others. -/
example : (Numeral.toFloat ⟨false, 9007199254740993, 0⟩) = 9007199254740992 ∧
    (Numeral.toFloat ⟨false, 9007199254740995, 0⟩) = 9007199254740996 := by
  constructor <;> rfl

end TableScript.Number
