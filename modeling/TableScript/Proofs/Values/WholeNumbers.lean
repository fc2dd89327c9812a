import TableScript.Number.Numeral
import TableScript.Proofs.Values.FloatText

/-!
# Whole numbers in floating point

A floating-point number is whole if it stands for an integer.  The test for it looks at the bits
(`isWhole_iff_integral`), and says yes of every integer that was turned into a floating-point
number, rounded or not (`isWhole_ofInteger`).

## Strategy

The library rounds an integer to a mantissa of 53 bits.  One with at most 53 bits gets zeros behind
it, which its exponent takes away again (`round_short`); one with more loses its last bits, and is
left with an exponent that is not negative (`round_long`).  Either way the number is whole
(`Rounded.isWhole`).  It is packed into bits and, for a negative integer, unpacked, negated and
packed again, and comes through unchanged because its mantissa has the leading one that is not
stored (`decodeBits_pack`, `unpack_pack`).
-/

namespace TableScript.Number

open Float.Model (Format UnpackedFloat totalExponent)
open Float.Model.UnpackedFloat (Sign)

/-! ## Numbers that stand for integers -/

/-- The rational number that a floating-point number stands for, if it is finite. -/
def Decoded.value? : Decoded → Option ℚ
  | .finite negative significand exponent =>
    some (if negative then -(significand * 2 ^ exponent) else significand * 2 ^ exponent)
  | _ => none

/-- A floating-point number stands for an integer. -/
def Integral (number : Float) : Prop := ∃ integer : ℤ, (decode number).value? = some (integer : ℚ)

section Finite

variable {negative : Bool} {significand : Nat} {exponent : ℤ}

theorem exists_integer_iff_natural :
    (∃ integer : ℤ, (Decoded.finite negative significand exponent).value? = some (integer : ℚ)) ↔
      ∃ magnitude : ℕ, (significand * 2 ^ exponent : ℚ) = magnitude := by
  simp only [Decoded.value?, Option.some.injEq]
  constructor
  · rintro ⟨integer, hvalue⟩
    have hnatural : (0 : ℚ) ≤ significand * 2 ^ exponent := by positivity
    refine ⟨integer.natAbs, ?_⟩
    rw [Nat.cast_natAbs, Int.cast_abs, ← hvalue]
    cases negative <;> simp [abs_of_nonneg hnatural]
  · rintro ⟨magnitude, hmagnitude⟩
    cases negative with
    | false => exact ⟨magnitude, by simpa using hmagnitude⟩
    | true => exact ⟨-magnitude, by simpa using hmagnitude⟩

theorem isWhole_finite_iff :
    (Decoded.finite negative significand exponent).isWhole = true ↔
      ∃ magnitude : ℕ, (significand * 2 ^ exponent : ℚ) = magnitude := by
  constructor
  · intro hwhole
    exact ⟨_, (wholePart_eq hwhole).symm⟩
  · rintro ⟨magnitude, hmagnitude⟩
    simp only [Decoded.isWhole, Nat.pow_eq, decide_eq_true_eq]
    rcases le_total 0 exponent with hnatural | hnegative
    · simp [show (-exponent).toNat = 0 by omega, Nat.mod_one]
    · have hunits := zpow_mul_pow_toNat (show (2 : ℚ) ≠ 0 by norm_num) exponent
      have hnone : exponent.toNat = 0 := by omega
      have hproduct : (significand : ℚ) = (magnitude * 2 ^ (-exponent).toNat : ℕ) := by
        push_cast
        rw [← hmagnitude, mul_assoc, hunits, hnone, pow_zero, mul_one]
      rw [Nat.cast_inj.mp hproduct]
      exact Nat.mul_mod_left _ _

end Finite

/-- The test for whole numbers finds out which numbers stand for integers. -/
theorem isWhole_iff_integral {number : Float} : isWhole number = true ↔ Integral number := by
  unfold isWhole Integral
  cases decode number with
  | nan | infinite negative => simp [Decoded.isWhole, Decoded.value?]
  | finite negative significand exponent =>
      rw [isWhole_finite_iff, exists_integer_iff_natural]

/-! ## The library's reading of the bits -/

/-- What the parts of a floating-point number stand for. -/
def Decoded.ofUnpacked : UnpackedFloat → Decoded
  | .notANumber => .nan
  | .infinity sign => .infinite (sign == .negative)
  | .zero sign => .finite (sign == .negative) 0 leastExponent
  | .finite sign mantissa exponent _ => .finite (sign == .negative) mantissa exponent

section Fields

variable (bits : BitVec Format.binary64.numBits)

theorem toNat_unpackMantissa :
    (UnpackedFloat.unpackMantissa bits).toNat = bits.toNat % 2 ^ 52 := by
  rw [UnpackedFloat.unpackMantissa_def, BitVec.extractLsb'_toNat, Nat.shiftRight_zero]

theorem toNat_unpackExponent :
    (UnpackedFloat.unpackExponent bits).toNat = bits.toNat / 2 ^ 52 % 2 ^ 11 := by
  rw [UnpackedFloat.unpackExponent_def, BitVec.extractLsb'_toNat, Nat.shiftRight_eq_div_pow]

theorem toNat_unpackSign :
    (UnpackedFloat.unpackSign bits).toNat = bits.toNat / 2 ^ 63 % 2 := by
  rw [UnpackedFloat.unpackSign_def, BitVec.extractLsb'_toNat, Nat.shiftRight_eq_div_pow]
  rfl

end Fields

theorem decodeBits_eq_unpacked (bits : BitVec Format.binary64.numBits) :
    decodeBits bits.toNat = ofFields (Sign.ofBitVec (UnpackedFloat.unpackSign bits) == .negative)
      (UnpackedFloat.unpackExponent bits).toNat (UnpackedFloat.unpackMantissa bits).toNat := by
  have hnegative (bit : BitVec 1) : (Sign.ofBitVec bit == .negative) = decide (bit.toNat = 1) := by
    revert bit
    decide
  rw [hnegative, toNat_unpackSign, toNat_unpackExponent, toNat_unpackMantissa]
  rfl

/-- The library takes a bit pattern apart as it is decoded here. -/
theorem ofUnpacked_unpack (bits : BitVec Format.binary64.numBits) :
    Decoded.ofUnpacked (UnpackedFloat.unpack .binary64 bits) = decodeBits bits.toNat := by
  have hmost : UnpackedFloat.unpackExponent bits = -1#11 ↔
      (UnpackedFloat.unpackExponent bits).toNat = 2047 := BitVec.toNat_inj.symm
  have hleast : UnpackedFloat.unpackExponent bits = 0#11 ↔
      (UnpackedFloat.unpackExponent bits).toNat = 0 := BitVec.toNat_inj.symm
  have hnone : UnpackedFloat.unpackMantissa bits = 0#52 ↔
      (UnpackedFloat.unpackMantissa bits).toNat = 0 := BitVec.toNat_inj.symm
  -- the leading one that a normal number does not store
  have hleading : (1#1 ++ UnpackedFloat.unpackMantissa bits).toNat =
      2 ^ 52 + (UnpackedFloat.unpackMantissa bits).toNat := by
    have hbounded := (UnpackedFloat.unpackMantissa bits).isLt
    rw [BitVec.toNat_append, ← Nat.shiftLeft_add_eq_or_of_lt hbounded]
    rfl
  have hbias : (Format.binary64.exponentBias : ℤ) = 1023 := rfl
  have hunit : leastExponent = -1074 := rfl
  rw [decodeBits_eq_unpacked]
  unfold UnpackedFloat.unpack ofFields
  simp only [hmost, hleast, hnone, hbias]
  -- the same three cases on both sides: the greatest exponent, the least, and all others
  split_ifs with hmost' hnone' hleast' hnone'
  · rfl
  · rfl
  · rw [Decoded.ofUnpacked, hnone']
  · rw [Decoded.ofUnpacked, hleast', hunit]
    rfl
  · rw [Decoded.ofUnpacked, hleading, hunit, Decoded.finite.injEq]
    exact ⟨rfl, rfl, by push_cast; omega⟩

section Normal

variable (sign : Sign) {mantissa : Nat} {exponent : Int}

theorem unpackSign_packComponents (stored : BitVec 11) (fraction : BitVec 52) :
    Sign.ofBitVec (UnpackedFloat.unpackSign
      (UnpackedFloat.packComponents .binary64 sign stored fraction)) = sign := by
  have hbit : UnpackedFloat.unpackSign
      (UnpackedFloat.packComponents .binary64 sign stored fraction) = sign.toBitVec := by
    rw [UnpackedFloat.unpackSign_def, UnpackedFloat.packComponents,
      BitVec.extractLsb'_append_eq_of_le (by decide),
      BitVec.extractLsb'_append_eq_of_le (by decide)]
    exact BitVec.extractLsb'_eq_self
  rw [hbit]
  cases sign <;> rfl

/-- A number with a leading one is stored as what it is. -/
theorem decodeBits_pack (hpositive : 0 < mantissa) (hleading : 2 ^ 52 ≤ mantissa)
    (hbounded : mantissa < 2 ^ 53) (hleast : -1074 ≤ exponent) (hmost : exponent ≤ 971) :
    decodeBits (UnpackedFloat.pack .binary64 (.finite sign mantissa exponent hpositive)).toNat =
      .finite (sign == .negative) mantissa exponent := by
  have hlog : mantissa.log2 = 52 := (Nat.log2_eq_iff (by omega)).mpr ⟨hleading, hbounded⟩
  have hpack : UnpackedFloat.pack .binary64 (.finite sign mantissa exponent hpositive) =
      UnpackedFloat.packComponents .binary64 sign (BitVec.ofNat 11 (exponent + 1023 + 52).toNat)
        (BitVec.ofNat 52 mantissa) := by
    have hsmall : ¬ 2 ^ 11 ≤ (exponent + 1023 + 52).toNat + 1 := by omega
    unfold UnpackedFloat.pack
    exact (if_neg hsmall).trans (if_pos (congrArg (· + 1) hlog))
  -- the exponent is stored with its bias and fits in its bits
  have hstored : (BitVec.ofNat 11 (exponent + 1023 + 52).toNat).toNat =
      (exponent + 1023 + 52).toNat := by
    rw [BitVec.toNat_ofNat]
    omega
  have hfraction : (BitVec.ofNat 52 mantissa).toNat = mantissa - 2 ^ 52 := by
    rw [BitVec.toNat_ofNat]
    omega
  rw [hpack, decodeBits_eq_unpacked, UnpackedFloat.unpackMantissa_packComponents,
    UnpackedFloat.unpackExponent_packComponents, unpackSign_packComponents, hstored, hfraction,
    ofFields, if_neg (by omega), if_neg (by omega), Decoded.finite.injEq]
  have hunit : leastExponent = -1074 := rfl
  exact ⟨rfl, by omega, by omega⟩

theorem unpack_pack (hpositive : 0 < mantissa) (hleading : 2 ^ 52 ≤ mantissa)
    (hbounded : mantissa < 2 ^ 53) (hleast : -1074 ≤ exponent) (hmost : exponent ≤ 971) :
    UnpackedFloat.unpack .binary64 (UnpackedFloat.pack .binary64
      (.finite sign mantissa exponent hpositive)) = .finite sign mantissa exponent hpositive := by
  have hsame := (ofUnpacked_unpack _).trans
    (decodeBits_pack sign hpositive hleading hbounded hleast hmost)
  generalize UnpackedFloat.unpack .binary64 _ = unpacked at hsame ⊢
  -- both decode alike, and a zero decodes to no leading one
  cases unpacked with
  | notANumber | infinity sign' => cases hsame
  | zero sign' =>
      simp only [Decoded.ofUnpacked, Decoded.finite.injEq] at hsame
      omega
  | finite sign' mantissa' exponent' hpositive' =>
      simp only [Decoded.ofUnpacked, Decoded.finite.injEq] at hsame
      obtain ⟨hsign, rfl, rfl⟩ := hsame
      have hsign' : sign' = sign := by
        cases sign <;> cases sign' <;> first | rfl | cases hsign
      rw [hsign']

end Normal

/-! ## Rounding an integer -/

section Rounding

open Float.Model.UnpackedFloat

variable (sign : Sign) {mantissa places : Nat}

theorem mantissa_shiftRight (extended : ExtendedMantissa) (places : Nat) :
    (extended >>> places).mantissa = extended.mantissa / 2 ^ places := by
  induction places with
  | zero => exact (Nat.div_one _).symm
  | succ places ih =>
      calc (extended >>> (places + 1)).mantissa
          = (extended >>> places).mantissa / 2 := rfl
        _ = extended.mantissa / 2 ^ (places + 1) := by
            rw [ih, Nat.div_div_eq_div_mul, ← pow_succ]

/-- Rounding goes to one of the two neighbours. -/
theorem roundedMantissa_bounds (extended : ExtendedMantissa) :
    extended.mantissa ≤ extended.roundedMantissa ∧
      extended.roundedMantissa ≤ extended.mantissa + 1 := by
  unfold ExtendedMantissa.roundedMantissa
  fun_cases Accuracy.roundToNearestEven extended.mantissa extended.accuracy with
  | case1 | case2 | case3 | case4 => omega

/-- A mantissa that is too long loses its last bits. -/
theorem shiftToTargetExponent_of_log2 (exponent : ℤ) (accuracy : Accuracy)
    (hlog : mantissa.log2 = 52 + places) (hleast : -1074 ≤ exponent + places) :
    shiftToTargetExponent .binary64 mantissa exponent accuracy =
      (ExtendedMantissa.ofMantissaAndAccuracy mantissa accuracy >>> places, exponent + places) := by
  have htarget : Format.binary64.targetExponent (totalExponent mantissa exponent) =
      exponent + places := by
    simp only [Format.targetExponent, totalExponent, hlog, Format.mantissaBits, Format.minExponent]
    omega
  have hshift : (exponent + places - exponent).toNat = places := by omega
  rw [shiftToTargetExponent, htarget, shiftToExponent, hshift]

/-- What is left after the first shift is rounded and, if that made it one bit longer, shifted
again. -/
theorem roundWithAccuracy_of_shift {exponent later : ℤ} {extended : ExtendedMantissa} {result : Nat}
    (hshift : shiftToTargetExponent .binary64 mantissa exponent .exact = (extended, later))
    (hlog : extended.roundedMantissa.log2 = 52 + places) (hleast : -1074 ≤ later)
    (hresult : extended.roundedMantissa / 2 ^ places = result) (hpositive : 0 < result) :
    roundWithAccuracy .binary64 sign mantissa exponent .exact =
      .finite sign result (later + places) hpositive := by
  have hagain := shiftToTargetExponent_of_log2 later .exact hlog (by omega)
  have hmantissa := mantissa_shiftRight
    (ExtendedMantissa.ofMantissaAndAccuracy extended.roundedMantissa .exact) places
  subst hresult
  unfold roundWithAccuracy
  rw [hshift]
  dsimp only
  rw [hagain]
  simp only [hmantissa]
  exact dif_neg hpositive.ne'

/-- What a positive integer is rounded to: a mantissa of 53 bits, and an exponent that is either not
negative or makes up for the zeros that were put behind the integer. -/
structure Rounded (magnitude mantissa : Nat) (exponent : ℤ) : Prop where
  leading : 2 ^ 52 ≤ mantissa
  bounded : mantissa < 2 ^ 53
  least : -52 ≤ exponent
  most : exponent ≤ 12
  whole : 0 ≤ exponent ∨ mantissa = magnitude * 2 ^ (-exponent).toNat

theorem targetExponent_integer (magnitude : Nat) :
    Format.binary64.targetExponent (totalExponent magnitude 0) = (magnitude.log2 : ℤ) - 52 := by
  simp only [Format.targetExponent, totalExponent, Format.mantissaBits, Format.minExponent]
  omega

/-- An integer with at most 53 bits is not changed. -/
theorem round_short {magnitude : Nat} (hpositive : 0 < magnitude) (hshort : magnitude.log2 ≤ 52) :
    ∃ mantissa exponent hmantissa, round .binary64 sign magnitude 0 =
      .finite sign mantissa exponent hmantissa ∧ Rounded magnitude mantissa exponent := by
  obtain ⟨zeros, hzeros⟩ : ∃ zeros, magnitude.log2 + zeros = 52 := ⟨52 - magnitude.log2, by omega⟩
  obtain ⟨hleast, hmost⟩ := (Nat.log2_eq_iff hpositive.ne').mp rfl
  -- zeros are put behind it, until the leading bit is in its place
  have hleading : 2 ^ 52 ≤ magnitude * 2 ^ zeros := by
    calc 2 ^ 52 = 2 ^ magnitude.log2 * 2 ^ zeros := by rw [← pow_add, hzeros]
      _ ≤ magnitude * 2 ^ zeros := Nat.mul_le_mul_right _ hleast
  have hbounded : magnitude * 2 ^ zeros < 2 ^ 53 := by
    calc magnitude * 2 ^ zeros < 2 ^ (magnitude.log2 + 1) * 2 ^ zeros :=
          Nat.mul_lt_mul_of_pos_right hmost (Nat.two_pow_pos _)
      _ = 2 ^ 53 := by rw [← pow_add, add_right_comm, hzeros]
  have hlog : (magnitude * 2 ^ zeros).log2 = 52 + 0 :=
    (Nat.log2_eq_iff (by omega)).mpr ⟨hleading, hbounded⟩
  have hdecrease : decreaseExponent magnitude 0 ((magnitude.log2 : ℤ) - 52) =
      (magnitude * 2 ^ zeros, -(zeros : ℤ)) := by
    have hamount : (0 - ((magnitude.log2 : ℤ) - 52)).toNat = zeros := by omega
    rw [decreaseExponent, hamount, Nat.shiftLeft_eq, zero_sub]
  have hpositive' : 0 < magnitude * 2 ^ zeros := by omega
  have hshift := shiftToTargetExponent_of_log2 (-(zeros : ℤ)) .exact hlog (by omega)
  have hround : roundWithAccuracy .binary64 sign (magnitude * 2 ^ zeros) (-(zeros : ℤ)) .exact =
      .finite sign (magnitude * 2 ^ zeros) (-(zeros : ℤ) + (0 : ℕ) + (0 : ℕ)) hpositive' :=
    roundWithAccuracy_of_shift sign hshift hlog (by omega) (Nat.div_one _) hpositive'
  refine ⟨magnitude * 2 ^ zeros, -(zeros : ℤ), hpositive', ?_,
    ⟨hleading, hbounded, by omega, by omega, .inr (by simp)⟩⟩
  rw [UnpackedFloat.round, targetExponent_integer, hdecrease]
  simpa using hround

/-- What is left of an integer with too many bits has 53 of them, or is the power of two above. -/
theorem roundedMantissa_shift {magnitude : Nat} (hpositive : 0 < magnitude)
    (hplaces : magnitude.log2 = 52 + places) {extended : ExtendedMantissa}
    (hextended : ExtendedMantissa.ofMantissaAndAccuracy magnitude .exact >>> places = extended) :
    2 ^ 52 ≤ extended.roundedMantissa ∧ extended.roundedMantissa ≤ 2 ^ 53 := by
  obtain ⟨hlow, hhigh⟩ := (Nat.log2_eq_iff hpositive.ne').mp hplaces
  have hmantissa : extended.mantissa = magnitude / 2 ^ places := by
    rw [← hextended]
    exact mantissa_shiftRight _ places
  have hleading : 2 ^ 52 ≤ magnitude / 2 ^ places := by
    rw [Nat.le_div_iff_mul_le (Nat.two_pow_pos _), ← pow_add]
    exact hlow
  have hbounded : magnitude / 2 ^ places < 2 ^ 53 := by
    rw [Nat.div_lt_iff_lt_mul (Nat.two_pow_pos _), ← pow_add]
    exact lt_of_lt_of_eq hhigh (by ring)
  obtain ⟨hdown, hup⟩ := roundedMantissa_bounds extended
  rw [hmantissa] at hdown hup
  exact ⟨hleading.trans hdown, hup.trans hbounded⟩

/-- An integer with more bits is shifted to the right, and has no fraction. -/
theorem round_long {magnitude : Nat} (hlong : 52 ≤ magnitude.log2) (hmost : magnitude < 2 ^ 64) :
    ∃ mantissa exponent hmantissa, round .binary64 sign magnitude 0 =
      .finite sign mantissa exponent hmantissa ∧ Rounded magnitude mantissa exponent := by
  obtain ⟨places, hplaces⟩ : ∃ places, magnitude.log2 = 52 + places :=
    ⟨magnitude.log2 - 52, by omega⟩
  have hpositive : 0 < magnitude := by
    refine Nat.pos_of_ne_zero ?_
    rintro rfl
    exact absurd hlong (by decide)
  -- at most 64 bits, so no more than eleven of them are rounded away
  have hfew : places ≤ 11 := by
    have hlog := (Nat.log2_lt hpositive.ne').mpr hmost
    omega
  have hdecrease : decreaseExponent magnitude 0 ((magnitude.log2 : ℤ) - 52) = (magnitude, 0) := by
    have hamount : (0 - ((magnitude.log2 : ℤ) - 52)).toNat = 0 := by omega
    rw [decreaseExponent, hamount, Nat.shiftLeft_zero, Nat.cast_zero, sub_zero]
  have hshift := shiftToTargetExponent_of_log2 0 .exact hplaces (by omega)
  rw [UnpackedFloat.round, targetExponent_integer, hdecrease]
  generalize hextended : ExtendedMantissa.ofMantissaAndAccuracy magnitude .exact >>> places =
    extended at hshift
  obtain ⟨hleading, hbounded⟩ := roundedMantissa_shift hpositive hplaces hextended
  by_cases hcarry : extended.roundedMantissa = 2 ^ 53
  · -- the mantissa became one bit longer, and its last bit is zero
    have hlog : extended.roundedMantissa.log2 = 52 + 1 := by
      rw [hcarry]
      exact Nat.log2_two_pow
    have hround := roundWithAccuracy_of_shift sign hshift hlog (by omega)
      (show extended.roundedMantissa / 2 ^ 1 = 2 ^ 52 by omega) (by omega)
    exact ⟨_, _, _, hround, ⟨le_rfl, by omega, by omega, by omega, .inl (by omega)⟩⟩
  · have hlog : extended.roundedMantissa.log2 = 52 + 0 :=
      (Nat.log2_eq_iff (by omega)).mpr ⟨by omega, by omega⟩
    have hround := roundWithAccuracy_of_shift sign hshift hlog (by omega) (Nat.div_one _)
      (by omega)
    exact ⟨_, _, _, hround, ⟨by omega, by omega, by omega, by omega, .inl (by omega)⟩⟩

end Rounding

/-! ## Integers in floating point -/

/-- A positive integer is rounded, whatever its length. -/
theorem exists_round_integer {magnitude : Nat} (hpositive : 0 < magnitude)
    (hmost : magnitude < 2 ^ 64) :
    ∃ mantissa exponent hmantissa, UnpackedFloat.round .binary64 .positive magnitude 0 =
      .finite .positive mantissa exponent hmantissa ∧ Rounded magnitude mantissa exponent := by
  rcases le_total magnitude.log2 52 with hshort | hlong
  · exact round_short .positive hpositive hshort
  · exact round_long .positive hlong hmost

section Stored

variable {mantissa : Nat} {exponent : ℤ} {hmantissa : 0 < mantissa}

/-- What an integer is rounded to is packed into bits. -/
theorem toFloat_of_round {magnitude : UInt64} (hpositive : 0 < magnitude.toNat)
    (hround : UnpackedFloat.round .binary64 .positive magnitude.toNat 0 =
      .finite .positive mantissa exponent hmantissa) :
    magnitude.toFloat = .ofModel (.pack (.finite .positive mantissa exponent hmantissa)) := by
  have hcompare : compare (magnitude.toNat : ℤ) 0 = .gt := Int.compare_eq_gt.mpr (by omega)
  have hunpacked : UnpackedFloat.ofUInt64 .binary64 magnitude =
      .finite .positive mantissa exponent hmantissa := by
    simp only [UnpackedFloat.ofUInt64, UnpackedFloat.ofNat, UnpackedFloat.ofInt,
      UnpackedFloat.normalize, hcompare, Int.toNat_natCast]
    exact hround
  change Float.ofModel (.pack (UnpackedFloat.ofUInt64 .binary64 magnitude)) = _
  rw [hunpacked]

/-- A packed number is negated by its sign. -/
theorem neg_ofModel_pack (hleading : 2 ^ 52 ≤ mantissa) (hbounded : mantissa < 2 ^ 53)
    (hleast : -1074 ≤ exponent) (hmost : exponent ≤ 971) :
    -Float.ofModel (.pack (.finite .positive mantissa exponent hmantissa)) =
      .ofModel (.pack (.finite .negative mantissa exponent hmantissa)) := by
  have hunpacked : (Float.Model.pack (.finite .positive mantissa exponent hmantissa)).unpack =
      .finite .positive mantissa exponent hmantissa :=
    unpack_pack .positive hmantissa hleading hbounded hleast hmost
  change Float.ofModel (.pack (UnpackedFloat.neg (Float.Model.unpack _))) = _
  rw [hunpacked]
  rfl

end Stored

/-- An integer in floating point is finite and whole, with either sign. -/
theorem decode_toFloat {magnitude : UInt64} (hpositive : 0 < magnitude.toNat) :
    ∃ mantissa exponent, Rounded magnitude.toNat mantissa exponent ∧
      decode magnitude.toFloat = .finite false mantissa exponent ∧
      decode (-magnitude.toFloat) = .finite true mantissa exponent := by
  obtain ⟨mantissa, exponent, hmantissa, hround, hrounded⟩ :=
    exists_round_integer hpositive magnitude.toNat_lt
  have hleading := hrounded.leading
  have hbounded := hrounded.bounded
  have hleast : -1074 ≤ exponent := by linarith only [hrounded.least]
  have hmost : exponent ≤ 971 := by linarith only [hrounded.most]
  refine ⟨mantissa, exponent, hrounded, ?_, ?_⟩
  · rw [toFloat_of_round hpositive hround]
    exact decodeBits_pack .positive hmantissa hleading hbounded hleast hmost
  · rw [toFloat_of_round hpositive hround, neg_ofModel_pack hleading hbounded hleast hmost]
    exact decodeBits_pack .negative hmantissa hleading hbounded hleast hmost

theorem Rounded.isWhole {magnitude mantissa : Nat} {exponent : ℤ} {negative : Bool}
    (hrounded : Rounded magnitude mantissa exponent) :
    (Decoded.finite negative mantissa exponent).isWhole = true := by
  simp only [Decoded.isWhole, Nat.pow_eq, decide_eq_true_eq]
  rcases hrounded.whole with hnatural | hzeros
  · simp [show (-exponent).toNat = 0 by omega, Nat.mod_one]
  · rw [hzeros]
    exact Nat.mul_mod_left _ _

/-- **The number nearest to an integer is whole.**  An integer of more than 53 bits is rounded to a
multiple of a power of two. -/
theorem isWhole_ofInteger (integer : Int64) : isWhole (ofInteger integer) = true := by
  by_cases hzero : integer = 0
  · subst hzero
    decide +kernel
  · have hmagnitude : integer.toInt.natAbs.toUInt64.toNat = integer.toInt.natAbs := by
      have hleast := integer.le_toInt
      have hmost := integer.toInt_lt
      exact UInt64.toNat_ofNat_of_lt' (show integer.toInt.natAbs < 2 ^ 64 by omega)
    have hpositive : 0 < integer.toInt.natAbs.toUInt64.toNat := by
      rw [hmagnitude, Int.natAbs_pos]
      exact fun hnone => hzero (Int64.toInt_inj.mp hnone)
    obtain ⟨mantissa, exponent, hrounded, hdecode, hdecode'⟩ := decode_toFloat hpositive
    unfold isWhole ofInteger
    dsimp only
    split_ifs
    · rw [hdecode']
      exact hrounded.isWhole
    · rw [hdecode]
      exact hrounded.isWhole

end TableScript.Number
