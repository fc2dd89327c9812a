import Mathlib
import TableScript.Number.FloatText

/-!
# Floating-point numbers and their parts

What is read from the bits of a number is all there is to it: two numbers with the same parts are
the same number, and the equality of numbers is the equality of their parts, the two zeros apart.
-/

namespace TableScript.Number

/-! ## Bits and parts -/

/-- The significand and the exponent of a stored number: the leading one is missing only where the
exponent is the least. -/
structure Stored (significand : Nat) (exponent : Int) : Prop where
  bounded : significand < 2 ^ 53
  least : leastExponent ≤ exponent
  leading : exponent = leastExponent ∨ 2 ^ 52 ≤ significand

/-- What the three fields of a bit pattern stand for. -/
def ofFields (negative : Bool) (stored fraction : Nat) : Decoded :=
  if stored = 2047 then if fraction = 0 then .infinite negative else .nan
  else if stored = 0 then .finite negative fraction leastExponent
  else .finite negative (2 ^ 52 + fraction) (leastExponent + stored - 1)

theorem decodeBits_eq_ofFields (bits : Nat) :
    decodeBits bits = ofFields (bits / 2 ^ 63 % 2 = 1) (bits / 2 ^ 52 % 2 ^ 11) (bits % 2 ^ 52) :=
  rfl

theorem ofFields_eq_infinite {negative sign : Bool} {stored fraction : Nat}
    (hinfinite : ofFields negative stored fraction = .infinite sign) :
    negative = sign ∧ stored = 2047 ∧ fraction = 0 := by
  unfold ofFields at hinfinite
  split_ifs at hinfinite with hmost hwhole
  cases hinfinite
  exact ⟨rfl, hmost, hwhole⟩

theorem ofFields_eq_finite {negative sign : Bool} {stored fraction significand : Nat}
    {exponent : Int}
    (hfinite : ofFields negative stored fraction = .finite sign significand exponent) :
    negative = sign ∧
      (stored = 0 ∧ significand = fraction ∧ exponent = leastExponent ∨
        stored ≠ 0 ∧ significand = 2 ^ 52 + fraction ∧ exponent = leastExponent + stored - 1) := by
  unfold ofFields at hfinite
  split_ifs at hfinite with hmost hwhole hnone
  · cases hfinite
    exact ⟨rfl, .inl ⟨hnone, rfl, rfl⟩⟩
  · cases hfinite
    exact ⟨rfl, .inr ⟨hnone, rfl, rfl⟩⟩

/-- A bit pattern is put together from its fields. -/
theorem bits_eq_of_fields {first second : Nat} (hfirst : first < 2 ^ 64) (hsecond : second < 2 ^ 64)
    (hsign : decide (first / 2 ^ 63 % 2 = 1) = decide (second / 2 ^ 63 % 2 = 1))
    (hstored : first / 2 ^ 52 % 2 ^ 11 = second / 2 ^ 52 % 2 ^ 11)
    (hfraction : first % 2 ^ 52 = second % 2 ^ 52) : first = second := by
  rw [decide_eq_decide] at hsign
  omega

theorem decodeBits_injective {first second : Nat} (hfirst : first < 2 ^ 64)
    (hsecond : second < 2 ^ 64) (hsome : decodeBits first ≠ .nan)
    (hsame : decodeBits first = decodeBits second) : first = second := by
  rw [decodeBits_eq_ofFields] at hsome hsame
  rw [decodeBits_eq_ofFields] at hsame
  cases hparts : ofFields (first / 2 ^ 63 % 2 = 1) (first / 2 ^ 52 % 2 ^ 11) (first % 2 ^ 52) with
  | nan => exact absurd hparts hsome
  | infinite sign =>
      obtain ⟨hsign, hstored, hfraction⟩ := ofFields_eq_infinite hparts
      obtain ⟨hsign', hstored', hfraction'⟩ := ofFields_eq_infinite (hsame.symm.trans hparts)
      exact bits_eq_of_fields hfirst hsecond (hsign.trans hsign'.symm)
        (hstored.trans hstored'.symm) (hfraction.trans hfraction'.symm)
  | finite sign significand exponent =>
      obtain ⟨hsign, hfields⟩ := ofFields_eq_finite hparts
      obtain ⟨hsign', hfields'⟩ := ofFields_eq_finite (hsame.symm.trans hparts)
      -- the leading one tells the two smallest exponents apart
      exact bits_eq_of_fields hfirst hsecond (hsign.trans hsign'.symm) (by omega) (by omega)

theorem stored_of_decode {number : Float} {significand : Nat} {exponent : Int} {negative : Bool}
    (hfinite : decode number = .finite negative significand exponent) :
    Stored significand exponent := by
  rw [decode, decodeBits_eq_ofFields] at hfinite
  obtain ⟨-, hfields⟩ := ofFields_eq_finite hfinite
  exact ⟨by omega, by omega, by omega⟩

/-- The exponent of a finite number is at most that of the greatest ones. -/
theorem exponent_le_of_decode {number : Float} {significand : Nat} {exponent : Int}
    {negative : Bool} (hfinite : decode number = .finite negative significand exponent) :
    exponent ≤ 971 := by
  have hunit : leastExponent = -1074 := rfl
  rw [decode, decodeBits_eq_ofFields] at hfinite
  have hmost : number.toBits.toNat / 2 ^ 52 % 2 ^ 11 ≠ 2047 := by
    intro hstored
    rw [hstored, ofFields, if_pos rfl] at hfinite
    split_ifs at hfinite
  obtain ⟨-, hfields⟩ := ofFields_eq_finite hfinite
  omega

/-! ## Numbers that are none -/

/-- A bit pattern that stands for no number is the one that all of them have. -/
theorem toBits_of_decode_nan {number : Float} (hnan : decode number = .nan) :
    number.toBits.toBitVec = Float.Model.UnpackedFloat.packedNaN .binary64 := by
  rw [decode, decodeBits_eq_ofFields, ofFields] at hnan
  split_ifs at hnan with hstored hfraction
  refine number.toModel.valid.eq_packedNaN ?_ ?_
  · rw [Float.Model.UnpackedFloat.unpackExponent_def]
    apply BitVec.eq_of_toNat_eq
    rw [BitVec.extractLsb'_toNat, Nat.shiftRight_eq_div_pow]
    exact hstored
  · rw [Float.Model.UnpackedFloat.unpackMantissa_def]
    intro hzero
    apply hfraction
    simpa [BitVec.extractLsb'_toNat, Float.toBits] using congrArg BitVec.toNat hzero

theorem decode_eq_nan_iff {number : Float} : decode number = .nan ↔ number.isNaN = true := by
  have hdecode : decode Float.nan = .nan := by decide +kernel
  rw [Float.isNaN_eq_decide_eq_nan, decide_eq_true_eq]
  constructor
  · intro hnan
    have hbits := (toBits_of_decode_nan hnan).trans (toBits_of_decode_nan hdecode).symm
    exact Float.toBits_inj.mp (UInt64.toBitVec_inj.mp hbits)
  · rintro rfl
    exact hdecode

/-- Numbers with the same parts are the same. -/
theorem decode_injective {left right : Float} (hnumber : left.isNaN = false)
    (hsame : decode left = decode right) : left = right := by
  have hsome : decode left ≠ .nan := fun hnan => by
    rw [decode_eq_nan_iff.mp hnan] at hnumber
    cases hnumber
  have hbits := decodeBits_injective left.toBits.toNat_lt right.toBits.toNat_lt hsome hsame
  exact Float.toBits_inj.mp (UInt64.toNat_inj.mp hbits)

theorem floatText_zero : floatText 0 = "0.0" := by decide +kernel

theorem floatText_negZero : floatText (-0) = "-0.0" := by decide +kernel

end TableScript.Number
