import Mathlib
import TableScript.Operator

/-!
# Integer arithmetic

The integers of the language have 64 bits.  Sums, differences and products are the exact ones, and
wrap around where they do not fit; the only quotient that does not fit is that of the least integer
by minus one.  The remainder is computed from a truncated one, with a test of two sign bits and an
addition that is not checked.

## Strategy

A truncated remainder is congruent to the dividend (`toInt_mod_modEq`) and smaller than the divisor
(`natAbs_toInt_mod_lt`).  Where it and the divisor have opposite signs, which is what the test says
(`xor_neg_iff`), their sum lies between the two and fits (`toInt_mod_add`).  So `flooredRemainder`
has all that a floored remainder is (`isFlooredRemainder_flooredRemainder`), and there is only one
(`IsFlooredRemainder.eq_fmod`).
-/

namespace TableScript.Operator

/-! ## Wrapping around -/

/-- An exact integer wraps around to one of 64 bits: the two differ by a multiple of `2 ^ 64`. -/
def WrapsTo (exact : ℤ) (result : Int64) : Prop := result.toInt ≡ exact [ZMOD 2 ^ 64]

theorem wrapsTo_of_toInt_eq {exact : ℤ} {result : Int64}
    (hbalanced : result.toInt = exact.bmod (2 ^ 64)) : WrapsTo exact result := by
  unfold WrapsTo
  rw [hbalanced]
  exact Int.bmod_emod

variable {left right : Int64}

theorem ne_zero_iff_toInt : right ≠ 0 ↔ right.toInt ≠ 0 := by
  rw [Ne, ← Int64.toInt_inj, Int64.toInt_zero]

/-! ## The test of two signs -/

theorem neg_iff_toInt (integer : Int64) : integer < 0 ↔ integer.toInt < 0 := by
  rw [Int64.lt_iff_toInt_lt, Int64.toInt_zero]

theorem toInt_neg_iff_msb (integer : Int64) :
    integer.toInt < 0 ↔ integer.toBitVec.msb = true := by
  rw [BitVec.msb_eq_toInt, decide_eq_true_eq]
  rfl

/-- The exclusive or of two integers is negative exactly where one of them is. -/
theorem xor_neg_iff (left right : Int64) :
    left ^^^ right < 0 ↔
      (left.toInt < 0 ∧ 0 ≤ right.toInt) ∨ (0 ≤ left.toInt ∧ right.toInt < 0) := by
  rw [neg_iff_toInt, ← not_lt, ← not_lt, toInt_neg_iff_msb, toInt_neg_iff_msb, toInt_neg_iff_msb,
    Int64.toBitVec_xor, BitVec.msb_xor]
  generalize left.toBitVec.msb = sign, right.toBitVec.msb = sign'
  revert sign sign'
  decide

/-! ## Remainders -/

/-- What a floored remainder of exact integers is. -/
structure IsFlooredRemainder (dividend divisor remainder : ℤ) : Prop where
  congruent : remainder ≡ dividend [ZMOD divisor]
  signed : remainder = 0 ∨ (remainder < 0 ↔ divisor < 0)
  smaller : remainder.natAbs < divisor.natAbs

/-- There is only one floored remainder, and it is the one of the standard library. -/
theorem IsFlooredRemainder.eq_fmod {dividend divisor remainder : ℤ}
    (hfloored : IsFlooredRemainder dividend divisor remainder) :
    remainder = dividend.fmod divisor := by
  obtain ⟨quotient, hquotient⟩ := hfloored.congruent.dvd
  have hexact : remainder + divisor * quotient = dividend := by omega
  have hsigned := hfloored.signed
  have hsmaller := hfloored.smaller
  rcases lt_trichotomy divisor 0 with hnegative | rfl | hpositive
  · exact ((Int.fdiv_fmod_unique' hnegative).mpr ⟨hexact, by omega, by omega⟩).2.symm
  · omega
  · exact ((Int.fdiv_fmod_unique hpositive).mpr ⟨hexact, by omega, by omega⟩).2.symm

/-- A truncated remainder differs from the dividend by a multiple of the divisor. -/
theorem toInt_mod_modEq (left right : Int64) :
    (left % right).toInt ≡ left.toInt [ZMOD right.toInt] := by
  rw [Int64.toInt_mod, Int.modEq_iff_dvd]
  have hexact := Int.tmod_add_mul_tdiv left.toInt right.toInt
  exact ⟨left.toInt.tdiv right.toInt, by omega⟩

/-- A truncated remainder is smaller than the divisor. -/
theorem natAbs_toInt_mod_lt (left : Int64) (hright : right ≠ 0) :
    (left % right).toInt.natAbs < right.toInt.natAbs := by
  rw [Int64.toInt_mod, Int.natAbs_tmod]
  exact Nat.mod_lt _ (Int.natAbs_pos.mpr (ne_zero_iff_toInt.mp hright))

/-- **The correction fits.**  Of opposite signs, a remainder and its divisor have a sum between
them. -/
theorem toInt_mod_add (hsigns : (left % right) ^^^ right < 0) :
    (left % right + right).toInt = (left % right).toInt + right.toInt := by
  rw [xor_neg_iff] at hsigns
  have hleast := (left % right).le_toInt
  have hmost := (left % right).toInt_lt
  have hleast' := right.le_toInt
  have hmost' := right.toInt_lt
  rw [Int64.toInt_add]
  apply Int.bmod_eq_of_le
  · omega
  · omega

/-- **The remainder is floored.**  The truncated one is left as it is where its sign is that of the
divisor, and otherwise moved by the divisor to the other side of zero. -/
theorem isFlooredRemainder_flooredRemainder (left : Int64) (hright : right ≠ 0) :
    IsFlooredRemainder left.toInt right.toInt (flooredRemainder left right).toInt := by
  have hcongruent := toInt_mod_modEq left right
  have hsmaller := natAbs_toInt_mod_lt left hright
  unfold flooredRemainder
  dsimp only
  by_cases hcorrected : left % right ≠ 0 ∧ (left % right) ^^^ right < 0
  · have hfits := toInt_mod_add hcorrected.2
    rw [if_pos hcorrected, hfits]
    rw [ne_zero_iff_toInt, xor_neg_iff] at hcorrected
    have hshifted : (left % right).toInt + right.toInt ≡ left.toInt [ZMOD right.toInt] := by
      simpa using hcongruent
    exact ⟨hshifted, by omega, by omega⟩
  · -- the remainder is zero or has the sign of the divisor
    rw [if_neg hcorrected]
    rw [ne_zero_iff_toInt, xor_neg_iff] at hcorrected
    exact ⟨hcongruent, by omega, hsmaller⟩

theorem toInt_flooredRemainder (left : Int64) (hright : right ≠ 0) :
    (flooredRemainder left right).toInt = left.toInt.fmod right.toInt :=
  (isFlooredRemainder_flooredRemainder left hright).eq_fmod

/-! ## Quotients -/

/-- The quotient of the least integer by minus one is the only one that does not fit. -/
theorem toInt_div_or_wraps (left right : Int64) :
    (left / right).toInt = left.toInt.tdiv right.toInt ∨
      left = Int64.minValue ∧ right = -1 ∧ left / right = Int64.minValue := by
  by_cases hleast : left = Int64.minValue
  · by_cases hright : right = -1
    · subst hleast hright
      exact .inr (by decide)
    · exact .inl (Int64.toInt_div_of_ne_right left right hright)
  · exact .inl (Int64.toInt_div_of_ne_left left right hleast)

/-! ## All operators -/

/-- **Integer arithmetic is exact modulo `2 ^ 64`.**  A sum, a difference or a product of two
integers wraps around from the exact one, and so does the quotient truncated toward zero, unless
the divisor is zero; of quotients, only that of the least integer by minus one has to.  The
remainder by anything but zero is the floored one.  Where the truncated remainder is corrected, the
sum does not overflow, and the test that decides on the correction finds out whether a remainder and
a divisor have opposite signs. -/
theorem integerArithmetic_exact (left right : Int64) :
    (∃ sum, integerArithmetic .add left right = .ok sum ∧
      WrapsTo (left.toInt + right.toInt) sum) ∧
    (∃ difference, integerArithmetic .subtract left right = .ok difference ∧
      WrapsTo (left.toInt - right.toInt) difference) ∧
    (∃ product, integerArithmetic .multiply left right = .ok product ∧
      WrapsTo (left.toInt * right.toInt) product) ∧
    (right ≠ 0 →
      (∃ quotient, integerArithmetic .divide left right = .ok quotient ∧
        WrapsTo (left.toInt.tdiv right.toInt) quotient ∧
        (quotient.toInt = left.toInt.tdiv right.toInt ∨
          left = Int64.minValue ∧ right = -1 ∧ quotient = Int64.minValue)) ∧
      (∃ remainder, integerArithmetic .modulo left right = .ok remainder ∧
        IsFlooredRemainder left.toInt right.toInt remainder.toInt ∧
        remainder.toInt = left.toInt.fmod right.toInt) ∧
      (left % right ≠ 0 → (left % right) ^^^ right < 0 →
        (left % right + right).toInt = (left % right).toInt + right.toInt)) ∧
    (left ^^^ right < 0 ↔
      (left.toInt < 0 ∧ 0 ≤ right.toInt) ∨ (0 ≤ left.toInt ∧ right.toInt < 0)) := by
  refine ⟨⟨_, rfl, wrapsTo_of_toInt_eq (Int64.toInt_add _ _)⟩,
    ⟨_, rfl, wrapsTo_of_toInt_eq (Int64.toInt_sub _ _)⟩,
    ⟨_, rfl, wrapsTo_of_toInt_eq (Int64.toInt_mul _ _)⟩, fun hright => ⟨?_, ?_, ?_⟩,
    xor_neg_iff left right⟩
  · -- each part is a fact about single operators; division by zero is excluded once for all
    exact ⟨left / right, if_neg hright, wrapsTo_of_toInt_eq (Int64.toInt_div _ _),
      toInt_div_or_wraps left right⟩
  · exact ⟨flooredRemainder left right, if_neg hright,
      isFlooredRemainder_flooredRemainder left hright, toInt_flooredRemainder left hright⟩
  · exact fun _ hsigns => toInt_mod_add hsigns

/-- The least integer divided by minus one is itself.  A remainder of one by the least integer is
moved below zero, without an overflow. -/
theorem integerArithmetic_exact_leastInteger :
    (∃ quotient, integerArithmetic .divide Int64.minValue (-1) = .ok quotient ∧
      quotient = Int64.minValue) ∧
    (∃ remainder, integerArithmetic .modulo 1 Int64.minValue = .ok remainder ∧
      remainder.toInt = 1 - 2 ^ 63) ∧
    (1 % Int64.minValue + Int64.minValue).toInt = 1 - 2 ^ 63 := by
  obtain ⟨-, -, -, hminusOne, -⟩ := integerArithmetic_exact Int64.minValue (-1)
  obtain ⟨-, -, -, hleast, -⟩ := integerArithmetic_exact 1 Int64.minValue
  obtain ⟨⟨quotient, hdivide, -, hquotient⟩, -⟩ := hminusOne (by decide)
  obtain ⟨-, ⟨remainder, hmodulo, -, hremainder⟩, hfits⟩ := hleast (by decide)
  refine ⟨⟨quotient, hdivide, ?_⟩, ⟨remainder, hmodulo, hremainder⟩, ?_⟩
  · rcases hquotient with hexact | ⟨-, -, hwraps⟩
    · have hmost := quotient.toInt_lt
      rw [show Int64.minValue.toInt.tdiv (-1 : Int64).toInt = 2 ^ 63 by decide] at hexact
      omega
    · exact hwraps
  · exact hfits (by decide) (by decide)

end TableScript.Operator
