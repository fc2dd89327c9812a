import TableScript.Proofs.Values.Decimals
import TableScript.Proofs.Values.Nearest

/-!
# Texts of numbers are read back

A floating-point number is written with as few digits as tell it apart from the others, which is not
what it stands for in general.  What it is written with lies in its interval, though, and what lies
there is rounded to the number: its text is read as the number itself.
-/

namespace TableScript.Number

theorem isBlank_eq_false_of_isNumeralCharacter {character : Char}
    (hnumeral : isNumeralCharacter character = true) : Text.isBlank character = false := by
  rcases isNumeralCharacter_iff.mp hnumeral with hdigit | hmark
  · exact Text.isBlank_eq_false_of_isDigit hdigit
  · have hmarks : ∀ mark ∈ ['.', 'e', 'E', '+', '-'], Text.isBlank mark = false := by
      simp [Text.isBlank, Text.blankRanges]
    exact hmarks character hmark

variable {number : Float} {negative : Bool} {significand : Nat} {exponent : Int}

/-- A numeral in the interval of a number is read as the number, zeros with their sign. -/
theorem toFloat_of_covers {numeral : Numeral}
    (hfinite : decode number = .finite negative significand exponent)
    (hsign : numeral.negative = negative) (hzero : significand = 0 → numeral.magnitude = 0)
    (hsome : 0 < significand → (interval significand exponent).Covers numeral.magnitude) :
    numeral.toFloat = number := by
  have hstored := stored_of_decode hfinite
  have hcovers : (interval significand exponent).Covers numeral.magnitude := by
    rcases Nat.eq_zero_or_pos significand with hnone | hpositive
    · have hleast : exponent = leastExponent := hstored.leading.resolve_right (by omega)
      rw [hzero hnone, hnone, hleast]
      exact covers_zero le_rfl (by positivity)
    · exact hsome hpositive
  obtain ⟨significand', exponent', hread, hcovers', -⟩ :=
    (toFloat_nearest numeral).1 (lt_overflow_of_covers hfinite hcovers)
  obtain ⟨rfl, rfl⟩ := covers_unique (stored_of_decode hread) hstored hcovers' hcovers
  have hnumber : numeral.toFloat.isNaN = false := by
    refine Bool.eq_false_iff.mpr fun hnan => ?_
    rw [decode_eq_nan_iff.mpr hnan] at hread
    cases hread
  exact decode_injective hnumber (by rw [hread, hfinite, hsign])

theorem readNumeral?_floatText (hfinite : decode number = .finite negative significand exponent) :
    ∃ numeral, readNumeral? (floatText number).toList = some numeral ∧
      numeral.toFloat = number := by
  obtain ⟨value, hvalue, hzero, hcovers⟩ := writtenValue?_magnitudeText hfinite
  obtain ⟨⟨whole, fraction, power⟩, hread, hwritten⟩ := Option.map_eq_some_iff.mp hvalue
  have hsplit : splitSign (floatText number).toList =
      (negative, magnitudeText number significand exponent) := by
    rw [floatText_finite hfinite]
    cases negative with
    | true => rfl
    | false =>
        have hdecimal : IsUnsignedDecimal (magnitudeText number significand exponent) :=
          readUnsigned?_isSome_iff.mp (by rw [hread]; rfl)
        exact splitSign_append (.inl rfl) hdecimal.head?_ne_sign
  have hmagnitude : Numeral.magnitude ⟨negative, digitsValue (whole ++ fraction),
      power - fraction.length⟩ = value := hwritten
  refine ⟨⟨negative, digitsValue (whole ++ fraction), power - fraction.length⟩, ?_, ?_⟩
  · simp only [readNumeral?, hsplit, hread, Option.map_some]
  · exact toFloat_of_covers hfinite rfl (fun hnone => hmagnitude.trans (hzero hnone))
      fun hsome => hmagnitude ▸ hcovers hsome

/-- **The text of a number is read as the number.**  Infinities and what is no number are read by
their names. -/
theorem readFloat?_floatText (number : Float) :
    readFloat? (floatText number).toList = some number := by
  cases hdecode : decode number with
  | nan =>
      have hname : floatText number = "nan" := by simp [floatText, hdecode]
      have hread : readFloat? "nan".toList = some (0.0 / 0.0) := by rfl
      have hnan : (0.0 / 0.0 : Float).isNaN = true := by decide +kernel
      -- there is only one value that is not a number, so it is the one that was written
      have hsame := decode_eq_nan_iff.mp hdecode
      rw [Float.isNaN_eq_decide_eq_nan, decide_eq_true_eq] at hnan hsame
      rw [hname, hread, hnan, hsame]
  | infinite negative =>
      cases negative with
      | false =>
          have hname : floatText number = "inf" := by simp [floatText, hdecode]
          have hread : readFloat? "inf".toList = some (1.0 / 0.0) := by rfl
          have hinfinite : decode (1.0 / 0.0) = .infinite false := by decide +kernel
          rw [hname, hread, decode_injective (by decide +kernel) (hinfinite.trans hdecode.symm)]
      | true =>
          have hname : floatText number = "-inf" := by simp [floatText, hdecode]
          have hread : readFloat? "-inf".toList = some (-(1.0 / 0.0)) := by rfl
          have hinfinite : decode (-(1.0 / 0.0)) = .infinite true := by decide +kernel
          rw [hname, hread, decode_injective (by decide +kernel) (hinfinite.trans hdecode.symm)]
  | finite negative significand exponent =>
      obtain ⟨numeral, hread, hnumber⟩ := readNumeral?_floatText hdecode
      simp only [readFloat?, hread, hnumber]

/-- **The text of a finite number is decimal text**, which is read as the number with whatever
blanks around it. -/
theorem parseFloat?_floatText (hfinite : decode number = .finite negative significand exponent)
    {before after : List Char} (hbefore : ∀ character ∈ before, Text.isBlank character = true)
    (hafter : ∀ character ∈ after, Text.isBlank character = true) :
    parseFloat? (String.ofList (before ++ (floatText number).toList ++ after)) = some number := by
  obtain ⟨numeral, hread, -⟩ := readNumeral?_floatText hfinite
  have hdecimal : IsDecimal (floatText number).toList :=
    readNumeral?_isSome_iff.mp (by rw [hread]; rfl)
  -- a decimal numeral has only characters that pass the filter, and none that is trimmed
  obtain ⟨hsome, hcharacters⟩ := hdecimal.characters
  have hinner : ∀ character ∈ (floatText number).toList, Text.isBlank character = false :=
    fun character hmember => isBlank_eq_false_of_isNumeralCharacter (hcharacters character hmember)
  unfold parseFloat?
  rw [String.toList_ofList, Text.trim_append hsome hinner hbefore hafter]
  dsimp only
  rw [if_neg (by simpa [hsome] using hcharacters), readFloat?_floatText]

end TableScript.Number
