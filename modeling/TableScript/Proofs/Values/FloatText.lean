import TableScript.Number.Numeral
import TableScript.Proofs.Values.Rounding

/-!
# The text of a number says which number it is

A decimal text is read back to the rational number that it stands for.  The text of a finite number
stands for a value in the interval of the number, however it is laid out, so two numbers with one
text are one number.  No integer and no infinity shares its text with a finite number either.
-/

namespace TableScript.Number

/-! ## Digits -/

theorem digitsValue_eq (digits : List Char) :
    digitsValue digits = Nat.ofDigitChars 10 digits 0 := by
  rw [Nat.ofDigitChars_eq_foldl]
  rfl

theorem digitsValue_append (left right : List Char) :
    digitsValue (left ++ right) = digitsValue left * 10 ^ right.length + digitsValue right := by
  simp only [digitsValue_eq]
  rw [Nat.ofDigitChars_append, Nat.ofDigitChars_eq_ofDigitChars_zero, Nat.mul_comm]

theorem digitsValue_replicate_zero (count : Nat) :
    digitsValue (List.replicate count '0') = 0 := by
  rw [digitsValue_eq, Nat.ofDigitChars_replicate_zero, Nat.mul_zero]

@[simp] theorem digitsValue_digitsOf (number : Nat) : digitsValue (digitsOf number) = number := by
  rw [digitsValue_eq, digitsOf, Nat.ofDigitChars_ten_toDigits]

theorem isDigit_of_mem_digitsOf {number : Nat} {digit : Char} (hdigit : digit ∈ digitsOf number) :
    digit.isDigit = true :=
  Nat.isDigit_of_mem_toDigits (by norm_num) le_rfl hdigit

theorem digitsOf_ne_nil (number : Nat) : digitsOf number ≠ [] := Nat.toDigits_ne_nil

theorem digitsOf_injective {left right : Nat} (hsame : digitsOf left = digitsOf right) :
    left = right := by
  rw [← digitsValue_digitsOf left, hsame, digitsValue_digitsOf]

/-! ## Reading a decimal -/

/-- The value of a decimal text without a sign. -/
def writtenValue? (text : List Char) : Option ℚ :=
  (readUnsigned? text).map fun (whole, fraction, exponent) =>
    digitsValue (whole ++ fraction) * 10 ^ (exponent - fraction.length)

section Reading

variable {whole fraction tail : List Char} {exponent : Int}

theorem splitDigits_append (hdigits : ∀ digit ∈ whole, digit.isDigit = true)
    (htail : ∀ next ∈ tail.head?, next.isDigit = false) :
    splitDigits (whole ++ tail) = (whole, tail) := by
  unfold splitDigits
  rw [List.takeWhile_append_of_pos hdigits, List.dropWhile_append_of_pos hdigits]
  cases tail with
  | nil => simp
  | cons next tail => simp [htail next rfl]

/-- Digits, and something that is no digit and no point. -/
theorem writtenValue?_whole (hwhole : ∀ digit ∈ whole, digit.isDigit = true) (hsome : whole ≠ [])
    (htail : ∀ next ∈ tail.head?, next.isDigit = false ∧ next ≠ '.')
    (hexponent : readExponent? tail = some exponent) :
    writtenValue? (whole ++ tail) = some ((digitsValue whole : ℚ) * 10 ^ exponent) := by
  have hsplit := splitDigits_append hwhole fun next hnext => (htail next hnext).1
  have hread : readUnsigned? (whole ++ tail) = some (whole, [], exponent) := by
    simp only [readUnsigned?, hsplit]
    split
    · next decimals => exact absurd rfl (htail '.' rfl).2
    · simp [hexponent, hsome]
  simp [writtenValue?, hread]

/-- Digits, a point, more digits, and something that is no digit. -/
theorem writtenValue?_pointed (hwhole : ∀ digit ∈ whole, digit.isDigit = true) (hsome : whole ≠ [])
    (hfraction : ∀ digit ∈ fraction, digit.isDigit = true)
    (htail : ∀ next ∈ tail.head?, next.isDigit = false)
    (hexponent : readExponent? tail = some exponent) :
    writtenValue? (whole ++ '.' :: (fraction ++ tail)) =
      some ((digitsValue (whole ++ fraction) : ℚ) * 10 ^ (exponent - fraction.length)) := by
  have hpoint : ∀ next ∈ ('.' :: (fraction ++ tail)).head?, next.isDigit = false := by simp
  have hsplit := splitDigits_append hwhole hpoint
  have hsplit' := splitDigits_append hfraction htail
  simp [writtenValue?, readUnsigned?, hsplit, hsplit', hexponent, hsome]

theorem splitSign_digits (hwhole : ∀ digit ∈ whole, digit.isDigit = true) :
    splitSign whole = (false, whole) := by
  unfold splitSign
  split
  · exact absurd (hwhole '-' (by simp)) (by decide)
  · exact absurd (hwhole '+' (by simp)) (by decide)
  · rfl

theorem splitDigits_digitsOf (number : Nat) :
    splitDigits (digitsOf number) = (digitsOf number, []) := by
  have hnone : ∀ next ∈ ([] : List Char).head?, next.isDigit = false := by simp
  simpa using splitDigits_append (fun _ => isDigit_of_mem_digitsOf) hnone

theorem readExponent?_integerText (power : Int) :
    readExponent? ('e' :: integerText power) = some power := by
  have hdigits : ∀ digit ∈ digitsOf power.natAbs, digit.isDigit = true :=
    fun _ => isDigit_of_mem_digitsOf
  unfold integerText
  split
  · next hnegative =>
      simp [readExponent?, splitSign, splitDigits_digitsOf, digitsOf_ne_nil, abs_of_neg hnegative]
  · next hnatural =>
      simp [readExponent?, splitSign_digits hdigits, splitDigits_digitsOf, digitsOf_ne_nil,
        abs_of_nonneg (not_lt.mp hnatural)]

end Reading

/-! ## The layouts of a decimal -/

/-- With an exponent, a decimal is written as what it is. -/
theorem writtenValue?_scientific (decimal : Decimal) :
    writtenValue? decimal.scientific = some decimal.value := by
  have hdigits : ∀ digit ∈ digitsOf decimal.digits, digit.isDigit = true :=
    fun _ => isDigit_of_mem_digitsOf
  have hsome := digitsOf_ne_nil decimal.digits
  have hvalue := digitsValue_digitsOf decimal.digits
  have htail : ∀ power, ∀ next ∈ ('e' :: integerText power).head?,
      next.isDigit = false ∧ next ≠ '.' := by
    simp
  unfold Decimal.scientific Decimal.value
  dsimp only
  -- of the digits only their value matters; the exponent counts the places that the point was moved
  generalize digitsOf decimal.digits = digits at hdigits hsome hvalue ⊢
  split
  · next first second rest =>
      obtain ⟨hfirst, hmore⟩ := List.forall_mem_cons.mp hdigits
      have hread := writtenValue?_pointed (List.forall_mem_singleton.mpr hfirst)
        (List.cons_ne_nil first []) hmore (fun next hnext => (htail _ next hnext).1)
        (readExponent?_integerText (decimal.exponent + (first :: second :: rest).length - 1))
      have hplaces : decimal.exponent + (first :: second :: rest).length - 1 -
          (second :: rest).length = decimal.exponent := by
        simp only [List.length_cons]
        omega
      rw [hplaces, show digitsValue ([first] ++ second :: rest) = decimal.digits from hvalue]
        at hread
      exact hread
  · next hshort =>
      -- a single digit has no point behind it
      have hone : digits.length = 1 := by
        match digits with
        | [] => exact absurd rfl hsome
        | [_] => rfl
        | first :: second :: rest => exact (hshort first second rest rfl).elim
      have hread := writtenValue?_whole hdigits hsome (htail _)
        (readExponent?_integerText (decimal.exponent + digits.length - 1))
      have hplaces : decimal.exponent + digits.length - 1 = decimal.exponent := by omega
      rw [hvalue] at hread
      rw [hread, hplaces]

theorem isDigit_of_mem_zeros {count : Nat} {digit : Char}
    (hdigit : digit ∈ List.replicate count '0') : digit.isDigit = true := by
  rw [List.eq_of_mem_replicate hdigit]
  rfl

/-- Without an exponent, a decimal is written as what it is. -/
theorem writtenValue?_positional (decimal : Decimal) :
    writtenValue? decimal.positional = some decimal.value := by
  have hdigits : ∀ digit ∈ digitsOf decimal.digits, digit.isDigit = true :=
    fun _ => isDigit_of_mem_digitsOf
  have hsome := digitsOf_ne_nil decimal.digits
  have hvalue := digitsValue_digitsOf decimal.digits
  have hnone : readExponent? [] = some 0 := rfl
  have htail : ∀ next ∈ ([] : List Char).head?, next.isDigit = false ∧ next ≠ '.' := by simp
  unfold Decimal.positional Decimal.value
  dsimp only
  generalize digitsOf decimal.digits = digits at hdigits hsome hvalue ⊢
  split_ifs with hnatural hpoint
  · -- zeros after the digits
    obtain ⟨zeros, hzeros⟩ : ∃ zeros : Nat, decimal.exponent = zeros :=
      ⟨decimal.exponent.toNat, by omega⟩
    have hall : ∀ digit ∈ digits ++ List.replicate zeros '0', digit.isDigit = true :=
      List.forall_mem_append.mpr ⟨hdigits, fun _ => isDigit_of_mem_zeros⟩
    have hread := writtenValue?_whole hall (by simp [hsome]) htail hnone
    rw [digitsValue_append, digitsValue_replicate_zero, hvalue] at hread
    simpa [hzeros] using hread
  · -- the point among the digits
    obtain ⟨places, hplaces⟩ : ∃ places : Nat, decimal.exponent = -places :=
      ⟨(-decimal.exponent).toNat, by omega⟩
    rw [hplaces, neg_neg, Int.toNat_natCast] at hpoint ⊢
    have hwhole : digits.take (digits.length - places) ≠ [] := by
      rw [Ne, List.take_eq_nil_iff]
      rintro (hzero | hempty)
      · omega
      · exact hsome hempty
    have hfraction : ∀ digit ∈ digits.drop (digits.length - places), digit.isDigit = true :=
      fun digit hdigit => hdigits digit (List.mem_of_mem_drop hdigit)
    have hread := writtenValue?_pointed
      (fun digit hdigit => hdigits digit (List.mem_of_mem_take hdigit)) hwhole hfraction
      (fun next hnext => (htail next hnext).1) hnone
    have hlength : (digits.drop (digits.length - places)).length = places := by
      rw [List.length_drop]
      omega
    rw [List.take_append_drop, hvalue, hlength, List.append_nil, zero_sub] at hread
    exact hread
  · -- zeros between the point and the digits
    obtain ⟨places, hplaces⟩ : ∃ places : Nat, decimal.exponent = -places :=
      ⟨(-decimal.exponent).toNat, by omega⟩
    rw [hplaces, neg_neg, Int.toNat_natCast] at hpoint ⊢
    have hfraction : ∀ digit ∈ List.replicate (places - digits.length) '0' ++ digits,
        digit.isDigit = true :=
      List.forall_mem_append.mpr ⟨fun _ => isDigit_of_mem_zeros, hdigits⟩
    have hread := writtenValue?_pointed
      (List.forall_mem_singleton.mpr (show '0'.isDigit = true by rfl))
      (List.cons_ne_nil '0' []) hfraction (fun next hnext => (htail next hnext).1) hnone
    have hlength : (List.replicate (places - digits.length) '0' ++ digits).length = places := by
      rw [List.length_append, List.length_replicate]
      omega
    have hzeros : digitsValue (['0'] ++ (List.replicate (places - digits.length) '0' ++ digits)) =
        decimal.digits := by
      rw [digitsValue_append, digitsValue_append, digitsValue_replicate_zero, hvalue]
      simp [digitsValue]
    rw [hzeros, hlength, List.append_nil, zero_sub] at hread
    exact hread

/-- A whole number is written with a point and a zero. -/
theorem writtenValue?_wholeNumber (number : Nat) :
    writtenValue? (digitsOf number ++ ['.', '0']) = some (number : ℚ) := by
  have hdigits : ∀ digit ∈ digitsOf number, digit.isDigit = true := fun _ => isDigit_of_mem_digitsOf
  have hzero : ∀ digit ∈ ['0'], digit.isDigit = true := by simp
  have htail : ∀ next ∈ ([] : List Char).head?, next.isDigit = false := by simp
  have hread := writtenValue?_pointed hdigits (digitsOf_ne_nil number) hzero htail
    (show readExponent? [] = some 0 from rfl)
  rw [digitsValue_append, digitsValue_digitsOf] at hread
  simpa [digitsValue] using hread

/-! ## The text of a number -/

section MagnitudeText

variable {number : Float} {negative : Bool} {significand : Nat} {exponent : Int}

theorem wholePart_eq (hwhole : (Decoded.finite negative significand exponent).isWhole = true) :
    ((Decoded.finite negative significand exponent).wholePart : ℚ) =
      significand * 2 ^ exponent := by
  simp only [Decoded.isWhole, Nat.pow_eq, decide_eq_true_eq] at hwhole
  simp only [Decoded.wholePart, Nat.pow_eq]
  rcases le_total 0 exponent with hnatural | hnegative
  · obtain ⟨places, rfl⟩ : ∃ places : Nat, exponent = places := ⟨exponent.toNat, by omega⟩
    simp
  · obtain ⟨places, rfl⟩ : ∃ places : Nat, exponent = -places := ⟨(-exponent).toNat, by omega⟩
    rw [neg_neg, Int.toNat_natCast] at hwhole ⊢
    have hnone : (-(places : Int)).toNat = 0 := by omega
    rw [hnone, pow_zero, mul_one, Nat.cast_div (Nat.dvd_of_mod_eq_zero hwhole) (by positivity),
      zpow_neg, zpow_natCast, div_eq_mul_inv]
    push_cast
    rfl

/-- Zero has no fraction. -/
theorem significand_pos_of_not_isWhole
    (hfinite : decode number = .finite negative significand exponent)
    (hwhole : ¬ isWhole number = true) : 0 < significand := by
  refine Nat.pos_of_ne_zero ?_
  rintro rfl
  rw [isWhole, hfinite] at hwhole
  exact hwhole (by simp [Decoded.isWhole])

/-- The text of a finite number stands for a value in its interval. -/
theorem writtenValue?_magnitudeText
    (hfinite : decode number = .finite negative significand exponent) :
    ∃ value, writtenValue? (magnitudeText number significand exponent) = some value ∧
      (significand = 0 → value = 0) ∧
      (0 < significand → (interval significand exponent).Covers value) := by
  unfold magnitudeText
  split
  · -- three layouts, and in the first and the last of them stands the shortest decimal
    next hlarge =>
      have hsome : 0 < significand := Nat.pos_of_ne_zero hlarge.1
      exact ⟨_, writtenValue?_scientific _, fun hzero => absurd hzero hlarge.1,
        fun _ => covers_shortest hsome⟩
  split
  · next hwhole =>
      rw [isWhole, hfinite] at hwhole
      refine ⟨_, writtenValue?_wholeNumber _, ?_, ?_⟩
      · rintro rfl
        rw [hfinite, wholePart_eq hwhole]
        simp
      · intro hsome
        rw [hfinite, wholePart_eq hwhole]
        exact covers_middle hsome
  · next hwhole =>
      have hsome : 0 < significand := significand_pos_of_not_isWhole hfinite hwhole
      exact ⟨_, writtenValue?_positional _, fun hzero => absurd hzero hsome.ne',
        fun _ => covers_shortest hsome⟩

end MagnitudeText

theorem covers_pos {significand : Nat} {exponent : Int} {value : ℚ} (hsome : 0 < significand)
    (hcovers : (interval significand exponent).Covers value) : 0 < value := by
  have hlow := @interval_low significand exponent
  have hpositive : 0 < (interval significand exponent).low := by omega
  have hend : 0 < (interval significand exponent).lowValue := by
    unfold Interval.lowValue
    positivity
  exact hend.trans_le hcovers.least

/-- Finite numbers with the same text, their signs apart, have the same parts. -/
theorem parts_eq_of_magnitudeText {left right : Float} {negative negative' : Bool}
    {significand significand' : Nat} {exponent exponent' : Int}
    (hleft : decode left = .finite negative significand exponent)
    (hright : decode right = .finite negative' significand' exponent')
    (hsame : magnitudeText left significand exponent = magnitudeText right significand' exponent') :
    significand = significand' ∧ exponent = exponent' := by
  have hstored := stored_of_decode hleft
  have hstored' := stored_of_decode hright
  obtain ⟨value, hvalue, hzero, hcovers⟩ := writtenValue?_magnitudeText hleft
  obtain ⟨value', hvalue', hzero', hcovers'⟩ := writtenValue?_magnitudeText hright
  obtain rfl : value = value' := by
    rw [hsame, hvalue'] at hvalue
    exact (Option.some.inj hvalue).symm
  rcases Nat.eq_zero_or_pos significand with hnone | hsome <;>
    rcases Nat.eq_zero_or_pos significand' with hnone' | hsome'
  · have hleast := hstored.leading
    have hleast' := hstored'.leading
    omega
  · exact absurd (hzero hnone) (covers_pos hsome' (hcovers' hsome')).ne'
  · exact absurd (hzero' hnone') (covers_pos hsome (hcovers hsome)).ne'
  · exact covers_unique hstored hstored' (hcovers hsome) (hcovers' hsome')

section FloatText

variable {number : Float} {negative : Bool} {significand : Nat} {exponent : Int}

theorem floatText_finite (hfinite : decode number = .finite negative significand exponent) :
    (floatText number).toList = if negative then '-' :: magnitudeText number significand exponent
      else magnitudeText number significand exponent := by
  simp [floatText, hfinite]

/-- What a magnitude is written with begins with no sign, and is no name. -/
theorem magnitudeText_ne (hfinite : decode number = .finite negative significand exponent)
    {text : List Char} (hunreadable : writtenValue? text = none) :
    magnitudeText number significand exponent ≠ text := by
  obtain ⟨value, hvalue, -⟩ := writtenValue?_magnitudeText hfinite
  rintro rfl
  rw [hvalue] at hunreadable
  cases hunreadable

theorem writtenValue?_minus (rest : List Char) : writtenValue? ('-' :: rest) = none := by
  simp [writtenValue?, readUnsigned?, splitDigits]

/-- Finite numbers are not written with a name. -/
theorem floatText_ne_name (hfinite : decode number = .finite negative significand exponent)
    {name : String} (hname : writtenValue? name.toList = none)
    (htail : ∀ rest, name.toList = '-' :: rest → writtenValue? rest = none) :
    floatText number ≠ name := by
  rintro rfl
  have htext := floatText_finite hfinite
  cases negative with
  | false => exact magnitudeText_ne hfinite hname htext.symm
  | true => exact magnitudeText_ne hfinite (htail _ htext) rfl

/-- Finite numbers are not written as the other numbers are. -/
theorem floatText_ne_of_finite (hfinite : decode number = .finite negative significand exponent)
    {other : Float} (hother : decode other = .nan ∨ ∃ sign, decode other = .infinite sign) :
    floatText number ≠ floatText other := by
  rcases hother with hnan | ⟨sign, hinfinite⟩
  · have hname : floatText other = "nan" := by simp [floatText, hnan]
    rw [hname]
    exact floatText_ne_name hfinite (by decide) (by simp)
  · cases sign with
    | false =>
        have hname : floatText other = "inf" := by simp [floatText, hinfinite]
        rw [hname]
        exact floatText_ne_name hfinite (by decide) (by simp)
    | true =>
        have hname : floatText other = "-inf" := by simp [floatText, hinfinite]
        rw [hname]
        refine floatText_ne_name hfinite (by decide) ?_
        intro rest hrest
        cases hrest
        decide

theorem sign_eq_of_floatText {other : Float} {negative' : Bool} {significand' : Nat}
    {exponent' : Int} (hfinite : decode number = .finite negative significand exponent)
    (hother : decode other = .finite negative' significand' exponent')
    (hsame : floatText number = floatText other) :
    negative = negative' ∧
      magnitudeText number significand exponent = magnitudeText other significand' exponent' := by
  have htext := floatText_finite hfinite
  rw [hsame, floatText_finite hother] at htext
  cases negative <;> cases negative'
  · exact ⟨rfl, htext.symm⟩
  · exact absurd htext.symm (magnitudeText_ne hfinite (writtenValue?_minus _))
  · exact absurd htext (magnitudeText_ne hother (writtenValue?_minus _))
  · exact ⟨rfl, (List.cons.inj htext).2.symm⟩

end FloatText

/-- **The text of a number says which number it is.** -/
theorem floatText_injective {left right : Float} (hnumber : left.isNaN = false)
    (hsame : floatText left = floatText right) : left = right := by
  refine decode_injective hnumber ?_
  -- the names of infinities are no numerals, so the two are of one kind
  cases hleft : decode left with
  | nan =>
      rw [decode_eq_nan_iff.mp hleft] at hnumber
      cases hnumber
  | infinite negative =>
      cases hright : decode right with
      | nan => cases negative <;> simp [floatText, hleft, hright] at hsame
      | infinite negative' =>
          cases negative <;> cases negative' <;> simp [floatText, hleft, hright] at hsame ⊢
      | finite negative' significand exponent =>
          exact absurd hsame.symm (floatText_ne_of_finite hright (.inr ⟨negative, hleft⟩))
  | finite negative significand exponent =>
      cases hright : decode right with
      | nan => exact absurd hsame (floatText_ne_of_finite hleft (.inl hright))
      | infinite negative' =>
          exact absurd hsame (floatText_ne_of_finite hleft (.inr ⟨negative', hright⟩))
      | finite negative' significand' exponent' =>
          obtain ⟨rfl, hmagnitude⟩ := sign_eq_of_floatText hleft hright hsame
          obtain ⟨rfl, rfl⟩ := parts_eq_of_magnitudeText hleft hright hmagnitude
          rfl

/-! ## Numbers and integers -/

section Marks

variable {number : Float} {negative : Bool} {significand : Nat} {exponent : Int}

/-- A number whose interval has a whole number in it is that number. -/
theorem isWhole_of_covers {value : Nat}
    (hcovers : (interval significand exponent).Covers (value : ℚ)) :
    (Decoded.finite negative significand exponent).isWhole = true := by
  simp only [Decoded.isWhole, Nat.pow_eq, decide_eq_true_eq]
  rcases le_total 0 exponent with hnatural | hnegative
  · have hnone : (-exponent).toNat = 0 := by omega
    rw [hnone, pow_zero, Nat.mod_one]
  · obtain ⟨places, rfl⟩ : ∃ places : Nat, exponent = -places := ⟨(-exponent).toNat, by omega⟩
    have hunit : (0 : ℚ) < 2 ^ (-(places : ℤ) - 2) := by positivity
    -- in quarters of the last binary place the whole number is a multiple of four
    have hvalue : (value : ℚ) = (4 * (value * 2 ^ places) : Nat) * 2 ^ (-(places : ℤ) - 2) := by
      rw [zpow_sub₀ (by norm_num), zpow_neg, zpow_natCast]
      push_cast
      field_simp
    have hleast := hcovers.least
    have hmost := hcovers.most
    rw [hvalue, Interval.lowValue, interval_exponent, mul_le_mul_iff_of_pos_right hunit,
      Nat.cast_le] at hleast
    rw [hvalue, Interval.highValue, interval_exponent, mul_le_mul_iff_of_pos_right hunit,
      Nat.cast_le, interval_high] at hmost
    -- the ends are at most two quarters away, so the multiple of four is the significand itself
    have hlow := @interval_low significand (-places)
    have hsame : significand = value * 2 ^ places := by omega
    rw [neg_neg, Int.toNat_natCast, hsame, Nat.mul_mod_left]

/-- A decimal without places after the point stands for a whole number. -/
theorem value_of_natural {decimal : Decimal} (hnatural : 0 ≤ decimal.exponent) :
    decimal.value = (decimal.digits * 10 ^ decimal.exponent.toNat : Nat) := by
  obtain ⟨places, hplaces⟩ : ∃ places : Nat, decimal.exponent = places :=
    ⟨decimal.exponent.toNat, by omega⟩
  simp [Decimal.value, hplaces]

/-- A magnitude is written with a point or an exponent. -/
theorem exists_mark_magnitudeText
    (hfinite : decode number = .finite negative significand exponent) :
    ∃ mark ∈ magnitudeText number significand exponent, mark = '.' ∨ mark = 'e' := by
  unfold magnitudeText
  split
  · exact ⟨'e', by simp [Decimal.scientific], .inr rfl⟩
  split
  · exact ⟨'.', by simp, .inl rfl⟩
  · next hwhole =>
      have hsome : 0 < significand := significand_pos_of_not_isWhole hfinite hwhole
      rw [isWhole, hfinite] at hwhole
      refine ⟨'.', ?_, .inl rfl⟩
      unfold Decimal.positional
      dsimp only
      split_ifs with hplaces hpoint
      · -- without a place after the point the text would be that of a whole number
        have hcovers : (interval significand exponent).Covers
            (shortest significand exponent).value := covers_shortest hsome
        rw [value_of_natural (by omega)] at hcovers
        exact absurd (isWhole_of_covers hcovers) hwhole
      · simp
      · simp

end Marks

theorem mem_integerText {integer : Int} {character : Char}
    (hmem : character ∈ integerText integer) : character.isDigit = true ∨ character = '-' := by
  unfold integerText at hmem
  split at hmem
  · rcases List.mem_cons.mp hmem with rfl | hdigit
    · exact .inr rfl
    · exact .inl (isDigit_of_mem_digitsOf hdigit)
  · exact .inl (isDigit_of_mem_digitsOf hmem)

theorem exists_mark_floatText (number : Float) :
    ∃ mark ∈ (floatText number).toList, mark.isDigit = false ∧ mark ≠ '-' := by
  cases hdecode : decode number with
  | nan => exact ⟨'a', by simp [floatText, hdecode], by decide, by decide⟩
  | infinite negative =>
      cases negative <;> exact ⟨'f', by simp [floatText, hdecode], by decide, by decide⟩
  | finite negative significand exponent =>
      obtain ⟨mark, hmark, hkind⟩ := exists_mark_magnitudeText hdecode
      refine ⟨mark, ?_, ?_⟩
      · rw [floatText_finite hdecode]
        split
        · exact List.mem_cons_of_mem _ hmark
        · exact hmark
      · rcases hkind with rfl | rfl <;> decide

/-- **No number is written as an integer is.** -/
theorem floatText_ne_integerText (number : Float) (integer : Int) :
    floatText number ≠ String.ofList (integerText integer) := by
  obtain ⟨mark, hmark, hdigit, hsign⟩ := exists_mark_floatText number
  intro hsame
  rw [hsame, String.toList_ofList] at hmark
  rcases mem_integerText hmark with hdigit' | hsign'
  · rw [hdigit] at hdigit'
    cases hdigit'
  · exact hsign hsign'

end TableScript.Number
