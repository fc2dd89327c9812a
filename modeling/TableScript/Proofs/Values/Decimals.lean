import TableScript.Operator
import TableScript.Proofs.Lexis.Cut
import TableScript.Proofs.Values.FloatText
import TableScript.Reading

/-!
# Which texts are numbers

A decimal numeral has an optional sign, digits with at most one point among them, and an optional
exponent; an integer numeral has an optional sign and digits, and stands for an integer.  Both are
described here without a reader, and the readers are shown to accept just them: texts that operators
take for numbers are the decimal numerals, and an input line is a floating-point number, an integer
or neither by its points and its grammar.

## Strategy

The readers split a sign and runs of digits off and look at what comes next, so every step has one
lemma that says which texts it lets pass (`readExponent?_isSome_iff`, `readUnsigned?_isSome_iff`,
`readNumeral?_isSome_iff`, `parseInteger?_eq_some_iff`).  The description leaves open where the
digits end, the readers take all there are; that the two agree is `splitDigits_append`, since
neither a point nor the mark of an exponent is a digit.
-/

namespace TableScript

namespace Number

/-! ## Signs and runs of digits -/

/-- A sign, or none. -/
def IsSign (sign : List Char) : Prop := sign = [] ∨ sign = ['+'] ∨ sign = ['-']

theorem splitSign_append {sign text : List Char} (hsign : IsSign sign)
    (htext : ∀ next ∈ text.head?, next ≠ '+' ∧ next ≠ '-') :
    splitSign (sign ++ text) = (decide (sign = ['-']), text) := by
  rcases hsign with rfl | rfl | rfl
  · cases text with
    | nil => rfl
    | cons next rest =>
        obtain ⟨hplus, hminus⟩ := htext next rfl
        simp [splitSign, hplus, hminus]
  · rfl
  · rfl

/-- What is split off is a sign, and what is left goes on behind it. -/
theorem exists_splitSign (text : List Char) :
    ∃ sign rest, text = sign ++ rest ∧ IsSign sign ∧
      splitSign text = (decide (sign = ['-']), rest) := by
  fun_cases splitSign text with
  | case1 rest => exact ⟨['-'], rest, rfl, .inr (.inr rfl), rfl⟩
  | case2 rest => exact ⟨['+'], rest, rfl, .inr (.inl rfl), rfl⟩
  | case3 rest => exact ⟨[], _, rfl, .inl rfl, rfl⟩

/-- Every text begins with a longest run of digits. -/
theorem exists_digits_append (text : List Char) :
    ∃ digits rest, text = digits ++ rest ∧ AllDigits digits ∧
      ∀ next ∈ rest.head?, next.isDigit = false := by
  refine ⟨text.takeWhile Char.isDigit, text.dropWhile Char.isDigit,
    List.takeWhile_append_dropWhile.symm, fun _ hdigit => List.mem_takeWhile_imp hdigit, ?_⟩
  intro next hnext
  have hstops := List.head?_dropWhile_not Char.isDigit text
  rw [Option.mem_def.mp hnext] at hstops
  simpa using hstops

theorem splitDigits_of_allDigits {digits : List Char} (hdigits : AllDigits digits) :
    splitDigits digits = (digits, []) := by
  have hsplit : splitDigits (digits ++ []) = (digits, []) := splitDigits_append hdigits (by simp)
  rwa [List.append_nil] at hsplit

theorem ne_sign_of_isDigit {next : Char} (hdigit : next.isDigit = true) :
    next ≠ '+' ∧ next ≠ '-' := by
  constructor <;> rintro rfl <;> cases hdigit

theorem splitSign_append_digits {sign digits : List Char} (hsign : IsSign sign)
    (hdigits : AllDigits digits) :
    splitSign (sign ++ digits) = (decide (sign = ['-']), digits) :=
  splitSign_append hsign fun next hnext =>
    ne_sign_of_isDigit (hdigits next (List.mem_of_mem_head? hnext))

/-! ## Decimal numerals -/

/-- A decimal numeral without its sign. -/
def IsUnsignedDecimal (text : List Char) : Prop :=
  ∃ whole fraction exponent, text = whole ++ fraction ++ exponent ∧
    NumeralParts whole fraction exponent

/-- A decimal numeral. -/
def IsDecimal (text : List Char) : Prop :=
  ∃ sign unsigned, text = sign ++ unsigned ∧ IsSign sign ∧ IsUnsignedDecimal unsigned

theorem readExponent?_isSome_iff {text : List Char} :
    (readExponent? text).isSome = true ↔ text = [] ∨ IsExponent text := by
  constructor
  · intro hread
    cases text with
    | nil => exact .inl rfl
    | cons mark after =>
        obtain ⟨sign, unsigned, rfl, hsign, hsplit⟩ := exists_splitSign after
        obtain ⟨digits, remainder, rfl, hdigits, hstops⟩ := exists_digits_append unsigned
        have hsplit' := splitDigits_append hdigits hstops
        by_cases hmark : mark = 'e' ∨ mark = 'E'
        · have hends : digits ≠ [] ∧ remainder = [] := by
            simpa [readExponent?, hmark, hsplit, hsplit'] using hread
          exact .inr ⟨mark, sign, digits, by simp [hends.2], hmark, hsign, hends.1, hdigits⟩
        · simp [readExponent?, hmark] at hread
  · rintro (rfl | ⟨mark, sign, digits, rfl, hmark, hsign, hsome, hdigits⟩)
    · rfl
    · have hsplit := splitSign_append_digits hsign hdigits
      have hsplit' := splitDigits_of_allDigits hdigits
      simp [readExponent?, hmark, hsplit, hsplit', hsome]

/-- An exponent begins with what is neither a digit nor a point. -/
theorem head?_of_scaled {exponent : List Char} (hscaled : exponent = [] ∨ IsExponent exponent) :
    ∀ next ∈ exponent.head?, next.isDigit = false ∧ next ≠ '.' := by
  rcases hscaled with rfl | hexponent
  · simp
  · rw [← List.append_nil exponent]
    exact hexponent.head?_append

/-- Digits without a point behind them are the whole number. -/
theorem readUnsigned?_whole {whole rest : List Char} (hwhole : AllDigits whole)
    (hrest : ∀ next ∈ rest.head?, next.isDigit = false ∧ next ≠ '.') :
    readUnsigned? (whole ++ rest) =
      if whole = [] then none else (readExponent? rest).map fun power => (whole, [], power) := by
  have hsplit := splitDigits_append hwhole fun next hnext => (hrest next hnext).1
  simp only [readUnsigned?, hsplit]
  split
  · next decimals => exact absurd rfl (hrest '.' rfl).2
  · simp

/-- Digits with a point behind them go on with the digits of the fraction. -/
theorem readUnsigned?_pointed {whole fraction rest : List Char} (hwhole : AllDigits whole)
    (hfraction : AllDigits fraction) (hrest : ∀ next ∈ rest.head?, next.isDigit = false) :
    readUnsigned? (whole ++ '.' :: (fraction ++ rest)) =
      if whole = [] ∧ fraction = [] then none
      else (readExponent? rest).map fun power => (whole, fraction, power) := by
  have hsplit : splitDigits (whole ++ '.' :: (fraction ++ rest)) =
      (whole, '.' :: (fraction ++ rest)) := splitDigits_append hwhole (by simp)
  have hsplit' := splitDigits_append hfraction hrest
  simp [readUnsigned?, hsplit, hsplit']

theorem readUnsigned?_isSome_iff {text : List Char} :
    (readUnsigned? text).isSome = true ↔ IsUnsignedDecimal text := by
  constructor
  · intro hread
    -- the digits at the front are cut off, and what follows them decides
    obtain ⟨whole, after, rfl, hwhole, hafter⟩ := exists_digits_append text
    by_cases hpoint : after.head? = some '.'
    · obtain ⟨decimals, rfl⟩ := List.head?_eq_some_iff.mp hpoint
      obtain ⟨fraction, exponent, rfl, hfraction, hexponent⟩ := exists_digits_append decimals
      rw [readUnsigned?_pointed hwhole hfraction hexponent] at hread
      split_ifs at hread with hempty
      · cases hread
      · rw [Option.isSome_map, readExponent?_isSome_iff] at hread
        refine ⟨whole, '.' :: fraction, exponent, by simp, hwhole,
          .inr ⟨fraction, rfl, hfraction⟩, hread, ?_⟩
        -- one digit is enough, on whichever side of the point
        by_cases hwhole' : whole = []
        · obtain ⟨digit, hdigit⟩ := List.exists_mem_of_ne_nil fraction fun hnone =>
            hempty ⟨hwhole', hnone⟩
          exact .inr ⟨digit, List.mem_cons_of_mem _ hdigit, hfraction digit hdigit⟩
        · exact .inl hwhole'
    · have hafter' : ∀ next ∈ after.head?, next.isDigit = false ∧ next ≠ '.' := by
        rintro next hnext
        refine ⟨hafter next hnext, ?_⟩
        rintro rfl
        exact hpoint hnext
      rw [readUnsigned?_whole hwhole hafter'] at hread
      split_ifs at hread with hempty
      · cases hread
      · rw [Option.isSome_map, readExponent?_isSome_iff] at hread
        exact ⟨whole, [], after, by simp, hwhole, .inl rfl, hread, .inl hempty⟩
  · rintro ⟨whole, fraction, exponent, rfl, hwhole, hpointed, hscaled, hsome⟩
    have hpower := readExponent?_isSome_iff.mpr hscaled
    -- an exponent begins with its mark, so the digits before it end where they were cut
    have hhead := head?_of_scaled hscaled
    rcases hpointed with rfl | ⟨digits, rfl, hdigits⟩
    · have hwhole' : whole ≠ [] := by simpa using hsome
      rw [List.append_nil, readUnsigned?_whole hwhole hhead, if_neg hwhole', Option.isSome_map]
      exact hpower
    · have hdigit : ¬ (whole = [] ∧ digits = []) := by
        rintro ⟨rfl, rfl⟩
        simp at hsome
      rw [List.append_assoc, List.cons_append,
        readUnsigned?_pointed hwhole hdigits fun next hnext => (hhead next hnext).1, if_neg hdigit,
        Option.isSome_map]
      exact hpower

/-- A decimal numeral begins with a digit or a point, its sign apart. -/
theorem IsUnsignedDecimal.head?_ne_sign {text : List Char} (hdecimal : IsUnsignedDecimal text) :
    ∀ next ∈ text.head?, next ≠ '+' ∧ next ≠ '-' := by
  obtain ⟨whole, fraction, exponent, rfl, hwhole, hpointed, -, hsome⟩ := hdecimal
  intro next hnext
  cases whole with
  | cons digit digits =>
      obtain rfl : digit = next := by simpa using hnext
      exact ne_sign_of_isDigit (hwhole digit List.mem_cons_self)
  | nil =>
      rcases hpointed with rfl | ⟨digits, rfl, -⟩
      · simp at hsome
      · obtain rfl : '.' = next := by simpa using hnext
        decide

theorem readNumeral?_isSome_iff {text : List Char} :
    (readNumeral? text).isSome = true ↔ IsDecimal text := by
  constructor
  · intro hread
    obtain ⟨sign, unsigned, rfl, hsign, hsplit⟩ := exists_splitSign text
    simp only [readNumeral?, hsplit, Option.isSome_map] at hread
    exact ⟨sign, unsigned, rfl, hsign, readUnsigned?_isSome_iff.mp hread⟩
  · rintro ⟨sign, unsigned, rfl, hsign, hdecimal⟩
    simp only [readNumeral?, splitSign_append hsign hdecimal.head?_ne_sign, Option.isSome_map]
    exact readUnsigned?_isSome_iff.mpr hdecimal

/-! ### The names of numbers -/

theorem isNumeralCharacter_iff {character : Char} :
    isNumeralCharacter character = true ↔
      character.isDigit = true ∨ character ∈ ['.', 'e', 'E', '+', '-'] := by
  rw [isNumeralCharacter, Bool.or_eq_true, List.contains_iff_mem]

/-- The only letter of a numeral is the mark of its exponent. -/
theorem toLower_ne_of_isNumeralCharacter {character letter : Char}
    (hnumeral : isNumeralCharacter character = true) (halpha : letter.isAlpha = true)
    (hmark : letter ≠ 'e') : character.toLower ≠ letter := by
  rintro rfl
  rw [Char.isAlpha_toLower_eq_isAlpha] at halpha
  rcases isNumeralCharacter_iff.mp hnumeral with hdigit | hsign
  · simp only [Char.isDigit, Char.isAlpha, Char.isUpper, Char.isLower, Bool.and_eq_true,
      Bool.or_eq_true, decide_eq_true_eq] at hdigit halpha
    grind
  · fin_cases hsign
    all_goals first | exact absurd halpha (by decide) | exact absurd rfl hmark

/-- The name of a number begins with a letter that no numeral has. -/
theorem exists_letter_of_namedNumber? {name : List Char}
    (hnamed : (namedNumber? name).isSome = true) :
    ∃ letter ∈ name, isNumeralCharacter letter = false := by
  have hletter : ∃ letter rest, name.map Char.toLower = letter :: rest ∧
      (letter = 'i' ∨ letter = 'n') := by
    unfold namedNumber? at hnamed
    split at hnamed
    · next hname => exact ⟨_, _, String.ofList_eq.mp hname, .inl rfl⟩
    · next hname => exact ⟨_, _, String.ofList_eq.mp hname, .inl rfl⟩
    · next hname => exact ⟨_, _, String.ofList_eq.mp hname, .inr rfl⟩
    · cases hnamed
  obtain ⟨letter, rest, hname, hfirst⟩ := hletter
  obtain ⟨character, others, rfl, hlower, -⟩ := List.map_eq_cons_iff.mp hname
  refine ⟨character, List.mem_cons_self, Bool.eq_false_iff.mpr fun hnumeral => ?_⟩
  rcases hfirst with rfl | rfl
  · exact toLower_ne_of_isNumeralCharacter hnumeral (by decide) (by decide) hlower
  · exact toLower_ne_of_isNumeralCharacter hnumeral (by decide) (by decide) hlower

/-- **The filter keeps the names of numbers out**: a text of characters that numerals are written
with is read as a numeral or not at all. -/
theorem readFloat?_isSome_iff {text : List Char}
    (hnumeral : ∀ character ∈ text, isNumeralCharacter character = true) :
    (readFloat? text).isSome = true ↔ IsDecimal text := by
  rw [← readNumeral?_isSome_iff]
  cases hread : readNumeral? text with
  | some numeral => simp [readFloat?, hread]
  | none =>
      obtain ⟨sign, name, rfl, -, hsplit⟩ := exists_splitSign text
      simp only [readFloat?, hread, hsplit, Option.isSome_map, Option.isSome_none,
        Bool.false_eq_true, iff_false]
      intro hnamed
      obtain ⟨letter, hletter, hother⟩ := exists_letter_of_namedNumber? hnamed
      rw [hnumeral letter (List.mem_append_right _ hletter)] at hother
      cases hother

theorem isNumeralCharacter_of_digits {digits : List Char} (hdigits : AllDigits digits) :
    ∀ character ∈ digits, isNumeralCharacter character = true :=
  fun character hmember => isNumeralCharacter_iff.mpr (.inl (hdigits character hmember))

theorem isNumeralCharacter_of_sign {sign : List Char} (hsign : IsSign sign) :
    ∀ character ∈ sign, isNumeralCharacter character = true := by
  rcases hsign with rfl | rfl | rfl
  · exact List.forall_mem_nil _
  · exact List.forall_mem_singleton.mpr (by decide)
  · exact List.forall_mem_singleton.mpr (by decide)

theorem isNumeralCharacter_of_exponent {exponent : List Char}
    (hexponent : exponent = [] ∨ IsExponent exponent) :
    ∀ character ∈ exponent, isNumeralCharacter character = true := by
  rcases hexponent with rfl | ⟨mark, sign, digits, rfl, hmark, hsign, -, hdigits⟩
  · exact List.forall_mem_nil _
  · have hmarks : isNumeralCharacter mark = true := by
      rcases hmark with rfl | rfl <;> decide
    rw [List.forall_mem_cons, List.forall_mem_append]
    exact ⟨hmarks, isNumeralCharacter_of_sign hsign, isNumeralCharacter_of_digits hdigits⟩

/-- And it keeps no numeral out. -/
theorem IsDecimal.characters {text : List Char} (hdecimal : IsDecimal text) :
    text ≠ [] ∧ ∀ character ∈ text, isNumeralCharacter character = true := by
  obtain ⟨sign, unsigned, rfl, hsign, whole, fraction, exponent, rfl, hparts⟩ := hdecimal
  have hfraction : ∀ character ∈ fraction, isNumeralCharacter character = true := by
    rcases hparts.pointed with rfl | ⟨digits, rfl, hdigits⟩
    · exact List.forall_mem_nil _
    · rw [List.forall_mem_cons]
      exact ⟨by decide, isNumeralCharacter_of_digits hdigits⟩
  constructor
  · rcases hparts.hasDigit with hwhole | ⟨digit, hdigit, -⟩
    · simp [hwhole]
    · simp [List.ne_nil_of_mem hdigit]
  · simp only [List.forall_mem_append]
    exact ⟨isNumeralCharacter_of_sign hsign,
      ⟨isNumeralCharacter_of_digits hparts.allDigits, hfraction⟩,
      isNumeralCharacter_of_exponent hparts.scaled⟩

/-- The texts that operators take for numbers. -/
theorem parseFloat?_isSome_iff {text : String} :
    (parseFloat? text).isSome = true ↔ IsDecimal (Text.trim text.toList) := by
  unfold parseFloat?
  dsimp only
  split
  · next hrefused =>
      simp only [Option.isSome_none, Bool.false_eq_true, false_iff]
      intro hdecimal
      obtain ⟨hsome, hnumeral⟩ := hdecimal.characters
      obtain ⟨character, hmember, hother⟩ : ∃ character ∈ Text.trim text.toList,
          isNumeralCharacter character = false := by
        simpa [hsome] using hrefused
      rw [hnumeral character hmember] at hother
      cases hother
  · next hkept =>
      refine readFloat?_isSome_iff fun character hmember => ?_
      simp only [Bool.or_eq_true, Bool.not_eq_true', not_or, Bool.not_eq_false,
        List.all_eq_true] at hkept
      exact hkept.2 character hmember

theorem trim_trim (characters : List Char) :
    Text.trim (Text.trim characters) = Text.trim characters := by
  have hfront : (Text.trim characters).dropWhile Text.isBlank = Text.trim characters := by
    refine List.dropWhile_eq_self_iff.mpr fun hsome => ?_
    have hkept : Text.trim characters <+: characters.dropWhile Text.isBlank :=
      List.rdropWhile_prefix _ _
    rw [hkept.getElem hsome]
    exact List.dropWhile_get_zero_not _ _ _
  calc Text.trim (Text.trim characters)
      = ((Text.trim characters).dropWhile Text.isBlank).rdropWhile Text.isBlank := rfl
    _ = (Text.trim characters).rdropWhile Text.isBlank := by rw [hfront]
    _ = Text.trim characters := List.rdropWhile_idempotent _ _

/-- Blanks that are gone are not looked for again. -/
theorem parseFloat?_trim (text : String) :
    parseFloat? (String.ofList (Text.trim text.toList)) = parseFloat? text := by
  simp only [parseFloat?, String.toList_ofList, trim_trim]

theorem exists_parseFloat? {text : String} (hdecimal : IsDecimal (Text.trim text.toList)) :
    ∃ number, parseFloat? text = some number :=
  Option.isSome_iff_exists.mp (parseFloat?_isSome_iff.mpr hdecimal)

theorem parseFloat?_eq_none_iff {text : String} :
    parseFloat? text = none ↔ ¬ IsDecimal (Text.trim text.toList) := by
  rw [← parseFloat?_isSome_iff, Option.not_isSome_iff_eq_none]

/-! ## Integer numerals -/

/-- An integer numeral and the integer that it stands for. -/
inductive WritesInteger : List Char → ℤ → Prop where
  | digits {digits : List Char} (hsome : digits ≠ []) (hdigits : AllDigits digits) :
    WritesInteger digits (Nat.ofDigitChars 10 digits 0)
  | plus {digits : List Char} (hsome : digits ≠ []) (hdigits : AllDigits digits) :
    WritesInteger ('+' :: digits) (Nat.ofDigitChars 10 digits 0)
  | minus {digits : List Char} (hsome : digits ≠ []) (hdigits : AllDigits digits) :
    WritesInteger ('-' :: digits) (-Nat.ofDigitChars 10 digits 0)

/-- The integer that a sign and digits stand for. -/
def signedValue (sign digits : List Char) : ℤ :=
  if sign = ['-'] then -(digitsValue digits : ℤ) else digitsValue digits

theorem writesInteger_iff {text : List Char} {value : ℤ} :
    WritesInteger text value ↔
      ∃ sign digits, text = sign ++ digits ∧ IsSign sign ∧ digits ≠ [] ∧ AllDigits digits ∧
        signedValue sign digits = value := by
  constructor
  · intro hwrites
    cases hwrites with
    | digits hsome hdigits =>
        exact ⟨[], _, rfl, .inl rfl, hsome, hdigits, congrArg Nat.cast (digitsValue_eq _)⟩
    | plus hsome hdigits =>
        exact ⟨['+'], _, rfl, .inr (.inl rfl), hsome, hdigits,
          congrArg Nat.cast (digitsValue_eq _)⟩
    | minus hsome hdigits =>
        exact ⟨['-'], _, rfl, .inr (.inr rfl), hsome, hdigits,
          congrArg (fun magnitude : ℕ => -(magnitude : ℤ)) (digitsValue_eq _)⟩
  · rintro ⟨sign, digits, rfl, rfl | rfl | rfl, hsome, hdigits, rfl⟩
    · simpa [signedValue, digitsValue_eq] using WritesInteger.digits hsome hdigits
    · simpa [signedValue, digitsValue_eq] using WritesInteger.plus hsome hdigits
    · simpa [signedValue, digitsValue_eq] using WritesInteger.minus hsome hdigits

theorem parseInteger?_append {sign digits : List Char} (hsign : IsSign sign) (hsome : digits ≠ [])
    (hdigits : AllDigits digits) {integer : Int64} :
    parseInteger? (sign ++ digits) = some integer ↔ signedValue sign digits = integer.toInt := by
  have hall : digits.all Char.isDigit = true := List.all_eq_true.mpr hdigits
  have hsplit := splitSign_append_digits hsign hdigits
  have hread : parseInteger? (sign ++ digits) =
      if Int64.minValue.toInt ≤ signedValue sign digits ∧
          signedValue sign digits ≤ Int64.maxValue.toInt
      then some (Int64.ofInt (signedValue sign digits)) else none := by
    simp [parseInteger?, hsplit, hsome, hall, signedValue]
  rw [hread]
  split_ifs with hrange
  · have hmost : Int64.maxValue.toInt < 2 ^ 63 := by decide
    rw [Option.some_inj, ← Int64.toInt_inj, Int64.toInt_ofInt_of_le hrange.1 (by omega)]
  · refine ⟨nofun, fun hvalue => absurd ?_ hrange⟩
    rw [hvalue]
    exact ⟨integer.minValue_le_toInt, integer.toInt_le⟩

theorem writesInteger_integerText (value : ℤ) : WritesInteger (integerText value) value := by
  have hsome := digitsOf_ne_nil value.natAbs
  have hdigits : AllDigits (digitsOf value.natAbs) := fun _ => isDigit_of_mem_digitsOf
  have hmagnitude := digitsValue_digitsOf value.natAbs
  rw [writesInteger_iff]
  unfold integerText
  split_ifs with hnegative
  · refine ⟨['-'], digitsOf value.natAbs, rfl, .inr (.inr rfl), hsome, hdigits, ?_⟩
    rw [signedValue, if_pos rfl, hmagnitude]
    omega
  · refine ⟨[], digitsOf value.natAbs, rfl, .inl rfl, hsome, hdigits, ?_⟩
    rw [signedValue, if_neg (by decide), hmagnitude]
    omega

/-- The integer numerals that are read are those in range. -/
theorem parseInteger?_eq_some_iff {text : List Char} {integer : Int64} :
    parseInteger? text = some integer ↔ WritesInteger text integer.toInt := by
  rw [writesInteger_iff]
  constructor
  · intro hread
    obtain ⟨sign, digits, rfl, hsign, hsplit⟩ := exists_splitSign text
    have hends : digits ≠ [] ∧ AllDigits digits := by
      by_cases hrefuses : (digits.isEmpty || !digits.all Char.isDigit) = true
      · simp [parseInteger?, hsplit, hrefuses] at hread
      · simpa [AllDigits] using hrefuses
    exact ⟨sign, digits, rfl, hsign, hends.1, hends.2,
      (parseInteger?_append hsign hends.1 hends.2).mp hread⟩
  · rintro ⟨sign, digits, rfl, hsign, hsome, hdigits, hvalue⟩
    exact (parseInteger?_append hsign hsome hdigits).mpr hvalue

end Number

/-! ## Blanks at the ends -/

namespace Text

variable {before inner after rest : List Char}

theorem isBlank_eq_false_of_isDigit {character : Char} (hdigit : character.isDigit = true) :
    isBlank character = false := by
  simp only [Char.isDigit, Bool.and_eq_true, decide_eq_true_eq, ge_iff_le, UInt32.le_iff_toNat_le]
    at hdigit
  have hleast : 48 ≤ character.toNat := hdigit.1
  have hmost : character.toNat ≤ 57 := hdigit.2
  simp only [isBlank, blankRanges, List.any_cons, List.any_nil, Bool.or_false, Bool.or_eq_false_iff,
    Bool.and_eq_false_iff, decide_eq_false_iff_not]
  omega

theorem dropBlanks_append (hsome : inner ≠ [])
    (hinner : ∀ character ∈ inner, isBlank character = false) :
    (inner ++ rest).dropWhile isBlank = inner ++ rest := by
  cases inner with
  | nil => exact absurd rfl hsome
  | cons first more => simp [hinner first List.mem_cons_self]

/-- Blanks before and after a text are taken away, and no more. -/
theorem trim_append (hsome : inner ≠ [])
    (hinner : ∀ character ∈ inner, isBlank character = false)
    (hbefore : ∀ character ∈ before, isBlank character = true)
    (hafter : ∀ character ∈ after, isBlank character = true) :
    trim (before ++ inner ++ after) = inner := by
  have hfront : (before ++ inner ++ after).dropWhile isBlank = inner ++ after := by
    rw [List.append_assoc, List.dropWhile_append_of_pos hbefore, dropBlanks_append hsome hinner]
  have hinside : inner.reverse.dropWhile isBlank = inner.reverse := by
    rw [← List.append_nil inner.reverse]
    exact dropBlanks_append (List.reverse_ne_nil_iff.mpr hsome) (by simpa using hinner)
  have hback : (inner ++ after).reverse.dropWhile isBlank = inner.reverse := by
    rw [List.reverse_append, List.dropWhile_append_of_pos (by simpa using hafter), hinside]
  rw [trim, hfront, hback, List.reverse_reverse]

end Text

/-! ## Input lines -/

namespace Reading

open Number Text

variable {line : String}

/-- What an input line is read as. -/
theorem ofLine_eq_ok_iff {value : Value} :
    ofLine line = .ok value ↔
      ('.' ∈ trim line.toList ∧ ∃ number, parseFloat? line = some number ∧ value = .float number) ∨
      ('.' ∉ trim line.toList ∧
        ∃ integer, parseInteger? (trim line.toList) = some integer ∧ value = .integer integer) := by
  unfold ofLine
  dsimp only
  rw [parseFloat?_trim]
  by_cases hpoint : '.' ∈ trim line.toList
  · cases parseFloat? line <;> simp [hpoint, eq_comm]
  · cases parseInteger? (trim line.toList) <;> simp [hpoint, eq_comm]

theorem cause_of_ofLine {cause : Cause} (hrefuses : ofLine line = .error cause) :
    cause = .numberLine line := by
  unfold ofLine at hrefuses
  dsimp only at hrefuses
  split_ifs at hrefuses
  · split at hrefuses <;> cases hrefuses
    rfl
  · split at hrefuses <;> cases hrefuses
    rfl

theorem exists_float_iff :
    (∃ number, ofLine line = .ok (.float number)) ↔
      '.' ∈ trim line.toList ∧ IsDecimal (trim line.toList) := by
  rw [← parseFloat?_isSome_iff, Option.isSome_iff_exists]
  simp [ofLine_eq_ok_iff]

theorem ofLine_eq_integer_iff {integer : Int64} :
    ofLine line = .ok (.integer integer) ↔
      '.' ∉ trim line.toList ∧ WritesInteger (trim line.toList) integer.toInt := by
  rw [← parseInteger?_eq_some_iff]
  simp [ofLine_eq_ok_iff]

/-- Whatever a line is read as is a number. -/
theorem ofLine_fails_unless (hfloat : ¬ ∃ number, ofLine line = .ok (.float number))
    (hinteger : ¬ ∃ integer, ofLine line = .ok (.integer integer)) :
    ofLine line = .error (.numberLine line) := by
  cases hread : ofLine line with
  | error cause => rw [cause_of_ofLine hread]
  | ok value =>
      rcases ofLine_eq_ok_iff.mp hread with ⟨-, number, -, rfl⟩ | ⟨-, integer, -, rfl⟩
      · exact absurd ⟨number, hread⟩ hfloat
      · exact absurd ⟨integer, hread⟩ hinteger

/-- **An integer is read back from its text**, whatever blanks there are around it. -/
theorem ofLine_integerText {before after : List Char} (integer : Int64)
    (hbefore : ∀ character ∈ before, isBlank character = true)
    (hafter : ∀ character ∈ after, isBlank character = true) :
    ofLine (String.ofList before ++ (Value.integer integer).text ++ String.ofList after) =
      .ok (.integer integer) := by
  have hsome : integerText integer.toInt ≠ [] := by
    unfold integerText
    split_ifs
    · exact List.cons_ne_nil _ _
    · exact digitsOf_ne_nil _
  have hinner : ∀ character ∈ integerText integer.toInt, isBlank character = false := by
    intro character hmember
    rcases mem_integerText hmember with hdigit | rfl
    · exact isBlank_eq_false_of_isDigit hdigit
    · decide
  -- digits and a minus are no blanks, so just the blanks around them are trimmed
  have htrim := trim_append hsome hinner hbefore hafter
  -- without a point the line is not read as a floating-point number
  have hpoint : '.' ∉ integerText integer.toInt := by
    intro hmember
    rcases mem_integerText hmember with hdigit | hminus
    · cases hdigit
    · cases hminus
  rw [ofLine_eq_integer_iff]
  simp only [Value.text, String.toList_append, String.toList_ofList, htrim]
  exact ⟨hpoint, writesInteger_integerText _⟩

end Reading

open Number Text Reading in
/-- **Numeric text is accepted as documented.**  A text can be an operand of arithmetic exactly if
it is a decimal numeral, blanks at both ends apart.  An input line is read as a floating-point
number exactly if it has a point and is a decimal numeral, and as an integer exactly if it has no
point and is a numeral of that integer, which has to fit in 64 bits; any other line is refused with
a fault of format.  The text of an integer, with blanks around it, is read as that integer. -/
theorem numericText_accepted :
    (∀ text : String, (parseFloat? text).isSome = true ↔ IsDecimal (trim text.toList)) ∧
    (∀ line : String,
      ((∃ number, ofLine line = .ok (.float number)) ↔
        '.' ∈ trim line.toList ∧ IsDecimal (trim line.toList)) ∧
      (∀ integer, ofLine line = .ok (.integer integer) ↔
        '.' ∉ trim line.toList ∧ WritesInteger (trim line.toList) integer.toInt) ∧
      (¬ (∃ number, ofLine line = .ok (.float number)) →
        ¬ (∃ integer, ofLine line = .ok (.integer integer)) →
        ∃ cause, ofLine line = .error cause ∧ cause = .numberLine line ∧ cause.kind = .format)) ∧
    (∀ (integer : Int64) (before after : List Char),
      (∀ character ∈ before, isBlank character = true) →
      (∀ character ∈ after, isBlank character = true) →
      ofLine (String.ofList before ++ (Value.integer integer).text ++ String.ofList after) =
        .ok (.integer integer)) := by
  refine ⟨fun _ => parseFloat?_isSome_iff, fun line => ⟨exists_float_iff,
    fun _ => ofLine_eq_integer_iff, fun hfloat hinteger => ?_⟩,
    fun integer _ _ hbefore hafter => ofLine_integerText integer hbefore hafter⟩
  exact ⟨_, ofLine_fails_unless hfloat hinteger, rfl, rfl⟩

open Number Text Reading in
/-- A point at the end is enough for a floating-point number, and an exponent without a point is not
read at all.  The least integer is read back between blanks. -/
theorem numericText_accepted_atTheEdges :
    (∃ number, ofLine " 5." = .ok (.float number)) ∧
    ofLine "1e5" = .error (.numberLine "1e5") ∧
    ofLine ("\u2003" ++ (Value.integer Int64.minValue).text ++ "\t") =
      .ok (.integer Int64.minValue) := by
  obtain ⟨-, hlines, hback⟩ := numericText_accepted
  obtain ⟨hfloat, -⟩ := hlines " 5."
  obtain ⟨hfloat', hinteger', hrefused⟩ := hlines "1e5"
  have htrim : trim " 5.".toList = ['5', '.'] := by decide
  have htrim' : trim "1e5".toList = ['1', 'e', '5'] := by decide
  rw [htrim] at hfloat
  rw [htrim'] at hfloat' hinteger'
  refine ⟨hfloat.mpr ⟨by decide, ?_⟩, ?_, hback Int64.minValue ['\u2003'] ['\t'] ?_ ?_⟩
  · exact ⟨[], ['5', '.'], rfl, .inl rfl, ['5'], ['.'], [], rfl, by simp [AllDigits],
      .inr ⟨[], rfl, by simp [AllDigits]⟩, .inl rfl, .inl (by decide)⟩
  · have hnoFloat : ¬ ∃ number, ofLine "1e5" = .ok (.float number) := by
      rw [hfloat']
      simp
    have hnoInteger : ¬ ∃ integer, ofLine "1e5" = .ok (.integer integer) := by
      rintro ⟨integer, hread⟩
      obtain ⟨-, hwrites⟩ := (hinteger' integer).mp hread
      generalize integer.toInt = value at hwrites
      cases hwrites with
      | digits hsome hdigits => exact absurd (hdigits 'e' (by decide)) (by decide)
    obtain ⟨cause, hread, rfl, -⟩ := hrefused hnoFloat hnoInteger
    exact hread
  · exact List.forall_mem_singleton.mpr (by decide)
  · exact List.forall_mem_singleton.mpr (by decide)

end TableScript
