import TableScript.Proofs.Lexis.Cut

/-!
# What the lexer takes

One specification for every reader of the lexer, an equivalence each: it takes these characters if
and only if the text begins with them, they are of the form that the reader is for, and what
follows them does not go on with that form.  Together they say when the first piece of a text is a
given token.
-/

namespace TableScript

namespace Lexer

/-! ## Runs of characters -/

/-- A run of characters of one class is taken to its end. -/
theorem takeWhile_eq_iff {among : Char → Bool} {text taken : List Char} :
    text.takeWhile among = taken ↔
      ∃ rest, text = taken ++ rest ∧ (∀ character ∈ taken, among character = true) ∧
        ∀ next ∈ rest.head?, among next = false := by
  constructor
  · rintro rfl
    refine ⟨text.dropWhile among, List.takeWhile_append_dropWhile.symm, ?_, ?_⟩
    · exact List.all_eq_true.mp List.all_takeWhile
    · intro next hnext
      have hstop := List.head?_dropWhile_not among text
      rw [Option.mem_def.mp hnext] at hstop
      exact hstop
  · rintro ⟨rest, rfl, htaken, hrest⟩
    rw [List.takeWhile_append_of_pos htaken]
    cases rest with
    | nil => simp
    | cons next rest => simp [hrest next rfl]

/-! ## Numbers -/

/-- A point with digits after it, or no point, ends where the characters `rest` begin. -/
def FractionBefore (fraction rest : List Char) : Prop :=
  fraction = [] ∧ (∀ more, rest = '.' :: more → more.head? = some '.') ∨
    ∃ digits, fraction = '.' :: digits ∧ AllDigits digits ∧
      (∀ next ∈ rest.head?, next.isDigit = false) ∧ (digits = [] → rest.head? ≠ some '.')

/-- An exponent, or none, ends where the characters `rest` begin. -/
def ExponentBefore (exponent rest : List Char) : Prop :=
  exponent = [] ∧ ¬ StartsExponent rest ∨
    IsExponent exponent ∧ ∀ next ∈ rest.head?, next.isDigit = false

/-- A point is taken with the digits after it, unless it is the first of two. -/
theorem fractionPart_eq_iff {text fraction : List Char} :
    fractionPart text = fraction ↔
      ∃ rest, text = fraction ++ rest ∧ FractionBefore fraction rest := by
  constructor
  · rintro rfl
    fun_cases fractionPart text with
    -- two points are a concatenation, and no fraction is taken
    | case1 more => exact ⟨_, rfl, .inl ⟨rfl, by simp⟩⟩
    | case2 more htwo =>
        obtain ⟨rest, hmore, hdigits, hnext⟩ :=
          takeWhile_eq_iff.mp (Eq.refl (more.takeWhile Char.isDigit))
        refine ⟨rest, by rw [List.cons_append, ← hmore], .inr ⟨_, rfl, hdigits, hnext, ?_⟩⟩
        intro hnone hpoint
        rw [hnone, List.nil_append] at hmore
        cases rest with
        | nil => cases hpoint
        | cons next rest =>
            cases hpoint
            exact htwo rest hmore
    | case3 _ _ hone => exact ⟨text, rfl, .inl ⟨rfl, fun more hmore => (hone more hmore).elim⟩⟩
  · rintro ⟨rest, rfl, ⟨rfl, hpoint⟩ | ⟨digits, rfl, hdigits, hnext, hpoint⟩⟩
    · rw [List.nil_append]
      fun_cases fractionPart rest with
      | case1 more => rfl
      | case2 more htwo =>
          obtain ⟨even, rfl⟩ := List.head?_eq_some_iff.mp (hpoint more rfl)
          exact (htwo even rfl).elim
      | case3 => rfl
    · have hrun : (digits ++ rest).takeWhile Char.isDigit = digits :=
        takeWhile_eq_iff.mpr ⟨rest, rfl, hdigits, hnext⟩
      -- a fraction that begins with a second point would have to be without digits
      have hone : ∀ more, digits ++ rest ≠ '.' :: more := by
        intro more hmore
        cases digits with
        | nil => exact hpoint rfl (by rw [← List.nil_append rest, hmore, List.head?_cons])
        | cons first digits =>
            obtain ⟨rfl, -⟩ := List.cons_eq_cons.mp hmore
            exact absurd (hdigits '.' (by simp)) (by decide)
      rw [List.cons_append, fractionPart, hrun]
      exact hone

theorem exponentPart_cons {mark : Char} (hmark : mark = 'e' ∨ mark = 'E') (rest : List Char) :
    ∃ sign tail, rest = sign ++ tail ∧ (sign = [] ∨ sign = ['+'] ∨ sign = ['-']) ∧
      (sign = [] → tail.head? ≠ some '+' ∧ tail.head? ≠ some '-') ∧
      exponentPart (mark :: rest) = if (tail.takeWhile Char.isDigit).isEmpty then []
        else mark :: sign ++ tail.takeWhile Char.isDigit := by
  unfold exponentPart
  simp only [hmark, Bool.or_eq_true, decide_eq_true_eq, if_true]
  split
  · next tail => exact ⟨['+'], tail, rfl, by simp, by simp, rfl⟩
  · next tail => exact ⟨['-'], tail, rfl, by simp, by simp, rfl⟩
  · next hplus hminus =>
      refine ⟨[], rest, rfl, by simp, fun _ => ⟨?_, ?_⟩, rfl⟩
      · intro hhead
        obtain ⟨tail, rfl⟩ := List.head?_eq_some_iff.mp hhead
        exact hplus tail rfl
      · intro hhead
        obtain ⟨tail, rfl⟩ := List.head?_eq_some_iff.mp hhead
        exact hminus tail rfl

/-- An exponent that the text begins with is taken with all its digits. -/
theorem exponentPart_of_isExponent {exponent rest : List Char} (hexponent : IsExponent exponent)
    (hnext : ∀ next ∈ rest.head?, next.isDigit = false) :
    exponentPart (exponent ++ rest) = exponent := by
  obtain ⟨mark, sign, digits, rfl, hmark, hsign, hsome, hdigits⟩ := hexponent
  obtain ⟨first, more, rfl⟩ := List.exists_cons_of_ne_nil hsome
  have hfirst := hdigits first (by simp)
  have hplus : first ≠ '+' := by rintro rfl; cases hfirst
  have hminus : first ≠ '-' := by rintro rfl; cases hfirst
  have hrun : (first :: more ++ rest).takeWhile Char.isDigit = first :: more :=
    takeWhile_eq_iff.mpr ⟨rest, rfl, hdigits, hnext⟩
  obtain ⟨sign', tail, heq, hsign', hnoSign, hvalue⟩ :=
    exponentPart_cons hmark (sign ++ (first :: more ++ rest))
  -- the sign that the reader finds is the one that was written, for a digit is no sign
  obtain ⟨rfl, rfl⟩ : sign' = sign ∧ tail = first :: more ++ rest := by
    rcases hsign with rfl | rfl | rfl <;> rcases hsign' with rfl | rfl | rfl <;> grind
  rw [List.cons_append, List.append_assoc, hvalue, hrun]
  rfl

theorem exponentPart_cases (text : List Char) :
    exponentPart text = [] ∨ ∃ rest, text = exponentPart text ++ rest ∧
      IsExponent (exponentPart text) ∧ ∀ next ∈ rest.head?, next.isDigit = false := by
  cases text with
  | nil => exact .inl rfl
  | cons mark rest =>
      by_cases hmark : mark = 'e' ∨ mark = 'E'
      · obtain ⟨sign, tail, rfl, hsign, -, hvalue⟩ := exponentPart_cons hmark rest
        obtain ⟨after, htail, hdigits, hnext⟩ :=
          takeWhile_eq_iff.mp (Eq.refl (tail.takeWhile Char.isDigit))
        rw [hvalue]
        split
        · exact .inl rfl
        · next hsome =>
            refine .inr ⟨after, ?_, ⟨mark, sign, _, rfl, hmark, hsign, ?_, hdigits⟩, hnext⟩
            · rw [List.cons_append, List.cons_append, List.append_assoc, ← htail]
            · exact fun hnone => hsome (List.isEmpty_iff.mpr hnone)
      · refine .inl ?_
        unfold exponentPart
        simp [not_or.mp hmark]

/-- An exponent is taken whole or not at all. -/
theorem exponentPart_eq_iff {text exponent : List Char} :
    exponentPart text = exponent ↔
      ∃ rest, text = exponent ++ rest ∧ ExponentBefore exponent rest := by
  constructor
  · rintro rfl
    rcases exponentPart_cases text with hnone | ⟨rest, htext, hexponent, hnext⟩
    · refine ⟨text, by rw [hnone, List.nil_append], .inl ⟨hnone, ?_⟩⟩
      rintro ⟨exponent, more, rfl, mark, sign, digits, rfl, hmark, hsign, hsome, hdigits⟩
      -- with the digits that follow, it is an exponent that would have been taken
      obtain ⟨after, hmore, hrun, hnext⟩ :=
        takeWhile_eq_iff.mp (Eq.refl (more.takeWhile Char.isDigit))
      have hlong : IsExponent (mark :: (sign ++ (digits ++ more.takeWhile Char.isDigit))) :=
        ⟨mark, sign, _, rfl, hmark, hsign, by simp [hsome],
          List.forall_mem_append.mpr ⟨hdigits, hrun⟩⟩
      have htaken := exponentPart_of_isExponent hlong hnext
      simp only [List.cons_append, List.append_assoc, ← hmore] at htaken hnone
      rw [htaken] at hnone
      cases hnone
    · exact ⟨rest, htext, .inr ⟨hexponent, hnext⟩⟩
  · rintro ⟨rest, rfl, ⟨rfl, hnone⟩ | ⟨hexponent, hnext⟩⟩
    · -- had an exponent been taken, the text would begin with one
      rcases exponentPart_cases ([] ++ rest) with hempty | ⟨more, hrest, hexponent, -⟩
      · exact hempty
      · exact absurd ⟨_, more, hrest, hexponent⟩ hnone
    · exact exponentPart_of_isExponent hexponent hnext

/-- The three parts of a number, each taken as far as it goes. -/
theorem numberParts_eq_iff {text whole fraction exponent : List Char} :
    numberParts text = (whole, fraction, exponent) ↔
      ∃ rest, text = whole ++ (fraction ++ (exponent ++ rest)) ∧
        (AllDigits whole ∧
          ∀ next ∈ (fraction ++ (exponent ++ rest)).head?, next.isDigit = false) ∧
        FractionBefore fraction (exponent ++ rest) ∧ ExponentBefore exponent rest := by
  unfold numberParts
  simp only [Prod.mk.injEq]
  constructor
  · rintro ⟨hwhole, hfraction, hexponent⟩
    -- each part is cut off what the part before it left over
    obtain ⟨afterWhole, rfl, hdigits⟩ := takeWhile_eq_iff.mp hwhole
    rw [hwhole, List.drop_left] at hfraction hexponent
    obtain ⟨afterFraction, rfl, hpoint⟩ := fractionPart_eq_iff.mp hfraction
    rw [hfraction, List.drop_left] at hexponent
    obtain ⟨rest, rfl, hscale⟩ := exponentPart_eq_iff.mp hexponent
    exact ⟨rest, rfl, hdigits, hpoint, hscale⟩
  · rintro ⟨rest, rfl, hdigits, hpoint, hscale⟩
    have hwhole := takeWhile_eq_iff.mpr ⟨_, rfl, hdigits⟩
    have hfraction := fractionPart_eq_iff.mpr ⟨_, rfl, hpoint⟩
    have hexponent := exponentPart_eq_iff.mpr ⟨_, rfl, hscale⟩
    rw [hwhole, List.drop_left, hfraction, List.drop_left, hexponent]
    exact ⟨rfl, rfl, rfl⟩

/-- A number begins with a digit, or with a point and a digit. -/
def StartsNumber : List Char → Prop
  | [] => False
  | first :: rest =>
    first.isDigit = true ∨ first = '.' ∧ ∃ next ∈ rest.head?, next.isDigit = true

theorem startsNumber_cons {first : Char} {rest : List Char} :
    StartsNumber (first :: rest) ↔
      (first.isDigit || (first = '.' && (rest.head?.map Char.isDigit).getD false)) = true := by
  cases rest with
  | nil => simp [StartsNumber]
  | cons next rest => simp [StartsNumber]

/-- The kind of a number with the given parts. -/
def numberKind (whole fraction exponent : List Char) : Token.Kind :=
  let text := String.ofList (whole ++ fraction ++ exponent)
  if fraction.isEmpty && exponent.isEmpty then .integer text else .float text

theorem numberKind_of_ne_nil {whole fraction exponent : List Char}
    (hsome : fraction ≠ [] ∨ exponent ≠ []) : numberKind whole fraction exponent =
      .float (String.ofList (whole ++ fraction ++ exponent)) := by
  have hparts : (fraction.isEmpty && exponent.isEmpty) = false := by
    rcases hsome with hsome | hsome <;> simp [hsome]
  simp [numberKind, hparts]

theorem numeralParts_of_numberParts {text whole fraction exponent : List Char}
    (hstarts : StartsNumber text) (hparts : numberParts text = (whole, fraction, exponent)) :
    NumeralParts whole fraction exponent := by
  obtain ⟨rest, htext, ⟨hwhole, hnext⟩, hpoint, hscale⟩ := numberParts_eq_iff.mp hparts
  refine ⟨hwhole, ?_, ?_, ?_⟩
  · rcases hpoint with ⟨hnone, -⟩ | ⟨digits, hfraction, hdigits, -⟩
    · exact .inl hnone
    · exact .inr ⟨digits, hfraction, hdigits⟩
  · rcases hscale with ⟨hnone, -⟩ | ⟨hexponent, -⟩
    · exact .inl hnone
    · exact .inr hexponent
  · obtain ⟨first, more, rfl⟩ : ∃ first more, text = first :: more := by
      cases text with
      | nil => exact hstarts.elim
      | cons first more => exact ⟨first, more, rfl⟩
    rcases hstarts with hdigit | ⟨rfl, next, hfirst, hdigit⟩
    · left
      rintro rfl
      rw [List.nil_append] at htext
      rw [← htext] at hnext
      exact absurd hdigit (Bool.eq_false_iff.mp (hnext first rfl))
    · -- the point and the digit belong to the fraction
      right
      cases whole with
      | cons digit whole =>
          obtain ⟨rfl, -⟩ := List.cons_eq_cons.mp htext
          exact absurd (hwhole '.' (by simp)) (by decide)
      | nil =>
          rcases hpoint with ⟨rfl, htwo⟩ | ⟨digits, rfl, hdigits, hstop, -⟩
          · have hpair := htwo more htext.symm
            rw [Option.mem_def.mp hfirst] at hpair
            obtain rfl := Option.some.inj hpair
            exact absurd hdigit (by decide)
          · obtain ⟨-, rfl⟩ := List.cons_eq_cons.mp htext
            cases digits with
            | nil => exact absurd hdigit (Bool.eq_false_iff.mp (hstop next hfirst))
            | cons digit digits => exact ⟨digit, by simp, hdigits digit (by simp)⟩

/-- The number that a text begins with is spelt and ends as its kind does. -/
theorem spells_of_numberParts {text whole fraction exponent : List Char}
    (hstarts : StartsNumber text) (hparts : numberParts text = (whole, fraction, exponent)) :
    ∃ rest, text = whole ++ fraction ++ exponent ++ rest ∧
      (numberKind whole fraction exponent).Spells (whole ++ fraction ++ exponent) ∧
      (numberKind whole fraction exponent).EndsBefore (whole ++ fraction ++ exponent) rest := by
  have hnumeral := numeralParts_of_numberParts hstarts hparts
  obtain ⟨rest, htext, ⟨hwhole, hnext⟩, hpoint, hscale⟩ := numberParts_eq_iff.mp hparts
  refine ⟨rest, by simpa using htext, ?_⟩
  -- only digits make an integer; with either of the other parts it is a float
  by_cases hplain : fraction = [] ∧ exponent = []
  · obtain ⟨rfl, rfl⟩ := hplain
    have hsome : whole ≠ [] := by simpa using hnumeral.hasDigit
    have hdot : ∀ more, rest = '.' :: more → more.head? = some '.' := by
      simpa [FractionBefore] using hpoint
    have hnone : ¬ StartsExponent rest := by
      rcases hscale with ⟨-, hnone⟩ | ⟨hexponent, -⟩
      · exact hnone
      · exact absurd rfl (hexponent.ne_nil)
    simp only [numberKind, List.append_nil, List.isEmpty_nil, Bool.and_self, if_true]
    exact ⟨⟨by simp, hsome, hwhole⟩, hnext, hnone, hdot⟩
  · have hsome : fraction ≠ [] ∨ exponent ≠ [] := Classical.not_and_iff_not_or_not.mp hplain
    rw [numberKind_of_ne_nil hsome]
    refine ⟨⟨by simp, whole, fraction, exponent, by simp, hnumeral, hsome⟩, ?_⟩
    -- without an exponent the slice ends in the fraction, else in the digits of the exponent
    rcases hscale with ⟨rfl, hnone⟩ | ⟨hexponent, hstop⟩
    · obtain ⟨digits, rfl, hdigits, hstop, hdot⟩ := hpoint.resolve_left fun hempty => by
        simp [hempty.1] at hsome
      refine ⟨hstop, fun _ _ => hnone, fun hlast => ?_⟩
      by_cases hdigitless : digits = []
      · exact hdot hdigitless
      · rw [List.append_nil, ← List.singleton_append, ← List.append_assoc] at hlast
        exact absurd hlast (getLast?_ne_point hdigitless hdigits)
    · obtain ⟨mark, sign, digits, rfl, hmark, -, hdigitful, hdigits⟩ := hexponent
      refine ⟨hstop, fun hlower hupper => ?_, fun hlast => ?_⟩
      · rcases hmark with rfl | rfl
        · exact absurd (by simp) hlower
        · exact absurd (by simp) hupper
      · rw [← List.cons_append, ← List.append_assoc] at hlast
        exact absurd hlast (getLast?_ne_point hdigitful hdigits)

/-- A whole number is taken as one. -/
theorem numberParts_of_integer {slice rest : List Char} {text : String}
    (hspells : (Token.Kind.integer text).Spells slice)
    (hends : (Token.Kind.integer text).EndsBefore slice rest) :
    StartsNumber (slice ++ rest) ∧ numberParts (slice ++ rest) = (slice, [], []) ∧
      numberKind slice [] [] = .integer text := by
  obtain ⟨rfl, hsome, hdigits⟩ := hspells
  obtain ⟨hnext, hnone, htwo⟩ := hends
  obtain ⟨first, more, hslice⟩ := List.exists_cons_of_ne_nil hsome
  refine ⟨?_, ?_, by simp [numberKind]⟩
  · rw [hslice]
    exact .inl (hdigits first (by simp [hslice]))
  · exact numberParts_eq_iff.mpr ⟨rest, rfl, ⟨hdigits, hnext⟩, .inl ⟨rfl, htwo⟩, .inl ⟨rfl, hnone⟩⟩

section Float

variable {whole fraction exponent rest : List Char}

theorem startsNumber_of_numeralParts (hnumeral : NumeralParts whole fraction exponent)
    (rest : List Char) : StartsNumber (whole ++ (fraction ++ exponent) ++ rest) := by
  cases whole with
  | cons first whole => exact .inl (hnumeral.allDigits first (by simp))
  -- no digit before the point, so there is one behind it
  | nil =>
      obtain ⟨digit, hmember, hdigit⟩ := hnumeral.hasDigit.resolve_left (fun hsome => hsome rfl)
      rcases hnumeral.pointed with rfl | ⟨digits, rfl, hdigits⟩
      · cases hmember
      · cases digits with
        | nil =>
            obtain rfl := List.mem_singleton.mp hmember
            exact absurd hdigit (by decide)
        | cons next digits =>
            exact .inr ⟨rfl, next, rfl, hdigits next (by simp)⟩

/-- A number with a point or an exponent is taken with all its parts. -/
theorem numberParts_of_float {text : String}
    (hnumeral : NumeralParts whole fraction exponent) (hsome : fraction ≠ [] ∨ exponent ≠ [])
    (hends : (Token.Kind.float text).EndsBefore (whole ++ (fraction ++ exponent)) rest) :
    numberParts (whole ++ (fraction ++ exponent) ++ rest) = (whole, fraction, exponent) := by
  obtain ⟨hstop, hnone, hlast⟩ := hends
  have hscale : ExponentBefore exponent rest := by
    rcases hnumeral.scaled with rfl | hexponent
    · rw [List.append_nil] at hnone
      exact .inl ⟨rfl, hnone (hnumeral.not_mem (.inl rfl))
        (hnumeral.not_mem (.inr rfl))⟩
    · exact .inr ⟨hexponent, hstop⟩
  -- an exponent begins with its mark, which is neither a digit nor a point
  have hnext : ∀ next ∈ (exponent ++ rest).head?, next.isDigit = false := by
    rcases hnumeral.scaled with rfl | hexponent
    · exact hstop
    · exact fun next hnext => (hexponent.head?_append next hnext).1
  have hpoint : FractionBefore fraction (exponent ++ rest) := by
    rcases hnumeral.pointed with rfl | ⟨digits, rfl, hdigits⟩
    · -- no fraction, so there is an exponent, and no point can follow
      refine .inl ⟨rfl, fun more hmore => ?_⟩
      have hexponent := hnumeral.scaled.resolve_left (hsome.resolve_left fun hempty => hempty rfl)
      have hhead : (exponent ++ rest).head? = some '.' := by rw [hmore, List.head?_cons]
      exact absurd rfl (hexponent.head?_append '.' hhead).2
    · refine .inr ⟨digits, rfl, hdigits, hnext, ?_⟩
      rintro rfl hhead
      rcases hnumeral.scaled with rfl | hexponent
      · exact hlast (by simp) hhead
      · exact (hexponent.head?_append '.' hhead).2 rfl
  refine numberParts_eq_iff.mpr ⟨rest, by simp, ⟨hnumeral.allDigits, ?_⟩, hpoint, hscale⟩
  rcases hnumeral.pointed with rfl | ⟨digits, rfl, -⟩
  · exact hnext
  · rintro next hpoint
    cases hpoint
    rfl

end Float

/-! ## Strings -/

section Strings

variable {quote : Char}

/-- What is between two quotes is read as it is meant, up to the second quote. -/
theorem readQuoted_of_decodes (hquote : quote = '"' ∨ quote = '\'') {body contents : List Char}
    (hbody : Decodes id quote body contents) (rest : List Char) :
    readQuoted quote (body ++ quote :: rest) = ⟨contents, body ++ [quote], true, none⟩ := by
  induction hbody with
  | nothing =>
      rcases hquote with rfl | rfl <;> simp [readQuoted]
  | plain hother hslash hfeed _ ih =>
      rw [List.cons_append, readQuoted]
      · simp_all [Quoted.prepend]
      · simp_all
  | escape hmeant _ ih =>
      simp [readQuoted, hmeant, ih, Quoted.prepend]

/-- A string literal that is closed and has no bad escape is one. -/
theorem decodes_of_readQuoted (text : List Char) (hclosed : (readQuoted quote text).closed = true)
    (hescapes : (readQuoted quote text).badEscape = none) :
    ∃ body rest, text = body ++ quote :: rest ∧ (readQuoted quote text).taken = body ++ [quote] ∧
      Decodes id quote body (readQuoted quote text).contents := by
  fun_induction readQuoted quote text with
  | case1 => cases hclosed
  -- an escape is read in one step, so the rest after both characters is what the induction is about
  | case2 escaped rest meant hmeant ih =>
      have hbad : (readQuoted quote rest).badEscape = none := by
        simpa [Quoted.prepend] using hescapes
      obtain ⟨body, after, rfl, htaken, hbody⟩ := ih hclosed hbad
      exact ⟨'\\' :: escaped :: body, after, rfl, by simp [Quoted.prepend, htaken],
        .escape hmeant hbody⟩
  | case3 => cases hescapes
  | case4 => cases hclosed
  | case5 rest hslash hfeed => exact ⟨[], rest, rfl, rfl, .nothing⟩
  | case6 character rest hslash hfeed hother ih =>
      have hbad : (readQuoted quote rest).badEscape = none := by
        simpa [Quoted.prepend] using hescapes
      obtain ⟨body, after, rfl, htaken, hbody⟩ := ih hclosed hbad
      refine ⟨character :: body, after, rfl, by simp [Quoted.prepend, htaken],
        .plain hother ?_ hfeed hbody⟩
      rintro rfl
      -- a backslash here would have been an escape, with whatever stands behind it
      cases body with
      | nil => exact hslash quote after rfl rfl
      | cons escaped body => exact hslash escaped (body ++ quote :: after) rfl rfl

end Strings

/-! ## Comments -/

theorem not_closing_cons {character : Char} {body : List Char} :
    ¬ [']', ']'] <:+: character :: body ++ [']'] ↔
      (character = ']' → body ≠ [] ∧ body.head? ≠ some ']') ∧ ¬ [']', ']'] <:+: body ++ [']'] := by
  rw [List.cons_append, List.infix_cons_iff, not_or, List.cons_prefix_cons]
  refine and_congr_left' ?_
  cases body with
  | nil => simp [eq_comm]
  | cons next body => simp [eq_comm]

/-- A comment in brackets goes to the first two closing brackets. -/
theorem throughClosing?_eq_some_iff {text taken : List Char} :
    throughClosing? text = some taken ↔
      ∃ body rest, text = body ++ ']' :: ']' :: rest ∧ taken = body ++ [']', ']'] ∧
        ¬ [']', ']'] <:+: body ++ [']'] := by
  constructor
  · intro htaken
    fun_induction throughClosing? text generalizing taken with
    | case1 rest =>
        cases htaken
        exact ⟨[], rest, rfl, rfl, by decide⟩
    -- the first character is not the first of the two brackets, so the search goes on behind it
    | case2 character rest hnot ih =>
        obtain ⟨inner, hinner, rfl⟩ := Option.map_eq_some_iff.mp htaken
        obtain ⟨body, after, rfl, rfl, hfirst⟩ := ih hinner
        refine ⟨character :: body, after, rfl, rfl, not_closing_cons.mpr ⟨?_, hfirst⟩⟩
        rintro rfl
        cases body with
        | nil => exact (hnot _ rfl rfl).elim
        | cons next body =>
            refine ⟨List.cons_ne_nil _ _, fun hnext => ?_⟩
            cases hnext
            exact hnot _ rfl rfl
    | case3 => cases htaken
  · rintro ⟨body, rest, rfl, rfl, hfirst⟩
    induction body with
    | nil => rfl
    | cons character body ih =>
        obtain ⟨hcharacter, hbody⟩ := not_closing_cons.mp hfirst
        rw [List.cons_append, throughClosing?, ih hbody]
        · rfl
        · -- two brackets at once would stand in the body already
          rintro tail rfl htail
          obtain ⟨hsome, hhead⟩ := hcharacter rfl
          obtain ⟨next, body, rfl⟩ := List.exists_cons_of_ne_nil hsome
          cases htail
          exact hhead rfl

/-- After two dashes a comment goes to the end of the line, or in brackets to the closing ones. -/
theorem readComment_eq_gap_iff {text taken : List Char} :
    readComment text = (.gap, taken) ↔ ∃ rest, text = taken ++ rest ∧
      ('\n' ∉ taken ∧ ¬ ['[', '['] <+: taken ∧ (∀ next ∈ rest.head?, next = '\n') ∨
        ∃ body, taken = '[' :: '[' :: (body ++ [']', ']']) ∧ ¬ [']', ']'] <:+: body ++ [']']) := by
  constructor
  · intro hread
    unfold readComment at hread
    split at hread
    · next more =>
        split at hread
        · -- an opening pair that is closed; one that is not is a fault and no gap
          next closed hclosed =>
            cases hread
            obtain ⟨body, rest, rfl, rfl, hfirst⟩ := throughClosing?_eq_some_iff.mp hclosed
            exact ⟨rest, by simp, .inr ⟨body, rfl, hfirst⟩⟩
        · cases hread
    · next hopen =>
        simp only [Prod.mk.injEq, true_and] at hread
        obtain ⟨rest, rfl, hrun, hnext⟩ := takeWhile_eq_iff.mp hread
        refine ⟨rest, rfl, .inl ⟨fun hfeed => ?_, ?_, fun next hhead => ?_⟩⟩
        · exact of_decide_eq_true (hrun _ hfeed) rfl
        · rintro ⟨more, rfl⟩
          exact hopen (more ++ rest) rfl
        · simpa using hnext next hhead
  · rintro ⟨rest, rfl, ⟨hbody, hopen, hnext⟩ | ⟨body, rfl, hfirst⟩⟩
    · have hrun : (taken ++ rest).takeWhile (· ≠ '\n') = taken := by
        refine takeWhile_eq_iff.mpr ⟨rest, rfl, fun character hmember => ?_, fun next hhead => ?_⟩
        · exact decide_eq_true fun hfeed => hbody (hfeed ▸ hmember)
        · simp [hnext next hhead]
      rw [readComment, hrun]
      -- what follows is a line feed, so two brackets would both be in the comment
      intro more hmore
      match taken with
      | [] => exact absurd (hnext '[' (by simp_all)) (by decide)
      | [_] => exact absurd (hnext '[' (by simp_all)) (by decide)
      | _ :: _ :: taken => exact hopen ⟨taken, by simp_all⟩
    · have hclosed : throughClosing? (body ++ [']', ']'] ++ rest) = some (body ++ [']', ']']) :=
        throughClosing?_eq_some_iff.mpr ⟨body, rest, by simp, rfl, hfirst⟩
      simp only [List.cons_append, readComment, hclosed]

/-! ## Words -/

theorem spells_ofWord {slice : List Char} (hslice : IsWord slice) :
    (Token.Kind.ofWord (String.ofList slice)).Spells slice := by
  unfold Token.Kind.ofWord
  split
  · next word hword => simp [Token.Kind.Spells, Keyword.ofText?_eq_some_iff.mp hword]
  · next hnone => simp [Token.Kind.Spells, hslice, hnone]

theorem endsBefore_ofWord {word : String} {slice rest : List Char}
    (hnext : ∀ next ∈ rest.head?, continuesName next = false) :
    (Token.Kind.ofWord word).EndsBefore slice rest := by
  unfold Token.Kind.ofWord
  split <;> exact hnext

/-! ## Symbols -/

/-- The longest symbol is taken. -/
theorem symbol?_eq_some_iff {text : List Char} {mark : Symbol} :
    symbol? text = some mark ↔ ∃ rest, text = mark.text.toList ++ rest ∧
      (mark = .less ∨ mark = .greater ∨ mark = .assign → rest.head? ≠ some '=') ∧
      (mark = .dot → rest.head? ≠ some '.') := by
  constructor
  · intro hmark
    unfold symbol? at hmark
    split at hmark <;> cases hmark
    all_goals refine ⟨_, rfl, ?_, ?_⟩ <;> simp [List.head?_eq_some_iff]
    -- what the earlier rows of the table took is excluded in the later ones
    all_goals grind
  · rintro ⟨rest, rfl, hequal, hdot⟩
    -- only four symbols are the beginning of a longer one
    cases mark with
    | less | greater | assign =>
        have hnext := hequal (by simp)
        cases rest with
        | nil => rfl
        | cons next rest =>
            have hother : next ≠ '=' := fun heq => hnext (congrArg some heq)
            simp [Symbol.text, symbol?, hother]
    | dot =>
        have hnext := hdot rfl
        cases rest with
        | nil => rfl
        | cons next rest =>
            have hother : next ≠ '.' := fun heq => hnext (congrArg some heq)
            simp [Symbol.text, symbol?, hother]
    | _ => rfl

/-! ## The first piece -/

section FirstPiece

variable {first : Char} {rest : List Char}

theorem class_of_isDigit (hdigit : first.isDigit = true) :
    isSpace first = false ∧ first ≠ '-' ∧ first ≠ '"' ∧ first ≠ '\'' := by
  refine ⟨?_, ?_, ?_, ?_⟩
  · apply Bool.eq_false_iff.mpr
    intro hspace
    simp only [isSpace, Bool.or_eq_true, decide_eq_true_eq] at hspace
    rcases hspace with ((rfl | rfl) | rfl) | rfl <;> cases hdigit
  all_goals rintro rfl; cases hdigit

theorem class_of_beginsName (hname : beginsName first = true) :
    isSpace first = false ∧ first ≠ '-' ∧ first ≠ '"' ∧ first ≠ '\'' ∧ first ≠ '.' ∧
      first.isDigit = false := by
  refine ⟨?_, ?_, ?_, ?_, ?_, ?_⟩
  · apply Bool.eq_false_iff.mpr
    intro hspace
    simp only [isSpace, Bool.or_eq_true, decide_eq_true_eq] at hspace
    rcases hspace with ((rfl | rfl) | rfl) | rfl <;> cases hname
  · rintro rfl; cases hname
  · rintro rfl; cases hname
  · rintro rfl; cases hname
  · rintro rfl; cases hname
  · apply Bool.eq_false_iff.mpr
    intro hdigit
    -- the codes of the digits lie below those of the letters
    have hdigits : first.toNat ≤ 57 := (Char.isDigit_iff_toNat.mp hdigit).2
    simp only [beginsName, Bool.or_eq_true, decide_eq_true_eq] at hname
    rcases hname with hletter | rfl
    · have hcase : first.isUpper = true ∨ first.isLower = true := (Bool.or_eq_true _ _).mp hletter
      rcases hcase with hupper | hlower
      · have hleast : 65 ≤ first.toNat := (of_decide_eq_true hupper).1
        omega
      · have hleast : 97 ≤ first.toNat := of_decide_eq_true ((Bool.and_eq_true _ _).mp hlower).1
        omega
    · exact absurd hdigit (by decide)

/-- The first piece of a text that begins with a quote. -/
theorem scan_quote (hquote : first = '"' ∨ first = '\'') :
    scan first rest =
      (quotedPiece first (readQuoted first rest), (readQuoted first rest).taken) := by
  rcases hquote with rfl | rfl <;> simp [scan, isSpace]

/-- The first piece of a text that begins with a number. -/
theorem scan_number (hstarts : StartsNumber (first :: rest)) {whole fraction exponent : List Char}
    (hparts : numberParts (first :: rest) = (whole, fraction, exponent)) :
    scan first rest =
      (.token (numberKind whole fraction exponent), (whole ++ fraction ++ exponent).tail) := by
  have hclass : isSpace first = false ∧ first ≠ '-' ∧ first ≠ '"' ∧ first ≠ '\'' := by
    rcases hstarts with hdigit | ⟨rfl, -⟩
    · exact class_of_isDigit hdigit
    · decide
  obtain ⟨hspace, hdash, hdouble, hsingle⟩ := hclass
  simp only [scan, hspace, hdash, hdouble, hsingle, startsNumber_cons.mp hstarts, hparts]
  simp [numberKind]

/-- The first piece of a text that begins with a word. -/
theorem scan_word (hname : beginsName first = true) :
    scan first rest = (.token (.ofWord (String.ofList (first :: rest.takeWhile continuesName))),
      rest.takeWhile continuesName) := by
  obtain ⟨hspace, hdash, hdouble, hsingle, hpoint, hdigit⟩ := class_of_beginsName hname
  simp [scan, hspace, hdash, hdouble, hsingle, hpoint, hdigit, hname]

theorem scan_space (hspace : isSpace first = true) :
    scan first rest = (.gap, rest.takeWhile isSpace) := by
  simp [scan, hspace]

theorem scan_comment :
    scan '-' ('-' :: rest) = ((readComment rest).1, '-' :: (readComment rest).2) := by
  simp [scan, isSpace]

/-- The first piece of a text that begins with nothing of these kinds. -/
theorem scan_other (hspace : isSpace first = false) (hcomment : first = '-' → rest.head? ≠ some '-')
    (hquote : ¬ (first = '"' ∨ first = '\'')) (hnumber : ¬ StartsNumber (first :: rest))
    (hname : beginsName first = false) :
    scan first rest = match symbol? (first :: rest) with
      | some mark => (.token (.symbol mark), mark.text.toList.tail)
      | none => if first = '~' then (.faulty .loneTilde [], []) else (.stray first, []) := by
  have hdash : (first = '-' && rest.head? = some '-') = false := by simpa using hcomment
  have hquotes : (first = '"' || first = '\'') = false := by simpa using hquote
  rw [startsNumber_cons, Bool.not_eq_true] at hnumber
  cases hsymbol : symbol? (first :: rest) with
  | some mark =>
      simp only [scan, hspace, hdash, hnumber, hquotes, hname, hsymbol, Bool.false_eq_true,
        if_false]
  | none =>
      simp only [scan, hspace, hdash, hnumber, hquotes, hname, hsymbol, Bool.false_eq_true,
        if_false]

/-! ### The first token -/

theorem quotedPiece_eq_token {quote : Char} {quoted : Quoted} {kind : Token.Kind} :
    quotedPiece quote quoted = .token kind ↔ quoted.closed = true ∧ quoted.badEscape = none ∧
      kind = .string (String.ofList quoted.contents) := by
  unfold quotedPiece
  grind

theorem readComment_ne_token (rest : List Char) (kind : Token.Kind) :
    (readComment rest).1 ≠ .token kind := by
  unfold readComment
  split
  · split <;> simp
  · simp

/-- The first piece of a text, if it is a token, is spelt and ends as the token does. -/
theorem spells_of_scan {kind : Token.Kind} {more : List Char}
    (hscan : scan first rest = (.token kind, more)) :
    ∃ after, rest = more ++ after ∧ kind.Spells (first :: more) ∧
      kind.EndsBefore (first :: more) after := by
  -- one case for each branch of the scanner, in its order: what an earlier branch takes is known
  -- not to be there in a later one
  by_cases hspace : isSpace first = true
  · rw [scan_space hspace] at hscan
    cases hscan
  by_cases hcomment : first = '-' ∧ rest.head? = some '-'
  · obtain ⟨rfl, hdash⟩ := hcomment
    obtain ⟨tail, rfl⟩ := List.head?_eq_some_iff.mp hdash
    rw [scan_comment] at hscan
    exact absurd (congrArg Prod.fst hscan) (readComment_ne_token tail kind)
  by_cases hquote : first = '"' ∨ first = '\''
  · rw [scan_quote hquote, Prod.mk.injEq, quotedPiece_eq_token] at hscan
    obtain ⟨⟨hclosed, hescapes, rfl⟩, rfl⟩ := hscan
    obtain ⟨body, after, rfl, htaken, hbody⟩ := decodes_of_readQuoted rest hclosed hescapes
    rw [htaken]
    -- the bytes between the quotes are found because a quote is a single byte
    have hascii : first.toNat ≤ 127 := by rcases hquote with rfl | rfl <;> decide
    refine ⟨after, by simp, ⟨first, body, rfl, hquote, ?_⟩, trivial⟩
    rw [String.toList_ofList]
    exact ⟨hbody, hbody.toBytes hascii⟩
  by_cases hnumber : StartsNumber (first :: rest)
  · obtain ⟨⟨whole, fraction, exponent⟩, hparts⟩ : ∃ parts, numberParts (first :: rest) = parts :=
      ⟨_, rfl⟩
    rw [scan_number hnumber hparts] at hscan
    cases hscan
    obtain ⟨after, htext, hspells, hends⟩ := spells_of_numberParts hnumber hparts
    have hsome := (numeralParts_of_numberParts hnumber hparts).ne_nil
    obtain ⟨_, more, hslice⟩ := List.exists_cons_of_ne_nil hsome
    rw [hslice] at htext hspells hends ⊢
    obtain ⟨rfl, hrest⟩ := List.cons_eq_cons.mp htext
    exact ⟨after, hrest, hspells, hends⟩
  by_cases hname : beginsName first = true
  · rw [scan_word hname] at hscan
    cases hscan
    obtain ⟨after, hrest, hmore, hnext⟩ :=
      takeWhile_eq_iff.mp (Eq.refl (rest.takeWhile continuesName))
    exact ⟨after, hrest, spells_ofWord ⟨first, _, rfl, hname, hmore⟩, endsBefore_ofWord hnext⟩
  · rw [scan_other (Bool.eq_false_iff.mpr hspace) (fun hdash hhead => hcomment ⟨hdash, hhead⟩)
      hquote hnumber (Bool.eq_false_iff.mpr hname)] at hscan
    cases hmark : symbol? (first :: rest) with
    | none =>
        rw [hmark] at hscan
        dsimp only at hscan
        split at hscan <;> cases hscan
    | some mark =>
        rw [hmark] at hscan
        cases hscan
        obtain ⟨after, htext, hequal, hdot⟩ := symbol?_eq_some_iff.mp hmark
        obtain ⟨_, tail, hslice⟩ := List.exists_cons_of_ne_nil mark.text_ne_nil
        rw [hslice] at htext ⊢
        obtain ⟨rfl, rfl⟩ := List.cons_eq_cons.mp htext
        refine ⟨after, rfl, hslice.symm, Symbol.endsBefore_iff.mpr ⟨hequal, ?_, ?_⟩⟩
        · -- a second dash would have begun a comment
          rintro rfl hdash
          cases hslice
          exact hcomment ⟨rfl, hdash⟩
        · rintro rfl
          cases hslice
          refine ⟨hdot rfl, fun next hnext => Bool.eq_false_iff.mpr fun hdigit => hnumber ?_⟩
          -- a digit behind the point would have begun a number
          exact .inr ⟨rfl, next, hnext, hdigit⟩

/-- A word that ends is taken as a whole. -/
theorem scan_of_isWord {slice : List Char} (hword : IsWord slice)
    (hnext : ∀ next ∈ rest.head?, continuesName next = false) :
    ∃ first more, slice = first :: more ∧
      scan first (more ++ rest) = (.token (.ofWord (String.ofList slice)), more) := by
  obtain ⟨first, more, rfl, hname, hmore⟩ := hword
  have hrun : (more ++ rest).takeWhile continuesName = more :=
    takeWhile_eq_iff.mpr ⟨rest, rfl, hmore, hnext⟩
  refine ⟨first, more, rfl, ?_⟩
  rw [scan_word hname, hrun]

/-- A number that ends is taken as a whole. -/
theorem scan_of_numberParts {slice whole fraction exponent : List Char}
    (hslice : slice = whole ++ fraction ++ exponent) (hsome : slice ≠ [])
    (hstarts : StartsNumber (slice ++ rest))
    (hparts : numberParts (slice ++ rest) = (whole, fraction, exponent)) :
    ∃ first more, slice = first :: more ∧
      scan first (more ++ rest) = (.token (numberKind whole fraction exponent), more) := by
  obtain ⟨first, more, rfl⟩ := List.exists_cons_of_ne_nil hsome
  refine ⟨first, more, rfl, ?_⟩
  rw [List.cons_append] at hstarts hparts
  rw [scan_number hstarts hparts, ← hslice, List.tail_cons]

theorem class_of_symbol {mark : Symbol} {more : List Char}
    (hslice : mark.text.toList = first :: more) :
    isSpace first = false ∧ ¬ (first = '"' ∨ first = '\'') ∧ beginsName first = false ∧
      first.isDigit = false ∧ (first = '-' → mark = .minus ∧ more = []) ∧
      (first = '.' → mark = .dot ∧ more = [] ∨ mark = .concat ∧ more = ['.']) := by
  cases mark <;> cases hslice <;> decide

/-- A symbol that ends is taken as a whole. -/
theorem scan_of_symbol {mark : Symbol} (hends : mark.EndsBefore rest) :
    ∃ first more, mark.text.toList = first :: more ∧
      scan first (more ++ rest) = (.token (.symbol mark), more) := by
  obtain ⟨first, more, hslice⟩ := List.exists_cons_of_ne_nil mark.text_ne_nil
  obtain ⟨hspace, hquote, hname, hdigit, hminus, hpoint⟩ := class_of_symbol hslice
  obtain ⟨hequal, hdash, hdot⟩ := Symbol.endsBefore_iff.mp hends
  have hmark : symbol? (first :: (more ++ rest)) = some mark :=
    symbol?_eq_some_iff.mpr ⟨rest, by rw [hslice, List.cons_append], hequal, fun h => (hdot h).1⟩
  -- no earlier branch of the scanner takes the text: it begins neither a comment nor a number
  have hcomment : first = '-' → (more ++ rest).head? ≠ some '-' := by
    intro hfirst
    obtain ⟨rfl, rfl⟩ := hminus hfirst
    exact hdash rfl
  have hnumber : ¬ StartsNumber (first :: (more ++ rest)) := by
    rintro (hfirst | ⟨hfirst, next, hnext, hnextDigit⟩)
    · exact absurd hfirst (Bool.eq_false_iff.mp hdigit)
    · rcases hpoint hfirst with ⟨rfl, rfl⟩ | ⟨rfl, rfl⟩
      · exact absurd hnextDigit (Bool.eq_false_iff.mp ((hdot rfl).2 next hnext))
      · cases hnext
        exact absurd hnextDigit (by decide)
  refine ⟨first, more, hslice, ?_⟩
  rw [scan_other hspace hcomment hquote hnumber hname, hmark]
  simp [hslice]

/-- A token that is spelt as it should be, and ends, is the first piece. -/
theorem scan_of_spells {kind : Token.Kind} {slice : List Char} (hspells : kind.Spells slice)
    (hends : kind.EndsBefore slice rest) :
    ∃ first more, slice = first :: more ∧ scan first (more ++ rest) = (.token kind, more) := by
  -- one case per kind of token, as one branch of the scanner produces each
  cases kind with
  | integer text =>
      obtain ⟨hstarts, hparts, hkind⟩ := numberParts_of_integer hspells hends
      rw [← hkind]
      exact scan_of_numberParts (by simp) hspells.2.1 hstarts hparts
  | float text =>
      obtain ⟨htext, whole, fraction, exponent, rfl, hnumeral, hsome⟩ := hspells
      have hstarts := startsNumber_of_numeralParts hnumeral rest
      have hparts := numberParts_of_float hnumeral hsome hends
      have hkind : numberKind whole fraction exponent = .float text := by
        rw [numberKind_of_ne_nil hsome, List.append_assoc, htext, String.ofList_toList]
      rw [← hkind]
      refine scan_of_numberParts (by simp) ?_ hstarts hparts
      rw [← List.append_assoc]
      exact hnumeral.ne_nil
  | name text =>
      obtain ⟨rfl, hword, hnone⟩ := hspells
      have hkind : Token.Kind.ofWord text = .name text := by simp [Token.Kind.ofWord, hnone]
      rw [← hkind]
      simpa using scan_of_isWord hword hends
  | string contents =>
      obtain ⟨quote, body, rfl, hquote, hbody, -⟩ := hspells
      refine ⟨quote, body ++ [quote], rfl, ?_⟩
      rw [scan_quote hquote, List.append_assoc, List.singleton_append,
        readQuoted_of_decodes hquote hbody]
      simp [quotedPiece]
  | keyword word =>
      obtain rfl := hspells
      have hkind : Token.Kind.ofWord word.text = .keyword word := by
        have hfound : Keyword.ofText? word.text = some word := Keyword.ofText?_eq_some_iff.mpr rfl
        simp [Token.Kind.ofWord, hfound]
      rw [← hkind]
      simpa using scan_of_isWord word.isWord_text hends
  | symbol mark =>
      obtain rfl := hspells
      exact scan_of_symbol hends

end FirstPiece

end Lexer

end TableScript
