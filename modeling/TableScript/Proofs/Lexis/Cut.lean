import TableScript.Proofs.Lexis.Places

/-!
# How a text is cut

The words of the language as they are written, without a lexer: which characters a gap can have,
which characters a token of each kind can be written with, and what must not follow it, since then
the token would have gone on.  `Cut` puts them together: a text is cut into the slices of its
tokens, with a gap before each and one at the end, and every token has the place of its slice.
-/

namespace TableScript

/-! ## Gaps -/

/-- The gaps that can stand before the characters `rest`: spaces and complete comments.  A comment
to the end of the line does not begin with two brackets; one in brackets ends at the first two
closing ones. -/
inductive Gap : List Char → List Char → Prop where
  | nothing (rest : List Char) : Gap [] rest
  | space {character : Char} {gap rest : List Char} (hspace : Lexer.isSpace character = true)
    (hgap : Gap gap rest) : Gap (character :: gap) rest
  | line {body gap rest : List Char} (hbody : '\n' ∉ body) (hopen : ¬ ['[', '['] <+: body)
    (hend : ∀ next ∈ (gap ++ rest).head?, next = '\n') (hgap : Gap gap rest) :
    Gap ('-' :: '-' :: (body ++ gap)) rest
  | bracketed {body gap rest : List Char} (hbody : ¬ [']', ']'] <:+: body ++ [']'])
    (hgap : Gap gap rest) : Gap ('-' :: '-' :: '[' :: '[' :: (body ++ ']' :: ']' :: gap)) rest

/-! ## Numbers -/

/-- The digits of a number, where there can be none. -/
def AllDigits (text : List Char) : Prop := ∀ digit ∈ text, digit.isDigit = true

/-- A mark, an optional sign and at least one digit. -/
def IsExponent (text : List Char) : Prop :=
  ∃ mark sign digits, text = mark :: (sign ++ digits) ∧ (mark = 'e' ∨ mark = 'E') ∧
    (sign = [] ∨ sign = ['+'] ∨ sign = ['-']) ∧ digits ≠ [] ∧ AllDigits digits

/-- The text goes on with an exponent. -/
def StartsExponent (rest : List Char) : Prop :=
  ∃ exponent more, rest = exponent ++ more ∧ IsExponent exponent

/-- The parts of a number: digits, a point with more digits, and an exponent.  Each can be missing,
but not all digits before the exponent. -/
structure NumeralParts (whole fraction exponent : List Char) : Prop where
  allDigits : AllDigits whole
  pointed : fraction = [] ∨ ∃ digits, fraction = '.' :: digits ∧ AllDigits digits
  scaled : exponent = [] ∨ IsExponent exponent
  hasDigit : whole ≠ [] ∨ ∃ digit ∈ fraction, digit.isDigit = true

theorem IsExponent.ne_nil {exponent : List Char} (hexponent : IsExponent exponent) :
    exponent ≠ [] := by
  obtain ⟨mark, sign, digits, rfl, -⟩ := hexponent
  exact List.cons_ne_nil _ _

/-- What an exponent begins with is neither a digit nor a point. -/
theorem IsExponent.head?_append {exponent rest : List Char} (hexponent : IsExponent exponent) :
    ∀ next ∈ (exponent ++ rest).head?, next.isDigit = false ∧ next ≠ '.' := by
  obtain ⟨mark, sign, digits, rfl, hmark, -⟩ := hexponent
  rintro next hnext
  cases hnext
  rcases hmark with rfl | rfl <;> decide

theorem getLast?_ne_point {before digits : List Char} (hsome : digits ≠ [])
    (hdigits : AllDigits digits) : (before ++ digits).getLast? ≠ some '.' := by
  intro hlast
  have hmember : '.' ∈ digits := by
    rw [List.getLast?_append, List.getLast?_eq_some_getLast hsome] at hlast
    rw [← Option.some.inj hlast]
    exact List.getLast_mem hsome
  exact absurd (hdigits '.' hmember) (by decide)

theorem NumeralParts.ne_nil {whole fraction exponent : List Char}
    (hnumeral : NumeralParts whole fraction exponent) : whole ++ fraction ++ exponent ≠ [] := by
  rcases hnumeral.hasDigit with hwhole | ⟨digit, hdigit, -⟩
  · simp [hwhole]
  · simp [List.ne_nil_of_mem hdigit]

/-- The letters of an exponent are nowhere else in a number. -/
theorem NumeralParts.not_mem {whole fraction exponent : List Char}
    (hnumeral : NumeralParts whole fraction exponent) {mark : Char}
    (hmark : mark = 'e' ∨ mark = 'E') : mark ∉ whole ++ fraction := by
  have hletter : mark.isDigit = false ∧ mark ≠ '.' := by
    rcases hmark with rfl | rfl <;> decide
  intro hmember
  rcases List.mem_append.mp hmember with hwhole | hfraction
  · exact absurd (hnumeral.allDigits mark hwhole) (by simp [hletter])
  · rcases hnumeral.pointed with rfl | ⟨digits, rfl, hdigits⟩
    · cases hfraction
    · rcases List.mem_cons.mp hfraction with hpoint | hmember
      · exact hletter.2 hpoint
      · exact absurd (hdigits mark hmember) (by simp [hletter])

/-! ## Strings -/

/-- What stands between two quotes, and what is meant by it.  This is said of characters and of
bytes: `letter` gives the byte of a character. -/
inductive Decodes {α : Type} (letter : Char → α) (quote : Char) : List α → List α → Prop where
  | nothing : Decodes letter quote [] []
  | plain {item : α} {body contents : List α} (hquote : item ≠ letter quote)
    (hslash : item ≠ letter '\\') (hfeed : item ≠ letter '\n')
    (hbody : Decodes letter quote body contents) :
    Decodes letter quote (item :: body) (item :: contents)
  | escape {escaped meant : Char} {body contents : List α}
    (hmeant : Lexer.unescape? escaped = some meant) (hbody : Decodes letter quote body contents) :
    Decodes letter quote (letter '\\' :: letter escaped :: body) (letter meant :: contents)

/-- Bytes that are none of the three that count are taken as they are. -/
theorem Decodes.append {quote : Char} {bytes body contents : List UInt8}
    (hbytes : ∀ byte ∈ bytes, byte ≠ quote.toUInt8 ∧ byte ≠ '\\'.toUInt8 ∧ byte ≠ '\n'.toUInt8)
    (hbody : Decodes Char.toUInt8 quote body contents) :
    Decodes Char.toUInt8 quote (bytes ++ body) (bytes ++ contents) := by
  induction bytes with
  | nil => exact hbody
  | cons byte bytes ih =>
      obtain ⟨⟨hquote, hslash, hfeed⟩, hrest⟩ := List.forall_mem_cons.mp hbytes
      exact .plain hquote hslash hfeed (ih hrest)

theorem Lexer.ascii_of_unescape? {escaped meant : Char}
    (hmeant : Lexer.unescape? escaped = some meant) :
    escaped.toNat ≤ 127 ∧ meant.toNat ≤ 127 := by
  unfold Lexer.unescape? at hmeant
  split at hmeant <;> cases hmeant <;> decide

/-- What is meant by characters is meant by their bytes: no character outside ASCII has a byte that
could be taken for a quote, a backslash or a line feed. -/
theorem Decodes.toBytes {quote : Char} (hquote : quote.toNat ≤ 127) {body contents : List Char}
    (hbody : Decodes id quote body contents) :
    Decodes Char.toUInt8 quote (utf8 body) (utf8 contents) := by
  induction hbody with
  | nothing => exact .nothing
  | plain hother hslash hfeed _ ih =>
      refine Decodes.append (fun byte hbyte => ⟨?_, ?_, ?_⟩) ih
      · rintro rfl
        exact hother ((toUInt8_mem_utf8EncodeChar hquote).mp hbyte)
      · rintro rfl
        exact hslash ((toUInt8_mem_utf8EncodeChar (by decide)).mp hbyte)
      · rintro rfl
        exact hfeed ((toUInt8_mem_utf8EncodeChar (by decide)).mp hbyte)
  | escape hmeant _ ih =>
      obtain ⟨hescaped, hascii⟩ := Lexer.ascii_of_unescape? hmeant
      simp only [id_eq, utf8_cons, utf8EncodeChar_of_ascii hescaped, utf8EncodeChar_of_ascii hascii,
        utf8EncodeChar_of_ascii (show '\\'.toNat ≤ 127 by decide)]
      exact .escape hmeant ih

/-! ## Words -/

/-- A letter or an underline, and any number of these and of digits. -/
def IsWord (text : List Char) : Prop :=
  ∃ first more, text = first :: more ∧ Lexer.beginsName first = true ∧
    ∀ character ∈ more, Lexer.continuesName character = true

theorem Keyword.ofText?_eq_some_iff {text : String} {word : Keyword} :
    Keyword.ofText? text = some word ↔ word.text = text := by
  constructor
  · intro hfound
    have hequal := List.find?_some hfound
    exact of_decide_eq_true hequal
  · rintro rfl
    cases word <;> decide

theorem Keyword.isWord_text (word : Keyword) : IsWord word.text.toList := by
  cases word <;> exact ⟨_, _, rfl, by decide, List.all_eq_true.mp rfl⟩

/-! ## Tokens -/

/-- A token of a kind can be written with these characters.  A string is written in quotes of either
kind, and the bytes between the quotes are, escapes replaced, the bytes of its contents. -/
def Token.Kind.Spells : Token.Kind → List Char → Prop
  | .integer text, slice => slice = text.toList ∧ slice ≠ [] ∧ AllDigits slice
  | .float text, slice => slice = text.toList ∧
    ∃ whole fraction exponent, slice = whole ++ (fraction ++ exponent) ∧
      NumeralParts whole fraction exponent ∧ (fraction ≠ [] ∨ exponent ≠ [])
  | .name text, slice => slice = text.toList ∧ IsWord slice ∧ Keyword.ofText? text = none
  | .string contents, slice => ∃ quote body, slice = quote :: (body ++ [quote]) ∧
    (quote = '"' ∨ quote = '\'') ∧ Decodes id quote body contents.toList ∧
    Decodes Char.toUInt8 quote (utf8 body) (utf8 contents.toList)
  | .keyword word, slice => slice = word.text.toList
  | .symbol mark, slice => slice = mark.text.toList

/-- No symbol is cut short. -/
def Symbol.EndsBefore : Symbol → List Char → Prop
  | .less, rest | .greater, rest | .assign, rest => rest.head? ≠ some '='
  | .minus, rest => rest.head? ≠ some '-'
  | .dot, rest => rest.head? ≠ some '.' ∧ ∀ next ∈ rest.head?, next.isDigit = false
  | _, _ => True

theorem Symbol.text_ne_nil (mark : Symbol) : mark.text.toList ≠ [] := by
  cases mark <;> decide

theorem Symbol.endsBefore_iff {mark : Symbol} {rest : List Char} :
    mark.EndsBefore rest ↔
      (mark = .less ∨ mark = .greater ∨ mark = .assign → rest.head? ≠ some '=') ∧
      (mark = .minus → rest.head? ≠ some '-') ∧
      (mark = .dot → rest.head? ≠ some '.' ∧ ∀ next ∈ rest.head?, next.isDigit = false) := by
  cases mark <;> simp [Symbol.EndsBefore]

/-- A token of a kind, written with the characters of a slice, ends where the characters `rest`
begin: it is not cut short. -/
def Token.Kind.EndsBefore : Token.Kind → List Char → List Char → Prop
  | .integer _, _, rest => (∀ next ∈ rest.head?, next.isDigit = false) ∧ ¬ StartsExponent rest ∧
    ∀ more, rest = '.' :: more → more.head? = some '.'
  | .float _, slice, rest => (∀ next ∈ rest.head?, next.isDigit = false) ∧
    ('e' ∉ slice → 'E' ∉ slice → ¬ StartsExponent rest) ∧
    (slice.getLast? = some '.' → rest.head? ≠ some '.')
  | .name _, _, rest | .keyword _, _, rest =>
    ∀ next ∈ rest.head?, Lexer.continuesName next = false
  | .string _, _, _ => True
  | .symbol mark, _, rest => mark.EndsBefore rest

/-- **A text cut into tokens.**  `Cut before text tokens` says that the characters of `text`, which
come after those of `before`, are the slices of the tokens with gaps between them, each slice as
long as it can be, and that every token has the place where its slice begins. -/
inductive Cut : List Char → List Char → List Token → Prop where
  | finish {before gap : List Char} (hgap : Gap gap []) : Cut before gap []
  | token {before gap slice rest : List Char} {kind : Token.Kind} {tokens : List Token}
    (hgap : Gap gap (slice ++ rest)) (hspells : kind.Spells slice)
    (hends : kind.EndsBefore slice rest) (hrest : Cut (before ++ gap ++ slice) rest tokens) :
    Cut before (gap ++ (slice ++ rest)) (⟨kind, placeAfter (before ++ gap)⟩ :: tokens)

end TableScript
