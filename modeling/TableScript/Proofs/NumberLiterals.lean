import TableScript.Proofs.Faults
import TableScript.Proofs.Lexis.Render

/-!
# Number literals

The lexer cuts number literals out of a text, and the evaluator reads them when it comes to them.
Each has a grammar of its own.  The two fit together: whatever the lexer lets pass for a number is
read as the number that was written, unless it is an integer that does not fit in 64 bits.

## Strategy

Every token is spelled by a slice of the text (`Cut.exists_spells`), and every literal of a program
is a token (`exists_token_of_literal`), so that the literals of a compiled program are well
written.  A well-written literal is a decimal numeral without a sign, and which of these are read is
known.  In a run only literals of the program are read (`expected_of_failed`).
-/

namespace TableScript

open Number

/-- A literal as it can be cut out of a text: digits for an integer, and for a floating-point number
digits with a point, with an exponent or with both. -/
def NumberLiteral.WellWritten : NumberLiteral → Prop
  | ⟨.integer, text⟩ => text.toList ≠ [] ∧ AllDigits text.toList
  | ⟨.float, text⟩ => ∃ whole fraction exponent, text.toList = whole ++ (fraction ++ exponent) ∧
    NumeralParts whole fraction exponent ∧ (fraction ≠ [] ∨ exponent ≠ [])

/-- The number that the digits of an integer literal stand for. -/
def NumberLiteral.value (literal : NumberLiteral) : ℕ :=
  Nat.ofDigitChars 10 literal.text.toList 0

/-! ## From the text to the program -/

theorem Token.wellWritten_of_spells {token : Token} {slice : List Char} {literal : NumberLiteral}
    (hspells : token.kind.Spells slice) (hliteral : token.numberLiteral? = some literal) :
    literal.WellWritten := by
  unfold Token.numberLiteral? at hliteral
  split at hliteral <;> cases hliteral
  · obtain ⟨rfl, hwritten⟩ := hspells
    exact hwritten
  · obtain ⟨rfl, hwritten⟩ := hspells
    exact hwritten

theorem wellWritten_of_tokenize {source : String} {tokens : Tokens} {token : Token}
    {literal : NumberLiteral} (htokens : tokenize source = .ok tokens)
    (hmember : token ∈ tokens.list) (hliteral : token.numberLiteral? = some literal) :
    literal.WellWritten := by
  obtain ⟨list, finish⟩ := tokens
  have hcut := cut_of_lexes (tokenize_eq_ok_iff_lexes.mp htokens).1
  obtain ⟨slice, hspells⟩ := hcut.exists_spells token hmember
  exact Token.wellWritten_of_spells hspells hliteral

theorem wellWritten_of_compile {source : String} {program : Block} {literal : NumberLiteral}
    (hcompile : compile source = .ok program) (hliteral : literal ∈ program.literals) :
    literal.WellWritten := by
  obtain ⟨tokens, htokens, hparse⟩ := tokenize_of_compile hcompile
  obtain ⟨token, hmember, hstands⟩ := exists_token_of_literal hparse hliteral
  exact wellWritten_of_tokenize htokens hmember hstands

/-! ## From the program to the number -/

section Readers

variable {text : String}

/-- A floating-point literal is read. -/
theorem exists_readFloatLiteral? (hwritten : NumberLiteral.WellWritten ⟨.float, text⟩) :
    ∃ number, readFloatLiteral? text = some number := by
  obtain ⟨whole, fraction, exponent, htext, hparts, -⟩ := hwritten
  have hunsigned : IsUnsignedDecimal text.toList :=
    ⟨whole, fraction, exponent, by rw [htext, List.append_assoc], hparts⟩
  -- a literal has no sign; a minus before it is an operator
  have hdecimal : IsDecimal text.toList := ⟨[], text.toList, rfl, .inl rfl, hunsigned⟩
  obtain ⟨numeral, hnumeral⟩ := Option.isSome_iff_exists.mp (readNumeral?_isSome_iff.mpr hdecimal)
  exact ⟨numeral.toFloat, by simp [readFloatLiteral?, readFloat?, hnumeral]⟩

/-- An integer literal is read as its value. -/
theorem readIntegerLiteral?_eq_some_iff (hwritten : NumberLiteral.WellWritten ⟨.integer, text⟩)
    {integer : Int64} :
    readIntegerLiteral? text = some integer ↔
      (NumberLiteral.value ⟨.integer, text⟩ : ℤ) = integer.toInt := by
  obtain ⟨hsome, hdigits⟩ := hwritten
  have hvalue : signedValue [] text.toList = NumberLiteral.value ⟨.integer, text⟩ := by
    simp [signedValue, NumberLiteral.value, digitsValue_eq]
  rw [← hvalue]
  exact parseInteger?_append (.inl rfl) hsome hdigits

/-- An integer literal is not read exactly if it is above the greatest integer. -/
theorem readIntegerLiteral?_eq_none_iff (hwritten : NumberLiteral.WellWritten ⟨.integer, text⟩) :
    readIntegerLiteral? text = none ↔ 2 ^ 63 - 1 < NumberLiteral.value ⟨.integer, text⟩ := by
  constructor
  · intro hnone
    by_contra hfits
    have hvalue : (Int64.ofInt (NumberLiteral.value ⟨.integer, text⟩)).toInt =
        NumberLiteral.value ⟨.integer, text⟩ := Int64.toInt_ofInt_of_le (by omega) (by omega)
    cases hnone.symm.trans ((readIntegerLiteral?_eq_some_iff hwritten).mpr hvalue.symm)
  · intro habove
    rw [Option.eq_none_iff_forall_ne_some]
    intro integer hread
    have hvalue := (readIntegerLiteral?_eq_some_iff hwritten).mp hread
    have hmost := integer.toInt_lt
    omega

theorem ofLiteral_float (hwritten : NumberLiteral.WellWritten ⟨.float, text⟩) :
    ∃ number, Reading.ofLiteral .float text = .ok (.float number) := by
  obtain ⟨number, hnumber⟩ := exists_readFloatLiteral? hwritten
  exact ⟨number, by simp [Reading.ofLiteral, hnumber]⟩

theorem ofLiteral_integer_of_le (hwritten : NumberLiteral.WellWritten ⟨.integer, text⟩)
    (hfits : NumberLiteral.value ⟨.integer, text⟩ ≤ 2 ^ 63 - 1) :
    ∃ integer, Reading.ofLiteral .integer text = .ok (.integer integer) ∧
      integer.toInt = NumberLiteral.value ⟨.integer, text⟩ := by
  have hread : readIntegerLiteral? text ≠ none :=
    fun hnone => absurd ((readIntegerLiteral?_eq_none_iff hwritten).mp hnone) (by omega)
  obtain ⟨integer, hinteger⟩ := Option.ne_none_iff_exists'.mp hread
  refine ⟨integer, by simp [Reading.ofLiteral, hinteger], ?_⟩
  exact ((readIntegerLiteral?_eq_some_iff hwritten).mp hinteger).symm

theorem ofLiteral_integer_of_gt (hwritten : NumberLiteral.WellWritten ⟨.integer, text⟩)
    (habove : 2 ^ 63 - 1 < NumberLiteral.value ⟨.integer, text⟩) :
    Reading.ofLiteral .integer text = .error (.integerLiteral text) := by
  simp [Reading.ofLiteral, (readIntegerLiteral?_eq_none_iff hwritten).mpr habove]

end Readers

/-! ## Runs -/

/-- No run of a compiled program fails at a floating-point literal. -/
theorem cause_ne_floatLiteral {source : String} {program : Block}
    (hcompile : compile source = .ok program) {fuel : Nat} {state later : State} {fault : Fault}
    (hfails : execute fuel program state = .failed fault later) (text : String) :
    fault.cause ≠ .floatLiteral text := by
  intro hcause
  have hexpected := (expected_of_failed hfails).cause
  rw [hcause] at hexpected
  obtain ⟨hmark, hnone⟩ := hexpected
  have hwritten := wellWritten_of_compile hcompile (Block.mem_literals_iff.mpr hmark)
  obtain ⟨number, hnumber⟩ := exists_readFloatLiteral? hwritten
  cases hnone.symm.trans hnumber

/-- A run of a compiled program fails at an integer literal of the program only, and at one that is
above the greatest integer. -/
theorem value_of_failed {source : String} {program : Block}
    (hcompile : compile source = .ok program) {fuel : Nat} {state later : State} {fault : Fault}
    (hfails : execute fuel program state = .failed fault later) {text : String}
    (hcause : fault.cause = .integerLiteral text) :
    ⟨.integer, text⟩ ∈ program.literals ∧ 2 ^ 63 - 1 < NumberLiteral.value ⟨.integer, text⟩ := by
  have hexpected := (expected_of_failed hfails).cause
  rw [hcause] at hexpected
  obtain ⟨hmark, hnone⟩ := hexpected
  have hliteral := Block.mem_literals_iff.mpr hmark
  have hwritten := wellWritten_of_compile hcompile hliteral
  exact ⟨hliteral, (readIntegerLiteral?_eq_none_iff hwritten).mp hnone⟩

/-- **Number literals are read as they are written.**  Every number token of a text has digits for
its text, and one of a floating-point number a point or an exponent besides.  The floating-point
literals of a compiled program are all read; an integer literal is read as exactly the number that
was written, leading zeros allowed, if that fits in 64 bits, and refused with a fault of format if
it does not.  A run of a compiled program fails for no other literal than an integer literal of the
program that does not fit. -/
theorem numberLiterals_asWritten :
    (∀ source tokens, tokenize source = .ok tokens → ∀ token ∈ tokens.list, ∀ literal,
      token.numberLiteral? = some literal → literal.WellWritten) ∧
    (∀ source program, compile source = .ok program →
      (∀ text, ⟨.float, text⟩ ∈ program.literals →
        ∃ number, Reading.ofLiteral .float text = .ok (.float number)) ∧
      (∀ text, ⟨.integer, text⟩ ∈ program.literals →
        (NumberLiteral.value ⟨.integer, text⟩ ≤ 2 ^ 63 - 1 →
          ∃ integer, Reading.ofLiteral .integer text = .ok (.integer integer) ∧
            integer.toInt = NumberLiteral.value ⟨.integer, text⟩) ∧
        (2 ^ 63 - 1 < NumberLiteral.value ⟨.integer, text⟩ →
          ∃ cause, Reading.ofLiteral .integer text = .error cause ∧
            cause = .integerLiteral text ∧ cause.kind = .format)) ∧
      (∀ fuel state fault later, execute fuel program state = .failed fault later →
        (∀ text, fault.cause ≠ .floatLiteral text) ∧
        ∀ text, fault.cause = .integerLiteral text → ⟨.integer, text⟩ ∈ program.literals ∧
          2 ^ 63 - 1 < NumberLiteral.value ⟨.integer, text⟩)) := by
  refine ⟨fun source tokens htokens token hmember literal hliteral =>
    wellWritten_of_tokenize htokens hmember hliteral, fun source program hcompile =>
    ⟨fun text hliteral => ?_, fun text hliteral => ?_, fun fuel state fault later hfails => ?_⟩⟩
  · -- each literal stands in the text, where its digits were cut out by the lexer
    exact ofLiteral_float (wellWritten_of_compile hcompile hliteral)
  · have hwritten := wellWritten_of_compile hcompile hliteral
    exact ⟨ofLiteral_integer_of_le hwritten,
      fun habove => ⟨_, ofLiteral_integer_of_gt hwritten habove, rfl, rfl⟩⟩
  · exact ⟨cause_ne_floatLiteral hcompile hfails, fun text => value_of_failed hcompile hfails⟩

/-- A literal with leading zeros, two without digits on one side of the point, the greatest integer
and the one above it. -/
def literalsAtTheEdges : String :=
  "return 007, 1., .5e3, 9223372036854775807, 9223372036854775808"

/-- The integer literal that a run fails at. -/
def Outcome.unreadInteger? {α : Type} : Outcome α → Option String
  | .failed ⟨.integerLiteral text, _⟩ _ => some text
  | _ => none

theorem Outcome.eq_failed_of_unreadInteger? {α : Type} {outcome : Outcome α} {text : String}
    (hunread : outcome.unreadInteger? = some text) :
    ∃ fault later, outcome = .failed fault later ∧ fault.cause = .integerLiteral text := by
  unfold Outcome.unreadInteger? at hunread
  split at hunread
  · cases hunread
    exact ⟨_, _, rfl, rfl⟩
  · cases hunread

/-- Leading zeros count for nothing, digits on one side of the point are enough, and the greatest
integer is the last one that is read: at the next one the run fails. -/
theorem numberLiterals_asWritten_atTheEdges :
    NumberLiteral.WellWritten ⟨.float, ".5e3"⟩ ∧
    (∃ number, Reading.ofLiteral .float "1." = .ok (.float number)) ∧
    (∃ integer, Reading.ofLiteral .integer "007" = .ok (.integer integer) ∧ integer.toInt = 7) ∧
    (∃ integer, Reading.ofLiteral .integer "9223372036854775807" = .ok (.integer integer) ∧
      integer.toInt = 2 ^ 63 - 1) ∧
    (∃ cause, Reading.ofLiteral .integer "9223372036854775808" = .error cause ∧
      cause = .integerLiteral "9223372036854775808" ∧ cause.kind = .format) ∧
    ∃ program fault later, compile literalsAtTheEdges = .ok program ∧
      execute 20 program (.start .plain 5 [] .silent) = .failed fault later ∧
      fault.cause = .integerLiteral "9223372036854775808" ∧
      2 ^ 63 - 1 < NumberLiteral.value ⟨.integer, "9223372036854775808"⟩ := by
  obtain ⟨htext, hprogram⟩ := numberLiterals_asWritten
  have hread : (compile literalsAtTheEdges).toOption.map (fun program =>
      (program.literals, (execute 20 program (.start .plain 5 [] .silent)).unreadInteger?)) =
        some ([⟨.integer, "007"⟩, ⟨.float, "1."⟩, ⟨.float, ".5e3"⟩,
          ⟨.integer, "9223372036854775807"⟩, ⟨.integer, "9223372036854775808"⟩],
          some "9223372036854775808") := by decide +kernel
  rcases hcompile : compile literalsAtTheEdges with diagnostics | program
  · rw [hcompile] at hread
    cases hread
  rw [hcompile] at hread
  obtain ⟨hliterals, hunread⟩ := Prod.mk.inj (Option.some.inj hread)
  obtain ⟨fault, later, hfails, hcause⟩ := Outcome.eq_failed_of_unreadInteger? hunread
  obtain ⟨hfloats, hintegers, hruns⟩ := hprogram _ program hcompile
  refine ⟨?_, hfloats "1." (by simp [hliterals]), ?_, ?_, ?_, program, fault, later, rfl, hfails,
    hcause, ((hruns _ _ _ _ hfails).2 _ hcause).2⟩
  · obtain ⟨tokens, htokens, hparse⟩ := tokenize_of_compile hcompile
    have hliteral : ⟨.float, ".5e3"⟩ ∈ program.literals := by simp [hliterals]
    obtain ⟨token, hmember, hstands⟩ := exists_token_of_literal hparse hliteral
    exact htext _ tokens htokens token hmember _ hstands
  · exact (hintegers "007" (by simp [hliterals])).1 (by decide)
  · exact (hintegers "9223372036854775807" (by simp [hliterals])).1 (by decide)
  · exact (hintegers "9223372036854775808" (by simp [hliterals])).2 (by decide)

end TableScript
