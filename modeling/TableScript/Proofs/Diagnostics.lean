import Mathlib
import TableScript.Proofs.Lexis.Faults
import TableScript.Proofs.Syntax.Rests
import TableScript.Program

/-!
# Diagnostics

A text that is rejected gets a list of diagnostics.  They are all about its pieces, or all about the
arrangement of its tokens, and they come in the order of the text, no two of them at one place
(`compile_reports_in_order`).

The diagnostics of pieces are in order because the slices are (`Lexer.slices_reported`).  Those of
tokens are because after each problem some token is skipped (`Parser.readProgram_problems`), and
because the places of tokens are in order (`Tokens.ordered_of_tokenize`).
-/

namespace TableScript

open Lexer

/-- Diagnostics of a text come in the order of their places, which are bytes of the text, and no two
lie in one string literal. -/
structure Orderly (text : List Char) (diagnostics : List Diagnostic) : Prop where
  increasing : diagnostics.Pairwise fun earlier later => earlier.position < later.position
  atByte : ∀ diagnostic ∈ diagnostics, AtByte text diagnostic.position
  single : ∀ slice ∈ slices .start text, slice.IsLiteral → ∀ first ∈ diagnostics,
    ∀ second ∈ diagnostics, slice.Covers first.position → slice.Covers second.position →
      first = second

section Orderly

variable {source : String} {tokens : Tokens} {diagnostics : List Diagnostic}

/-! ## Pieces -/

theorem tokenize_eq_error (htokens : tokenize source = .error diagnostics) :
    diagnostics = (slices .start source.toList).flatMap Slice.diagnostics ∧ diagnostics ≠ [] := by
  unfold tokenize at htokens
  dsimp only at htokens
  split at htokens
  · cases htokens
  · next hsome =>
      cases htokens
      exact ⟨rfl, hsome⟩

/-- What is reported of the slices of a text is in order. -/
theorem orderly_of_slices (text : List Char) :
    Orderly text ((slices .start text).flatMap Slice.diagnostics) where
  increasing := slices_reported text
  atByte := by
    intro diagnostic hdiagnostic
    obtain ⟨slice, hslice, hreported⟩ := List.mem_flatMap.mp hdiagnostic
    exact (cutFrom_of_mem hslice).reported.atByte diagnostic hreported
  single := by
    intro literal hliteral hquote first hfirst second hsecond hcovers hcovers'
    -- a diagnostic that lies in the literal is reported of the literal
    have hreported {diagnostic : Diagnostic}
        (hdiagnostic : diagnostic ∈ (slices .start text).flatMap Slice.diagnostics)
        (hcovers : literal.Covers diagnostic.position) : diagnostic ∈ literal.diagnostics := by
      obtain ⟨slice, hslice, hreported⟩ := List.mem_flatMap.mp hdiagnostic
      have hinside := (cutFrom_of_mem hslice).reported.inside diagnostic hreported
      rwa [eq_of_covers hslice hliteral hinside hcovers] at hreported
    exact (cutFrom_of_mem hliteral).reported.single hquote first (hreported hfirst hcovers)
      second (hreported hsecond hcovers')

theorem letter_of_slices {text : List Char} :
    ∀ diagnostic ∈ (slices .start text).flatMap Slice.diagnostics,
      diagnostic.problem.code.toList.head? = some 'L' := by
  intro diagnostic hdiagnostic
  obtain ⟨slice, hslice, hreported⟩ := List.mem_flatMap.mp hdiagnostic
  exact (cutFrom_of_mem hslice).reported.letter diagnostic hreported

/-! ## Tokens -/

/-- The place at which some of the tokens begin is the beginning of a slice, or the end of the
text. -/
theorem placeOf_cases (htokens : tokenize source = .ok tokens) {rest : List Token}
    (hrest : rest <:+ tokens.list) :
    (∃ slice ∈ slices .start source.toList,
        Parser.placeOf tokens.finish rest = slice.position) ∨
      Parser.placeOf tokens.finish rest = placeAfter source.toList := by
  obtain ⟨list, finish⟩ := tokens
  obtain ⟨⟨-, rfl⟩, rfl⟩ := tokenize_eq_ok_iff_lexes.mp htokens
  cases rest with
  | nil => exact .inr rfl
  | cons token others =>
      obtain ⟨slice, hslice, htoken⟩ := List.mem_filterMap.mp (hrest.subset List.mem_cons_self)
      exact .inl ⟨slice, hslice, Slice.position_of_token htoken⟩

/-- What begins in a slice begins where the slice does. -/
theorem placeOf_of_covers (htokens : tokenize source = .ok tokens) {rest : List Token}
    (hrest : rest <:+ tokens.list) {slice : Slice} (hslice : slice ∈ slices .start source.toList)
    (hcovers : slice.Covers (Parser.placeOf tokens.finish rest)) :
    Parser.placeOf tokens.finish rest = slice.position := by
  have hinside := (slices_ordered .start source.toList).1
  rcases placeOf_cases htokens hrest with ⟨other, hother, hplace⟩ | hplace
  · rw [hplace] at hcovers ⊢
    rw [eq_of_covers hslice hother hcovers ⟨le_refl _, (hinside other hother).2.1⟩]
  · -- no slice goes on behind the end of the text
    have hend : slice.finish ≤ placeAfter source.toList := by
      have hend := (hinside slice hslice).2.2
      rwa [show Position.start = placeAfter [] from rfl, afterAll_placeAfter] at hend
    rw [hplace] at hcovers
    exact absurd (hcovers.2.trans_le hend) (lt_irrefl _)

/-- Diagnostics at one place are the same one. -/
theorem eq_of_position
    (hincreasing : diagnostics.Pairwise fun earlier later => earlier.position < later.position)
    {first second : Diagnostic} (hfirst : first ∈ diagnostics) (hsecond : second ∈ diagnostics)
    (hplace : first.position = second.position) : first = second := by
  have honly : ∀ first ∈ diagnostics, ∀ second ∈ diagnostics,
      first.position = second.position → first = second := by
    refine List.Pairwise.forall_of_forall_of_flip (fun _ _ _ => rfl) ?_ ?_
    · exact hincreasing.imp fun hless hplace => absurd hplace hless.ne
    · exact hincreasing.imp fun hless hplace => absurd hplace hless.ne'
  exact honly first hfirst second hsecond hplace

/-- What is reported of the tokens of a text is in order. -/
theorem orderly_of_problems (htokens : tokenize source = .ok tokens)
    {problems : List (Problem × List Token)} (hproblems : Parser.ProblemsIn tokens.list problems) :
    Orderly source.toList
      (problems.map fun (problem, rest) => ⟨problem, Parser.placeOf tokens.finish rest⟩) := by
  have hordered := Tokens.ordered_of_tokenize htokens
  have hincreasing : (problems.map fun (problem, rest) =>
      (⟨problem, Parser.placeOf tokens.finish rest⟩ : Diagnostic)).Pairwise fun earlier later =>
        earlier.position < later.position := by
    refine List.pairwise_map.mpr (hproblems.apart.imp_of_mem ?_)
    intro earlier later hearlier _ hbehind
    -- two problems stand at different tokens, and the tokens at increasing places
    exact hordered.placeOf_lt (hproblems.suffix earlier hearlier) hbehind.1 hbehind.2
  refine ⟨hincreasing, ?_, ?_⟩
  · intro diagnostic hdiagnostic
    obtain ⟨⟨problem, rest⟩, hproblem, rfl⟩ := List.mem_map.mp hdiagnostic
    change AtByte _ (Parser.placeOf tokens.finish rest)
    -- a problem is at the token that was next, or at the end of the text if there was none
    rcases placeOf_cases htokens (hproblems.suffix _ hproblem) with ⟨slice, hslice, hplace⟩ | hplace
    · rw [hplace]
      exact (cutFrom_of_mem hslice).atByte
    · rw [hplace]
      simpa using atByte_placeAfter source.toList []
  · intro slice hslice _ first hfirst second hsecond hcovers hcovers'
    refine eq_of_position hincreasing hfirst hsecond ?_
    -- both lie where the slice begins
    have hstart {diagnostic : Diagnostic} (hdiagnostic : diagnostic ∈ problems.map
          fun (problem, rest) => ⟨problem, Parser.placeOf tokens.finish rest⟩)
        (hcovers : slice.Covers diagnostic.position) : diagnostic.position = slice.position := by
      obtain ⟨⟨problem, rest⟩, hproblem, rfl⟩ := List.mem_map.mp hdiagnostic
      exact placeOf_of_covers htokens (hproblems.suffix _ hproblem) hslice hcovers
    rw [hstart hfirst hcovers, hstart hsecond hcovers']

theorem Problem.OfArrangement.letter {problem : Problem} (hproblem : problem.OfArrangement) :
    problem.code.toList.head? = some 'P' := by
  cases problem with
  | noStatement found | noExpression found | returnNotLast =>
      change "P001".toList.head? = some 'P'
      decide
  | missingToken wanted found | missingName found =>
      change "P002".toList.head? = some 'P'
      decide
  | breakOutsideLoop =>
      change "P003".toList.head? = some 'P'
      decide
  | indexedLocal name =>
      change "P004".toList.head? = some 'P'
      decide
  | strayCharacter character | loneTilde | openString | unknownEscape character | openComment =>
      cases hproblem

/-! ## Texts -/

/-- **Diagnostics come in the order of the text.**  A text that is rejected has a diagnostic.  The
codes of all of them begin with an `L`, or the codes of all of them with a `P`.  Their places, by
line and then by column, are strictly increasing, and each is the place of a byte of the text or of
its end.  No two of them lie in one string literal. -/
theorem compile_reports_in_order (hcompile : compile source = .error diagnostics) :
    diagnostics ≠ [] ∧
      ((∀ diagnostic ∈ diagnostics, diagnostic.problem.code.toList.head? = some 'L') ∨
        ∀ diagnostic ∈ diagnostics, diagnostic.problem.code.toList.head? = some 'P') ∧
      diagnostics.Pairwise (fun earlier later => earlier.position < later.position) ∧
      (∀ diagnostic ∈ diagnostics, ∃ before after, utf8 source.toList = before ++ after ∧
        diagnostic.position = bytePlace before) ∧
      ∀ slice ∈ slices .start source.toList, slice.IsLiteral → ∀ first ∈ diagnostics,
        ∀ second ∈ diagnostics, slice.Covers first.position → slice.Covers second.position →
          first = second := by
  unfold compile at hcompile
  -- what is reported comes all from the lexer, or all from the parser if the lexer has nothing to
  -- report
  cases htokens : tokenize source with
  | error reported =>
      rw [htokens] at hcompile
      cases hcompile
      obtain ⟨rfl, hsome⟩ := tokenize_eq_error htokens
      obtain ⟨hincreasing, hatByte, hsingle⟩ := orderly_of_slices source.toList
      exact ⟨hsome, .inl letter_of_slices, hincreasing, hatByte, hsingle⟩
  | ok tokens =>
      rw [htokens] at hcompile
      obtain ⟨problems, hproblems, hsome, rfl⟩ := parse_eq_error hcompile
      have hfound : Parser.ProblemsIn tokens.list problems :=
        hproblems ▸ Parser.readProgram_problems _ _ tokens.list
      obtain ⟨hincreasing, hatByte, hsingle⟩ := orderly_of_problems htokens hfound
      refine ⟨by simpa using hsome, .inr ?_, hincreasing, hatByte, hsingle⟩
      intro diagnostic hdiagnostic
      obtain ⟨problem, hproblem, rfl⟩ := List.mem_map.mp hdiagnostic
      exact (hfound.arrangement problem hproblem).letter

end Orderly

/-- A string literal over two lines with two bad escapes, a letter outside ASCII, and a string
literal that is left open. -/
def faultyPieces : String := "x = \"\\q\\\n\" é\ny = 'z"

/-- The literal is reported at its first bad escape only, the letter at each of its bytes, and the
open literal at its beginning.  A text that is cut into tokens has the problems of the parser: after
the head of a loop that is none it goes on at the next statement, and takes the `break` for one
outside of a loop. -/
theorem compile_reports_in_order_faultyPieces :
    (∃ diagnostics, compile faultyPieces = .error diagnostics ∧
      diagnostics.map Diagnostic.position = [⟨1, 7⟩, ⟨2, 3⟩, ⟨2, 4⟩, ⟨3, 5⟩] ∧
      diagnostics.Pairwise (fun earlier later => earlier.position < later.position) ∧
      ∀ diagnostic ∈ diagnostics, AtByte faultyPieces.toList diagnostic.position) ∧
    ∃ diagnostics, compile "while ) do break end" = .error diagnostics ∧
      diagnostics.map Diagnostic.position = [⟨1, 7⟩, ⟨1, 12⟩] ∧
      diagnostics.map (·.problem.code) = ["P001", "P003"] ∧
      diagnostics.Pairwise (fun earlier later => earlier.position < later.position) ∧
      ∀ diagnostic ∈ diagnostics, AtByte "while ) do break end".toList diagnostic.position := by
  have hpieces : compile faultyPieces = .error [⟨.unknownEscape 'q', ⟨1, 7⟩⟩,
      ⟨.strayCharacter 'Ã', ⟨2, 3⟩⟩, ⟨.strayCharacter '©', ⟨2, 4⟩⟩, ⟨.openString, ⟨3, 5⟩⟩] := by cbv
  have hloop : compile "while ) do break end" = .error
      [⟨.noExpression (some (.symbol .closeParen)), ⟨1, 7⟩⟩, ⟨.breakOutsideLoop, ⟨1, 12⟩⟩] := by cbv
  obtain ⟨-, -, hincreasing, hatByte, -⟩ := compile_reports_in_order hpieces
  obtain ⟨-, -, hincreasing', hatByte', -⟩ := compile_reports_in_order hloop
  exact ⟨⟨_, hpieces, rfl, hincreasing, hatByte⟩, _, hloop, rfl, rfl, hincreasing', hatByte'⟩

end TableScript
