import Mathlib
import TableScript.Proofs.Run.Places
import TableScript.Proofs.Syntax.Layout.Programs
import TableScript.Proofs.Syntax.Rests

/-!
# Layout does not matter

Two source texts may be cut into tokens of the same kinds and yet differ in blanks, comments, line
breaks and quotes.  They are then the same program: both are rejected for the same problems at the
same tokens, or both are accepted, and run alike.  All that differs are places.

What is read depends on the kinds of tokens only (`Parser.readProgram_alike`).  The problems found
lie at tokens (`Parser.readProgram_problems`), and as many tokens are left in front of a problem in
both texts, so they lie at tokens of the same numbers.  What is run depends on the tree without its
places only (`execute_of_erase_eq`).
-/

namespace TableScript

/-! ## Problems at numbered tokens -/

namespace Tokens

/-- The place of the token with a number, counted from zero.  After the last token it is the end of
the text. -/
def placeAt (tokens : Tokens) (index : Nat) : Position :=
  (tokens.list[index]?.map Token.position).getD tokens.finish

/-- The syntax errors for problems at numbered tokens. -/
def diagnose (tokens : Tokens) (problems : List (Problem × Nat)) : List Diagnostic :=
  problems.map fun (problem, index) => ⟨problem, tokens.placeAt index⟩

/-- The number of the token at which a problem lies, from the tokens left there. -/
def number (tokens : Tokens) (problems : List (Problem × List Token)) : List (Problem × Nat) :=
  problems.map fun (problem, rest) => (problem, tokens.list.length - rest.length)

/-- The end of a list of tokens begins at the token whose number it leaves off. -/
theorem placeAt_of_suffix {tokens : Tokens} {rest : List Token} (hrest : rest <:+ tokens.list) :
    tokens.placeAt (tokens.list.length - rest.length) = Parser.placeOf tokens.finish rest := by
  have hdrop : rest = tokens.list.drop (tokens.list.length - rest.length) :=
    List.suffix_iff_eq_drop.mp hrest
  unfold placeAt Parser.placeOf
  rw [← List.head?_drop, ← hdrop]

theorem diagnose_number {tokens : Tokens} {problems : List (Problem × List Token)}
    (hproblems : ∀ problem ∈ problems, problem.2 <:+ tokens.list) :
    tokens.diagnose (tokens.number problems) =
      problems.map fun (problem, rest) => ⟨problem, Parser.placeOf tokens.finish rest⟩ := by
  unfold diagnose number
  rw [List.map_map]
  refine List.map_congr_left fun problem hmember => ?_
  exact congrArg (Diagnostic.mk problem.1) (placeAt_of_suffix (hproblems problem hmember))

/-- Problems in front of tokens of the same kinds are at tokens of the same numbers. -/
theorem number_eq_of_kinds {tokens tokens' : Tokens}
    {problems problems' : List (Problem × List Token)}
    (hlength : tokens'.list.length = tokens.list.length)
    (hkinds : problems.map (fun (problem, rest) => (problem, kindsOf rest)) =
      problems'.map fun (problem, rest) => (problem, kindsOf rest)) :
    tokens.number problems = tokens'.number problems' := by
  -- a number is counted from what is left, whose length is that of its kinds
  have hview (tokens : Tokens) (problems : List (Problem × List Token)) :
      tokens.number problems =
        (problems.map fun (problem, rest) => (problem, kindsOf rest)).map fun (problem, kinds) =>
          (problem, tokens.list.length - kinds.length) := by
    unfold number
    rw [List.map_map]
    refine List.map_congr_left fun problem _ => ?_
    simp [kindsOf]
  rw [hview tokens, hview tokens', hkinds, hlength]

end Tokens

/-! ## The result -/

/-- What is made of a list of tokens: a program, or errors at numbered tokens. -/
theorem parse_eq_number {tokens : Tokens} {reading : Parser.Reading}
    (hreading : Parser.readProgram (Parser.stepsFor tokens.list) tokens.list.length tokens.list =
      reading) :
    parse tokens =
      if reading.problems = [] then .ok (.mk reading.statements reading.result)
      else .error (tokens.diagnose (tokens.number reading.problems)) := by
  have hsuffix : ∀ problem ∈ reading.problems, problem.2 <:+ tokens.list := by
    rw [← hreading]
    exact (Parser.readProgram_problems _ _ _).suffix
  unfold parse
  dsimp only
  rw [hreading, Tokens.diagnose_number hsuffix]
  split
  · next hnone => rw [if_pos hnone]
  · next hsome => rw [if_neg hsome]

/-- Tokens of the same kinds are both a program, the same one up to places, or both none, for the
same problems at the same tokens. -/
theorem parse_layoutFree {tokens tokens' : Tokens}
    (hkinds : kindsOf tokens.list = kindsOf tokens'.list) :
    (∃ program program', parse tokens = .ok program ∧ parse tokens' = .ok program' ∧
      program.erase = program'.erase) ∨
    ∃ problems : List (Problem × Nat), problems ≠ [] ∧
      (∀ problem ∈ problems, problem.2 ≤ tokens.list.length) ∧
      parse tokens = .error (tokens.diagnose problems) ∧
      parse tokens' = .error (tokens'.diagnose problems) := by
  have hlength : tokens'.list.length = tokens.list.length := by
    simpa [kindsOf] using congrArg List.length hkinds.symm
  have halike := parse_reading_alike hkinds
  generalize hreading : Parser.readProgram (Parser.stepsFor tokens.list) tokens.list.length
    tokens.list = reading at halike
  generalize hreading' : Parser.readProgram (Parser.stepsFor tokens'.list) tokens'.list.length
    tokens'.list = reading' at halike
  rw [parse_eq_number hreading, parse_eq_number hreading']
  simp only [Parser.Reading.erase, Prod.mk.injEq] at halike
  obtain ⟨hstatements, hresult, hproblems⟩ := halike
  -- forgetting places keeps the number of problems, so both have some or neither has
  have hnone : reading.problems = [] ↔ reading'.problems = [] := by
    rw [← List.map_eq_nil_iff, hproblems, List.map_eq_nil_iff]
  by_cases haccepted : reading.problems = []
  · left
    refine ⟨_, _, if_pos haccepted, if_pos (hnone.mp haccepted), ?_⟩
    simp only [Block.erase, hstatements, hresult]
  · right
    refine ⟨tokens.number reading.problems, ?_, ?_, if_neg haccepted, ?_⟩
    · simpa [Tokens.number] using haccepted
    · intro problem hmember
      obtain ⟨⟨cause, rest⟩, -, rfl⟩ := List.mem_map.mp hmember
      exact Nat.sub_le _ _
    · -- the two lists are equally long, so what is left behind a problem counts the same tokens
      rw [Tokens.number_eq_of_kinds hlength hproblems]
      exact if_neg fun hrejected => haccepted (hnone.mpr hrejected)

/-- **Layout does not matter.**  Two texts that are cut into tokens of the same kinds are both
accepted or both rejected.  If accepted, they are the same tree up to places, and end alike wherever
they are executed: with the same value or with faults for the same cause, after the same output and
with the same variables, tables and input left; only the places of faults and functions may differ.
If rejected, they have the same problems, in the same order and at tokens of the same numbers. -/
theorem layout_free {source source' : String} {tokens tokens' : Tokens}
    (htokens : tokenize source = .ok tokens) (htokens' : tokenize source' = .ok tokens')
    (hkinds : kindsOf tokens.list = kindsOf tokens'.list) :
    (∃ program program', compile source = .ok program ∧ compile source' = .ok program' ∧
      program.erase = program'.erase ∧
      ∀ fuel state,
        (execute fuel program state).erase = (execute fuel program' state).erase) ∨
    ∃ problems : List (Problem × Nat), problems ≠ [] ∧
      (∀ problem ∈ problems, problem.2 ≤ tokens.list.length) ∧
      compile source = .error (tokens.diagnose problems) ∧
      compile source' = .error (tokens'.diagnose problems) := by
  have hcompile : compile source = parse tokens := by
    unfold compile
    rw [htokens]
  have hcompile' : compile source' = parse tokens' := by
    unfold compile
    rw [htokens']
  rw [hcompile, hcompile']
  rcases parse_layoutFree hkinds with ⟨program, program', hparse, hparse', hsame⟩ | hrejected
  · exact .inl ⟨program, program', hparse, hparse', hsame, execute_of_erase_eq hsame⟩
  · exact .inr hrejected

/-- The tokens of `x='a' y()`. -/
def compactCall : Tokens where
  list := [⟨.name "x", ⟨1, 1⟩⟩, ⟨.symbol .assign, ⟨1, 2⟩⟩, ⟨.string "a", ⟨1, 3⟩⟩,
    ⟨.name "y", ⟨1, 7⟩⟩, ⟨.symbol .openParen, ⟨1, 8⟩⟩, ⟨.symbol .closeParen, ⟨1, 9⟩⟩]
  finish := ⟨1, 10⟩

/-- The tokens of the same program in two lines, with other quotes and a comment. -/
def spacedCall : Tokens where
  list := [⟨.name "x", ⟨1, 1⟩⟩, ⟨.symbol .assign, ⟨1, 3⟩⟩, ⟨.string "a", ⟨1, 5⟩⟩,
    ⟨.name "y", ⟨2, 2⟩⟩, ⟨.symbol .openParen, ⟨2, 3⟩⟩, ⟨.symbol .closeParen, ⟨2, 4⟩⟩]
  finish := ⟨2, 5⟩

/-- The program that both are, by the places of the literal and of the call. -/
def assignAndCall (literal call : Position) : Block :=
  .mk [.assign "x" [] (.string "a" literal) ⟨1, 1⟩, .invoke (.call "y" [] call)] none

/-- The tokens of `x=)y`. -/
def compactParenthesis : Tokens where
  list := [⟨.name "x", ⟨1, 1⟩⟩, ⟨.symbol .assign, ⟨1, 2⟩⟩, ⟨.symbol .closeParen, ⟨1, 3⟩⟩,
    ⟨.name "y", ⟨1, 4⟩⟩]
  finish := ⟨1, 5⟩

/-- The same tokens in two lines. -/
def spacedParenthesis : Tokens where
  list := [⟨.name "x", ⟨1, 1⟩⟩, ⟨.symbol .assign, ⟨1, 3⟩⟩, ⟨.symbol .closeParen, ⟨2, 3⟩⟩,
    ⟨.name "y", ⟨2, 5⟩⟩]
  finish := ⟨2, 6⟩

/-- Two texts are the same program and run alike: the call of what is not a function is a fault of
both, at different places.  Two others are rejected for the same problem at the same token, which
stands at different places. -/
theorem layout_free_spacedCall :
    (∃ program program', compile "x='a' y()" = .ok program ∧
      compile "x = \"a\" -- set\n y()" = .ok program' ∧ program.erase = program'.erase ∧
      (∀ fuel state,
        (execute fuel program state).erase = (execute fuel program' state).erase) ∧
      ∃ later later', execute 10 program (.start .plain 5 [] .silent) =
          .failed ⟨.undefinedFunction "y", ⟨1, 7⟩⟩ later ∧
        execute 10 program' (.start .plain 5 [] .silent) =
          .failed ⟨.undefinedFunction "y", ⟨2, 2⟩⟩ later') ∧
    ∃ problems : List (Problem × Nat), problems ≠ [] ∧
      compile "x=)y" = .error (compactParenthesis.diagnose problems) ∧
      compile "x =\n  ) y" = .error (spacedParenthesis.diagnose problems) ∧
      compactParenthesis.diagnose problems =
        [⟨.noExpression (some (.symbol .closeParen)), ⟨1, 3⟩⟩] ∧
      spacedParenthesis.diagnose problems =
        [⟨.noExpression (some (.symbol .closeParen)), ⟨2, 3⟩⟩] := by
  constructor
  · have hcompact : tokenize "x='a' y()" = .ok compactCall := by cbv
    have hspaced : tokenize "x = \"a\" -- set\n y()" = .ok spacedCall := by cbv
    have hprogram : compile "x='a' y()" = .ok (assignAndCall ⟨1, 3⟩ ⟨1, 7⟩) := by cbv
    have hprogram' : compile "x = \"a\" -- set\n y()" = .ok (assignAndCall ⟨1, 5⟩ ⟨2, 2⟩) := by cbv
    rcases layout_free hcompact hspaced rfl with
      ⟨program, program', hcompile, hcompile', hsame, hruns⟩ | ⟨_, _, _, hrejected, _⟩
    · cases hprogram.symm.trans hcompile
      cases hprogram'.symm.trans hcompile'
      exact ⟨_, _, hprogram, hprogram', hsame, hruns, _, _, rfl, rfl⟩
    · cases hprogram.symm.trans hrejected
  · have hcompact : tokenize "x=)y" = .ok compactParenthesis := by cbv
    have hspaced : tokenize "x =\n  ) y" = .ok spacedParenthesis := by cbv
    have hproblem : compile "x=)y" =
        .error [⟨.noExpression (some (.symbol .closeParen)), ⟨1, 3⟩⟩] := by cbv
    have hproblem' : compile "x =\n  ) y" =
        .error [⟨.noExpression (some (.symbol .closeParen)), ⟨2, 3⟩⟩] := by cbv
    rcases layout_free hcompact hspaced rfl with
      ⟨_, _, haccepted, -⟩ | ⟨problems, hsome, -, hrejected, hrejected'⟩
    · cases hproblem.symm.trans haccepted
    · refine ⟨problems, hsome, hrejected, hrejected', ?_, ?_⟩
      · exact Except.error.inj (hrejected.symm.trans hproblem)
      · exact Except.error.inj (hrejected'.symm.trans hproblem')

end TableScript
