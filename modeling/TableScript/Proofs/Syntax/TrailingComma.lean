import Mathlib
import TableScript.Proofs.Syntax.Grammar

/-!
# What the documented grammar leaves out

The documented grammar has no comma after the last parameter of a function, and the readers accept
one.  That is all in which the two differ, and it can be seen in the tokens: the programs that the
documented grammar derives are those that are read and have no comma directly before a closing
parenthesis.

One direction removes the extra rule from a derivation, where the tokens show that it was not used.
The other needs that no rule puts a comma in front of a closing parenthesis: what a rule derives is
`Tidy`, so that nothing it is put next to brings the two together.
-/

namespace TableScript

/-! ## Commas before closing parentheses -/

/-- No comma stands directly before a closing parenthesis. -/
def CommaFree (kinds : List Token.Kind) : Prop :=
  kinds.IsChain fun left right => left = .symbol .comma → right ≠ .symbol .closeParen

namespace CommaFree

variable {kind : Token.Kind} {kinds before after : List Token.Kind}

theorem left (hfree : CommaFree (before ++ after)) : CommaFree before :=
  List.IsChain.left_of_append hfree

theorem right (hfree : CommaFree (before ++ after)) : CommaFree after :=
  List.IsChain.right_of_append hfree

theorem tail (hfree : CommaFree (kind :: kinds)) : CommaFree kinds :=
  List.IsChain.of_cons hfree

end CommaFree

/-- Without a comma before a closing parenthesis the extra rule was not used. -/
theorem Derives.of_commaFree {rule : Rule} {kinds : List Token.Kind}
    (hderives : Derives true rule kinds) (hfree : CommaFree kinds) : Derives false rule kinds := by
  -- every rule but one is in both grammars; what it puts together is free of the comma in all its
  -- parts
  induction hderives with
  | block_open _ ih => exact .block_open (ih hfree)
  | block_result _ _ ihStatements ihResult =>
      exact .block_result (ihStatements hfree.left) (ihResult hfree.right)
  | statements_none => exact .statements_none
  | statements_more _ _ ihFirst ihOthers =>
      exact .statements_more (ihFirst hfree.left) (ihOthers hfree.right)
  | result_none hending => exact .result_none hending
  | result_some hending _ ih => exact .result_some hending (ih hfree.tail.left)
  | empty => exact .empty
  | break_ => exact .break_
  | assign _ _ ihVariable ihValue =>
      exact .assign (ihVariable hfree.left) (ihValue hfree.right.tail)
  | declare _ ih => exact .declare (ih hfree.tail.tail.tail)
  | choose _ ih => exact .choose (ih hfree.tail.left)
  | define _ ih => exact .define (ih hfree.tail.tail.tail.right.tail.left)
  -- the extra rule puts a comma right before the closing parenthesis
  | define_trailing _ _ _ _ =>
      have hcomma := hfree.tail.tail.tail.right
      exact absurd rfl (hcomma.rel rfl)
  | while_ _ _ ihCondition ihBody =>
      exact .while_ (ihCondition hfree.tail.left) (ihBody hfree.tail.right.tail.left)
  | repeat_ _ _ ihBody ihCondition =>
      exact .repeat_ (ihBody hfree.tail.left) (ihCondition hfree.tail.right.tail)
  | for_ _ _ _ _ ihStart ihLimit ihStep ihBody =>
      have hlimit := hfree.tail.tail.tail.right.tail
      exact .for_ (ihStart hfree.tail.tail.tail.left) (ihLimit hlimit.left)
        (ihStep hlimit.right.left) (ihBody hlimit.right.right.tail.left)
  | do_ _ ih => exact .do_ (ih hfree.tail.left)
  | perform _ ih => exact .perform (ih hfree)
  | branches_last _ _ ihCondition ihBody =>
      exact .branches_last (ihCondition hfree.left) (ihBody hfree.right.tail)
  | branches_else _ _ _ ihCondition ihBody ihOtherwise =>
      exact .branches_else (ihCondition hfree.left) (ihBody hfree.right.tail.left)
        (ihOtherwise hfree.right.tail.right.tail)
  | branches_more _ _ _ ihCondition ihBody ihBranches =>
      exact .branches_more (ihCondition hfree.left) (ihBody hfree.right.tail.left)
        (ihBranches hfree.right.tail.right.tail)
  | step_none => exact .step_none
  | step_some _ ih => exact .step_some (ih hfree.tail)
  | «variable» _ ih => exact .variable (ih hfree.tail)
  | suffixes_none => exact .suffixes_none
  | suffixes_name _ ih => exact .suffixes_name (ih hfree.tail.tail)
  | suffixes_key _ _ ihKey ihSuffixes =>
      exact .suffixes_key (ihKey hfree.tail.left) (ihSuffixes hfree.tail.right.tail)
  | expressionList_last _ ih => exact .expressionList_last (ih hfree)
  | expressionList_more _ _ ihValue ihValues =>
      exact .expressionList_more (ihValue hfree.left) (ihValues hfree.right.tail)
  | arguments_none => exact .arguments_none
  | arguments_some _ ih => exact .arguments_some (ih hfree)
  | format_none => exact .format_none
  | format_some _ ih => exact .format_some (ih hfree)
  | call _ ih => exact .call (ih hfree.tail.tail.left)
  | print _ ih => exact .print (ih hfree.tail.tail.left)
  | read _ ih => exact .read (ih hfree.tail.tail.tail.tail.left)
  | fields_none => exact .fields_none
  | fields_some _ ih => exact .fields_some (ih hfree)
  | fields_separator hseparator _ ih => exact .fields_separator hseparator (ih hfree.left)
  | fieldList_last _ ih => exact .fieldList_last (ih hfree)
  | fieldList_more hseparator _ _ ihField ihFields =>
      exact .fieldList_more hseparator (ihField hfree.left) (ihFields hfree.right.tail)
  | field_named _ ih => exact .field_named (ih hfree.tail.tail)
  | field_keyed _ _ ihKey ihValue =>
      exact .field_keyed (ihKey hfree.tail.left) (ihValue hfree.tail.right.tail.tail)
  | field_positional _ ih => exact .field_positional (ih hfree)
  | literal hliteral => exact .literal hliteral
  | parenthesized _ ih => exact .parenthesized (ih hfree.tail.left)
  | table _ ih => exact .table (ih hfree.tail.left)
  | value _ ih => exact .value (ih hfree)
  | invoke _ ih => exact .invoke (ih hfree)
  | unary _ ih => exact .unary (ih hfree.tail)
  | binary _ _ ihLeft ihRight => exact .binary (ihLeft hfree.left) (ihRight hfree.right.tail)

/-- Tokens that stay free of a comma before a closing parenthesis whatever stands around them. -/
structure Tidy (kinds : List Token.Kind) : Prop where
  free : CommaFree kinds
  head : kinds.head? ≠ some (.symbol .closeParen)
  last : kinds.getLast? ≠ some (.symbol .comma)

namespace Tidy

variable {kind : Token.Kind} {kinds before after : List Token.Kind}

theorem nil : Tidy [] := ⟨List.IsChain.nil, by simp, by simp⟩

theorem append (hbefore : Tidy before) (hafter : Tidy after) : Tidy (before ++ after) := by
  refine ⟨List.IsChain.append hbefore.free hafter.free ?_, ?_, ?_⟩
  · rintro left hleft right hright rfl rfl
    exact hafter.head hright
  · cases before with
    | nil => exact hafter.head
    | cons first others => exact hbefore.head
  · rw [List.getLast?_append]
    cases hlast : after.getLast? with
    | none => exact hbefore.last
    | some last =>
        have hother := hafter.last
        rw [hlast] at hother
        exact hother

theorem singleton (hcomma : kind ≠ .symbol .comma) (hclosing : kind ≠ .symbol .closeParen) :
    Tidy [kind] :=
  ⟨List.IsChain.singleton _, by simpa using hclosing, by simpa using hcomma⟩

theorem cons (hcomma : kind ≠ .symbol .comma) (hclosing : kind ≠ .symbol .closeParen)
    (hkinds : Tidy kinds) : Tidy (kind :: kinds) :=
  (singleton hcomma hclosing).append hkinds

theorem keyword {word : Keyword} (hkinds : Tidy kinds) : Tidy (.keyword word :: kinds) :=
  hkinds.cons (by simp) (by simp)

theorem name {text : String} (hkinds : Tidy kinds) : Tidy (.name text :: kinds) :=
  hkinds.cons (by simp) (by simp)

/-- A part before the word that closes it. -/
theorem closed (hkinds : Tidy kinds) {word : Keyword} : Tidy (kinds ++ [.keyword word]) :=
  hkinds.append nil.keyword

/-- A comma between two parts, the second of which is there. -/
theorem comma (hbefore : Tidy before) (hafter : Tidy after) (hsome : after ≠ []) :
    Tidy (before ++ .symbol .comma :: after) := by
  have hcomma : CommaFree (.symbol .comma :: after) := by
    refine List.isChain_cons.mpr ⟨?_, hafter.free⟩
    rintro right hright - rfl
    exact hafter.head hright
  refine ⟨List.IsChain.append hbefore.free hcomma ?_, ?_, ?_⟩
  · rintro left hleft right hright - rfl
    simp at hright
  · cases before with
    | nil => simp
    | cons first others => exact hbefore.head
  · rw [List.getLast?_append, List.getLast?_cons_of_ne_nil hsome]
    cases hlast : after.getLast? with
    | none => exact absurd (List.getLast?_eq_none_iff.mp hlast) hsome
    | some last =>
        have hother := hafter.last
        rw [hlast] at hother
        exact hother

/-- A part between parentheses. -/
theorem parentheses (hkinds : Tidy kinds) :
    Tidy (.symbol .openParen :: (kinds ++ [.symbol .closeParen])) := by
  have hclosed : CommaFree (kinds ++ [.symbol .closeParen]) := by
    refine List.IsChain.append hkinds.free (List.IsChain.singleton _) ?_
    rintro left hleft right - rfl -
    exact hkinds.last hleft
  refine ⟨List.isChain_cons.mpr ⟨?_, hclosed⟩, by simp, ?_⟩
  · rintro right - hopening
    cases hopening
  · rw [← List.cons_append, List.getLast?_concat]
    simp

end Tidy

theorem tidy_namesWithCommas (names : List String) : Tidy (namesWithCommas names) := by
  induction names with
  | nil => exact .nil
  | cons name names ih =>
      cases names with
      | nil => exact .singleton (by simp) (by simp)
      | cons other names =>
          refine Tidy.comma (.singleton (by simp) (by simp)) ih ?_
          cases names <;> simp

theorem UnaryOperator.token_ne (operator : UnaryOperator) :
    operator.token ≠ .symbol .comma ∧ operator.token ≠ .symbol .closeParen := by
  cases operator <;> decide

theorem BinaryOperator.token_ne (operator : BinaryOperator) :
    operator.token ≠ .symbol .comma ∧ operator.token ≠ .symbol .closeParen := by
  cases operator <;> decide

theorem Token.Kind.ne_of_isLiteral {kind : Token.Kind} (hliteral : kind.isLiteral = true) :
    kind ≠ .symbol .comma ∧ kind ≠ .symbol .closeParen := by
  cases kind with
  | symbol mark => cases hliteral
  | _ => simp

/-- A separator between two parts, the second of which is there. -/
theorem Tidy.separator {separator : Symbol} {before after : List Token.Kind} (hbefore : Tidy before)
    (hseparator : separator = .comma ∨ separator = .semicolon)
    (hafter : Tidy after) (hsome : after ≠ []) : Tidy (before ++ .symbol separator :: after) := by
  rcases hseparator with rfl | rfl
  · exact hbefore.comma hafter hsome
  · exact hbefore.append (.cons (by simp) (by simp) hafter)

/-- What a rule derives is tidy, and not empty unless the rule allows it.  Between the braces of a
table a comma may come last, so there the closing brace is counted in. -/
def Rule.Tidies (kinds : List Token.Kind) : Rule → Prop
  | .fields => Tidy (kinds ++ [.symbol .closeBrace])
  | .block _ | .statements _ | .step | .suffixes | .arguments | .format => Tidy kinds
  | _ => Tidy kinds ∧ kinds ≠ []

/-- The documented grammar derives no comma before a closing parenthesis. -/
theorem Derives.tidy {rule : Rule} {kinds : List Token.Kind} (hderives : Derives false rule kinds) :
    rule.Tidies kinds := by
  -- parts that are tidy stay so side by side: none ends with a comma or begins with the parenthesis
  induction hderives with
  | block_open _ ih => exact ih
  | block_result _ _ ihStatements ihResult => exact ihStatements.append ihResult.1
  | statements_none => exact .nil
  | statements_more _ _ ihFirst ihOthers => exact ihFirst.1.append ihOthers
  | result_none hending =>
      refine ⟨Tidy.keyword ?_, by simp⟩
      rcases hending with rfl | rfl
      · exact .nil
      · exact .singleton (by simp) (by simp)
  | result_some hending _ ih =>
      refine ⟨Tidy.keyword (ih.1.append ?_), by simp⟩
      rcases hending with rfl | rfl
      · exact .nil
      · exact .singleton (by simp) (by simp)
  | empty => exact ⟨.singleton (by simp) (by simp), by simp⟩
  | break_ => exact ⟨.singleton (by simp) (by simp), by simp⟩
  | assign _ _ ihVariable ihValue =>
      exact ⟨ihVariable.1.append (ihValue.1.cons (by simp) (by simp)), by simp⟩
  | declare _ ih => exact ⟨(ih.1.cons (by simp) (by simp)).name.keyword, by simp⟩
  | choose _ ih => exact ⟨ih.1.closed.keyword, by simp⟩
  | @define _ _ parameters _ _ ih =>
      -- between the parentheses of a function only names and the commas between them
      have hparameters := (tidy_namesWithCommas parameters).parentheses
      refine ⟨?_, by simp⟩
      simpa using (hparameters.append ih.closed).name.keyword
  -- the documented grammar has no such rule
  | define_trailing htrailing => cases htrailing
  | while_ _ _ ihCondition ihBody =>
      exact ⟨(ihCondition.1.append ihBody.closed.keyword).keyword, by simp⟩
  | repeat_ _ _ ihBody ihCondition => exact ⟨(ihBody.append ihCondition.1.keyword).keyword, by simp⟩
  | @for_ _ _ first second third last _ _ _ _ ihStart ihLimit ihStep ihBody =>
      have hlimit : Tidy (second ++ (third ++ .keyword .do_ :: (last ++ [.keyword .end_]))) :=
        ihLimit.1.append (ihStep.append ihBody.closed.keyword)
      have hheader := ihStart.1.comma hlimit (by simp)
      exact ⟨(hheader.cons (by simp) (by simp)).name.keyword, by simp⟩
  | do_ _ ih => exact ⟨ih.closed.keyword, by simp⟩
  | perform _ ih => exact ih
  | branches_last _ _ ihCondition ihBody => exact ⟨ihCondition.1.append ihBody.keyword, by simp⟩
  | branches_else _ _ _ ihCondition ihBody ihOtherwise =>
      exact ⟨ihCondition.1.append (ihBody.append ihOtherwise.keyword).keyword, by simp⟩
  | branches_more _ _ _ ihCondition ihBody ihBranches =>
      exact ⟨ihCondition.1.append (ihBody.append ihBranches.1.keyword).keyword, by simp⟩
  | step_none => exact .nil
  | step_some _ ih => exact Tidy.nil.comma ih.1 ih.2
  | «variable» _ ih => exact ⟨ih.name, by simp⟩
  | suffixes_none => exact .nil
  | suffixes_name _ ih => exact ih.name.cons (by simp) (by simp)
  | suffixes_key _ _ ihKey ihSuffixes =>
      exact (ihKey.1.append (ihSuffixes.cons (by simp) (by simp))).cons (by simp) (by simp)
  | expressionList_last _ ih => exact ih
  | expressionList_more _ _ ihValue ihValues =>
      exact ⟨ihValue.1.comma ihValues.1 ihValues.2, by simp⟩
  | arguments_none => exact .nil
  | arguments_some _ ih => exact ih.1
  | format_none => exact .nil
  | format_some _ ih => exact ih.1
  | call _ ih => exact ⟨ih.parentheses.name, by simp⟩
  | print _ ih => exact ⟨ih.parentheses.name, by simp⟩
  | read _ ih => exact ⟨(ih.parentheses.name.cons (by simp) (by simp)).name, by simp⟩
  | fields_none => exact .singleton (by simp) (by simp)
  | fields_some _ ih => exact ih.1.append (.singleton (by simp) (by simp))
  -- the one place where a comma may come last, and a brace follows it
  | fields_separator hseparator _ ih =>
      have hbrace : Tidy [.symbol .closeBrace] := .singleton (by simp) (by simp)
      have hclosed := ih.1.separator hseparator hbrace (by simp)
      simpa [Rule.Tidies] using hclosed
  | fieldList_last _ ih => exact ih
  | fieldList_more hseparator _ _ ihField ihFields =>
      exact ⟨ihField.1.separator hseparator ihFields.1 ihFields.2, by simp⟩
  | field_named _ ih => exact ⟨(ih.1.cons (by simp) (by simp)).name, by simp⟩
  | @field_keyed _ after _ _ ihKey ihValue =>
      have hvalue : Tidy (.symbol .closeBracket :: .symbol .assign :: after) :=
        (ihValue.1.cons (by simp) (by simp)).cons (by simp) (by simp)
      exact ⟨(ihKey.1.append hvalue).cons (by simp) (by simp), by simp⟩
  | field_positional _ ih => exact ih
  | literal hliteral =>
      obtain ⟨hcomma, hclosing⟩ := Token.Kind.ne_of_isLiteral hliteral
      exact ⟨.singleton hcomma hclosing, by simp⟩
  | parenthesized _ ih => exact ⟨ih.1.parentheses, by simp⟩
  | table _ ih => exact ⟨ih.cons (by simp) (by simp), by simp⟩
  | value _ ih => exact ih
  | invoke _ ih => exact ih
  | @unary operator _ _ ih => exact ⟨ih.1.cons operator.token_ne.1 operator.token_ne.2, by simp⟩
  | @binary operator _ _ _ _ ihLeft ihRight =>
      exact ⟨ihLeft.1.append (ihRight.1.cons operator.token_ne.1 operator.token_ne.2), by simp⟩

/-- **What the grammar says about the programs that are read.**  The documented grammar derives
exactly the programs that are read and in which no comma stands directly before a closing
parenthesis.  The others that are read have a comma after the last parameter of a function, and the
grammar with a rule for that derives exactly the programs that are read. -/
theorem documented_grammar_iff (tokens : Tokens) :
    (Derives false (.block false) (kindsOf tokens.list) ↔
      (∃ chunk, parse tokens = .ok chunk) ∧ CommaFree (kindsOf tokens.list)) ∧
    ((∃ chunk, parse tokens = .ok chunk) ↔ Derives true (.block false) (kindsOf tokens.list)) := by
  -- what is read is written, and so derived with the extra rule
  have hread (chunk : Block) (hparse : parse tokens = .ok chunk) :
      Derives true (.block false) (kindsOf tokens.list) := (parse_eq_ok_iff.mp hparse).derives
  refine ⟨⟨fun hderives => ⟨hderives.parse_ok, hderives.tidy.free⟩, ?_⟩, ?_, Derives.parse_ok⟩
  · rintro ⟨⟨chunk, hparse⟩, hfree⟩
    exact (hread chunk hparse).of_commaFree hfree
  · rintro ⟨chunk, hparse⟩
    exact hread chunk hparse

/-- The tokens of `function f(a,) end`. -/
def commaAfterParameter : Tokens where
  list := [⟨.keyword .function_, ⟨1, 1⟩⟩, ⟨.name "f", ⟨1, 10⟩⟩, ⟨.symbol .openParen, ⟨1, 11⟩⟩,
    ⟨.name "a", ⟨1, 12⟩⟩, ⟨.symbol .comma, ⟨1, 13⟩⟩, ⟨.symbol .closeParen, ⟨1, 14⟩⟩,
    ⟨.keyword .end_, ⟨1, 16⟩⟩]
  finish := ⟨1, 19⟩

/-- A comma after the last parameter is read, and the documented grammar has no such program. -/
theorem commaAfterParameter_read :
    tokenize "function f(a,) end" = .ok commaAfterParameter ∧
      parse commaAfterParameter = .ok (.mk [.define "f" ["a"] (.mk [] none) ⟨1, 1⟩] none) ∧
      ¬ Derives false (.block false) (kindsOf commaAfterParameter.list) := by
  refine ⟨by cbv, rfl, fun hderives => ?_⟩
  have hfree := hderives.tidy.free
  have hcomma : CommaFree [.symbol .comma, .symbol .closeParen, .keyword .end_] :=
    hfree.tail.tail.tail.tail
  exact absurd rfl (hcomma.rel rfl)

end TableScript
