import TableScript.Proofs.Syntax.Follow
import TableScript.Proofs.Syntax.Soundness.Programs

/-!
# Written expressions are read

Tokens that write a phrase, in front of anything that may come after the phrase, are taken by its
reader, which gives the phrase and leaves the rest.  The steps suffice: sixteen for each token and
an allowance for the phrase, because a reader that calls another without having taken a token calls
one with a smaller allowance.

There is one statement for each rule of `Written`, here for those of expressions and their parts.
-/

namespace TableScript

/-- The steps that a phrase needs beyond sixteen for each of its tokens. -/
def Phrase.allowance : Phrase → Nat
  | .primary _ => 2
  | .expression level _ => 11 - level.rank
  | .expressionList _ | .field _ => 12
  | .fields _ => 13
  | .statement _ _ => 2
  | .statements _ _ => 3
  | .block _ _ => 4
  | _ => 1

/-- The reader of the phrase finds it in the tokens, whatever may come after it. -/
def Phrase.ReadableIn (tokens : List Token) (phrase : Phrase) : Prop :=
  ∀ (steps : Nat) (rest : List Token), 16 * tokens.length + phrase.allowance ≤ steps →
    phrase.Follow (firstKind? rest) → phrase.ReadBy steps (tokens ++ rest) rest

theorem Phrase.allowance_le (phrase : Phrase) : 0 < phrase.allowance ∧ phrase.allowance ≤ 13 := by
  cases phrase with
  | expression level value =>
      have hrank := level.rank_le
      simp only [Phrase.allowance]
      omega
  | _ => simp [Phrase.allowance]

namespace Phrase.ReadableIn

variable {phrase : Phrase} {tokens : List Token}

/-- A reader that spends a step. -/
theorem of_succ (hsucc : ∀ (steps : Nat) (rest : List Token),
      16 * tokens.length + (phrase.allowance - 1) ≤ steps → phrase.Follow (firstKind? rest) →
        phrase.ReadBy (steps + 1) (tokens ++ rest) rest) : phrase.ReadableIn tokens := by
  intro steps rest hsteps hfollow
  have hallowance := phrase.allowance_le
  cases steps with
  | zero => omega
  | succ steps => exact hsucc steps rest (by omega) hfollow

/-- Where a token more was taken, the steps left are enough for any phrase. -/
theorem of_shorter (hreadable : phrase.ReadableIn tokens) {whole : List Token} {extra steps : Nat}
    (hsteps : 16 * whole.length + extra ≤ steps) (rest : List Token)
    (hshorter : tokens.length < whole.length) (hfollow : phrase.Follow (firstKind? rest)) :
    phrase.ReadBy steps (tokens ++ rest) rest := by
  have hallowance := phrase.allowance_le
  exact hreadable steps rest (by omega) hfollow

end Phrase.ReadableIn

namespace Parser

open Reader Phrase.ReadableIn

variable {tokens before after : List Token}

/-! ## Expressions -/

theorem readable_literal {token : Token} {value : Expression}
    (hliteral : token.literal? = some value) : (Phrase.primary value).ReadableIn [token] := by
  refine of_succ fun steps rest _ _ => ?_
  obtain ⟨kind, place⟩ := token
  cases kind with
  | keyword word => cases word <;> first | (cases hliteral; rfl) | cases hliteral
  | symbol mark => cases hliteral
  | name text => cases hliteral
  | _ => cases hliteral; rfl

theorem readable_parenthesized {inner : Expression} {opening closing : Position}
    (hinner : (Phrase.expression .disjunction inner).ReadableIn tokens) :
    (Phrase.primary (.parenthesized inner opening)).ReadableIn
      (⟨.symbol .openParen, opening⟩ :: (tokens ++ [⟨.symbol .closeParen, closing⟩])) := by
  refine of_succ fun steps rest hsteps _ => ?_
  have hread := hinner.of_shorter hsteps (⟨.symbol .closeParen, closing⟩ :: rest)
    (by grind) (Token.stops rfl _)
  change primary (steps + 1) _ = _
  simp only [List.cons_append, List.append_assoc, List.nil_append]
  rw [primary]
  simp only [bind_eq_accepted, expect_eq_accepted, pure_eq_accepted]
  exact ⟨inner, _, hread, closing, rest, rfl, rfl, rfl⟩

theorem readable_table {fields : List Field} {opening closing : Position}
    (hfields : (Phrase.fields fields).ReadableIn tokens) :
    (Phrase.primary (.table fields opening)).ReadableIn
      (⟨.symbol .openBrace, opening⟩ :: (tokens ++ [⟨.symbol .closeBrace, closing⟩])) := by
  refine of_succ fun steps rest hsteps _ => ?_
  have hread := hfields.of_shorter hsteps (⟨.symbol .closeBrace, closing⟩ :: rest) (by grind) rfl
  change primary (steps + 1) _ = _
  simp only [List.cons_append, List.append_assoc, List.nil_append]
  rw [primary]
  simp only [bind_eq_accepted, expect_eq_accepted, pure_eq_accepted]
  exact ⟨fields, _, hread, closing, rest, rfl, rfl, rfl⟩

theorem readable_invoke {value : Invocation} (hwritten : Written (.invocation value) tokens)
    (hinvocation : (Phrase.invocation value).ReadableIn tokens) :
    (Phrase.primary (.invoke value)).ReadableIn tokens := by
  refine of_succ fun steps rest hsteps _ => ?_
  have hread := hinvocation steps rest hsteps trivial
  obtain ⟨name, place, others, htokens, hbegins⟩ := hwritten.beginsInvocation rest
  change invocation steps _ = _ at hread
  change primary (steps + 1) _ = _
  rw [htokens] at hread hbegins ⊢
  rw [primary]
  simp only [hbegins, if_true, bind_eq_accepted, pure_eq_accepted]
  exact ⟨value, rest, hread, rfl, rfl⟩

theorem readable_variable {name : String} {keys : List Expression} {place : Position}
    (hwritten : Written (.path keys) tokens) (hpath : (Phrase.path keys).ReadableIn tokens) :
    (Phrase.primary (.variable name keys place)).ReadableIn (⟨.name name, place⟩ :: tokens) := by
  refine of_succ fun steps rest hsteps hfollow => ?_
  have hread := hpath.of_shorter hsteps rest (by grind) hfollow
  have hbegins := hwritten.beginsInvocation_eq_false name place hfollow
  change primary (steps + 1) _ = _
  simp only [List.cons_append]
  rw [primary]
  simp only [hbegins, Bool.false_eq_true, if_false, bind_eq_accepted, pure_eq_accepted]
  exact ⟨keys, rest, hread, rfl, rfl⟩

theorem readable_atPrimary {value : Expression}
    (hvalue : (Phrase.primary value).ReadableIn tokens) :
    (Phrase.expression .primary value).ReadableIn tokens :=
  of_succ fun steps rest hsteps hfollow => hvalue steps rest hsteps hfollow

theorem readable_power {base exponent : Expression} {place : Position}
    (hbase : (Phrase.expression .primary base).ReadableIn before)
    (hexponent : (Phrase.expression .unary exponent).ReadableIn after) :
    (Phrase.expression .power (.binary .power base exponent place)).ReadableIn
      (before ++ ⟨BinaryOperator.power.token, place⟩ :: after) := by
  refine of_succ fun steps rest hsteps hfollow => ?_
  have hstops : Level.primary.Stops (some BinaryOperator.power.token) :=
    BinaryOperator.stops (by decide)
  have readBase := hbase.of_shorter hsteps (⟨BinaryOperator.power.token, place⟩ :: (after ++ rest))
    (by grind) hstops
  have readExponent := hexponent.of_shorter hsteps rest (by grind) hfollow.unary_of_power
  change expressionAt (steps + 1) _ _ = _
  simp only [List.cons_append, List.append_assoc]
  rw [expressionAt]
  simp only [bind_eq_accepted]
  refine ⟨base, _, readBase, some (.power, place), after ++ rest,
    acceptMap_eq_some.mpr ⟨_, rfl, rfl⟩, ?_⟩
  simp only [bind_eq_accepted, pure_eq_accepted]
  exact ⟨exponent, rest, readExponent, rfl, rfl⟩

theorem readable_unary {operator : UnaryOperator} {operand : Expression} {place : Position}
    (hoperand : (Phrase.expression .unary operand).ReadableIn tokens) :
    (Phrase.expression .unary (.unary operator operand place)).ReadableIn
      (⟨operator.token, place⟩ :: tokens) := by
  refine of_succ fun steps rest hsteps hfollow => ?_
  have readOperand := hoperand.of_shorter hsteps rest (by grind) hfollow
  change expressionAt (steps + 1) _ _ = _
  simp only [List.cons_append]
  rw [expressionAt]
  simp only [bind_eq_accepted]
  refine ⟨some (operator, place), tokens ++ rest,
    acceptMap_eq_some.mpr ⟨_, rfl, unaryOperator?_eq_some.mpr rfl⟩, ?_⟩
  simp only [bind_eq_accepted, pure_eq_accepted]
  exact ⟨operand, rest, readOperand, rfl, rfl⟩

theorem readable_concatenation {left right : Expression} {place : Position}
    (hleft : (Phrase.expression .additive left).ReadableIn before)
    (hright : (Phrase.expression .concatenation right).ReadableIn after) :
    (Phrase.expression .concatenation (.binary .concat left right place)).ReadableIn
      (before ++ ⟨BinaryOperator.concat.token, place⟩ :: after) := by
  refine of_succ fun steps rest hsteps hfollow => ?_
  have hstops : Level.additive.Stops (some BinaryOperator.concat.token) :=
    BinaryOperator.stops (by decide)
  have readLeft := hleft.of_shorter hsteps (⟨BinaryOperator.concat.token, place⟩ :: (after ++ rest))
    (by grind) hstops
  have readRight := hright.of_shorter hsteps rest (by grind) hfollow
  change expressionAt (steps + 1) _ _ = _
  simp only [List.cons_append, List.append_assoc]
  rw [expressionAt]
  simp only [bind_eq_accepted]
  refine ⟨left, _, readLeft, some (.concat, place), after ++ rest,
    acceptMap_eq_some.mpr ⟨_, rfl, rfl⟩, ?_⟩
  simp only [bind_eq_accepted, pure_eq_accepted]
  exact ⟨right, rest, readRight, rfl, rfl⟩

/-- An expression without an operator of the level is read by way of the next level. -/
theorem readable_tighter {level : Level} {value : Expression}
    (hright : level.associatesLeft = false) (hprimary : level ≠ .primary)
    (hwritten : Written (.expression level.next value) tokens)
    (hvalue : (Phrase.expression level.next value).ReadableIn tokens) :
    (Phrase.expression level value).ReadableIn tokens := by
  refine of_succ fun steps rest hsteps hfollow => ?_
  -- the next level is read with one step less, which is why deeper levels are allowed fewer
  have hrank := Level.rank_next hprimary
  have readValue := hvalue steps rest
    (by simp only [Phrase.allowance] at hsteps ⊢; omega) hfollow.next_level
  have hnone := hfollow.binaryOperator?_eq_none
  cases level with
  | concatenation =>
      change expressionAt (steps + 1) _ _ = _
      rw [expressionAt]
      simp only [bind_eq_accepted]
      exact ⟨value, rest, readValue, none, rest, acceptMap_eq_none.mpr ⟨rfl, hnone⟩, rfl⟩
  | power =>
      change expressionAt (steps + 1) _ _ = _
      rw [expressionAt]
      simp only [bind_eq_accepted]
      exact ⟨value, rest, readValue, none, rest, acceptMap_eq_none.mpr ⟨rfl, hnone⟩, rfl⟩
  | unary =>
      -- what begins at the next level begins with no unary operator, or it would be read as one
      -- here
      have hbegins := Token.unaryOperator?_eq_none_of_beginsPrimary (hwritten.first rest)
      change expressionAt (steps + 1) _ _ = _
      rw [expressionAt]
      simp only [bind_eq_accepted]
      exact ⟨none, tokens ++ rest, acceptMap_eq_none.mpr ⟨rfl, hbegins⟩, readValue⟩
  | _ => contradiction

theorem readable_chained {level : Level} {first value : Expression}
    (hleft : level.associatesLeft = true) (hwritten : Written (.expression level.next first) before)
    (hcontinuation : Written (.continuation level first value) after)
    (hfirst : (Phrase.expression level.next first).ReadableIn before)
    (hrest : (Phrase.continuation level first value).ReadableIn after) :
    (Phrase.expression level value).ReadableIn (before ++ after) := by
  refine of_succ fun steps rest hsteps hfollow => ?_
  have hprimary : level ≠ .primary := by
    rintro rfl
    cases hleft
  have hrank := Level.rank_next hprimary
  have hpos := hwritten.length_expression_pos
  -- the first operand stops at the operator that goes on, or at what follows the whole
  have readFirst := hfirst steps (after ++ rest)
    (by simp only [Phrase.allowance, List.length_append] at hsteps ⊢; omega)
    (hcontinuation.stops_next hprimary hfollow)
  have readRest := hrest.of_shorter hsteps rest (by grind) hfollow
  change expressionAt (steps + 1) _ _ = _
  simp only [List.append_assoc]
  rw [expressionAt_associatesLeft hleft]
  simp only [bind_eq_accepted]
  exact ⟨first, after ++ rest, readFirst, readRest⟩

theorem readable_continuation_end {level : Level} {value : Expression} :
    (Phrase.continuation level value value).ReadableIn [] := by
  refine of_succ fun steps rest hsteps hfollow => ?_
  change chain (steps + 1) _ _ _ = _
  simp only [List.nil_append]
  rw [chain]
  simp only [bind_eq_accepted]
  exact ⟨none, rest, acceptMap_eq_none.mpr ⟨rfl, hfollow.binaryOperator?_eq_none⟩, rfl⟩

theorem readable_continuation_operator {level : Level} {operator : BinaryOperator}
    {left right value : Expression} {place : Position} (hlevel : operator.level = level)
    (hcontinuation : Written (.continuation level (.binary operator left right place) value) after)
    (hright : (Phrase.expression level.next right).ReadableIn before)
    (hrest :
      (Phrase.continuation level (.binary operator left right place) value).ReadableIn after) :
    (Phrase.continuation level left value).ReadableIn
      (⟨operator.token, place⟩ :: (before ++ after)) := by
  refine of_succ fun steps rest hsteps hfollow => ?_
  -- no operator is of the level of operands
  have hprimary : level ≠ .primary := by
    rintro rfl
    cases operator <;> cases hlevel
  have readRight := hright.of_shorter hsteps (after ++ rest) (by grind)
    (hcontinuation.stops_next hprimary hfollow)
  have readRest := hrest.of_shorter hsteps rest (by grind) hfollow
  change chain (steps + 1) _ _ _ = _
  simp only [List.cons_append, List.append_assoc]
  rw [chain]
  simp only [bind_eq_accepted]
  refine ⟨some (operator, place), before ++ (after ++ rest),
    acceptMap_eq_some.mpr ⟨_, rfl, Level.binaryOperator?_eq_some.mpr ⟨hlevel, rfl⟩⟩, ?_⟩
  simp only [bind_eq_accepted]
  exact ⟨right, after ++ rest, readRight, readRest⟩

/-! ## The parts of expressions -/

theorem readable_path_end : (Phrase.path []).ReadableIn [] := by
  refine of_succ fun steps rest hsteps hfollow => ?_
  change indexPath (steps + 1) _ = _
  simp only [List.nil_append]
  rw [indexPath]
  dsimp only
  -- what may follow a path goes on with neither a point nor a bracket
  split
  · exact absurd rfl hfollow.dot
  · exact absurd rfl hfollow.openBracket
  · rfl

theorem readable_path_name {field : String} {keys : List Expression} {dot place : Position}
    (hpath : (Phrase.path keys).ReadableIn tokens) :
    (Phrase.path (.string field place :: keys)).ReadableIn
      (⟨.symbol .dot, dot⟩ :: ⟨.name field, place⟩ :: tokens) := by
  refine of_succ fun steps rest hsteps hfollow => ?_
  have readPath := hpath.of_shorter hsteps rest (by grind) hfollow
  change indexPath (steps + 1) _ = _
  simp only [List.cons_append]
  rw [indexPath]
  simp only [bind_eq_accepted, expectName_eq_accepted, pure_eq_accepted]
  exact ⟨(field, place), tokens ++ rest, rfl, keys, rest, readPath, rfl, rfl⟩

theorem readable_path_key {key : Expression} {keys : List Expression} {opening closing : Position}
    (hkey : (Phrase.expression .disjunction key).ReadableIn before)
    (hpath : (Phrase.path keys).ReadableIn after) :
    (Phrase.path (key :: keys)).ReadableIn (⟨.symbol .openBracket, opening⟩ ::
      (before ++ ⟨.symbol .closeBracket, closing⟩ :: after)) := by
  refine of_succ fun steps rest hsteps hfollow => ?_
  have readKey := hkey.of_shorter hsteps (⟨.symbol .closeBracket, closing⟩ :: (after ++ rest))
    (by grind) (Token.stops rfl _)
  have readPath := hpath.of_shorter hsteps rest (by grind) hfollow
  change indexPath (steps + 1) _ = _
  simp only [List.cons_append, List.append_assoc]
  rw [indexPath]
  simp only [bind_eq_accepted, expect_eq_accepted, pure_eq_accepted]
  exact ⟨key, _, readKey, closing, _, rfl, keys, rest, readPath, rfl, rfl⟩

theorem readable_expressionList_last {value : Expression}
    (hvalue : (Phrase.expression .disjunction value).ReadableIn tokens) :
    (Phrase.expressionList [value]).ReadableIn tokens := by
  refine of_succ fun steps rest hsteps hfollow => ?_
  have readValue := hvalue steps rest hsteps hfollow.1
  change expressionList (steps + 1) _ = _
  rw [expressionList]
  simp only [bind_eq_accepted]
  exact ⟨value, rest, readValue, false, rest, accept_eq_false.mpr ⟨rfl, hfollow.2⟩, rfl⟩

theorem readable_expressionList_more {value : Expression} {values : List Expression}
    {comma : Position} (hvalue : (Phrase.expression .disjunction value).ReadableIn before)
    (hvalues : (Phrase.expressionList values).ReadableIn after) :
    (Phrase.expressionList (value :: values)).ReadableIn
      (before ++ ⟨.symbol .comma, comma⟩ :: after) := by
  refine of_succ fun steps rest hsteps hfollow => ?_
  have readValue := hvalue.of_shorter hsteps (⟨.symbol .comma, comma⟩ :: (after ++ rest)) (by grind)
    (Token.stops rfl _)
  have readValues := hvalues.of_shorter hsteps rest (by grind) hfollow
  change expressionList (steps + 1) _ = _
  simp only [List.cons_append, List.append_assoc]
  rw [expressionList]
  simp only [bind_eq_accepted]
  refine ⟨value, _, readValue, true, after ++ rest, accept_eq_true.mpr ⟨comma, rfl⟩, ?_⟩
  simp only [if_true, bind_eq_accepted, pure_eq_accepted]
  exact ⟨values, rest, readValues, rfl, rfl⟩

theorem readable_fields_end : (Phrase.fields []).ReadableIn [] := by
  refine of_succ fun steps rest hsteps hfollow => ?_
  change fieldList (steps + 1) _ = _
  simp only [List.nil_append]
  rw [fieldList]
  simp only [bind_eq_accepted, peek?_eq_accepted]
  exact ⟨_, rest, ⟨hfollow, rfl⟩, rfl⟩

/-- A field is not taken for the end of its table. -/
theorem fieldList_eq_accepted {steps : Nat} {first : Field} {values : List Field}
    {taken middle rest : List Token} (hwritten : Written (.field first) taken)
    (hread : field steps (taken ++ middle) = .accepted first middle)
    (hmore : (do
      if ← accept (.symbol .comma) then
        let rest ← fieldList steps
        pure (first :: rest)
      else if ← accept (.symbol .semicolon) then
        let rest ← fieldList steps
        pure (first :: rest)
      else pure [first] : Reader (List Field)) middle = .accepted values rest) :
    fieldList (steps + 1) (taken ++ middle) = .accepted values rest := by
  have hfirst := hwritten.first middle
  rw [fieldList]
  simp only [bind_eq_accepted, peek?_eq_accepted]
  refine ⟨_, taken ++ middle, ⟨rfl, rfl⟩, ?_⟩
  -- the end of a table is a brace or the end of the text, and no field begins like that
  generalize firstKind? (taken ++ middle) = next at hfirst
  split
  · rcases hfirst with hbegins | hbracket
    · cases hbegins
    · cases hbracket
  · rcases hfirst with hbegins | hbracket
    · cases hbegins
    · cases hbracket
  · exact bind_eq_accepted.mpr ⟨first, middle, hread, hmore⟩

theorem readable_fields_last {value : Field} (hwritten : Written (.field value) tokens)
    (hfield : (Phrase.field value).ReadableIn tokens) :
    (Phrase.fields [value]).ReadableIn tokens := by
  refine of_succ fun steps rest hsteps hfollow => ?_
  have readField := hfield steps rest hsteps (.inr (.inr hfollow))
  refine fieldList_eq_accepted hwritten readField ?_
  -- only the brace may follow the last field, so neither separator is found
  have hcomma : firstKind? rest ≠ some (.symbol .comma) := by
    rw [hfollow]
    decide
  have hsemicolon : firstKind? rest ≠ some (.symbol .semicolon) := by
    rw [hfollow]
    decide
  simp only [bind_eq_accepted]
  refine ⟨false, rest, accept_eq_false.mpr ⟨rfl, hcomma⟩, ?_⟩
  simp only [Bool.false_eq_true, if_false, bind_eq_accepted]
  exact ⟨false, rest, accept_eq_false.mpr ⟨rfl, hsemicolon⟩, rfl⟩

theorem readable_fields_more {value : Field} {values : List Field} {separator : Symbol}
    {place : Position} (hseparator : separator = .comma ∨ separator = .semicolon)
    (hwritten : Written (.field value) before) (hfield : (Phrase.field value).ReadableIn before)
    (hfields : (Phrase.fields values).ReadableIn after) :
    (Phrase.fields (value :: values)).ReadableIn
      (before ++ ⟨.symbol separator, place⟩ :: after) := by
  refine of_succ fun steps rest hsteps hfollow => ?_
  have hfieldFollow : (Phrase.field value).Follow (some (.symbol separator)) := by
    rcases hseparator with rfl | rfl
    · exact .inl rfl
    · exact .inr (.inl rfl)
  have readField := hfield.of_shorter hsteps (⟨.symbol separator, place⟩ :: (after ++ rest))
    (by grind) hfieldFollow
  have readFields := hfields.of_shorter hsteps rest (by grind) hfollow
  change fieldList (steps + 1) _ = _
  simp only [List.cons_append, List.append_assoc]
  refine fieldList_eq_accepted hwritten readField ?_
  -- a comma is looked for first, and a semicolon only where none is found
  simp only [bind_eq_accepted]
  rcases hseparator with rfl | rfl
  · refine ⟨true, after ++ rest, accept_eq_true.mpr ⟨place, rfl⟩, ?_⟩
    simp only [if_true, bind_eq_accepted, pure_eq_accepted]
    exact ⟨values, rest, readFields, rfl, rfl⟩
  · refine ⟨false, ⟨.symbol .semicolon, place⟩ :: (after ++ rest),
      accept_eq_false.mpr ⟨rfl, by simp⟩, ?_⟩
    simp only [Bool.false_eq_true, if_false, bind_eq_accepted]
    refine ⟨true, after ++ rest, accept_eq_true.mpr ⟨place, rfl⟩, ?_⟩
    simp only [if_true, bind_eq_accepted, pure_eq_accepted]
    exact ⟨values, rest, readFields, rfl, rfl⟩

theorem stops_of_field_follow {value : Field} {next : Option Token.Kind}
    (hfollow : (Phrase.field value).Follow next) : Level.disjunction.Stops next := by
  rcases hfollow with rfl | rfl | rfl
  all_goals exact Token.stops rfl _

theorem readable_field_named {name : String} {value : Expression} {place assign : Position}
    (hvalue : (Phrase.expression .disjunction value).ReadableIn tokens) :
    (Phrase.field (.keyed (.string name place) value)).ReadableIn
      (⟨.name name, place⟩ :: ⟨.symbol .assign, assign⟩ :: tokens) := by
  refine of_succ fun steps rest hsteps hfollow => ?_
  have readValue := hvalue.of_shorter hsteps rest (by grind) (stops_of_field_follow hfollow)
  change field (steps + 1) _ = _
  simp only [List.cons_append]
  rw [field]
  simp only [bind_eq_accepted, pure_eq_accepted]
  exact ⟨value, rest, readValue, rfl, rfl⟩

theorem readable_field_keyed {key value : Expression} {opening closing assign : Position}
    (hkey : (Phrase.expression .disjunction key).ReadableIn before)
    (hvalue : (Phrase.expression .disjunction value).ReadableIn after) :
    (Phrase.field (.keyed key value)).ReadableIn (⟨.symbol .openBracket, opening⟩ ::
      (before ++ ⟨.symbol .closeBracket, closing⟩ :: ⟨.symbol .assign, assign⟩ :: after)) := by
  refine of_succ fun steps rest hsteps hfollow => ?_
  have readKey := hkey.of_shorter hsteps
    (⟨.symbol .closeBracket, closing⟩ :: ⟨.symbol .assign, assign⟩ :: (after ++ rest)) (by grind)
    (Token.stops rfl _)
  have readValue := hvalue.of_shorter hsteps rest (by grind) (stops_of_field_follow hfollow)
  change field (steps + 1) _ = _
  simp only [List.cons_append, List.append_assoc]
  rw [field]
  simp only [bind_eq_accepted, expect_eq_accepted, pure_eq_accepted]
  exact ⟨key, _, readKey, closing, _, rfl, assign, _, rfl, value, rest, readValue, rfl, rfl⟩

theorem readable_field_positional {value : Expression}
    (hwritten : Written (.expression .disjunction value) tokens)
    (hvalue : (Phrase.expression .disjunction value).ReadableIn tokens) :
    (Phrase.field (.positional value)).ReadableIn tokens := by
  refine of_succ fun steps rest hsteps hfollow => ?_
  have readValue := hvalue steps rest hsteps (stops_of_field_follow hfollow)
  -- a name with `=` behind it would be read as a key, so none may follow the value
  have hassign : firstKind? rest ≠ some (.symbol .assign) := by
    rcases hfollow with hnext | hnext | hnext
    all_goals
      rw [hnext]
      decide
  change field (steps + 1) _ = _
  rw [field]
  dsimp only
  split
  · -- an expression that begins with a bracket does not exist either
    next hshape => exact absurd hshape (hwritten.notNamed rest hassign _ _ _ _)
  · next hshape =>
      have hfirst := hwritten.first rest
      rw [hshape] at hfirst
      cases hfirst
  · simp only [bind_eq_accepted, pure_eq_accepted]
    exact ⟨value, rest, readValue, rfl, rfl⟩

theorem readable_call {name : String} {values : List Expression} {place opening : Position}
    (hname : name ≠ "print") (hvalues : (Phrase.arguments values).ReadableIn tokens) :
    (Phrase.invocation (.call name values place)).ReadableIn
      (⟨.name name, place⟩ :: ⟨.symbol .openParen, opening⟩ :: tokens) := by
  refine of_succ fun steps rest hsteps _ => ?_
  have readValues := hvalues.of_shorter hsteps rest (by grind) trivial
  change invocation (steps + 1) _ = _
  simp only [List.cons_append]
  rw [invocation]
  simp only [bind_eq_accepted, if_neg hname, pure_eq_accepted]
  exact ⟨values, rest, readValues, rfl, rfl⟩

theorem readable_print {values : List Expression} {place opening : Position}
    (hvalues : (Phrase.arguments values).ReadableIn tokens) :
    (Phrase.invocation (.print values place)).ReadableIn
      (⟨.name "print", place⟩ :: ⟨.symbol .openParen, opening⟩ :: tokens) := by
  refine of_succ fun steps rest hsteps _ => ?_
  have readValues := hvalues.of_shorter hsteps rest (by grind) trivial
  change invocation (steps + 1) _ = _
  simp only [List.cons_append]
  rw [invocation]
  simp only [bind_eq_accepted, if_true, pure_eq_accepted]
  exact ⟨values, rest, readValues, rfl, rfl⟩

theorem readable_read {format : Option Expression} {place dot name opening : Position}
    (hformat : (Phrase.format format).ReadableIn tokens) :
    (Phrase.invocation (.read format place)).ReadableIn
      (⟨.name "io", place⟩ :: ⟨.symbol .dot, dot⟩ :: ⟨.name "read", name⟩ ::
        ⟨.symbol .openParen, opening⟩ :: tokens) := by
  refine of_succ fun steps rest hsteps _ => ?_
  have readValue := hformat.of_shorter hsteps rest (by grind) trivial
  have hafter : afterReadCall? (⟨.name "io", place⟩ :: ⟨.symbol .dot, dot⟩ ::
      ⟨.name "read", name⟩ :: ⟨.symbol .openParen, opening⟩ :: (tokens ++ rest)) =
        some (tokens ++ rest) :=
    afterReadCall?_eq_some.mpr ⟨place, dot, name, opening, rfl⟩
  change invocation (steps + 1) _ = _
  simp only [List.cons_append]
  rw [invocation]
  simp only [hafter, bind_eq_accepted, pure_eq_accepted]
  exact ⟨format, rest, readValue, rfl, rfl⟩

theorem readable_arguments_none {closing : Position} :
    (Phrase.arguments []).ReadableIn [⟨.symbol .closeParen, closing⟩] := by
  refine of_succ fun steps rest _ _ => ?_
  change argumentList (steps + 1) _ = _
  simp only [List.cons_append, List.nil_append]
  rw [argumentList]
  simp only [bind_eq_accepted]
  exact ⟨true, rest, accept_eq_true.mpr ⟨closing, rfl⟩, rfl⟩

/-- An expression does not begin with the parenthesis that would close an empty list. -/
theorem ne_closeParen {next : Option Token.Kind} (hbegins : Token.beginsExpression next = true) :
    next ≠ some (.symbol .closeParen) := by
  rintro rfl
  cases hbegins

theorem readable_arguments_some {values : List Expression} {closing : Position}
    (hwritten : Written (.expressionList values) tokens)
    (hvalues : (Phrase.expressionList values).ReadableIn tokens) :
    (Phrase.arguments values).ReadableIn (tokens ++ [⟨.symbol .closeParen, closing⟩]) := by
  refine of_succ fun steps rest hsteps _ => ?_
  have readValues := hvalues.of_shorter hsteps (⟨.symbol .closeParen, closing⟩ :: rest) (by grind)
    ⟨Token.stops rfl _, by simp⟩
  have hbegins : Token.beginsExpression
      (firstKind? (tokens ++ ⟨.symbol .closeParen, closing⟩ :: rest)) = true := hwritten.first _
  change argumentList (steps + 1) _ = _
  simp only [List.cons_append, List.append_assoc, List.nil_append]
  rw [argumentList]
  simp only [bind_eq_accepted]
  refine ⟨false, _, accept_eq_false.mpr ⟨rfl, ne_closeParen hbegins⟩, ?_⟩
  simp only [Bool.false_eq_true, if_false, bind_eq_accepted, expect_eq_accepted, pure_eq_accepted]
  exact ⟨values, _, readValues, closing, rest, rfl, rfl, rfl⟩

theorem readable_format_none {closing : Position} :
    (Phrase.format none).ReadableIn [⟨.symbol .closeParen, closing⟩] := by
  refine of_succ fun steps rest _ _ => ?_
  change readFormat (steps + 1) _ = _
  simp only [List.cons_append, List.nil_append]
  rw [readFormat]
  simp only [bind_eq_accepted]
  exact ⟨true, rest, accept_eq_true.mpr ⟨closing, rfl⟩, rfl⟩

theorem readable_format_some {value : Expression} {closing : Position}
    (hwritten : Written (.expression .disjunction value) tokens)
    (hvalue : (Phrase.expression .disjunction value).ReadableIn tokens) :
    (Phrase.format (some value)).ReadableIn (tokens ++ [⟨.symbol .closeParen, closing⟩]) := by
  refine of_succ fun steps rest hsteps _ => ?_
  have readValue := hvalue.of_shorter hsteps (⟨.symbol .closeParen, closing⟩ :: rest) (by grind)
    (Token.stops rfl _)
  have hbegins : Token.beginsExpression
      (firstKind? (tokens ++ ⟨.symbol .closeParen, closing⟩ :: rest)) = true := hwritten.first _
  change readFormat (steps + 1) _ = _
  simp only [List.cons_append, List.append_assoc, List.nil_append]
  rw [readFormat]
  simp only [bind_eq_accepted]
  refine ⟨false, _, accept_eq_false.mpr ⟨rfl, ne_closeParen hbegins⟩, ?_⟩
  simp only [Bool.false_eq_true, if_false, bind_eq_accepted, expect_eq_accepted, pure_eq_accepted]
  exact ⟨value, _, readValue, closing, rest, rfl, rfl, rfl⟩

end Parser

end TableScript
