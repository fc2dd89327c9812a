import TableScript.Proofs.Syntax.Completeness.Programs
import TableScript.Proofs.Syntax.Layout.Programs
import TableScript.Proofs.Syntax.Precedence

/-!
# The grammar of the language

`Derives` is the documented grammar, rule by rule, over the kinds of tokens.  Its expressions are
ambiguous, and so leave open how operators group.  Whether a `break` may stand in a block is a flag
of the rules, set by the body of a loop and cleared by the body of a function; that `return` comes
last is a rule for blocks.

The readers accept a little more than the grammar: a comma after the last parameter of a function.
With the flag `trailing` the grammar has that rule too.  Whatever is written is then derived, and
whatever is derived, with the extra rule or without, is written by some phrase and so is read.
-/

namespace TableScript

/-! ## The rules -/

/-- The names of the rules.  The flag says whether the body of a loop of the same function surrounds
what is derived. -/
inductive Rule where
  | block (inLoop : Bool)
  | statements (inLoop : Bool)
  | statement (inLoop : Bool)
  /-- Between `if` and `end`. -/
  | branches (inLoop : Bool)
  /-- Between the limit of a counting loop and its `do`. -/
  | step
  | result
  | «variable»
  /-- After the name of a variable. -/
  | suffixes
  | expressionList
  /-- Between the parentheses of a call. -/
  | arguments
  /-- Between the parentheses of a reading of input. -/
  | format
  | invocation
  /-- Between the braces of a table. -/
  | fields
  | fieldList
  | field
  | expression
  deriving DecidableEq

/-- Names with commas between them. -/
def namesWithCommas (names : List String) : List Token.Kind :=
  (names.map Token.Kind.name).intersperse (.symbol .comma)

/-- The sequences of tokens that a rule derives.  The flag `trailing` allows a comma after the last
parameter of a function. -/
inductive Derives (trailing : Bool) : Rule → List Token.Kind → Prop
  -- `block := stat* retstat?`
  | block_open {inLoop : Bool} {kinds : List Token.Kind}
      (hstatements : Derives trailing (.statements inLoop) kinds) :
      Derives trailing (.block inLoop) kinds
  | block_result {inLoop : Bool} {before after : List Token.Kind}
      (hstatements : Derives trailing (.statements inLoop) before)
      (hresult : Derives trailing .result after) :
      Derives trailing (.block inLoop) (before ++ after)
  | statements_none {inLoop : Bool} : Derives trailing (.statements inLoop) []
  | statements_more {inLoop : Bool} {before after : List Token.Kind}
      (hstatement : Derives trailing (.statement inLoop) before)
      (hstatements : Derives trailing (.statements inLoop) after) :
      Derives trailing (.statements inLoop) (before ++ after)
  -- `retstat := 'return' explist? ';'?`
  | result_none {ending : List Token.Kind} (hending : ending = [] ∨ ending = [.symbol .semicolon]) :
      Derives trailing .result (.keyword .return_ :: ending)
  | result_some {kinds ending : List Token.Kind}
      (hending : ending = [] ∨ ending = [.symbol .semicolon])
      (hvalues : Derives trailing .expressionList kinds) :
      Derives trailing .result (.keyword .return_ :: (kinds ++ ending))
  -- `stat`
  | empty {inLoop : Bool} : Derives trailing (.statement inLoop) [.symbol .semicolon]
  | break_ : Derives trailing (.statement true) [.keyword .break_]
  | assign {inLoop : Bool} {before after : List Token.Kind}
      (hvariable : Derives trailing .variable before)
      (hvalue : Derives trailing .expression after) :
      Derives trailing (.statement inLoop) (before ++ .symbol .assign :: after)
  | declare {inLoop : Bool} {name : String} {kinds : List Token.Kind}
      (hvalue : Derives trailing .expression kinds) :
      Derives trailing (.statement inLoop)
        (.keyword .local_ :: .name name :: .symbol .assign :: kinds)
  | choose {inLoop : Bool} {kinds : List Token.Kind}
      (hbranches : Derives trailing (.branches inLoop) kinds) :
      Derives trailing (.statement inLoop) (.keyword .if_ :: (kinds ++ [.keyword .end_]))
  | define {inLoop : Bool} {name : String} {parameters : List String} {kinds : List Token.Kind}
      (hbody : Derives trailing (.block false) kinds) :
      Derives trailing (.statement inLoop)
        (.keyword .function_ :: .name name :: .symbol .openParen ::
          (namesWithCommas parameters ++ .symbol .closeParen :: (kinds ++ [.keyword .end_])))
  | define_trailing {inLoop : Bool} {name : String} {parameters : List String}
      {kinds : List Token.Kind} (htrailing : trailing = true) (hparameters : parameters ≠ [])
      (hbody : Derives trailing (.block false) kinds) :
      Derives trailing (.statement inLoop)
        (.keyword .function_ :: .name name :: .symbol .openParen ::
          (namesWithCommas parameters ++ .symbol .comma :: .symbol .closeParen ::
            (kinds ++ [.keyword .end_])))
  | while_ {inLoop : Bool} {before after : List Token.Kind}
      (hcondition : Derives trailing .expression before)
      (hbody : Derives trailing (.block true) after) :
      Derives trailing (.statement inLoop)
        (.keyword .while_ :: (before ++ .keyword .do_ :: (after ++ [.keyword .end_])))
  | repeat_ {inLoop : Bool} {before after : List Token.Kind}
      (hbody : Derives trailing (.block true) before)
      (hcondition : Derives trailing .expression after) :
      Derives trailing (.statement inLoop)
        (.keyword .repeat_ :: (before ++ .keyword .until_ :: after))
  | for_ {inLoop : Bool} {name : String} {first second third last : List Token.Kind}
      (hstart : Derives trailing .expression first) (hlimit : Derives trailing .expression second)
      (hstep : Derives trailing .step third) (hbody : Derives trailing (.block true) last) :
      Derives trailing (.statement inLoop)
        (.keyword .for_ :: .name name :: .symbol .assign :: (first ++ .symbol .comma ::
          (second ++ (third ++ .keyword .do_ :: (last ++ [.keyword .end_])))))
  | do_ {inLoop : Bool} {kinds : List Token.Kind} (hbody : Derives trailing (.block inLoop) kinds) :
      Derives trailing (.statement inLoop) (.keyword .do_ :: (kinds ++ [.keyword .end_]))
  | perform {inLoop : Bool} {kinds : List Token.Kind}
      (hinvocation : Derives trailing .invocation kinds) :
      Derives trailing (.statement inLoop) kinds
  | branches_last {inLoop : Bool} {before after : List Token.Kind}
      (hcondition : Derives trailing .expression before)
      (hbody : Derives trailing (.block inLoop) after) :
      Derives trailing (.branches inLoop) (before ++ .keyword .then_ :: after)
  | branches_else {inLoop : Bool} {before middle after : List Token.Kind}
      (hcondition : Derives trailing .expression before)
      (hbody : Derives trailing (.block inLoop) middle)
      (hotherwise : Derives trailing (.block inLoop) after) :
      Derives trailing (.branches inLoop)
        (before ++ .keyword .then_ :: (middle ++ .keyword .else_ :: after))
  | branches_more {inLoop : Bool} {before middle after : List Token.Kind}
      (hcondition : Derives trailing .expression before)
      (hbody : Derives trailing (.block inLoop) middle)
      (hbranches : Derives trailing (.branches inLoop) after) :
      Derives trailing (.branches inLoop)
        (before ++ .keyword .then_ :: (middle ++ .keyword .elseif_ :: after))
  | step_none : Derives trailing .step []
  | step_some {kinds : List Token.Kind} (hvalue : Derives trailing .expression kinds) :
      Derives trailing .step (.symbol .comma :: kinds)
  -- `var := NAME ('.' NAME | '[' exp ']')*`
  | variable {name : String} {kinds : List Token.Kind}
      (hsuffixes : Derives trailing .suffixes kinds) :
      Derives trailing .variable (.name name :: kinds)
  | suffixes_none : Derives trailing .suffixes []
  | suffixes_name {name : String} {kinds : List Token.Kind}
      (hsuffixes : Derives trailing .suffixes kinds) :
      Derives trailing .suffixes (.symbol .dot :: .name name :: kinds)
  | suffixes_key {before after : List Token.Kind} (hkey : Derives trailing .expression before)
      (hsuffixes : Derives trailing .suffixes after) :
      Derives trailing .suffixes
        (.symbol .openBracket :: (before ++ .symbol .closeBracket :: after))
  -- `explist := exp (',' exp)*`
  | expressionList_last {kinds : List Token.Kind} (hvalue : Derives trailing .expression kinds) :
      Derives trailing .expressionList kinds
  | expressionList_more {before after : List Token.Kind}
      (hvalue : Derives trailing .expression before)
      (hvalues : Derives trailing .expressionList after) :
      Derives trailing .expressionList (before ++ .symbol .comma :: after)
  -- `call`, `printcall` and `readcall`
  | arguments_none : Derives trailing .arguments []
  | arguments_some {kinds : List Token.Kind} (hvalues : Derives trailing .expressionList kinds) :
      Derives trailing .arguments kinds
  | format_none : Derives trailing .format []
  | format_some {kinds : List Token.Kind} (hvalue : Derives trailing .expression kinds) :
      Derives trailing .format kinds
  | call {name : String} {kinds : List Token.Kind}
      (harguments : Derives trailing .arguments kinds) :
      Derives trailing .invocation
        (.name name :: .symbol .openParen :: (kinds ++ [.symbol .closeParen]))
  | print {kinds : List Token.Kind} (harguments : Derives trailing .arguments kinds) :
      Derives trailing .invocation
        (.name "print" :: .symbol .openParen :: (kinds ++ [.symbol .closeParen]))
  | read {kinds : List Token.Kind} (hformat : Derives trailing .format kinds) :
      Derives trailing .invocation
        (.name "io" :: .symbol .dot :: .name "read" :: .symbol .openParen ::
          (kinds ++ [.symbol .closeParen]))
  -- `table := '{' (field ((','|';') field)* (','|';')?)? '}'`
  | fields_none : Derives trailing .fields []
  | fields_some {kinds : List Token.Kind} (hfields : Derives trailing .fieldList kinds) :
      Derives trailing .fields kinds
  | fields_separator {kinds : List Token.Kind} {separator : Symbol}
      (hseparator : separator = .comma ∨ separator = .semicolon)
      (hfields : Derives trailing .fieldList kinds) :
      Derives trailing .fields (kinds ++ [.symbol separator])
  | fieldList_last {kinds : List Token.Kind} (hfield : Derives trailing .field kinds) :
      Derives trailing .fieldList kinds
  | fieldList_more {before after : List Token.Kind} {separator : Symbol}
      (hseparator : separator = .comma ∨ separator = .semicolon)
      (hfield : Derives trailing .field before) (hfields : Derives trailing .fieldList after) :
      Derives trailing .fieldList (before ++ .symbol separator :: after)
  -- `field := NAME '=' exp | '[' exp ']' '=' exp | exp`
  | field_named {name : String} {kinds : List Token.Kind}
      (hvalue : Derives trailing .expression kinds) :
      Derives trailing .field (.name name :: .symbol .assign :: kinds)
  | field_keyed {before after : List Token.Kind} (hkey : Derives trailing .expression before)
      (hvalue : Derives trailing .expression after) :
      Derives trailing .field (.symbol .openBracket ::
        (before ++ .symbol .closeBracket :: .symbol .assign :: after))
  | field_positional {kinds : List Token.Kind} (hvalue : Derives trailing .expression kinds) :
      Derives trailing .field kinds
  -- `exp`
  | literal {kind : Token.Kind} (hliteral : kind.isLiteral = true) :
      Derives trailing .expression [kind]
  | parenthesized {kinds : List Token.Kind} (hinner : Derives trailing .expression kinds) :
      Derives trailing .expression (.symbol .openParen :: (kinds ++ [.symbol .closeParen]))
  | table {kinds : List Token.Kind} (hfields : Derives trailing .fields kinds) :
      Derives trailing .expression (.symbol .openBrace :: (kinds ++ [.symbol .closeBrace]))
  | value {kinds : List Token.Kind} (hvariable : Derives trailing .variable kinds) :
      Derives trailing .expression kinds
  | invoke {kinds : List Token.Kind} (hinvocation : Derives trailing .invocation kinds) :
      Derives trailing .expression kinds
  | unary {operator : UnaryOperator} {kinds : List Token.Kind}
      (hoperand : Derives trailing .expression kinds) :
      Derives trailing .expression (operator.token :: kinds)
  | binary {operator : BinaryOperator} {before after : List Token.Kind}
      (hleft : Derives trailing .expression before)
      (hright : Derives trailing .expression after) :
      Derives trailing .expression (before ++ operator.token :: after)

/-! ## What is read is derived -/

@[simp] theorem namesWithCommas_nil : namesWithCommas [] = [] := rfl

@[simp] theorem namesWithCommas_singleton (name : String) :
    namesWithCommas [name] = [.name name] := rfl

@[simp] theorem namesWithCommas_cons_cons (name other : String) (names : List String) :
    namesWithCommas (name :: other :: names) =
      .name name :: .symbol .comma :: namesWithCommas (other :: names) := rfl

/-- The kinds derive from the rule of the phrase.  The phrases that take the closing parenthesis
have it beyond what their rule derives, and a continuation goes on with an expression. -/
def Phrase.DerivedFrom (kinds : List Token.Kind) : Phrase → Prop
  | .expression _ _ | .primary _ => Derives true .expression kinds
  | .continuation _ _ _ =>
    ∀ before, Derives true .expression before → Derives true .expression (before ++ kinds)
  | .path _ => Derives true .suffixes kinds
  | .expressionList _ => Derives true .expressionList kinds
  | .fields _ => Derives true .fields kinds
  | .field _ => Derives true .field kinds
  | .invocation _ => Derives true .invocation kinds
  | .arguments _ => ∃ inner, kinds = inner ++ [.symbol .closeParen] ∧ Derives true .arguments inner
  | .format _ => ∃ inner, kinds = inner ++ [.symbol .closeParen] ∧ Derives true .format inner
  | .parameters names => kinds = namesWithCommas names ∨
      names ≠ [] ∧ kinds = namesWithCommas names ++ [.symbol .comma]
  | .result _ => Derives true .result kinds
  | .step _ => Derives true .step kinds
  | .block inLoop _ => Derives true (.block inLoop) kinds
  | .statements inLoop _ => Derives true (.statements inLoop) kinds
  | .statement inLoop _ => Derives true (.statement inLoop) kinds
  | .branches inLoop _ _ => Derives true (.branches inLoop) kinds

theorem Token.isLiteral_of_literal? {token : Token} {value : Expression}
    (hliteral : token.literal? = some value) : token.kind.isLiteral = true := by
  obtain ⟨kind, place⟩ := token
  cases kind with
  | keyword word => cases word <;> first | rfl | cases hliteral
  | symbol mark => cases hliteral
  | name text => cases hliteral
  | _ => rfl

theorem kindsOf_ending {ending : List Token}
    (hending : ending = [] ∨ ∃ semicolon, ending = [⟨.symbol .semicolon, semicolon⟩]) :
    kindsOf ending = [] ∨ kindsOf ending = [.symbol .semicolon] := by
  rcases hending with rfl | ⟨semicolon, rfl⟩
  · exact .inl rfl
  · exact .inr rfl

/-- A field in front of what stands between the braces of a table. -/
theorem Derives.fields_cons {trailing : Bool} {before after : List Token.Kind} {separator : Symbol}
    (hseparator : separator = .comma ∨ separator = .semicolon)
    (hfield : Derives trailing .field before) (hfields : Derives trailing .fields after) :
    Derives trailing .fields (before ++ .symbol separator :: after) := by
  cases hfields with
  | fields_none => exact .fields_separator hseparator (.fieldList_last hfield)
  | fields_some hlist => exact .fields_some (.fieldList_more hseparator hfield hlist)
  | fields_separator hlast hlist =>
      have hmore := Derives.fields_separator hlast (.fieldList_more hseparator hfield hlist)
      simpa using hmore

/-- **Whatever is written is derived.** -/
theorem Written.derives {phrase : Phrase} {tokens : List Token} (hwritten : Written phrase tokens) :
    phrase.DerivedFrom (kindsOf tokens) := by
  -- by induction on how it is written; most rules have a counterpart with the same parts
  induction hwritten with
  | literal hliteral => exact .literal (Token.isLiteral_of_literal? hliteral)
  | parenthesized _ ih => simpa [Phrase.DerivedFrom] using Derives.parenthesized ih
  | table _ ih => simpa [Phrase.DerivedFrom] using Derives.table ih
  | invoke _ ih => exact .invoke ih
  | «variable» _ ih => exact .value (.variable ih)
  -- the levels of the operators are gone in the grammar, so the rules that change the level say
  -- nothing new
  | atPrimary _ ih => exact ih
  | power _ _ ihBase ihExponent => simpa [Phrase.DerivedFrom] using Derives.binary ihBase ihExponent
  | unary _ ih => exact .unary ih
  | concatenation _ _ ihLeft ihRight =>
      simpa [Phrase.DerivedFrom] using Derives.binary ihLeft ihRight
  | tighter _ _ _ ih => exact ih
  -- a chain is derived from the left: what was written so far is the left operand of what follows
  | chained _ _ _ ihFirst ihRest => simpa [Phrase.DerivedFrom] using ihRest _ ihFirst
  | continuation_end =>
      intro before hbefore
      simpa using hbefore
  | continuation_operator _ _ _ ihRight ihRest =>
      intro before hbefore
      simpa using ihRest _ (.binary hbefore ihRight)
  | path_end => exact .suffixes_none
  | path_name _ ih => exact .suffixes_name ih
  | path_key _ _ ihKey ihPath => simpa [Phrase.DerivedFrom] using Derives.suffixes_key ihKey ihPath
  | expressionList_last _ ih => exact .expressionList_last ih
  | expressionList_more _ _ ihValue ihValues =>
      simpa [Phrase.DerivedFrom] using Derives.expressionList_more ihValue ihValues
  | fields_end => exact .fields_none
  | fields_last _ ih => exact .fields_some (.fieldList_last ih)
  | fields_more hseparator _ _ ihField ihFields =>
      simpa [Phrase.DerivedFrom] using Derives.fields_cons hseparator ihField ihFields
  | field_named _ ih => exact .field_named ih
  | field_keyed _ _ ihKey ihValue =>
      simpa [Phrase.DerivedFrom] using Derives.field_keyed ihKey ihValue
  | field_positional _ ih => exact .field_positional ih
  -- the closing parenthesis belongs to the arguments here, and to the call in the grammar
  | call _ _ ih =>
      obtain ⟨inner, hinner, harguments⟩ := ih
      simpa [Phrase.DerivedFrom, hinner] using Derives.call harguments
  | print _ ih =>
      obtain ⟨inner, hinner, harguments⟩ := ih
      simpa [Phrase.DerivedFrom, hinner] using Derives.print harguments
  | read _ ih =>
      obtain ⟨inner, hinner, hformat⟩ := ih
      simpa [Phrase.DerivedFrom, hinner] using Derives.read hformat
  | arguments_none => exact ⟨[], rfl, .arguments_none⟩
  | arguments_some _ ih => exact ⟨_, by simp, .arguments_some ih⟩
  | format_none => exact ⟨[], rfl, .format_none⟩
  | format_some _ ih => exact ⟨_, by simp, .format_some ih⟩
  | parameters_end => exact .inl rfl
  | parameters_last => exact .inl rfl
  -- a comma after the last name is the only thing that the grammar has an extra rule for
  | @parameters_more name names tokens place comma _ ih =>
      cases names with
      | nil =>
          rcases ih with hnone | ⟨hnames, -⟩
          · refine .inr ⟨by simp, ?_⟩
            simpa using hnone
          · exact absurd rfl hnames
      | cons other names =>
          rcases ih with hnames | ⟨-, hnames⟩
          · refine .inl ?_
            simp [hnames]
          · refine .inr ⟨by simp, ?_⟩
            simp [hnames]
  | result_none hending => exact .result_none (kindsOf_ending hending)
  | result_some _ hending ih =>
      simpa [Phrase.DerivedFrom] using Derives.result_some (kindsOf_ending hending) ih
  | step_none => exact .step_none
  | step_some _ ih => exact .step_some ih
  | block_open _ ih => exact .block_open ih
  | block_result _ _ ihStatements ihResult =>
      simpa [Phrase.DerivedFrom] using Derives.block_result ihStatements ihResult
  | statements_end => exact .statements_none
  | statements_more _ _ ihFirst ihOthers =>
      simpa [Phrase.DerivedFrom] using Derives.statements_more ihFirst ihOthers
  | branches_last _ _ ihCondition ihBody =>
      simpa [Phrase.DerivedFrom] using Derives.branches_last ihCondition ihBody
  | branches_else _ _ _ ihCondition ihBody ihOtherwise =>
      simpa [Phrase.DerivedFrom] using Derives.branches_else ihCondition ihBody ihOtherwise
  | branches_more _ _ _ ihCondition ihBody ihBranches =>
      simpa [Phrase.DerivedFrom] using Derives.branches_more ihCondition ihBody ihBranches
  | empty => exact .empty
  | break_ => exact .break_
  | declare _ ih => exact .declare ih
  | assign _ _ ihPath ihValue =>
      simpa [Phrase.DerivedFrom] using Derives.assign (.variable ihPath) ihValue
  | choose _ ih => simpa [Phrase.DerivedFrom] using Derives.choose ih
  -- without that comma the rule of the documented grammar derives the function
  | define _ _ ihParameters ihBody =>
      rcases ihParameters with hparameters | ⟨hsome, hparameters⟩
      · simpa [Phrase.DerivedFrom, hparameters] using Derives.define ihBody
      · simpa [Phrase.DerivedFrom, hparameters] using Derives.define_trailing rfl hsome ihBody
  | while_ _ _ ihCondition ihBody =>
      simpa [Phrase.DerivedFrom] using Derives.while_ ihCondition ihBody
  | repeat_ _ _ ihBody ihCondition =>
      simpa [Phrase.DerivedFrom] using Derives.repeat_ ihBody ihCondition
  | for_ _ _ _ _ ihStart ihLimit ihStep ihBody =>
      simpa [Phrase.DerivedFrom] using Derives.for_ ihStart ihLimit ihStep ihBody
  | do_ _ ih => simpa [Phrase.DerivedFrom] using Derives.do_ ih
  | perform _ ih => exact .perform ih

/-! ## What is derived is read -/

/-- Some phrase of the rule is written with the kinds.  An expression of the ambiguous grammar is a
row of operands and operators. -/
def Rule.WrittenWith (kinds : List Token.Kind) : Rule → Prop
  | .block inLoop => ∃ value, Written (.block inLoop value) (stamp kinds)
  | .statements inLoop => ∃ values, Written (.statements inLoop values) (stamp kinds)
  | .statement inLoop => ∃ value, Written (.statement inLoop value) (stamp kinds)
  | .branches inLoop =>
    ∃ branches otherwise, Written (.branches inLoop branches otherwise) (stamp kinds)
  | .step => ∃ value, Written (.step value) (stamp kinds)
  | .result => ∃ result, Written (.result result) (stamp kinds)
  | .variable => ∃ name keys rest, kinds = .name name :: rest ∧ Written (.path keys) (stamp rest)
  | .suffixes => ∃ keys, Written (.path keys) (stamp kinds)
  | .expressionList => ∃ values, Written (.expressionList values) (stamp kinds)
  | .arguments =>
    ∃ values, Written (.arguments values) (stamp kinds ++ [⟨.symbol .closeParen, .start⟩])
  | .format => ∃ value, Written (.format value) (stamp kinds ++ [⟨.symbol .closeParen, .start⟩])
  | .invocation => ∃ value, Written (.invocation value) (stamp kinds)
  | .fields => ∃ fields, Written (.fields fields) (stamp kinds)
  | .fieldList => (∃ fields, Written (.fields fields) (stamp kinds)) ∧
      ∀ separator : Symbol, separator = .comma ∨ separator = .semicolon →
        ∃ fields, Written (.fields fields) (stamp kinds ++ [⟨.symbol separator, .start⟩])
  | .field => ∃ field, Written (.field field) (stamp kinds)
  | .expression => Row (stamp kinds)

theorem Token.exists_literal? {kind : Token.Kind} (hliteral : kind.isLiteral = true)
    (place : Position) : ∃ value, Token.literal? ⟨kind, place⟩ = some value := by
  cases kind with
  | keyword word => cases word <;> first | exact ⟨_, rfl⟩ | cases hliteral
  | symbol mark => cases hliteral
  | name text => cases hliteral
  | _ => exact ⟨_, rfl⟩

theorem written_parameters (names : List String) :
    Written (.parameters names) (stamp (namesWithCommas names)) := by
  induction names with
  | nil => exact .parameters_end
  | cons name names ih =>
      cases names with
      | nil => exact .parameters_last
      | cons other names => exact .parameters_more ih

theorem written_parameters_trailing {names : List String} (hnames : names ≠ []) :
    Written (.parameters names) (stamp (namesWithCommas names ++ [.symbol .comma])) := by
  induction names with
  | nil => exact absurd rfl hnames
  | cons name names ih =>
      cases names with
      | nil => exact .parameters_more .parameters_end
      | cons other names => exact .parameters_more (ih (by simp))

theorem stamp_ending {ending : List Token.Kind}
    (hending : ending = [] ∨ ending = [.symbol .semicolon]) :
    stamp ending = [] ∨ ∃ semicolon, stamp ending = [⟨.symbol .semicolon, semicolon⟩] := by
  rcases hending with rfl | rfl
  · exact .inl rfl
  · exact .inr ⟨.start, rfl⟩

theorem written_call (name : String) {values : List Expression} {tokens : List Token}
    {place opening : Position} (hvalues : Written (.arguments values) tokens) :
    ∃ value, Written (.invocation value)
      (⟨.name name, place⟩ :: ⟨.symbol .openParen, opening⟩ :: tokens) := by
  by_cases hname : name = "print"
  · subst hname
    exact ⟨_, .print hvalues⟩
  · exact ⟨_, .call hname hvalues⟩

/-- **Whatever is derived is written by some phrase of the rule.** -/
theorem Derives.written {trailing : Bool} {rule : Rule} {kinds : List Token.Kind}
    (hderives : Derives trailing rule kinds) : rule.WrittenWith kinds := by
  -- by induction on the derivation; each rule finds phrases for its parts and puts them together;
  -- only expressions are not phrases but rows, because the grammar does not say how operators nest
  induction hderives with
  | block_open _ ih =>
      obtain ⟨statements, hstatements⟩ := ih
      exact ⟨_, .block_open hstatements⟩
  | block_result _ _ ihStatements ihResult =>
      obtain ⟨statements, hstatements⟩ := ihStatements
      obtain ⟨result, hresult⟩ := ihResult
      exact ⟨_, by simpa using Written.block_result hstatements hresult⟩
  | statements_none => exact ⟨[], .statements_end⟩
  | statements_more _ _ ihFirst ihOthers =>
      obtain ⟨first, hfirst⟩ := ihFirst
      obtain ⟨others, hothers⟩ := ihOthers
      exact ⟨_, by simpa using Written.statements_more hfirst hothers⟩
  | result_none hending => exact ⟨_, .result_none (stamp_ending hending)⟩
  | result_some hending _ ih =>
      obtain ⟨values, hvalues⟩ := ih
      exact ⟨⟨values, .start⟩, by simpa using Written.result_some hvalues (stamp_ending hending)⟩
  | empty => exact ⟨_, .empty⟩
  | break_ => exact ⟨_, .break_⟩
  -- a row of operands and operators is an expression in exactly one way, and is one here
  | assign _ _ ihVariable ihValue =>
      obtain ⟨name, keys, rest, rfl, hpath⟩ := ihVariable
      obtain ⟨value, hvalue⟩ := Row.written ihValue
      exact ⟨.assign name keys value .start, by simpa using Written.assign hpath hvalue⟩
  | declare _ ih =>
      obtain ⟨value, hvalue⟩ := Row.written ih
      exact ⟨_, .declare hvalue⟩
  | choose _ ih =>
      obtain ⟨branches, otherwise, hbranches⟩ := ih
      exact ⟨.choose branches otherwise .start, by simpa using Written.choose hbranches⟩
  -- the two rules for a function differ in the comma after the last parameter, which is read away
  | @define inLoop name parameters kinds _ ih =>
      obtain ⟨body, hbody⟩ := ih
      have hparameters := written_parameters parameters
      exact ⟨.define name parameters body .start, by simpa using Written.define hparameters hbody⟩
  | @define_trailing inLoop name parameters kinds _ hsome _ ih =>
      obtain ⟨body, hbody⟩ := ih
      have hparameters := written_parameters_trailing hsome
      exact ⟨.define name parameters body .start, by simpa using Written.define hparameters hbody⟩
  | while_ _ _ ihCondition ihBody =>
      obtain ⟨condition, hcondition⟩ := Row.written ihCondition
      obtain ⟨body, hbody⟩ := ihBody
      exact ⟨.while_ condition body .start, by simpa using Written.while_ hcondition hbody⟩
  | repeat_ _ _ ihBody ihCondition =>
      obtain ⟨body, hbody⟩ := ihBody
      obtain ⟨condition, hcondition⟩ := Row.written ihCondition
      exact ⟨.repeat_ body condition .start, by simpa using Written.repeat_ hbody hcondition⟩
  | @for_ inLoop name _ _ _ _ _ _ _ _ ihStart ihLimit ihStep ihBody =>
      obtain ⟨start, hstart⟩ := Row.written ihStart
      obtain ⟨limit, hlimit⟩ := Row.written ihLimit
      obtain ⟨step, hstep⟩ := ihStep
      obtain ⟨body, hbody⟩ := ihBody
      exact ⟨.for_ name start limit step body .start,
        by simpa using Written.for_ hstart hlimit hstep hbody⟩
  | do_ _ ih =>
      obtain ⟨body, hbody⟩ := ih
      exact ⟨.do_ body .start, by simpa using Written.do_ hbody⟩
  | perform _ ih =>
      obtain ⟨value, hvalue⟩ := ih
      exact ⟨_, .perform hvalue⟩
  -- the branches of a choice are collected from the last one on
  | branches_last _ _ ihCondition ihBody =>
      obtain ⟨condition, hcondition⟩ := Row.written ihCondition
      obtain ⟨body, hbody⟩ := ihBody
      exact ⟨[.mk condition body], none, by simpa using Written.branches_last hcondition hbody⟩
  | branches_else _ _ _ ihCondition ihBody ihOtherwise =>
      obtain ⟨condition, hcondition⟩ := Row.written ihCondition
      obtain ⟨body, hbody⟩ := ihBody
      obtain ⟨otherwise, hotherwise⟩ := ihOtherwise
      exact ⟨[.mk condition body], some otherwise,
        by simpa using Written.branches_else hcondition hbody hotherwise⟩
  | branches_more _ _ _ ihCondition ihBody ihBranches =>
      obtain ⟨condition, hcondition⟩ := Row.written ihCondition
      obtain ⟨body, hbody⟩ := ihBody
      obtain ⟨branches, otherwise, hbranches⟩ := ihBranches
      exact ⟨.mk condition body :: branches, otherwise,
        by simpa using Written.branches_more hcondition hbody hbranches⟩
  | step_none => exact ⟨none, .step_none⟩
  | step_some _ ih =>
      obtain ⟨value, hvalue⟩ := Row.written ih
      exact ⟨_, .step_some hvalue⟩
  | «variable» _ ih =>
      obtain ⟨keys, hkeys⟩ := ih
      exact ⟨_, keys, _, rfl, hkeys⟩
  | suffixes_none => exact ⟨[], .path_end⟩
  | suffixes_name _ ih =>
      obtain ⟨keys, hkeys⟩ := ih
      exact ⟨_, .path_name hkeys⟩
  | suffixes_key _ _ ihKey ihSuffixes =>
      obtain ⟨key, hkey⟩ := Row.written ihKey
      obtain ⟨keys, hkeys⟩ := ihSuffixes
      exact ⟨key :: keys, by simpa using Written.path_key hkey hkeys⟩
  | expressionList_last _ ih =>
      obtain ⟨value, hvalue⟩ := Row.written ih
      exact ⟨_, .expressionList_last hvalue⟩
  | expressionList_more _ _ ihValue ihValues =>
      obtain ⟨value, hvalue⟩ := Row.written ihValue
      obtain ⟨values, hvalues⟩ := ihValues
      exact ⟨value :: values, by simpa using Written.expressionList_more hvalue hvalues⟩
  | arguments_none => exact ⟨[], .arguments_none⟩
  | arguments_some _ ih =>
      obtain ⟨values, hvalues⟩ := ih
      exact ⟨_, .arguments_some hvalues⟩
  | format_none => exact ⟨none, .format_none⟩
  | format_some _ ih =>
      obtain ⟨value, hvalue⟩ := Row.written ih
      exact ⟨_, .format_some hvalue⟩
  -- the grammar does not set `print` apart from other names, so the call may be one of `print`
  | @call name _ _ ih =>
      obtain ⟨values, hvalues⟩ := ih
      simpa [Rule.WrittenWith] using written_call name hvalues
  | print _ ih =>
      obtain ⟨values, hvalues⟩ := ih
      exact ⟨.print values .start, by simpa using Written.print hvalues⟩
  | read _ ih =>
      obtain ⟨format, hformat⟩ := ih
      exact ⟨.read format .start, by simpa using Written.read hformat⟩
  | fields_none => exact ⟨[], .fields_end⟩
  | fields_some _ ih => exact ih.1
  | fields_separator hseparator _ ih => simpa [Rule.WrittenWith] using ih.2 _ hseparator
  -- a list of fields is written both by itself and with a separator behind it; the separator may
  -- follow only once the list is complete
  | fieldList_last _ ih =>
      obtain ⟨field, hfield⟩ := ih
      refine ⟨⟨_, .fields_last hfield⟩, fun separator hseparator => ?_⟩
      exact ⟨_, .fields_more hseparator hfield .fields_end⟩
  | fieldList_more hseparator _ _ ihField ihFields =>
      obtain ⟨field, hfield⟩ := ihField
      refine ⟨?_, fun last hlast => ?_⟩
      · obtain ⟨fields, hfields⟩ := ihFields.1
        exact ⟨field :: fields, by simpa using Written.fields_more hseparator hfield hfields⟩
      · obtain ⟨fields, hfields⟩ := ihFields.2 last hlast
        exact ⟨field :: fields, by simpa using Written.fields_more hseparator hfield hfields⟩
  | field_named _ ih =>
      obtain ⟨value, hvalue⟩ := Row.written ih
      exact ⟨_, .field_named hvalue⟩
  | field_keyed _ _ ihKey ihValue =>
      obtain ⟨key, hkey⟩ := Row.written ihKey
      obtain ⟨value, hvalue⟩ := Row.written ihValue
      exact ⟨.keyed key value, by simpa using Written.field_keyed hkey hvalue⟩
  | field_positional _ ih =>
      obtain ⟨value, hvalue⟩ := Row.written ih
      exact ⟨_, .field_positional hvalue⟩
  -- from here on the phrases are operands of a row
  | literal hliteral =>
      obtain ⟨value, hvalue⟩ := Token.exists_literal? hliteral .start
      exact .operand (.literal hvalue)
  | parenthesized _ ih =>
      obtain ⟨inner, hinner⟩ := Row.written ih
      exact .operand (by simpa using Written.parenthesized hinner)
  | table _ ih =>
      obtain ⟨fields, hfields⟩ := ih
      exact .operand (by simpa using Written.table hfields)
  | value _ ih =>
      obtain ⟨name, keys, rest, rfl, hpath⟩ := ih
      exact .operand (.variable hpath)
  | invoke _ ih =>
      obtain ⟨value, hvalue⟩ := ih
      exact .operand (.invoke hvalue)
  | unary _ ih => exact .unary ih
  | binary _ _ ihLeft ihRight => simpa [Rule.WrittenWith] using Row.append ihLeft ihRight

/-- Every program that the grammar derives is read, with the extra rule or without. -/
theorem Derives.parse_ok {trailing : Bool} {tokens : Tokens}
    (hderives : Derives trailing (.block false) (kindsOf tokens.list)) :
    ∃ chunk, parse tokens = .ok chunk := by
  -- the phrase found has its tokens at one place; at their own places they are read alike
  obtain ⟨chunk, hwritten⟩ := hderives.written
  have hstamped : parse ⟨stamp (kindsOf tokens.list), .start⟩ = .ok chunk :=
    parse_eq_ok_iff.mpr hwritten
  obtain ⟨chunk', hparse, -⟩ := parse_alike (kindsOf_stamp _) hstamped
  exact ⟨chunk', hparse⟩

end TableScript
