import TableScript.Proofs.Syntax.Reader

/-!
# Phrases and the tokens that write them

A phrase is what one reader gives, together with what the reader was told: the level of an
expression, or whether a loop of the same function surrounds a statement.  `Written` says which
tokens write a phrase, places included, and has one rule for each way in which a reader can end with
a result.  Operators that associate to the left are written as the readers meet them: an operand of
the next tighter level, and then a continuation that takes operator after operator.
-/

namespace TableScript

/-- The expression that a token writes by itself. -/
def Token.literal? : Token → Option Expression
  | ⟨.keyword .nil_, position⟩ => some (.nil position)
  | ⟨.keyword .true_, position⟩ => some (.boolean true position)
  | ⟨.keyword .false_, position⟩ => some (.boolean false position)
  | ⟨.integer text, position⟩ => some (.number .integer text position)
  | ⟨.float text, position⟩ => some (.number .float text position)
  | ⟨.string contents, position⟩ => some (.string contents position)
  | _ => none

/-- Whether the operators of a level associate to the left. -/
def Level.associatesLeft : Level → Bool
  | .disjunction | .conjunction | .comparison | .additive | .multiplicative => true
  | .concatenation | .unary | .power | .primary => false

/-! ## The tokens of operators -/

theorem Level.binaryOperator?_eq_some {level : Level} {kind : Token.Kind}
    {operator : BinaryOperator} :
    level.binaryOperator? kind = some operator ↔
      operator.level = level ∧ operator.token = kind := by
  constructor
  · intro hfound
    have htoken : operator.token = kind := by simpa using List.find?_some hfound
    have hmember : operator ∈ level.operators := List.mem_of_find?_eq_some hfound
    refine ⟨?_, htoken⟩
    cases level <;>
      simp only [Level.operators, List.mem_cons, List.not_mem_nil, or_false] at hmember <;>
      rcases hmember with rfl | rfl | rfl | rfl | rfl | rfl <;> rfl
  · rintro ⟨rfl, rfl⟩
    cases operator <;> rfl

theorem unaryOperator?_eq_some {kind : Token.Kind} {operator : UnaryOperator} :
    unaryOperator? kind = some operator ↔ operator.token = kind := by
  constructor
  · intro hfound
    simpa using List.find?_some hfound
  · rintro rfl
    cases operator <;> rfl

/-- Where operators associate to the left, a first operand is read and then the operators. -/
theorem Parser.expressionAt_associatesLeft {level : Level} {steps : Nat}
    (hleft : level.associatesLeft = true) :
    Parser.expressionAt (steps + 1) level = (do
      let first ← Parser.expressionAt steps level.next
      Parser.chain steps level first) := by
  cases level <;> first | rfl | cases hleft

/-! ## Phrases -/

/-- What a reader gives, and what it was told. -/
inductive Phrase where
  | expression (level : Level) (value : Expression)
  /-- From a left operand to the end of the operators of its level. -/
  | continuation (level : Level) (left value : Expression)
  | primary (value : Expression)
  | path (keys : List Expression)
  | expressionList (values : List Expression)
  | fields (fields : List Field)
  | field (field : Field)
  | invocation (invocation : Invocation)
  /-- The arguments of a call, the closing parenthesis included. -/
  | arguments (values : List Expression)
  /-- The format of a reading of input, the closing parenthesis included. -/
  | format (value : Option Expression)
  | parameters (names : List String)
  | result (result : Return)
  /-- The step of a counting loop, with the comma before it. -/
  | step (value : Option Expression)
  | block (inLoop : Bool) (block : Block)
  | statements (inLoop : Bool) (statements : List Statement)
  | statement (inLoop : Bool) (statement : Statement)
  | branches (inLoop : Bool) (branches : List Branch) (otherwise : Option Block)

/-- The tokens that write a phrase. -/
inductive Written : Phrase → List Token → Prop
  -- expressions
  | literal {token : Token} {value : Expression} (hliteral : token.literal? = some value) :
      Written (.primary value) [token]
  | parenthesized {inner : Expression} {tokens : List Token} {opening closing : Position}
      (hinner : Written (.expression .disjunction inner) tokens) :
      Written (.primary (.parenthesized inner opening))
        (⟨.symbol .openParen, opening⟩ :: (tokens ++ [⟨.symbol .closeParen, closing⟩]))
  | table {fields : List Field} {tokens : List Token} {opening closing : Position}
      (hfields : Written (.fields fields) tokens) :
      Written (.primary (.table fields opening))
        (⟨.symbol .openBrace, opening⟩ :: (tokens ++ [⟨.symbol .closeBrace, closing⟩]))
  | invoke {invocation : Invocation} {tokens : List Token}
      (hinvocation : Written (.invocation invocation) tokens) :
      Written (.primary (.invoke invocation)) tokens
  | variable {name : String} {path : List Expression} {tokens : List Token} {place : Position}
      (hpath : Written (.path path) tokens) :
      Written (.primary (.variable name path place)) (⟨.name name, place⟩ :: tokens)
  | atPrimary {value : Expression} {tokens : List Token}
      (hvalue : Written (.primary value) tokens) :
      Written (.expression .primary value) tokens
  | power {base exponent : Expression} {before after : List Token} {place : Position}
      (hbase : Written (.expression .primary base) before)
      (hexponent : Written (.expression .unary exponent) after) :
      Written (.expression .power (.binary .power base exponent place))
        (before ++ ⟨BinaryOperator.power.token, place⟩ :: after)
  | unary {operator : UnaryOperator} {operand : Expression} {tokens : List Token} {place : Position}
      (hoperand : Written (.expression .unary operand) tokens) :
      Written (.expression .unary (.unary operator operand place))
        (⟨operator.token, place⟩ :: tokens)
  | concatenation {left right : Expression} {before after : List Token} {place : Position}
      (hleft : Written (.expression .additive left) before)
      (hright : Written (.expression .concatenation right) after) :
      Written (.expression .concatenation (.binary .concat left right place))
        (before ++ ⟨BinaryOperator.concat.token, place⟩ :: after)
  | tighter {level : Level} {value : Expression} {tokens : List Token}
      (hright : level.associatesLeft = false) (hprimary : level ≠ .primary)
      (hvalue : Written (.expression level.next value) tokens) :
      Written (.expression level value) tokens
  | chained {level : Level} {first value : Expression} {before after : List Token}
      (hleft : level.associatesLeft = true) (hfirst : Written (.expression level.next first) before)
      (hrest : Written (.continuation level first value) after) :
      Written (.expression level value) (before ++ after)
  | continuation_end {level : Level} {value : Expression} :
      Written (.continuation level value value) []
  | continuation_operator {level : Level} {operator : BinaryOperator}
      {left right value : Expression} {before after : List Token} {place : Position}
      (hlevel : operator.level = level) (hright : Written (.expression level.next right) before)
      (hrest : Written (.continuation level (.binary operator left right place) value) after) :
      Written (.continuation level left value) (⟨operator.token, place⟩ :: (before ++ after))
  -- the parts of expressions
  | path_end : Written (.path []) []
  | path_name {field : String} {path : List Expression} {tokens : List Token}
      {dot place : Position} (hpath : Written (.path path) tokens) :
      Written (.path (.string field place :: path))
        (⟨.symbol .dot, dot⟩ :: ⟨.name field, place⟩ :: tokens)
  | path_key {key : Expression} {path : List Expression} {before after : List Token}
      {opening closing : Position} (hkey : Written (.expression .disjunction key) before)
      (hpath : Written (.path path) after) :
      Written (.path (key :: path))
        (⟨.symbol .openBracket, opening⟩ :: (before ++ ⟨.symbol .closeBracket, closing⟩ :: after))
  | expressionList_last {value : Expression} {tokens : List Token}
      (hvalue : Written (.expression .disjunction value) tokens) :
      Written (.expressionList [value]) tokens
  | expressionList_more {value : Expression} {values : List Expression} {before after : List Token}
      {comma : Position} (hvalue : Written (.expression .disjunction value) before)
      (hvalues : Written (.expressionList values) after) :
      Written (.expressionList (value :: values)) (before ++ ⟨.symbol .comma, comma⟩ :: after)
  | fields_end : Written (.fields []) []
  | fields_last {field : Field} {tokens : List Token} (hfield : Written (.field field) tokens) :
      Written (.fields [field]) tokens
  | fields_more {field : Field} {fields : List Field} {before after : List Token}
      {separator : Symbol} {place : Position}
      (hseparator : separator = .comma ∨ separator = .semicolon)
      (hfield : Written (.field field) before) (hfields : Written (.fields fields) after) :
      Written (.fields (field :: fields)) (before ++ ⟨.symbol separator, place⟩ :: after)
  | field_named {name : String} {value : Expression} {tokens : List Token} {place assign : Position}
      (hvalue : Written (.expression .disjunction value) tokens) :
      Written (.field (.keyed (.string name place) value))
        (⟨.name name, place⟩ :: ⟨.symbol .assign, assign⟩ :: tokens)
  | field_keyed {key value : Expression} {before after : List Token}
      {opening closing assign : Position} (hkey : Written (.expression .disjunction key) before)
      (hvalue : Written (.expression .disjunction value) after) :
      Written (.field (.keyed key value))
        (⟨.symbol .openBracket, opening⟩ :: (before ++ ⟨.symbol .closeBracket, closing⟩ ::
          ⟨.symbol .assign, assign⟩ :: after))
  | field_positional {value : Expression} {tokens : List Token}
      (hvalue : Written (.expression .disjunction value) tokens) :
      Written (.field (.positional value)) tokens
  | call {name : String} {values : List Expression} {tokens : List Token} {place opening : Position}
      (hname : name ≠ "print") (hvalues : Written (.arguments values) tokens) :
      Written (.invocation (.call name values place))
        (⟨.name name, place⟩ :: ⟨.symbol .openParen, opening⟩ :: tokens)
  | print {values : List Expression} {tokens : List Token} {place opening : Position}
      (hvalues : Written (.arguments values) tokens) :
      Written (.invocation (.print values place))
        (⟨.name "print", place⟩ :: ⟨.symbol .openParen, opening⟩ :: tokens)
  | read {format : Option Expression} {tokens : List Token} {place dot name opening : Position}
      (hformat : Written (.format format) tokens) :
      Written (.invocation (.read format place))
        (⟨.name "io", place⟩ :: ⟨.symbol .dot, dot⟩ :: ⟨.name "read", name⟩ ::
          ⟨.symbol .openParen, opening⟩ :: tokens)
  | arguments_none {closing : Position} :
      Written (.arguments []) [⟨.symbol .closeParen, closing⟩]
  | arguments_some {values : List Expression} {tokens : List Token} {closing : Position}
      (hvalues : Written (.expressionList values) tokens) :
      Written (.arguments values) (tokens ++ [⟨.symbol .closeParen, closing⟩])
  | format_none {closing : Position} : Written (.format none) [⟨.symbol .closeParen, closing⟩]
  | format_some {value : Expression} {tokens : List Token} {closing : Position}
      (hvalue : Written (.expression .disjunction value) tokens) :
      Written (.format (some value)) (tokens ++ [⟨.symbol .closeParen, closing⟩])
  -- the parts of statements
  | parameters_end : Written (.parameters []) []
  | parameters_last {name : String} {place : Position} :
      Written (.parameters [name]) [⟨.name name, place⟩]
  | parameters_more {name : String} {names : List String} {tokens : List Token}
      {place comma : Position} (hnames : Written (.parameters names) tokens) :
      Written (.parameters (name :: names))
        (⟨.name name, place⟩ :: ⟨.symbol .comma, comma⟩ :: tokens)
  | result_none {place : Position} {ending : List Token}
      (hending : ending = [] ∨ ∃ semicolon, ending = [⟨.symbol .semicolon, semicolon⟩]) :
      Written (.result ⟨[], place⟩) (⟨.keyword .return_, place⟩ :: ending)
  | result_some {values : List Expression} {tokens ending : List Token} {place : Position}
      (hvalues : Written (.expressionList values) tokens)
      (hending : ending = [] ∨ ∃ semicolon, ending = [⟨.symbol .semicolon, semicolon⟩]) :
      Written (.result ⟨values, place⟩) (⟨.keyword .return_, place⟩ :: (tokens ++ ending))
  | step_none : Written (.step none) []
  | step_some {value : Expression} {tokens : List Token} {comma : Position}
      (hvalue : Written (.expression .disjunction value) tokens) :
      Written (.step (some value)) (⟨.symbol .comma, comma⟩ :: tokens)
  -- blocks
  | block_open {inLoop : Bool} {statements : List Statement} {tokens : List Token}
      (hstatements : Written (.statements inLoop statements) tokens) :
      Written (.block inLoop (.mk statements none)) tokens
  | block_result {inLoop : Bool} {statements : List Statement} {result : Return}
      {before after : List Token} (hstatements : Written (.statements inLoop statements) before)
      (hresult : Written (.result result) after) :
      Written (.block inLoop (.mk statements (some result))) (before ++ after)
  | statements_end {inLoop : Bool} : Written (.statements inLoop []) []
  | statements_more {inLoop : Bool} {statement : Statement} {statements : List Statement}
      {before after : List Token} (hstatement : Written (.statement inLoop statement) before)
      (hstatements : Written (.statements inLoop statements) after) :
      Written (.statements inLoop (statement :: statements)) (before ++ after)
  | branches_last {inLoop : Bool} {condition : Expression} {body : Block}
      {before after : List Token} {then_ : Position}
      (hcondition : Written (.expression .disjunction condition) before)
      (hbody : Written (.block inLoop body) after) :
      Written (.branches inLoop [.mk condition body] none)
        (before ++ ⟨.keyword .then_, then_⟩ :: after)
  | branches_else {inLoop : Bool} {condition : Expression} {body otherwise : Block}
      {before middle after : List Token} {then_ else_ : Position}
      (hcondition : Written (.expression .disjunction condition) before)
      (hbody : Written (.block inLoop body) middle)
      (hotherwise : Written (.block inLoop otherwise) after) :
      Written (.branches inLoop [.mk condition body] (some otherwise))
        (before ++ ⟨.keyword .then_, then_⟩ :: (middle ++ ⟨.keyword .else_, else_⟩ :: after))
  | branches_more {inLoop : Bool} {condition : Expression} {body : Block}
      {branches : List Branch} {otherwise : Option Block} {before middle after : List Token}
      {then_ elseif_ : Position} (hcondition : Written (.expression .disjunction condition) before)
      (hbody : Written (.block inLoop body) middle)
      (hbranches : Written (.branches inLoop branches otherwise) after) :
      Written (.branches inLoop (.mk condition body :: branches) otherwise)
        (before ++ ⟨.keyword .then_, then_⟩ :: (middle ++ ⟨.keyword .elseif_, elseif_⟩ :: after))
  -- statements
  | empty {inLoop : Bool} {place : Position} :
      Written (.statement inLoop (.empty place)) [⟨.symbol .semicolon, place⟩]
  | break_ {place : Position} :
      Written (.statement true (.break_ place)) [⟨.keyword .break_, place⟩]
  | declare {inLoop : Bool} {name : String} {value : Expression} {tokens : List Token}
      {place namePlace assign : Position}
      (hvalue : Written (.expression .disjunction value) tokens) :
      Written (.statement inLoop (.declare name namePlace value place))
        (⟨.keyword .local_, place⟩ :: ⟨.name name, namePlace⟩ ::
          ⟨.symbol .assign, assign⟩ :: tokens)
  | assign {inLoop : Bool} {name : String} {path : List Expression} {value : Expression}
      {before after : List Token} {place assign : Position} (hpath : Written (.path path) before)
      (hvalue : Written (.expression .disjunction value) after) :
      Written (.statement inLoop (.assign name path value place))
        (⟨.name name, place⟩ :: (before ++ ⟨.symbol .assign, assign⟩ :: after))
  | choose {inLoop : Bool} {branches : List Branch} {otherwise : Option Block}
      {tokens : List Token} {place end_ : Position}
      (hbranches : Written (.branches inLoop branches otherwise) tokens) :
      Written (.statement inLoop (.choose branches otherwise place))
        (⟨.keyword .if_, place⟩ :: (tokens ++ [⟨.keyword .end_, end_⟩]))
  | define {inLoop : Bool} {name : String} {parameters : List String} {body : Block}
      {before after : List Token} {place namePlace opening closing end_ : Position}
      (hparameters : Written (.parameters parameters) before)
      (hbody : Written (.block false body) after) :
      Written (.statement inLoop (.define name parameters body place))
        (⟨.keyword .function_, place⟩ :: ⟨.name name, namePlace⟩ :: ⟨.symbol .openParen, opening⟩ ::
          (before ++ ⟨.symbol .closeParen, closing⟩ :: (after ++ [⟨.keyword .end_, end_⟩])))
  | while_ {inLoop : Bool} {condition : Expression} {body : Block} {before after : List Token}
      {place do_ end_ : Position} (hcondition : Written (.expression .disjunction condition) before)
      (hbody : Written (.block true body) after) :
      Written (.statement inLoop (.while_ condition body place))
        (⟨.keyword .while_, place⟩ :: (before ++ ⟨.keyword .do_, do_⟩ ::
          (after ++ [⟨.keyword .end_, end_⟩])))
  | repeat_ {inLoop : Bool} {body : Block} {condition : Expression} {before after : List Token}
      {place until_ : Position} (hbody : Written (.block true body) before)
      (hcondition : Written (.expression .disjunction condition) after) :
      Written (.statement inLoop (.repeat_ body condition place))
        (⟨.keyword .repeat_, place⟩ :: (before ++ ⟨.keyword .until_, until_⟩ :: after))
  | for_ {inLoop : Bool} {name : String} {start limit : Expression} {step : Option Expression}
      {body : Block} {first second third last : List Token}
      {place namePlace assign comma do_ end_ : Position}
      (hstart : Written (.expression .disjunction start) first)
      (hlimit : Written (.expression .disjunction limit) second)
      (hstep : Written (.step step) third) (hbody : Written (.block true body) last) :
      Written (.statement inLoop (.for_ name start limit step body place))
        (⟨.keyword .for_, place⟩ :: ⟨.name name, namePlace⟩ :: ⟨.symbol .assign, assign⟩ ::
          (first ++ ⟨.symbol .comma, comma⟩ :: (second ++ (third ++ ⟨.keyword .do_, do_⟩ ::
            (last ++ [⟨.keyword .end_, end_⟩])))))
  | do_ {inLoop : Bool} {body : Block} {tokens : List Token} {place end_ : Position}
      (hbody : Written (.block inLoop body) tokens) :
      Written (.statement inLoop (.do_ body place))
        (⟨.keyword .do_, place⟩ :: (tokens ++ [⟨.keyword .end_, end_⟩]))
  | perform {inLoop : Bool} {invocation : Invocation} {tokens : List Token}
      (hinvocation : Written (.invocation invocation) tokens) :
      Written (.statement inLoop (.invoke invocation)) tokens

/-- The reader of a phrase gives it and leaves the rest. -/
def Phrase.ReadBy (steps : Nat) (tokens rest : List Token) : Phrase → Prop
  | .expression level value => Parser.expressionAt steps level tokens = .accepted value rest
  | .continuation level left value => Parser.chain steps level left tokens = .accepted value rest
  | .primary value => Parser.primary steps tokens = .accepted value rest
  | .path keys => Parser.indexPath steps tokens = .accepted keys rest
  | .expressionList values => Parser.expressionList steps tokens = .accepted values rest
  | .fields values => Parser.fieldList steps tokens = .accepted values rest
  | .field value => Parser.field steps tokens = .accepted value rest
  | .invocation value => Parser.invocation steps tokens = .accepted value rest
  | .arguments values => Parser.argumentList steps tokens = .accepted values rest
  | .format value => Parser.readFormat steps tokens = .accepted value rest
  | .parameters names => Parser.parameterList steps tokens = .accepted names rest
  | .result value => Parser.returnClause steps tokens = .accepted value rest
  | .step value => Parser.forStep steps tokens = .accepted value rest
  | .block inLoop value => Parser.block steps inLoop tokens = .accepted value rest
  | .statements inLoop values => Parser.statementList steps inLoop tokens = .accepted values rest
  | .statement inLoop value => Parser.statement steps inLoop tokens = .accepted value rest
  | .branches inLoop values otherwise =>
    Parser.branchList steps inLoop tokens = .accepted (values, otherwise) rest

end TableScript
