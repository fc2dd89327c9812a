import TableScript.Tree.Level
import TableScript.Tree.Parsed
import TableScript.Token.Lexer

/-!
# From tokens to the tree

The readers of expressions, statements and blocks follow the grammar, one reader for each rule.
They recurse on a number of steps; `stepsFor` gives enough of them for a list of tokens, because
between two recursive calls that take no token there are at most as many calls as there are
levels of binding and a few more.

`parse` reads a whole program.  After a problem it skips to the next token that can only begin a
statement and goes on, so that it reports more than one problem.
-/

namespace TableScript

namespace Parser

open Reader

/-! ## Invocations -/

/-- The tokens after `io.read(`, if the list begins so. -/
def afterReadCall? : List Token → Option (List Token)
  | ⟨.name first, _⟩ :: ⟨.symbol .dot, _⟩ :: ⟨.name second, _⟩ :: ⟨.symbol .openParen, _⟩ :: rest =>
    if first = "io" ∧ second = "read" then some rest else none
  | _ => none

/-- Whether the list begins with a call, a `print` or a reading of input. -/
def beginsInvocation : List Token → Bool
  | ⟨.name _, _⟩ :: ⟨.symbol .openParen, _⟩ :: _ => true
  | tokens => (afterReadCall? tokens).isSome

/-! ## Expressions -/

mutual

/-- Reads an expression of a level or of a tighter one. -/
def expressionAt : Nat → Level → Reader Expression
  | 0, _ => exhausted
  | steps + 1, .primary => primary steps
  | steps + 1, .power => do
    let base ← expressionAt steps .primary
    match ← acceptMap Level.power.binaryOperator? with
    | some (operator, position) =>
      let exponent ← expressionAt steps .unary
      pure (.binary operator base exponent position)
    | none => pure base
  | steps + 1, .unary => do
    match ← acceptMap unaryOperator? with
    | some (operator, position) =>
      let operand ← expressionAt steps .unary
      pure (.unary operator operand position)
    | none => expressionAt steps .power
  | steps + 1, .concatenation => do
    let left ← expressionAt steps .additive
    match ← acceptMap Level.concatenation.binaryOperator? with
    | some (operator, position) =>
      let right ← expressionAt steps .concatenation
      pure (.binary operator left right position)
    | none => pure left
  | steps + 1, level => do
    let first ← expressionAt steps level.next
    chain steps level first

/-- Goes on after a left operand with the operators of one level, which associate to the left. -/
def chain : Nat → Level → Expression → Reader Expression
  | 0, _, _ => exhausted
  | steps + 1, level, left => do
    match ← acceptMap level.binaryOperator? with
    | some (operator, position) =>
      let right ← expressionAt steps level.next
      chain steps level (.binary operator left right position)
    | none => pure left

/-- Reads a literal, an expression in parentheses, a table, an invocation or a variable. -/
def primary : Nat → Reader Expression
  | 0 => exhausted
  | steps + 1 => fun tokens =>
    match tokens with
    | ⟨.keyword .nil_, position⟩ :: rest => .accepted (.nil position) rest
    | ⟨.keyword .true_, position⟩ :: rest => .accepted (.boolean true position) rest
    | ⟨.keyword .false_, position⟩ :: rest => .accepted (.boolean false position) rest
    | ⟨.integer text, position⟩ :: rest => .accepted (.number .integer text position) rest
    | ⟨.float text, position⟩ :: rest => .accepted (.number .float text position) rest
    | ⟨.string contents, position⟩ :: rest => .accepted (.string contents position) rest
    | ⟨.symbol .openParen, position⟩ :: rest =>
      (do
        let inner ← expressionAt steps .disjunction
        let _ ← expect (.symbol .closeParen)
        pure (.parenthesized inner position) : Reader Expression) rest
    | ⟨.symbol .openBrace, position⟩ :: rest =>
      (do
        let fields ← fieldList steps
        let _ ← expect (.symbol .closeBrace)
        pure (.table fields position) : Reader Expression) rest
    | ⟨.name name, position⟩ :: rest =>
      if beginsInvocation tokens then
        (do
          let invocation ← invocation steps
          pure (.invoke invocation) : Reader Expression) tokens
      else
        (do
          let path ← indexPath steps
          pure (.variable name path position) : Reader Expression) rest
    | _ => refuse .noExpression tokens

/-- Reads any number of index steps, `.name` and `[expression]`. -/
def indexPath : Nat → Reader (List Expression)
  | 0 => exhausted
  | steps + 1 => fun tokens =>
    match tokens with
    | ⟨.symbol .dot, _⟩ :: rest =>
      (do
        let (field, position) ← expectName
        let path ← indexPath steps
        pure (.string field position :: path) : Reader (List Expression)) rest
    | ⟨.symbol .openBracket, _⟩ :: rest =>
      (do
        let key ← expressionAt steps .disjunction
        let _ ← expect (.symbol .closeBracket)
        let path ← indexPath steps
        pure (key :: path) : Reader (List Expression)) rest
    | _ => .accepted [] tokens

/-- Reads expressions divided by commas, at least one. -/
def expressionList : Nat → Reader (List Expression)
  | 0 => exhausted
  | steps + 1 => do
    let first ← expressionAt steps .disjunction
    if ← accept (.symbol .comma) then
      let rest ← expressionList steps
      pure (first :: rest)
    else pure [first]

/-- Reads the fields of a table up to its closing brace.  A comma or a semicolon divides two
fields and may follow the last one. -/
def fieldList : Nat → Reader (List Field)
  | 0 => exhausted
  | steps + 1 => do
    match ← peek? with
    | none => pure []
    | some (.symbol .closeBrace) => pure []
    | some _ =>
      let first ← field steps
      if ← accept (.symbol .comma) then
        let rest ← fieldList steps
        pure (first :: rest)
      else if ← accept (.symbol .semicolon) then
        let rest ← fieldList steps
        pure (first :: rest)
      else pure [first]

/-- Reads one field: a name or a key in brackets with a value, or a value alone. -/
def field : Nat → Reader Field
  | 0 => exhausted
  | steps + 1 => fun tokens =>
    match tokens with
    | ⟨.name name, position⟩ :: ⟨.symbol .assign, _⟩ :: rest =>
      (do
        let value ← expressionAt steps .disjunction
        pure (.keyed (.string name position) value) : Reader Field) rest
    | ⟨.symbol .openBracket, _⟩ :: rest =>
      (do
        let key ← expressionAt steps .disjunction
        let _ ← expect (.symbol .closeBracket)
        let _ ← expect (.symbol .assign)
        let value ← expressionAt steps .disjunction
        pure (.keyed key value) : Reader Field) rest
    | _ =>
      (do
        let value ← expressionAt steps .disjunction
        pure (.positional value) : Reader Field) tokens

/-- Reads a call, a `print` or a reading of input. -/
def invocation : Nat → Reader Invocation
  | 0 => exhausted
  | steps + 1 => fun tokens =>
    match tokens with
    | ⟨.name name, position⟩ :: ⟨.symbol .openParen, _⟩ :: rest =>
      (do
        let arguments ← argumentList steps
        if name = "print" then pure (.print arguments position)
        else pure (.call name arguments position) : Reader Invocation) rest
    | ⟨.name _, position⟩ :: _ =>
      match afterReadCall? tokens with
      | some rest =>
        (do
          let format ← readFormat steps
          pure (.read format position) : Reader Invocation) rest
      | none => refuse .noExpression tokens
    | _ => refuse .noExpression tokens

/-- Reads the arguments of a call after its opening parenthesis, and the closing one. -/
def argumentList : Nat → Reader (List Expression)
  | 0 => exhausted
  | steps + 1 => do
    if ← accept (.symbol .closeParen) then pure []
    else
      let arguments ← expressionList steps
      let _ ← expect (.symbol .closeParen)
      pure arguments

/-- Reads the format of a reading of input after its opening parenthesis, and the closing one. -/
def readFormat : Nat → Reader (Option Expression)
  | 0 => exhausted
  | steps + 1 => do
    if ← accept (.symbol .closeParen) then pure none
    else
      let format ← expressionAt steps .disjunction
      let _ ← expect (.symbol .closeParen)
      pure (some format)

end

/-! ## Statements -/

/-- Reads names divided by commas up to a closing parenthesis.  A comma may follow the last. -/
def parameterList : Nat → Reader (List String)
  | 0 => exhausted
  | steps + 1 => do
    match ← peek? with
    | none => pure []
    | some (.symbol .closeParen) => pure []
    | some _ =>
      let (first, _) ← expectName
      if ← accept (.symbol .comma) then
        let rest ← parameterList steps
        pure (first :: rest)
      else pure [first]

/-- Reads a `return` and its values, with an optional semicolon after them. -/
def returnClause (steps : Nat) : Reader Return := do
  let position ← expect (.keyword .return_)
  let next ← peek?
  let values ←
    if Token.endsBlock next || next = some (.symbol .semicolon) then pure []
    else expressionList steps
  let _ ← accept (.symbol .semicolon)
  pure ⟨values, position⟩

/-- Reads a local declaration after its first word. -/
def declaration (steps : Nat) (position : Position) : Reader Statement := do
  let (name, namePosition) ← expectName
  let next ← peek?
  if next = some (.symbol .dot) ∨ next = some (.symbol .openBracket) then
    refuse fun _ => .indexedLocal name
  else
    let _ ← expect (.symbol .assign)
    let value ← expressionAt steps .disjunction
    pure (.declare name namePosition value position)

/-- Reads the optional step of a counting loop. -/
def forStep (steps : Nat) : Reader (Option Expression) := do
  if ← accept (.symbol .comma) then
    let step ← expressionAt steps .disjunction
    pure (some step)
  else pure none

mutual

/-- Reads statements up to a word that closes a block, and a `return` before it.  The flag says
whether a loop of the same function encloses the block. -/
def block : Nat → Bool → Reader Block
  | 0, _ => exhausted
  | steps + 1, inLoop => do
    let statements ← statementList steps inLoop
    if (← peek?) = some (.keyword .return_) then
      let result ← returnClause steps
      pure (.mk statements (some result))
    else pure (.mk statements none)

/-- Reads statements up to a `return` or a word that closes a block. -/
def statementList : Nat → Bool → Reader (List Statement)
  | 0, _ => exhausted
  | steps + 1, inLoop => do
    let next ← peek?
    if Token.endsBlock next || next = some (.keyword .return_) then pure []
    else
      let first ← statement steps inLoop
      let rest ← statementList steps inLoop
      pure (first :: rest)

/-- Reads one statement. -/
def statement : Nat → Bool → Reader Statement
  | 0, _ => exhausted
  | steps + 1, inLoop => fun tokens =>
    match tokens with
    | ⟨.symbol .semicolon, position⟩ :: rest => .accepted (.empty position) rest
    | ⟨.keyword .break_, position⟩ :: rest =>
      if inLoop then .accepted (.break_ position) rest else .rejected .breakOutsideLoop tokens
    | ⟨.keyword .local_, position⟩ :: rest => declaration steps position rest
    | ⟨.keyword .if_, position⟩ :: rest =>
      (do
        let (branches, otherwise) ← branchList steps inLoop
        let _ ← expect (.keyword .end_)
        pure (.choose branches otherwise position) : Reader Statement) rest
    | ⟨.keyword .function_, position⟩ :: rest =>
      (do
        let (name, _) ← expectName
        let _ ← expect (.symbol .openParen)
        let parameters ← parameterList steps
        let _ ← expect (.symbol .closeParen)
        let body ← block steps false
        let _ ← expect (.keyword .end_)
        pure (.define name parameters body position) : Reader Statement) rest
    | ⟨.keyword .while_, position⟩ :: rest =>
      (do
        let condition ← expressionAt steps .disjunction
        let _ ← expect (.keyword .do_)
        let body ← block steps true
        let _ ← expect (.keyword .end_)
        pure (.while_ condition body position) : Reader Statement) rest
    | ⟨.keyword .repeat_, position⟩ :: rest =>
      (do
        let body ← block steps true
        let _ ← expect (.keyword .until_)
        let condition ← expressionAt steps .disjunction
        pure (.repeat_ body condition position) : Reader Statement) rest
    | ⟨.keyword .for_, position⟩ :: rest =>
      (do
        let (name, _) ← expectName
        let _ ← expect (.symbol .assign)
        let start ← expressionAt steps .disjunction
        let _ ← expect (.symbol .comma)
        let limit ← expressionAt steps .disjunction
        let step ← forStep steps
        let _ ← expect (.keyword .do_)
        let body ← block steps true
        let _ ← expect (.keyword .end_)
        pure (.for_ name start limit step body position) : Reader Statement) rest
    | ⟨.keyword .do_, position⟩ :: rest =>
      (do
        let body ← block steps inLoop
        let _ ← expect (.keyword .end_)
        pure (.do_ body position) : Reader Statement) rest
    | ⟨.name name, position⟩ :: rest =>
      if beginsInvocation tokens then
        (do
          let invocation ← invocation steps
          pure (.invoke invocation) : Reader Statement) tokens
      else
        (do
          let path ← indexPath steps
          let _ ← expect (.symbol .assign)
          let value ← expressionAt steps .disjunction
          pure (.assign name path value position) : Reader Statement) rest
    | _ => refuse .noStatement tokens

/-- Reads a condition and its block, then further branches and the last block. -/
def branchList : Nat → Bool → Reader (List Branch × Option Block)
  | 0, _ => exhausted
  | steps + 1, inLoop => do
    let condition ← expressionAt steps .disjunction
    let _ ← expect (.keyword .then_)
    let body ← block steps inLoop
    if ← accept (.keyword .elseif_) then
      let (branches, otherwise) ← branchList steps inLoop
      pure (.mk condition body :: branches, otherwise)
    else if ← accept (.keyword .else_) then
      let otherwise ← block steps inLoop
      pure ([.mk condition body], some otherwise)
    else pure ([.mk condition body], none)

end

/-! ## Programs -/

/-- Enough steps to read a list of tokens. -/
def stepsFor (tokens : List Token) : Nat := 16 * (tokens.length + 2)

/-- The tokens at which reading starts afresh after a problem: at least one token is skipped,
and then all up to one that can only begin a statement. -/
def recover (tokens : List Token) : List Token :=
  tokens.tail.dropWhile fun token => !token.kind.startsStatement

/-- What was read of a program: its statements, the `return` that ends it, and the problems, each
with the tokens that it lies in front of. -/
structure Reading where
  statements : List Statement
  result : Option Return
  problems : List (Problem × List Token)

/-- Reads statement after statement up to the end of the tokens.  Each takes a token at least, so
as many rounds as there are tokens are enough. -/
def readProgram (steps : Nat) : Nat → List Token → Reading
  | 0, _ => ⟨[], none, []⟩
  | _ + 1, [] => ⟨[], none, []⟩
  | rounds + 1, tokens =>
    let problemAt (problem : Problem) (rest : List Token) : Reading :=
      let later := readProgram steps rounds (recover rest)
      { later with problems := (problem, rest) :: later.problems }
    if firstKind? tokens = some (.keyword .return_) then
      match returnClause steps tokens with
      | .accepted result [] => ⟨[], some result, []⟩
      | .accepted _ rest => problemAt .returnNotLast rest
      | .rejected problem rest => problemAt problem rest
      | .exhausted => ⟨[], none, [(.noStatement (firstKind? tokens), tokens)]⟩
    else
      match statement steps false tokens with
      | .accepted statement rest =>
        let later := readProgram steps rounds rest
        { later with statements := statement :: later.statements }
      | .rejected problem rest => problemAt problem rest
      | .exhausted => ⟨[], none, [(.noStatement (firstKind? tokens), tokens)]⟩

/-- The place of the first token, or of the end of the text. -/
def placeOf (finish : Position) (tokens : List Token) : Position :=
  (tokens.head?.map Token.position).getD finish

end Parser

/-- Reads the tokens of a program, or gives all problems found in their arrangement. -/
def parse (tokens : Tokens) : Except (List Diagnostic) Block :=
  let reading := Parser.readProgram (Parser.stepsFor tokens.list) tokens.list.length tokens.list
  match reading.problems with
  | [] => .ok (.mk reading.statements reading.result)
  | problems =>
    .error (problems.map fun (problem, rest) => ⟨problem, Parser.placeOf tokens.finish rest⟩)

end TableScript
