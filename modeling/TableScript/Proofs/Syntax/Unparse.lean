import TableScript.Proofs.Syntax.Grammar

/-!
# Writing a tree down

`unparse` gives the tokens that write a tree literally: an index step is a key in brackets, a field
with a key has its key in brackets, and parentheses around an expression stand only where the tree
has a node for them.  So the tokens alone have to say which operator takes which operand, and they
can say it only of a normal tree, one in which every operand binds as tightly as its side of the
operator asks.
-/

namespace TableScript

/-! ## The tokens of a tree -/

/-- The token that writes a number. -/
def NumberForm.token : NumberForm → String → Token.Kind
  | .integer, text => .integer text
  | .float, text => .float text

mutual

/-- The tokens of an expression. -/
def Expression.unparse : Expression → List Token.Kind
  | .nil _ => [.keyword .nil_]
  | .boolean value _ => [.keyword (if value then .true_ else .false_)]
  | .number form text _ => [form.token text]
  | .string contents _ => [.string contents]
  | .variable name path _ => .name name :: Expression.unparsePath path
  | .table fields _ =>
    .symbol .openBrace :: ([.symbol .comma].intercalate (Field.unparseEach fields) ++
      [.symbol .closeBrace])
  | .invoke invocation => invocation.unparse
  | .binary operator left right _ => left.unparse ++ operator.token :: right.unparse
  | .unary operator operand _ => operator.token :: operand.unparse
  | .parenthesized inner _ => .symbol .openParen :: (inner.unparse ++ [.symbol .closeParen])

/-- The tokens of index steps, each key in brackets. -/
def Expression.unparsePath : List Expression → List Token.Kind
  | [] => []
  | key :: keys =>
    .symbol .openBracket :: (key.unparse ++ .symbol .closeBracket :: Expression.unparsePath keys)

/-- The tokens of each of several expressions. -/
def Expression.unparseEach : List Expression → List (List Token.Kind)
  | [] => []
  | value :: values => value.unparse :: Expression.unparseEach values

def Expression.unparseOption : Option Expression → List Token.Kind
  | none => []
  | some value => value.unparse

def Invocation.unparse : Invocation → List Token.Kind
  | .call callee values _ =>
    .name callee :: .symbol .openParen ::
      ([.symbol .comma].intercalate (Expression.unparseEach values) ++ [.symbol .closeParen])
  | .print values _ =>
    .name "print" :: .symbol .openParen ::
      ([.symbol .comma].intercalate (Expression.unparseEach values) ++ [.symbol .closeParen])
  | .read format _ =>
    .name "io" :: .symbol .dot :: .name "read" :: .symbol .openParen ::
      (Expression.unparseOption format ++ [.symbol .closeParen])

def Field.unparse : Field → List Token.Kind
  | .positional value => value.unparse
  | .keyed key value =>
    .symbol .openBracket :: (key.unparse ++ .symbol .closeBracket :: .symbol .assign ::
      value.unparse)

def Field.unparseEach : List Field → List (List Token.Kind)
  | [] => []
  | field :: fields => field.unparse :: Field.unparseEach fields

end

/-- The tokens of a `return`. -/
def Return.unparse (result : Return) : List Token.Kind :=
  .keyword .return_ :: [.symbol .comma].intercalate (Expression.unparseEach result.values)

/-- The step of a counting loop with the comma before it. -/
def Expression.unparseStep : Option Expression → List Token.Kind
  | none => []
  | some value => .symbol .comma :: value.unparse

mutual

/-- The tokens of a statement. -/
def Statement.unparse : Statement → List Token.Kind
  | .empty _ => [.symbol .semicolon]
  | .break_ _ => [.keyword .break_]
  | .declare name _ value _ => .keyword .local_ :: .name name :: .symbol .assign :: value.unparse
  | .assign name path value _ =>
    .name name :: (Expression.unparsePath path ++ .symbol .assign :: value.unparse)
  | .choose branches otherwise _ =>
    .keyword .if_ :: ([.keyword .elseif_].intercalate (Branch.unparseEach branches) ++
      (Block.unparseElse otherwise ++ [.keyword .end_]))
  | .define name parameters body _ =>
    .keyword .function_ :: .name name :: .symbol .openParen :: (namesWithCommas parameters ++
      .symbol .closeParen :: (body.unparse ++ [.keyword .end_]))
  | .while_ condition body _ =>
    .keyword .while_ :: (condition.unparse ++ .keyword .do_ :: (body.unparse ++ [.keyword .end_]))
  | .repeat_ body condition _ =>
    .keyword .repeat_ :: (body.unparse ++ .keyword .until_ :: condition.unparse)
  | .for_ name start limit step body _ =>
    .keyword .for_ :: .name name :: .symbol .assign :: (start.unparse ++ .symbol .comma ::
      (limit.unparse ++ (Expression.unparseStep step ++ .keyword .do_ ::
        (body.unparse ++ [.keyword .end_]))))
  | .do_ body _ => .keyword .do_ :: (body.unparse ++ [.keyword .end_])
  | .invoke invocation => invocation.unparse

def Statement.unparseList : List Statement → List Token.Kind
  | [] => []
  | statement :: statements => statement.unparse ++ Statement.unparseList statements

/-- The tokens of each branch, without the word before its condition. -/
def Branch.unparseEach : List Branch → List (List Token.Kind)
  | [] => []
  | .mk condition body :: branches =>
    (condition.unparse ++ .keyword .then_ :: body.unparse) :: Branch.unparseEach branches

def Block.unparseElse : Option Block → List Token.Kind
  | none => []
  | some otherwise => .keyword .else_ :: otherwise.unparse

/-- The tokens of a block. -/
def Block.unparse : Block → List Token.Kind
  | .mk statements none => Statement.unparseList statements
  | .mk statements (some result) => Statement.unparseList statements ++ result.unparse

end

/-! ## Normal trees -/

/-- The level of an expression is that of its operator, and without one it is the tightest. -/
def Expression.level : Expression → Level
  | .binary operator _ _ _ => operator.level
  | .unary _ _ _ => .unary
  | _ => .primary

/-- The loosest level that the left operand may have. -/
def BinaryOperator.leftLevel (operator : BinaryOperator) : Level :=
  if operator.level.associatesLeft then operator.level else operator.level.next

/-- The loosest level that the right operand may have. -/
def BinaryOperator.rightLevel : BinaryOperator → Level
  | .concat => .concatenation
  | .power => .unary
  | operator => operator.level.next

/-- Whether an expression binds at least as tightly as a level asks. -/
def Expression.fits (value : Expression) (level : Level) : Bool := level.rank ≤ value.level.rank

mutual

/-- Whether every operand in an expression fits its side of the operator, and no call is one of
`print`, which is a node of its own. -/
def Expression.isNormal : Expression → Bool
  | .nil _ | .boolean _ _ | .number _ _ _ | .string _ _ => true
  | .variable _ path _ => Expression.areNormal path
  | .table fields _ => Field.areNormal fields
  | .invoke invocation => invocation.isNormal
  | .binary operator left right _ =>
    (left.isNormal && left.fits operator.leftLevel) &&
      (right.isNormal && right.fits operator.rightLevel)
  | .unary _ operand _ => operand.isNormal && operand.fits .unary
  | .parenthesized inner _ => inner.isNormal

def Expression.areNormal : List Expression → Bool
  | [] => true
  | value :: values => value.isNormal && Expression.areNormal values

def Expression.isNormalOption : Option Expression → Bool
  | none => true
  | some value => value.isNormal

def Invocation.isNormal : Invocation → Bool
  | .call callee values _ => callee != "print" && Expression.areNormal values
  | .print values _ => Expression.areNormal values
  | .read format _ => Expression.isNormalOption format

def Field.isNormal : Field → Bool
  | .positional value => value.isNormal
  | .keyed key value => key.isNormal && value.isNormal

def Field.areNormal : List Field → Bool
  | [] => true
  | field :: fields => field.isNormal && Field.areNormal fields

end

mutual

/-- Whether every expression in a statement is normal, every choice has a branch, and every `break`
has a loop of its own function around it.  The flag says that such a loop is around the
statement. -/
def Statement.isNormal (inLoop : Bool) : Statement → Bool
  | .empty _ => true
  | .break_ _ => inLoop
  | .declare _ _ value _ => value.isNormal
  | .assign _ path value _ => Expression.areNormal path && value.isNormal
  | .choose branches otherwise _ =>
    !branches.isEmpty && (Branch.areNormal inLoop branches && Block.isNormalOption inLoop otherwise)
  | .define _ _ body _ => body.isNormal false
  | .while_ condition body _ => condition.isNormal && body.isNormal true
  | .repeat_ body condition _ => body.isNormal true && condition.isNormal
  | .for_ _ start limit step body _ =>
    start.isNormal && (limit.isNormal && (Expression.isNormalOption step && body.isNormal true))
  | .do_ body _ => body.isNormal inLoop
  | .invoke invocation => invocation.isNormal

def Statement.areNormal (inLoop : Bool) : List Statement → Bool
  | [] => true
  | statement :: statements => statement.isNormal inLoop && Statement.areNormal inLoop statements

def Branch.areNormal (inLoop : Bool) : List Branch → Bool
  | [] => true
  | .mk condition body :: branches =>
    (condition.isNormal && body.isNormal inLoop) && Branch.areNormal inLoop branches

def Block.isNormalOption (inLoop : Bool) : Option Block → Bool
  | none => true
  | some body => body.isNormal inLoop

/-- Whether everything in a block is normal. -/
def Block.isNormal (inLoop : Bool) : Block → Bool
  | .mk statements none => Statement.areNormal inLoop statements
  | .mk statements (some result) =>
    Statement.areNormal inLoop statements && Expression.areNormal result.values

end

end TableScript
