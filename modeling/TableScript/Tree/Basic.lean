import TableScript.Token.Basic

/-!
# The tree of a program

Expressions, statements and blocks.  Every node keeps the place that a message about it names:
the operator for an operation, the opening bracket for a table, the name for a variable and a
call, the first word for a statement.
-/

namespace TableScript

/-! ## Operators -/

/-- The operators with two operands. -/
inductive BinaryOperator where
  | add | subtract | multiply | divide | modulo | power | concat | equal | notEqual | less
  | lessEqual | greater | greaterEqual | and | or
  deriving DecidableEq, Repr

/-- A binary operator as it is written. -/
def BinaryOperator.symbol : BinaryOperator → String
  | add => "+"
  | subtract => "-"
  | multiply => "*"
  | divide => "/"
  | modulo => "%"
  | power => "^"
  | concat => ".."
  | equal => "=="
  | notEqual => "~="
  | less => "<"
  | lessEqual => "<="
  | greater => ">"
  | greaterEqual => ">="
  | and => "and"
  | or => "or"

/-- The operators with one operand. -/
inductive UnaryOperator where
  | negate | not | length
  deriving DecidableEq, Repr

/-- A unary operator as it is written. -/
def UnaryOperator.symbol : UnaryOperator → String
  | negate => "-"
  | not => "not"
  | length => "#"

/-- The two forms of a number literal. -/
inductive NumberForm where
  | integer | float
  deriving DecidableEq, Repr

/-! ## Expressions -/

mutual

/-- An expression. -/
inductive Expression where
  | nil (position : Position)
  | boolean (value : Bool) (position : Position)
  /-- A number literal; its text is read when it is evaluated. -/
  | number (form : NumberForm) (text : String) (position : Position)
  | string (contents : String) (position : Position)
  /-- A variable with index steps; the step `.x` is the string expression `"x"`. -/
  | variable (name : String) (path : List Expression) (position : Position)
  | table (fields : List Field) (position : Position)
  | invoke (invocation : Invocation)
  | binary (operator : BinaryOperator) (left right : Expression) (position : Position)
  | unary (operator : UnaryOperator) (operand : Expression) (position : Position)
  /-- An expression in parentheses, which stands for its first value. -/
  | parenthesized (inner : Expression) (position : Position)

/-- What can be both an expression and a statement. -/
inductive Invocation where
  | call (callee : String) (arguments : List Expression) (position : Position)
  | print (arguments : List Expression) (position : Position)
  /-- The reading of one input line, in a format if one is given. -/
  | read (format : Option Expression) (position : Position)

/-- One field of a table constructor. -/
inductive Field where
  /-- A value whose key is its number among such fields. -/
  | positional (value : Expression)
  | keyed (key value : Expression)

end

/-- The place that a message about an invocation names. -/
def Invocation.position : Invocation → Position
  | .call _ _ position | .print _ position | .read _ position => position

/-- The place that a message about an expression names. -/
def Expression.position : Expression → Position
  | .nil position | .boolean _ position | .number _ _ position | .string _ position
  | .variable _ _ position | .table _ position | .binary _ _ _ position | .unary _ _ position
  | .parenthesized _ position => position
  | .invoke invocation => invocation.position

/-! ## Statements -/

/-- The values that a block ends with. -/
structure Return where
  values : List Expression
  position : Position

/-- The words that open a statement with a frame of its own. -/
inductive LoopKeyword where
  | while_ | repeat_ | for_ | do_
  deriving DecidableEq, Repr

/-- The word as it is written. -/
def LoopKeyword.text : LoopKeyword → String
  | while_ => "while"
  | repeat_ => "repeat"
  | for_ => "for"
  | do_ => "do"

mutual

/-- A statement. -/
inductive Statement where
  /-- The empty statement, a semicolon. -/
  | empty (position : Position)
  /-- Leaves the innermost loop. -/
  | break_ (position : Position)
  /-- Binds a name in the innermost frame. -/
  | declare (name : String) (namePosition : Position) (value : Expression) (position : Position)
  /-- Stores into a variable, or into the table that an index path reaches. -/
  | assign (name : String) (path : List Expression) (value : Expression) (position : Position)
  /-- Runs the first branch whose condition holds, or else the last block. -/
  | choose (branches : List Branch) (otherwise : Option Block) (position : Position)
  /-- Defines a function. -/
  | define (name : String) (parameters : List String) (body : Block) (position : Position)
  | while_ (condition : Expression) (body : Block) (position : Position)
  | repeat_ (body : Block) (condition : Expression) (position : Position)
  /-- Counts a variable from a start to a limit. -/
  | for_ (name : String) (start limit : Expression) (step : Option Expression) (body : Block)
    (position : Position)
  /-- A block with a frame of its own, which is no loop. -/
  | do_ (body : Block) (position : Position)
  | invoke (invocation : Invocation)

/-- A condition and the block that it guards. -/
inductive Branch where
  | mk (condition : Expression) (body : Block)

/-- Statements, and the values returned after them if there are any. -/
inductive Block where
  | mk (statements : List Statement) (result : Option Return)

end

namespace Block

/-- The statements of a block. -/
def statements : Block → List Statement
  | mk statements _ => statements

/-- The `return` that ends a block. -/
def result : Block → Option Return
  | mk _ result => result

end Block

/-- The place that a message about a statement names. -/
def Statement.position : Statement → Position
  | .empty position | .break_ position | .declare _ _ _ position | .assign _ _ _ position
  | .choose _ _ position | .define _ _ _ position | .while_ _ _ position | .repeat_ _ _ position
  | .for_ _ _ _ _ _ position | .do_ _ position => position
  | .invoke invocation => invocation.position

/-- A function that has been defined. -/
structure Function where
  name : String
  parameters : List String
  body : Block
  position : Position

end TableScript
