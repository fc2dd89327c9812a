import TableScript.Tree.Basic

/-!
# How tightly operators bind

Every operator has a level, and an expression built with an operator stands at the level of the
operator.  Operators of one level associate to the left, except concatenation and power, which
associate to the right; a unary operator binds more tightly than the operators on its left and
less tightly than a power on its right.
-/

namespace TableScript

/-- The levels of expressions, from the loosest to the tightest. -/
inductive Level where
  | disjunction | conjunction | comparison | concatenation | additive | multiplicative | unary
  | power | primary
  deriving DecidableEq, Repr

/-- The next tighter level. -/
def Level.next : Level → Level
  | disjunction => conjunction
  | conjunction => comparison
  | comparison => concatenation
  | concatenation => additive
  | additive => multiplicative
  | multiplicative => unary
  | unary => power
  | power => primary
  | primary => primary

/-- The level of a binary operator. -/
def BinaryOperator.level : BinaryOperator → Level
  | or => .disjunction
  | and => .conjunction
  | equal | notEqual | less | lessEqual | greater | greaterEqual => .comparison
  | concat => .concatenation
  | add | subtract => .additive
  | multiply | divide | modulo => .multiplicative
  | power => .power

/-- The token that writes a binary operator. -/
def BinaryOperator.token : BinaryOperator → Token.Kind
  | add => .symbol .plus
  | subtract => .symbol .minus
  | multiply => .symbol .star
  | divide => .symbol .slash
  | modulo => .symbol .percent
  | power => .symbol .caret
  | concat => .symbol .concat
  | equal => .symbol .equal
  | notEqual => .symbol .notEqual
  | less => .symbol .less
  | lessEqual => .symbol .lessEqual
  | greater => .symbol .greater
  | greaterEqual => .symbol .greaterEqual
  | and => .keyword .and_
  | or => .keyword .or_

/-- The binary operators of one level. -/
def Level.operators : Level → List BinaryOperator
  | disjunction => [.or]
  | conjunction => [.and]
  | comparison => [.equal, .notEqual, .less, .lessEqual, .greater, .greaterEqual]
  | concatenation => [.concat]
  | additive => [.add, .subtract]
  | multiplicative => [.multiply, .divide, .modulo]
  | unary => []
  | power => [.power]
  | primary => []

/-- The binary operator of a level that a token writes. -/
def Level.binaryOperator? (level : Level) (kind : Token.Kind) : Option BinaryOperator :=
  level.operators.find? fun operator => operator.token = kind

/-- The token that writes a unary operator. -/
def UnaryOperator.token : UnaryOperator → Token.Kind
  | negate => .symbol .minus
  | not => .keyword .not_
  | length => .symbol .hash

/-- The unary operator that a token writes. -/
def unaryOperator? (kind : Token.Kind) : Option UnaryOperator :=
  [UnaryOperator.negate, .not, .length].find? fun operator => operator.token = kind

end TableScript
