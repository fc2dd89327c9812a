import TableScript.Table
import TableScript.Tree.Basic

/-!
# Faults

A run that fails does so for a cause and at a place.  The cause decides the kind that the fault
is reported as and the wording of its message.
-/

namespace TableScript

/-- A variable with the keys of its index steps. -/
structure Access where
  name : String
  keys : List Value

namespace Access

/-- Whether a text could be written as a name. -/
def isIdentifier (text : String) : Bool :=
  match text.toList with
  | [] => false
  | first :: rest =>
    (first.isAlpha || first = '_') && rest.all fun character =>
      character.isAlphanum || character = '_'

/-- One index step as it could be written. -/
def stepText : Value → String
  | .string key => if isIdentifier key then "." ++ key else "[\"" ++ key ++ "\"]"
  | key => "[" ++ key.text ++ "]"

/-- The variable and its index steps as they could be written. -/
def text (access : Access) : String :=
  access.name ++ String.join (access.keys.map stepText)

end Access

/-- The parts of the head of a counting loop. -/
inductive LoopBound where
  | start | limit | step
  deriving DecidableEq, Repr

/-- How a message names a part of the head of a counting loop. -/
def LoopBound.text : LoopBound → String
  | start => "initial value"
  | limit => "limit"
  | step => "step"

/-- The kinds that faults are reported as. -/
inductive FaultKind where
  | name | type | format | arithmetic | recursion | console
  deriving DecidableEq, Repr

/-- A kind of fault as it is written. -/
def FaultKind.text : FaultKind → String
  | name => "NameError"
  | type => "TypeError"
  | format => "FormatError"
  | arithmetic => "ArithmeticError"
  | recursion => "RecursionError"
  | console => "IoError"

/-- Why a run fails. -/
inductive Cause where
  /-- A call of a function that was never defined. -/
  | undefinedFunction (name : String)
  /-- An integer was divided by zero. -/
  | divisionByZero
  /-- The remainder of an integer by zero was asked for. -/
  | remainderByZero
  /-- A counting loop cannot advance by its step. -/
  | unusableStep (step : Value)
  /-- An operand that arithmetic cannot use. -/
  | notNumeric (operator : BinaryOperator) (operand : Value)
  /-- A text operand that is no decimal numeral. -/
  | notDecimal (operator : BinaryOperator) (text : String)
  /-- An exponent that is no integer. -/
  | fractionalExponent (exponent : Value)
  /-- Arithmetic with an operator that is not arithmetic. -/
  | notArithmetic (operator : BinaryOperator)
  /-- Operands were given to an operator that decides whether to evaluate them. -/
  | lazyOperator (operator : BinaryOperator)
  /-- The negation of something that is no number. -/
  | notNegatable (operand : Value)
  /-- The logical complement of something that is no boolean. -/
  | notInvertible (operand : Value)
  /-- The length of something that is no list. -/
  | noLength (operand : Value)
  /-- A condition that is no boolean; the context is the word that it belongs to. -/
  | notBoolean (context : String) (value : Value)
  /-- A bound of a counting loop that is no number. -/
  | notNumberBound (bound : LoopBound) (value : Value)
  /-- Reading a field of something that has none. -/
  | readIndexed (value : Value) (access : Access)
  /-- Storing into a field of something that has none. -/
  | storeIndexed (value : Value) (access : Access)
  /-- A value that cannot be a key. -/
  | invalidKey (key : InvalidKey)
  /-- An integer literal out of range. -/
  | integerLiteral (text : String)
  /-- A literal that is no number. -/
  | floatLiteral (text : String)
  /-- An input line that is no number. -/
  | numberLine (line : String)
  /-- More calls inside each other than allowed. -/
  | tooManyCalls (limit : Nat) (name : String)
  /-- A line could not be printed, or could not be read. -/
  | console (problem : String)

namespace Cause

/-- The kind that a cause is reported as. -/
def kind : Cause → FaultKind
  | undefinedFunction _ => .name
  | divisionByZero | remainderByZero | unusableStep _ => .arithmetic
  | notDecimal _ _ | integerLiteral _ | floatLiteral _ | numberLine _ => .format
  | tooManyCalls _ _ => .recursion
  | console _ => .console
  | _ => .type

/-- The message about a cause. -/
def message : Cause → String
  | undefinedFunction name => "attempt to call undefined function `" ++ name ++ "`"
  | divisionByZero => "attempt to divide by zero"
  | remainderByZero => "attempt to perform `n % 0`"
  | unusableStep step => "'for' step must be non-zero, got " ++ step.text
  | notNumeric operator operand =>
    "attempt to perform arithmetic (`" ++ operator.symbol ++ "`) on a " ++ operand.typeName
      ++ " value"
  | notDecimal operator text =>
    "cannot convert \"" ++ text ++ "\" to a number for `" ++ operator.symbol ++ "`"
  | fractionalExponent exponent => "exponent must be an integer, got " ++ exponent.text
  | notArithmetic operator => "`" ++ operator.symbol ++ "` is not arithmetic"
  | lazyOperator operator => "`" ++ operator.symbol ++ "` must be evaluated lazily"
  | notNegatable operand => "attempt to negate a " ++ operand.typeName ++ " value"
  | notInvertible operand => "`not` requires a boolean, got " ++ operand.typeName
  | noLength operand => "attempt to get length of a " ++ operand.typeName ++ " value"
  | notBoolean context value =>
    "`" ++ context ++ "` expects a boolean, got " ++ value.typeName ++ " (" ++ value.text ++ ")"
  | notNumberBound bound value =>
    "'for' " ++ bound.text ++ " must be a number, got " ++ value.typeName
  | readIndexed value access =>
    "attempt to index a " ++ value.typeName ++ " value (`" ++ access.text ++ "`)"
  | storeIndexed .nil access => "cannot index nil (`" ++ access.text ++ "`)"
  | storeIndexed value access =>
    "cannot index a " ++ value.typeName ++ " value (`" ++ access.text ++ "`)"
  | invalidKey key => key.message
  | integerLiteral text => "integer literal `" ++ text ++ "` does not fit in 64 bits"
  | floatLiteral text => "malformed number `" ++ text ++ "`"
  | numberLine line => "expected a number, read \"" ++ line ++ "\""
  | tooManyCalls limit name =>
    "stack overflow: more than " ++ toString limit ++ " nested calls (in `" ++ name ++ "`)"
  | console problem => problem

end Cause

/-- A failure of a run: a cause and its place. -/
structure Fault where
  cause : Cause
  position : Position

/-- The written form of a fault: kind, place and message. -/
def Fault.text (fault : Fault) : String :=
  "[" ++ fault.cause.kind.text ++ "] " ++ fault.position.text ++ ": " ++ fault.cause.message

end TableScript
