import TableScript.Token.Basic

/-!
# Diagnostics

A syntax error is a problem at a place.  What the problem is decides its code and the wording of
its message.
-/

namespace TableScript

/-- What can be wrong with a source text. -/
inductive Problem where
  /-- A character that begins no token. -/
  | strayCharacter (character : Char)
  /-- A tilde that no equals sign follows. -/
  | loneTilde
  /-- A string literal that its line, or the text, ends. -/
  | openString
  /-- A backslash before a character that cannot be escaped. -/
  | unknownEscape (character : Char)
  /-- A block comment that the text ends. -/
  | openComment
  /-- No statement begins with the token found. -/
  | noStatement (found : Option Token.Kind)
  /-- No expression begins with the token found. -/
  | noExpression (found : Option Token.Kind)
  /-- Something follows a top-level `return`. -/
  | returnNotLast
  /-- A certain token has to stand here. -/
  | missingToken (wanted : Token.Kind) (found : Option Token.Kind)
  /-- A name has to stand here. -/
  | missingName (found : Option Token.Kind)
  /-- A `break` that no loop of its own function encloses. -/
  | breakOutsideLoop
  /-- A local declaration of something other than a plain name. -/
  | indexedLocal (name : String)
  deriving DecidableEq, Repr

namespace Problem

/-- The code of a problem: `L` for the tokens of a text, `P` for their arrangement. -/
def code : Problem → String
  | strayCharacter _ | loneTilde => "L001"
  | openString => "L002"
  | unknownEscape _ => "L003"
  | openComment => "L004"
  | noStatement _ | noExpression _ | returnNotLast => "P001"
  | missingToken _ _ | missingName _ => "P002"
  | breakOutsideLoop => "P003"
  | indexedLocal _ => "P004"

/-- The message of a problem. -/
def message : Problem → String
  | strayCharacter character => "unexpected character `" ++ character.toString ++ "`"
  | loneTilde => "expected `~=`, bare `~` is not valid"
  | openString => "unterminated string literal"
  | unknownEscape character => "unknown escape sequence `\\" ++ character.toString ++ "`"
  | openComment => "unterminated block comment"
  | noStatement found => "expected statement, found " ++ Token.describeFound found
  | noExpression found => "expected expression, found " ++ Token.describeFound found
  | returnNotLast => "`return` must be the last statement of a block"
  | missingToken wanted found =>
    "expected " ++ wanted.describe ++ ", found " ++ Token.describeFound found
  | missingName found => "expected name, found " ++ Token.describeFound found
  | breakOutsideLoop => "`break` outside a loop"
  | indexedLocal name => "`local " ++ name ++ "` cannot have an index path"

end Problem

/-- A syntax error: a problem and its place. -/
structure Diagnostic where
  problem : Problem
  position : Position
  deriving DecidableEq, Repr

namespace Diagnostic

/-- The written form of a diagnostic: code, place and message. -/
def text (diagnostic : Diagnostic) : String :=
  "[" ++ diagnostic.problem.code ++ "] " ++ diagnostic.position.text ++ ": "
    ++ diagnostic.problem.message

/-- The written form of all diagnostics of a text: their number and the first one. -/
def summary (diagnostics : List Diagnostic) : String :=
  toString diagnostics.length ++ " syntax error(s), first: "
    ++ (diagnostics.head?.map text).getD ""

end Diagnostic

end TableScript
