import TableScript.Position

/-!
# Tokens

The words of the language: keywords, symbols, names, and the literals of numbers and strings.  A
number keeps the text it was written with; a string keeps its contents, escapes replaced.  The
end of a text is no token: where a token is looked for and the text has ended, there is `none`.
-/

namespace TableScript

/-- The reserved words. -/
inductive Keyword where
  | and_ | break_ | do_ | else_ | elseif_ | end_ | false_ | for_ | function_ | if_ | in_ | local_
  | nil_ | not_ | or_ | repeat_ | return_ | then_ | true_ | until_ | while_
  deriving DecidableEq, Repr

namespace Keyword

/-- A reserved word as it is written. -/
def text : Keyword → String
  | and_ => "and"
  | break_ => "break"
  | do_ => "do"
  | else_ => "else"
  | elseif_ => "elseif"
  | end_ => "end"
  | false_ => "false"
  | for_ => "for"
  | function_ => "function"
  | if_ => "if"
  | in_ => "in"
  | local_ => "local"
  | nil_ => "nil"
  | not_ => "not"
  | or_ => "or"
  | repeat_ => "repeat"
  | return_ => "return"
  | then_ => "then"
  | true_ => "true"
  | until_ => "until"
  | while_ => "while"

/-- All reserved words. -/
def all : List Keyword :=
  [and_, break_, do_, else_, elseif_, end_, false_, for_, function_, if_, in_, local_, nil_, not_,
    or_, repeat_, return_, then_, true_, until_, while_]

/-- The reserved word with a given text. -/
def ofText? (word : String) : Option Keyword :=
  all.find? fun keyword => keyword.text = word

end Keyword

/-- Operators and punctuation. -/
inductive Symbol where
  | plus | minus | star | slash | percent | caret | hash | concat | assign | equal | notEqual
  | less | lessEqual | greater | greaterEqual | comma | semicolon | dot | openParen | closeParen
  | openBrace | closeBrace | openBracket | closeBracket
  deriving DecidableEq, Repr

/-- A symbol as it is written. -/
def Symbol.text : Symbol → String
  | plus => "+"
  | minus => "-"
  | star => "*"
  | slash => "/"
  | percent => "%"
  | caret => "^"
  | hash => "#"
  | concat => ".."
  | assign => "="
  | equal => "=="
  | notEqual => "~="
  | less => "<"
  | lessEqual => "<="
  | greater => ">"
  | greaterEqual => ">="
  | comma => ","
  | semicolon => ";"
  | dot => "."
  | openParen => "("
  | closeParen => ")"
  | openBrace => "\x7b"
  | closeBrace => "\x7d"
  | openBracket => "["
  | closeBracket => "]"

namespace Token

/-- What a token is, its place apart. -/
inductive Kind where
  /-- A number without point and exponent, as written. -/
  | integer (text : String)
  /-- A number with a point or an exponent, as written. -/
  | float (text : String)
  /-- A word that is not reserved. -/
  | name (text : String)
  /-- The contents of a string literal. -/
  | string (contents : String)
  /-- A reserved word. -/
  | keyword (word : Keyword)
  /-- An operator or a punctuation mark. -/
  | symbol (mark : Symbol)
  deriving DecidableEq, Repr

namespace Kind

/-- The token that a word is: a reserved word or a name. -/
def ofWord (word : String) : Kind :=
  match Keyword.ofText? word with
  | some reserved => .keyword reserved
  | none => .name word

/-- Whether the token is by itself an expression with a fixed value. -/
def isLiteral : Kind → Bool
  | .integer _ | .float _ | .string _ => true
  | .keyword word => word = .nil_ ∨ word = .true_ ∨ word = .false_
  | _ => false

/-- Whether the token can only begin a statement, so that reading can start afresh at it. -/
def startsStatement : Kind → Bool
  | .keyword word =>
    [Keyword.break_, .do_, .for_, .function_, .if_, .local_, .repeat_, .return_, .while_].contains
      word
  | _ => false

/-- How a message speaks of the token. -/
def describe : Kind → String
  | .integer text | .float text => "number `" ++ text ++ "`"
  | .name text => "name `" ++ text ++ "`"
  | .string contents => "string \"" ++ contents ++ "\""
  | .keyword word => "`" ++ word.text ++ "`"
  | .symbol mark => "`" ++ mark.text ++ "`"

end Kind

end Token

/-- A token and the place of its first character. -/
structure Token where
  kind : Token.Kind
  position : Position
  deriving DecidableEq, Repr

namespace Token

/-- Whether a list of statements stops here: at the end of the text and at the words that close
a block. -/
def endsBlock : Option Kind → Bool
  | none => true
  | some (.keyword word) => [Keyword.end_, .else_, .elseif_, .until_].contains word
  | some _ => false

/-- How a message speaks of what was found in place of a token. -/
def describeFound : Option Kind → String
  | none => "end of file"
  | some kind => kind.describe

end Token

end TableScript
