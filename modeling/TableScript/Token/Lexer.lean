import TableScript.Diagnostic

/-!
# From text to tokens

A text is cut into slices, one after the other: tokens, gaps between tokens (blanks and
comments), and faulty pieces.  Every slice begins where the one before ended, takes at least one
character, and is as long as it can be.  `slices` keeps the characters of every slice, so that
the slices of a text put together are the text; `tokenize` keeps the tokens, or all diagnostics
if there is a faulty piece.
-/

namespace TableScript

namespace Lexer

/-! ## Character classes -/

/-- The characters that divide tokens. -/
def isSpace (character : Char) : Bool :=
  character = ' ' || character = '\t' || character = '\r' || character = '\n'

/-- The characters that a name can begin with. -/
def beginsName (character : Char) : Bool := character.isAlpha || character = '_'

/-- The characters that a name can go on with. -/
def continuesName (character : Char) : Bool := character.isAlphanum || character = '_'

/-- The bytes of a character's UTF-8 form, each shown as the character of that code. -/
def bytesOf (character : Char) : List Char :=
  (String.utf8EncodeChar character).map fun byte => Char.ofNat byte.toNat

/-! ## Numbers -/

/-- The exponent that a text begins with: a mark, an optional sign and at least one digit, or
nothing. -/
def exponentPart : List Char → List Char
  | mark :: rest =>
    if mark = 'e' || mark = 'E' then
      let sign := match rest with
        | '+' :: _ => ['+']
        | '-' :: _ => ['-']
        | _ => []
      let digits := (rest.drop sign.length).takeWhile Char.isDigit
      if digits.isEmpty then [] else mark :: sign ++ digits
    else []
  | [] => []

/-- The point and the digits after it that a text begins with, or nothing.  Two points are an
operator and no part of a number. -/
def fractionPart : List Char → List Char
  | '.' :: '.' :: _ => []
  | '.' :: rest => '.' :: rest.takeWhile Char.isDigit
  | _ => []

/-- The number that a text begins with: digits before the point, the point and digits after it,
and an exponent. -/
def numberParts (characters : List Char) : List Char × List Char × List Char :=
  let whole := characters.takeWhile Char.isDigit
  let afterWhole := characters.drop whole.length
  let fraction := fractionPart afterWhole
  (whole, fraction, exponentPart (afterWhole.drop fraction.length))

/-! ## Strings -/

/-- What an escaped character stands for. -/
def unescape? : Char → Option Char
  | 'n' => some '\n'
  | 't' => some '\t'
  | 'r' => some '\r'
  | '0' => some '\x00'
  | '"' => some '"'
  | '\'' => some '\''
  | '\\' => some '\\'
  | _ => none

/-- What was read of a string literal after its opening quote. -/
structure Quoted where
  /-- The contents, escapes replaced. -/
  contents : List Char
  /-- The characters taken, the closing quote included. -/
  taken : List Char
  /-- Whether the closing quote was found. -/
  closed : Bool
  /-- The first character that cannot be escaped, and the characters taken before it. -/
  badEscape : Option (Char × List Char)

/-- Puts characters in front of what was read of a string literal. -/
def Quoted.prepend (written : List Char) (meant : List Char) (quoted : Quoted) : Quoted :=
  { contents := meant ++ quoted.contents
    taken := written ++ quoted.taken
    closed := quoted.closed
    badEscape := quoted.badEscape.map fun (character, before) => (character, written ++ before) }

/-- Reads a string literal after its opening quote.  It ends at the next quote of the same kind
that is not escaped; the end of the line or of the text leaves it open. -/
def readQuoted (quote : Char) : List Char → Quoted
  | [] => ⟨[], [], false, none⟩
  | '\\' :: escaped :: rest =>
    match unescape? escaped with
    | some meant => (readQuoted quote rest).prepend ['\\', escaped] [meant]
    | none =>
      { (readQuoted quote rest).prepend ['\\', escaped] [] with
        badEscape := some (escaped, ['\\']) }
  | character :: rest =>
    if character = '\n' then ⟨[], [], false, none⟩
    else if character = quote then ⟨[], [character], true, none⟩
    else (readQuoted quote rest).prepend [character] [character]

/-! ## Comments -/

/-- The characters up to and including the first two closing brackets, if they come. -/
def throughClosing? : List Char → Option (List Char)
  | ']' :: ']' :: _ => some [']', ']']
  | character :: rest => (throughClosing? rest).map (character :: ·)
  | [] => none

/-! ## Symbols -/

/-- The longest symbol that a text begins with. -/
def symbol? : List Char → Option Symbol
  | '.' :: '.' :: _ => some .concat
  | '=' :: '=' :: _ => some .equal
  | '~' :: '=' :: _ => some .notEqual
  | '<' :: '=' :: _ => some .lessEqual
  | '>' :: '=' :: _ => some .greaterEqual
  | '.' :: _ => some .dot
  | '=' :: _ => some .assign
  | '<' :: _ => some .less
  | '>' :: _ => some .greater
  | '+' :: _ => some .plus
  | '-' :: _ => some .minus
  | '*' :: _ => some .star
  | '/' :: _ => some .slash
  | '%' :: _ => some .percent
  | '^' :: _ => some .caret
  | '#' :: _ => some .hash
  | ',' :: _ => some .comma
  | ';' :: _ => some .semicolon
  | '(' :: _ => some .openParen
  | ')' :: _ => some .closeParen
  | '\x7b' :: _ => some .openBrace
  | '\x7d' :: _ => some .closeBrace
  | '[' :: _ => some .openBracket
  | ']' :: _ => some .closeBracket
  | _ => none

/-! ## Slices -/

/-- What a slice of the text is. -/
inductive Piece where
  /-- A token. -/
  | token (kind : Token.Kind)
  /-- Blanks, or a comment. -/
  | gap
  /-- A character that begins no token. -/
  | stray (character : Char)
  /-- A piece with a problem, which lies just after the given characters of the slice. -/
  | faulty (problem : Problem) (before : List Char)

/-- The piece that a string literal is. -/
def quotedPiece (quote : Char) (quoted : Quoted) : Piece :=
  if quoted.closed then
    match quoted.badEscape with
    | none => .token (.string (String.ofList quoted.contents))
    | some (character, before) =>
      .faulty (.unknownEscape ((bytesOf character).headD character)) (quote :: before)
  else .faulty .openString []

/-- Reads a comment after its two dashes: the piece that it is, and what it takes. -/
def readComment : List Char → Piece × List Char
  | '[' :: '[' :: rest =>
    match throughClosing? rest with
    | some body => (.gap, '[' :: '[' :: body)
    | none => (.faulty .openComment [], '[' :: '[' :: rest)
  | rest => (.gap, rest.takeWhile (· ≠ '\n'))

/-- The first piece of a text, and the characters after its first one that it takes. -/
def scan (first : Char) (rest : List Char) : Piece × List Char :=
  if isSpace first then (.gap, rest.takeWhile isSpace)
  else if first = '-' && rest.head? = some '-' then
    let (piece, taken) := readComment rest.tail
    (piece, '-' :: taken)
  else if first = '"' || first = '\'' then
    let quoted := readQuoted first rest
    (quotedPiece first quoted, quoted.taken)
  else if first.isDigit || (first = '.' && (rest.head?.map Char.isDigit).getD false) then
    let (whole, fraction, exponent) := numberParts (first :: rest)
    let text := whole ++ fraction ++ exponent
    let piece :=
      if fraction.isEmpty && exponent.isEmpty then Token.Kind.integer (String.ofList text)
      else Token.Kind.float (String.ofList text)
    (.token piece, text.tail)
  else if beginsName first then
    let more := rest.takeWhile continuesName
    (.token (.ofWord (String.ofList (first :: more))), more)
  else
    match symbol? (first :: rest) with
    | some mark => (.token (.symbol mark), mark.text.toList.tail)
    | none => if first = '~' then (.faulty .loneTilde [], []) else (.stray first, [])

/-- A piece of the text, the place of its first character, and its characters. -/
structure Slice where
  piece : Piece
  position : Position
  taken : List Char

/-- Cuts a text that begins at a given place into slices. -/
def slices (position : Position) : List Char → List Slice
  | [] => []
  | first :: rest =>
    let found := scan first rest
    let taken := first :: rest.take found.2.length
    ⟨found.1, position, taken⟩
      :: slices (position.afterAll taken) (rest.drop found.2.length)
  termination_by characters => characters.length
  decreasing_by simp only [List.length_drop, List.length_cons]; omega

namespace Slice

/-- The token that a slice is. -/
def token? (slice : Slice) : Option Token :=
  match slice.piece with
  | .token kind => some ⟨kind, slice.position⟩
  | _ => none

/-- The diagnostics of a slice.  A stray character has one for each of its bytes. -/
def diagnostics (slice : Slice) : List Diagnostic :=
  match slice.piece with
  | .token _ | .gap => []
  | .stray character =>
    (bytesOf character).mapIdx fun index byte =>
      ⟨.strayCharacter byte, slice.position.shift index⟩
  | .faulty problem before => [⟨problem, slice.position.afterAll before⟩]

end Slice

end Lexer

/-- The tokens of a text and the place where the text ends. -/
structure Tokens where
  list : List Token
  finish : Position
  deriving DecidableEq, Repr

/-- Cuts a source text into tokens, or gives all that is wrong with its pieces. -/
def tokenize (source : String) : Except (List Diagnostic) Tokens :=
  let slices := Lexer.slices .start source.toList
  match slices.flatMap Lexer.Slice.diagnostics with
  | [] => .ok ⟨slices.filterMap Lexer.Slice.token?, Position.start.afterAll source.toList⟩
  | diagnostics => .error diagnostics

end TableScript
