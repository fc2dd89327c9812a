/-!
# Positions in a source text

A position is a line and a column, both counted from one.  The column counts the bytes of the
text's UTF-8 form, so a character outside ASCII moves it by two to four.
-/

namespace TableScript

/-- A place in a source text: line and byte column, both from one. -/
structure Position where
  line : Nat
  column : Nat
  deriving DecidableEq, Repr, Inhabited

namespace Position

/-- The place of the first character of a text. -/
def start : Position := ⟨1, 1⟩

/-- The place just after a character that stands at `position`. -/
def after (position : Position) (character : Char) : Position :=
  if character = '\n' then ⟨position.line + 1, 1⟩
  else ⟨position.line, position.column + character.utf8Size⟩

/-- The place just after a run of characters that begins at `position`. -/
def afterAll (position : Position) (characters : List Char) : Position :=
  characters.foldl after position

/-- The place `count` bytes further right in the same line. -/
def shift (position : Position) (count : Nat) : Position :=
  ⟨position.line, position.column + count⟩

/-- The written form, line and column divided by a colon. -/
def text (position : Position) : String :=
  toString position.line ++ ":" ++ toString position.column

@[simp] theorem afterAll_nil (position : Position) : position.afterAll [] = position := rfl

@[simp] theorem afterAll_cons (position : Position) (character : Char) (rest : List Char) :
    position.afterAll (character :: rest) = (position.after character).afterAll rest := rfl

theorem afterAll_append (position : Position) (left right : List Char) :
    position.afterAll (left ++ right) = (position.afterAll left).afterAll right := by
  simp [afterAll, List.foldl_append]

end Position

end TableScript
