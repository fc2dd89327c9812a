import TableScript.Diagnostic

/-!
# Reading a list of tokens

A reader takes tokens from the front of a list and gives a result and the tokens left, or a
problem and the tokens left: a problem always lies at the first token that was not taken.  A
reader that recurses does so on a number of steps, and says so when they are used up.
-/

namespace TableScript

/-- What a reader makes of a list of tokens. -/
inductive Parsed (α : Type) where
  /-- A result, and the tokens after it. -/
  | accepted (value : α) (rest : List Token)
  /-- A problem, which lies at the first of the tokens left. -/
  | rejected (problem : Problem) (rest : List Token)
  /-- The steps allowed were used up. -/
  | exhausted

/-- A reader of tokens. -/
def Reader (α : Type) : Type := List Token → Parsed α

/-- The kind of the first token, if there is one. -/
def firstKind? (tokens : List Token) : Option Token.Kind := tokens.head?.map Token.kind

namespace Reader

/-- Takes nothing and gives a value. -/
@[inline] protected def pure {α : Type} (value : α) : Reader α := fun tokens =>
  .accepted value tokens

/-- Reads with one reader and goes on with the next where it stopped. -/
@[inline] protected def bind {α β : Type} (reader : Reader α) (next : α → Reader β) : Reader β :=
  fun tokens =>
    match reader tokens with
    | .accepted value rest => next value rest
    | .rejected problem rest => .rejected problem rest
    | .exhausted => .exhausted

instance : Monad Reader where
  pure := Reader.pure
  bind := Reader.bind

/-- The steps allowed are used up. -/
def exhausted {α : Type} : Reader α := fun _ => .exhausted

/-- Refuses the first token with a problem. -/
def refuse {α : Type} (problem : Option Token.Kind → Problem) : Reader α := fun tokens =>
  .rejected (problem (firstKind? tokens)) tokens

/-- The kind of the next token, which is not taken. -/
def peek? : Reader (Option Token.Kind) := fun tokens => .accepted (firstKind? tokens) tokens

/-- Takes the next token if it is of a given kind. -/
def accept (kind : Token.Kind) : Reader Bool
  | token :: rest =>
    if token.kind = kind then .accepted true rest else .accepted false (token :: rest)
  | [] => .accepted false []

/-- Takes the next token, which has to be of a given kind, and gives its place. -/
def expect (kind : Token.Kind) : Reader Position
  | token :: rest =>
    if token.kind = kind then .accepted token.position rest
    else .rejected (.missingToken kind (some token.kind)) (token :: rest)
  | [] => .rejected (.missingToken kind none) []

/-- Takes the next token, which has to be a name, and gives the name and its place. -/
def expectName : Reader (String × Position)
  | ⟨.name name, position⟩ :: rest => .accepted (name, position) rest
  | tokens => .rejected (.missingName (firstKind? tokens)) tokens

/-- Takes the next token if a function on kinds has a value for it, and gives the value and the
place. -/
def acceptMap {α : Type} (select : Token.Kind → Option α) : Reader (Option (α × Position))
  | token :: rest =>
    match select token.kind with
    | some value => .accepted (some (value, token.position)) rest
    | none => .accepted none (token :: rest)
  | [] => .accepted none []

end Reader

end TableScript
