/-!
# Input and output

A run prints lines and reads lines.  Printed lines are kept, or dropped by a silent output, or
passed on to the standard output of the process.  The standard output and the standard input can
fail.
-/

namespace TableScript

/-- Where printed lines go. -/
inductive Output where
  /-- Keeps what was printed. -/
  | kept (text : String)
  /-- Drops what is printed. -/
  | silent
  /-- Passes lines on to the standard output: what that has taken so far, and for each line to come
  what keeps it from being taken, if anything does.  Lines after these are taken. -/
  | standard (taken : String) (problems : List (Option String))
  deriving DecidableEq, Repr

namespace Output

/-- Prints a line; gives what kept it from being printed, if anything did. -/
def printLine (line : String) : Output → Option String × Output
  | kept text => (none, kept (text ++ line ++ "\n"))
  | silent => (none, silent)
  | standard taken [] => (none, standard (taken ++ line ++ "\n") [])
  | standard taken (none :: rest) => (none, standard (taken ++ line ++ "\n") rest)
  | standard taken (some problem :: rest) => (some problem, standard taken rest)

/-- What was printed and kept. -/
def text : Output → String
  | kept text => text
  | _ => ""

/-- What the standard output has taken. -/
def taken : Output → String
  | standard taken _ => taken
  | _ => ""

/-- Forgets what was printed and kept. -/
def clear : Output → Output
  | kept _ => kept ""
  | other => other

end Output

/-- A line of input. -/
inductive InputLine where
  | text (line : String)
  /-- A line that cannot be read, and why. -/
  | unreadable (problem : String)
  deriving DecidableEq, Repr

end TableScript
