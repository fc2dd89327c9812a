import TableScript.Eval
import TableScript.Tree.Parser

/-!
# Programs

A source text is compiled to a block, or to all that is wrong with it; a block is executed from a
scope in which nothing is bound.  Running a source text does both.
-/

namespace TableScript

/-- Reads a source text as a program, or gives every syntax error found.  The arrangement of the
tokens is looked at only if the text could be cut into tokens. -/
def compile (source : String) : Except (List Diagnostic) Block :=
  match tokenize source with
  | .ok tokens => parse tokens
  | .error diagnostics => .error diagnostics

/-- The number of calls that may be under way if nothing else is asked for. -/
def defaultCallLimit : Nat := 200

/-- Executes a program with nothing bound at its start.  Its value is what it returns, or nil. -/
def execute (fuel : Nat) (program : Block) : Action Value := fun state =>
  (do
    let flow ← Eval.block fuel program
    pure flow.result : Action Value) state.restart

/-- More fuel than any run can use in practice. -/
def ampleFuel : Nat := Nat.pow 2 62

/-- Why running a source text gives no value. -/
inductive Failure where
  /-- It is no program. -/
  | rejected (diagnostics : List Diagnostic)
  /-- Its execution failed. -/
  | failed (fault : Fault)

/-- The written form of a failure. -/
def Failure.text : Failure → String
  | rejected diagnostics => Diagnostic.summary diagnostics
  | failed fault => fault.text

/-- Compiles and executes a source text without input; none if the fuel does not suffice. -/
def run (host : Host) (fuel : Nat) (source : String) : Option (Except Failure Value × State) :=
  let state := State.start host defaultCallLimit [] (.kept "")
  match compile source with
  | .error diagnostics => some (.error (.rejected diagnostics), state)
  | .ok program =>
    match execute fuel program state with
    | .done value later => some (.ok value, later)
    | .failed fault later => some (.error (.failed fault), later)
    | .outOfFuel => none

end TableScript
