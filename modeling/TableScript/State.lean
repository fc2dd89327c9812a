import TableScript.Console
import TableScript.Heap
import TableScript.Scope

/-!
# The state of a run

A state is what names are bound to, the entries of all tables, the input lines not yet read and
the output.  This module reads and writes variables with index paths; reading through nil gives
nil, and writing through nil is a fault.
-/

namespace TableScript

/-- All that a run can change. -/
structure State where
  scope : Scope
  heap : Heap
  input : List InputLine
  output : Output

namespace State

/-- The state in which a program starts. -/
def start (host : Host) (callLimit : Nat) (input : List InputLine) (output : Output) : State :=
  ⟨.start callLimit, .start host, input, output⟩

/-- The state with nothing bound, everything else as it is. -/
def restart (state : State) : State :=
  { state with scope := .start state.scope.callLimit }

/-! ## Index paths -/

/-- What the keys lead to from a value.  Nil stays nil whatever keys follow.  The keys visited so
far are for the message. -/
def follow (heap : Heap) (name : String) (visited : List Value) (current : Value) :
    List Value → Except Cause Value
  | [] => .ok current
  | key :: rest =>
    match current with
    | .table identity =>
      follow heap name (visited ++ [key]) ((heap.table identity).get key) rest
    | .nil => .ok .nil
    | other => .error (.readIndexed other ⟨name, visited⟩)

/-- The value of a variable with an index path. -/
def read (state : State) (name : String) (keys : List Value) : Except Cause Value :=
  follow state.heap name [] (state.scope.lookup name) keys

/-- The table that the keys lead to from a value. -/
def reach (heap : Heap) (name : String) (visited : List Value) (current : Value) :
    List Value → Except Cause TableId
  | [] =>
    match current with
    | .table identity => .ok identity
    | other => .error (.storeIndexed other ⟨name, visited⟩)
  | key :: rest =>
    match current with
    | .table identity => reach heap name (visited ++ [key]) ((heap.table identity).get key) rest
    | other => .error (.storeIndexed other ⟨name, visited⟩)

/-- Stores into a table. -/
def setEntry (state : State) (identity : TableId) (key value : Value) : Except Cause State :=
  match (state.heap.table identity).set key value with
  | .ok table => .ok { state with heap := state.heap.replace identity table }
  | .error problem => .error (.invalidKey problem)

/-- Stores into a variable, or into the table that all keys but the last lead to. -/
def assign (state : State) (name : String) (keys : List Value) (value : Value) :
    Except Cause State :=
  match keys.getLast? with
  | none => .ok { state with scope := state.scope.store name value }
  | some last =>
    match reach state.heap name [] (state.scope.lookup name) keys.dropLast with
    | .ok identity => state.setEntry identity last value
    | .error cause => .error cause

/-! ## Changes of one part -/

/-- Binds a name in the innermost frame. -/
def declare (state : State) (name : String) (value : Value) : State :=
  { state with scope := state.scope.declare name value }

/-- Enters the frame of a loop. -/
def enterLoop (state : State) (keyword : LoopKeyword) : State :=
  { state with scope := state.scope.enterLoop keyword }

/-- Leaves the frame of a loop. -/
def leaveLoop (state : State) : State := { state with scope := state.scope.leaveLoop }

/-- Enters the frame of a call. -/
def enterCall (state : State) (function : Function) (arguments : List Value) :
    Except Cause State :=
  (state.scope.enterCall function arguments).map fun scope => { state with scope := scope }

/-- Leaves the frame of a call. -/
def leaveCall (state : State) : State := { state with scope := state.scope.leaveCall }

/-- Defines a function. -/
def define (state : State) (function : Function) : State :=
  { state with scope := state.scope.define function }

/-- Puts a new table into the heap. -/
def allocate (state : State) (table : Table) : TableId × State :=
  let (identity, heap) := state.heap.allocate table
  (identity, { state with heap := heap })

/-- Prints a line; gives what kept it from being printed, if anything did. -/
def printLine (state : State) (line : String) : Option String × State :=
  let (problem, output) := state.output.printLine line
  (problem, { state with output := output })

/-- Takes the next input line; none if all have been read. -/
def takeLine (state : State) : Option InputLine × State :=
  match state.input with
  | [] => (none, state)
  | line :: rest => (some line, { state with input := rest })

end State

end TableScript
