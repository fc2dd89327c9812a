import TableScript.Reading
import TableScript.State

/-!
# Actions

An action takes a state and ends with a value or with a fault, and with a new state in both
cases: what was printed, read or stored before a fault stays so.  A run that recurses does so on
an amount of fuel; when the fuel is used up nothing is known, so that outcome has no state.
-/

namespace TableScript

/-- How an action ends. -/
inductive Outcome (α : Type) where
  /-- With a value. -/
  | done (value : α) (state : State)
  /-- With a fault. -/
  | failed (fault : Fault) (state : State)
  /-- Not within the fuel given. -/
  | outOfFuel

/-- Something that a run does. -/
def Action (α : Type) : Type := State → Outcome α

namespace Action

variable {α β : Type}

/-- Changes nothing and gives a value. -/
@[inline] protected def pure (value : α) : Action α := fun state => .done value state

/-- Does one thing and then another, unless the first fails. -/
@[inline] protected def bind (action : Action α) (next : α → Action β) : Action β := fun state =>
  match action state with
  | .done value later => next value later
  | .failed fault later => .failed fault later
  | .outOfFuel => .outOfFuel

instance : Monad Action where
  pure := Action.pure
  bind := Action.bind

/-- The fuel is used up. -/
def outOfFuel : Action α := fun _ => .outOfFuel

/-- Fails at a place. -/
def fail (position : Position) (cause : Cause) : Action α := fun state =>
  .failed ⟨cause, position⟩ state

/-- Gives a value that was computed, or fails at a place. -/
def check (position : Position) : Except Cause α → Action α
  | .ok value => Action.pure value
  | .error cause => fail position cause

/-- Changes the state. -/
def change (update : State → State) : Action Unit := fun state => .done () (update state)

/-- Changes the state, or fails at a place and leaves it as it is. -/
def attempt (position : Position) (update : State → Except Cause State) : Action Unit :=
  fun state =>
    match update state with
    | .ok later => .done () later
    | .error cause => .failed ⟨cause, position⟩ state

/-- Does something and changes the state afterwards, also after a fault. -/
@[inline] def finally_ (action : Action α) (update : State → State) : Action α := fun state =>
  match action state with
  | .done value later => .done value (update later)
  | .failed fault later => .failed fault (update later)
  | .outOfFuel => .outOfFuel

/-- Does something inside the frame of a loop. -/
@[inline] def inLoopFrame (keyword : LoopKeyword) (action : Action α) : Action α := fun state =>
  action.finally_ State.leaveLoop (state.enterLoop keyword)

/-! ## Variables, tables, input and output -/

/-- Reads a variable with an index path. -/
def readVariable (position : Position) (name : String) (keys : List Value) : Action Value :=
  fun state => check position (state.read name keys) state

/-- A table without entries. -/
def newTable : Action Table := fun state => .done state.heap.newTable state

/-- Puts a new table into the heap. -/
def allocate (table : Table) : Action Value := fun state =>
  let (identity, later) := state.allocate table
  .done (.table identity) later

/-- The function with a name. -/
def findFunction (position : Position) (name : String) : Action Function := fun state =>
  match state.scope.function? name with
  | some function => .done function state
  | none => .failed ⟨.undefinedFunction name, position⟩ state

/-- Prints a line. -/
def print (position : Position) (line : String) : Action Unit := fun state =>
  match state.printLine line with
  | (none, later) => .done () later
  | (some problem, later) => .failed ⟨.console problem, position⟩ later

/-- Reads an input line, in a format if one is given; nil if there is no line left. -/
def readLine (position : Position) (format : Option String) : Action Value := fun state =>
  match state.takeLine with
  | (none, later) => .done .nil later
  | (some (.unreadable problem), later) => .failed ⟨.console problem, position⟩ later
  | (some (.text line), later) =>
    if (format.map Reading.isNumberFormat).getD false then
      check position (Reading.ofLine line) later
    else .done (.string line) later

end Action

end TableScript
