import TableScript.State

/-!
# What variables do not depend on

A state holds its functions and its call limit beside the variables.  To put others in their place
commutes with every read and every change of variables, tables, input and frames: `reshape` does so,
and the lemmas here are for the changes that look at the rest of the state.  For all others this is
true by definition.
-/

namespace TableScript.State

/-- The state with other functions and another call limit, computed from those it has. -/
def reshape (functions : Bindings String Function → Bindings String Function) (limit : Nat → Nat)
    (state : State) : State :=
  { state with scope := { state.scope with
      functions := functions state.scope.functions
      callLimit := limit state.scope.callLimit } }

variable (functions : Bindings String Function → Bindings String Function) (limit : Nat → Nat)
  (state : State)

@[simp] theorem heap_reshape : (state.reshape functions limit).heap = state.heap := rfl

@[simp] theorem lookup_reshape (name : String) :
    (state.reshape functions limit).scope.lookup name = state.scope.lookup name := rfl

theorem reshape_declare (name : String) (value : Value) :
    (state.reshape functions limit).declare name value =
      (state.declare name value).reshape functions limit := by
  obtain ⟨⟨globals, known, frames, depth, calls⟩, heap, input, output⟩ := state
  cases frames with
  | nil => rfl
  | cons frame rest => rfl

theorem reshape_setEntry (identity : TableId) (key value : Value) :
    (state.reshape functions limit).setEntry identity key value =
      (state.setEntry identity key value).map (·.reshape functions limit) := by
  unfold setEntry
  rw [heap_reshape]
  cases (state.heap.table identity).set key value with
  | ok table => rfl
  | error problem => rfl

theorem reshape_assign (name : String) (keys : List Value) (value : Value) :
    (state.reshape functions limit).assign name keys value =
      (state.assign name keys value).map (·.reshape functions limit) := by
  unfold assign
  cases keys.getLast? with
  | none =>
      unfold Scope.store reshape
      dsimp only
      cases Frames.update? name value state.scope.frames with
      | none => rfl
      | some frames => rfl
  | some last =>
      simp only [heap_reshape, lookup_reshape]
      cases reach state.heap name [] (state.scope.lookup name) keys.dropLast with
      | ok identity => exact state.reshape_setEntry functions limit identity last value
      | error cause => rfl

theorem reshape_takeLine :
    (state.reshape functions limit).takeLine =
      (state.takeLine.1, state.takeLine.2.reshape functions limit) := by
  obtain ⟨scope, heap, input, output⟩ := state
  cases input with
  | nil => rfl
  | cons line rest => rfl

theorem reshape_leaveCall :
    (state.reshape functions limit).leaveCall = state.leaveCall.reshape functions limit := by
  obtain ⟨⟨globals, known, frames, depth, calls⟩, heap, input, output⟩ := state
  cases frames with
  | nil => rfl
  | cons frame rest => rfl

end TableScript.State
