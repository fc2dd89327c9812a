import TableScript.State

/-!
# What the single changes of a state do

Most changes of a state say in their definition what they do.  Two do not: an assignment goes to a
frame, to the globals or to a table, depending on what is bound, and a declaration to a frame or to
the globals.  The lemmas here say once what can come of them, so that what is kept by every change
is proved without unfolding them again.
-/

namespace TableScript

namespace Scope

/-- A name is declared globally if there is no frame, and else in the innermost one. -/
theorem declare_cases (scope : Scope) (name : String) (value : Value) :
    (scope.frames = [] ∧
      scope.declare name value = { scope with globals := scope.globals.insert name value }) ∨
    ∃ frame rest, scope.frames = frame :: rest ∧
      scope.declare name value =
        { scope with
          frames := { frame with bindings := frame.bindings.insert name value } :: rest } := by
  unfold declare
  split
  · next hframes => exact .inl ⟨hframes, rfl⟩
  · next frame rest hframes => exact .inr ⟨frame, rest, hframes, rfl⟩

/-- A value is stored in the visible frame that binds the name, or globally if none does. -/
theorem store_cases (scope : Scope) (name : String) (value : Value) :
    (Frames.update? name value scope.frames = none ∧
      scope.store name value = { scope with globals := scope.globals.insert name value }) ∨
    ∃ frames, Frames.update? name value scope.frames = some frames ∧
      scope.store name value = { scope with frames := frames } := by
  unfold store
  split
  · next frames hupdate => exact .inr ⟨frames, hupdate, rfl⟩
  · next hupdate => exact .inl ⟨hupdate, rfl⟩

/-- A call that is entered has its parameters bound in a frame of its own. -/
theorem enterCall_cases {scope entered : Scope} {function : Function} {arguments : List Value}
    (hentered : scope.enterCall function arguments = .ok entered) :
    scope.callDepth < scope.callLimit ∧
      entered = { scope with
        frames := ⟨.call function.name, bindParameters .empty function.parameters arguments⟩ ::
          scope.frames
        callDepth := scope.callDepth + 1 } := by
  unfold enterCall at hentered
  split at hentered
  · cases hentered
  · cases hentered
    exact ⟨by omega, rfl⟩

end Scope

namespace State

variable {state later : State}

/-- Storing into a table puts the table with the new entry in its place. -/
theorem setEntry_cases {identity : TableId} {key value : Value}
    (hset : state.setEntry identity key value = .ok later) :
    ∃ table, (state.heap.table identity).set key value = .ok table ∧
      later = { state with heap := state.heap.replace identity table } := by
  unfold setEntry at hset
  split at hset
  · next table hstored =>
      cases hset
      exact ⟨table, hstored, rfl⟩
  · cases hset

/-- An assignment without keys stores into a variable.  With keys it stores under the last key, into
the table that the keys before it lead to. -/
theorem assign_cases {name : String} {keys : List Value} {value : Value}
    (hassign : state.assign name keys value = .ok later) :
    (keys = [] ∧ later = { state with scope := state.scope.store name value }) ∨
    ∃ last identity table, keys.getLast? = some last ∧
      reach state.heap name [] (state.scope.lookup name) keys.dropLast = .ok identity ∧
      (state.heap.table identity).set last value = .ok table ∧
      later = { state with heap := state.heap.replace identity table } := by
  unfold assign at hassign
  split at hassign
  · next hnone =>
      cases hassign
      exact .inl ⟨List.getLast?_eq_none_iff.mp hnone, rfl⟩
  · next last hlast =>
      split at hassign
      · next identity hreach =>
          obtain ⟨table, hset, hlater⟩ := setEntry_cases hassign
          exact .inr ⟨last, identity, table, hlast, hreach, hset, hlater⟩
      · cases hassign

theorem enterCall_cases {entered : State} {function : Function} {arguments : List Value}
    (hentered : state.enterCall function arguments = .ok entered) :
    ∃ scope, state.scope.enterCall function arguments = .ok scope ∧
      entered = { state with scope := scope } := by
  unfold enterCall at hentered
  cases hscope : state.scope.enterCall function arguments with
  | error cause =>
      rw [hscope] at hentered
      cases hentered
  | ok scope =>
      rw [hscope] at hentered
      cases hentered
      exact ⟨scope, rfl, rfl⟩

/-! ## The functions of a state

Only a definition changes them. -/

theorem functions_declare (name : String) (value : Value) :
    (state.declare name value).scope.functions = state.scope.functions := by
  unfold declare
  rcases state.scope.declare_cases name value with ⟨-, hdeclared⟩ | ⟨_, _, -, hdeclared⟩
  · rw [hdeclared]
  · rw [hdeclared]

theorem functions_assign {name : String} {keys : List Value} {value : Value}
    (hassign : state.assign name keys value = .ok later) :
    later.scope.functions = state.scope.functions := by
  rcases assign_cases hassign with ⟨-, rfl⟩ | ⟨_, _, _, -, -, -, rfl⟩
  · rcases state.scope.store_cases name value with ⟨-, hstored⟩ | ⟨_, -, hstored⟩
    · rw [hstored]
    · rw [hstored]
  · rfl

theorem functions_enterCall {function : Function} {arguments : List Value}
    (hentered : state.enterCall function arguments = .ok later) :
    later.scope.functions = state.scope.functions := by
  obtain ⟨scope, hscope, rfl⟩ := enterCall_cases hentered
  obtain ⟨-, rfl⟩ := Scope.enterCall_cases hscope
  rfl

theorem functions_leaveCall : state.leaveCall.scope.functions = state.scope.functions := by
  unfold leaveCall Scope.leaveCall
  split <;> rfl

theorem functions_takeLine : state.takeLine.2.scope.functions = state.scope.functions := by
  unfold takeLine
  split <;> rfl

end State

end TableScript
