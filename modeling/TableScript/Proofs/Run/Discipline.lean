import TableScript.Proofs.Run.Logic

/-!
# What a run keeps

Facts of the form "whatever is evaluated, the state before and the state after are related".  An
action *keeps* a relation if the states before and after it are related wherever it ends: with a
value or with a fault.

A `Discipline` is a pair of relations between states, one for expressions and one for statements
and blocks, together with what each single change of the state has to satisfy: a declaration, an
assignment, a new table, a line printed or read, and the frames of a call and of a loop.  By
`Discipline.logic` it is a logic of runs, so that every part of the evaluator keeps its relation.
-/

namespace TableScript

variable {α β : Type}

/-- The state that an outcome leaves behind, after a value and after a fault alike. -/
def Outcome.state? : Outcome α → Option State
  | .done _ state => some state
  | .failed _ state => some state
  | .outOfFuel => none

namespace Action

/-- Wherever an action ends, the state before it and the state after it are related. -/
def Keeps (relation : State → State → Prop) (action : Action α) : Prop :=
  ∀ state later, (action state).state? = some later → relation state later

variable {relation stronger : State → State → Prop}

theorem Keeps.mono {action : Action α} (haction : Keeps stronger action)
    (himplies : ∀ state later, stronger state later → relation state later) :
    Keeps relation action :=
  fun state later hends => himplies state later (haction state later hends)

theorem keeps_outOfFuel : Keeps relation (outOfFuel : Action α) := by
  intro state later hends
  simp [outOfFuel, Outcome.state?] at hends

theorem state?_bind (action : Action α) (next : α → Action β) (state : State) :
    ((action >>= next) state).state? =
      match action state with
      | .done value later => (next value later).state?
      | .failed _ later => some later
      | .outOfFuel => none := by
  change (Action.bind action next state).state? = _
  unfold Action.bind
  cases action state <;> rfl

/-- Computing something from the value of an action does not change where it ends. -/
theorem state?_bind_pure (action : Action α) (compute : α → β) (state : State) :
    ((do let value ← action; pure (compute value) : Action β) state).state? =
      (action state).state? := by
  rw [state?_bind]
  cases action state <;> rfl

theorem Keeps.bind (htrans : ∀ first second third, relation first second →
      relation second third → relation first third)
    {action : Action α} {next : α → Action β} (haction : Keeps relation action)
    (hnext : ∀ value, Keeps relation (next value)) : Keeps relation (action >>= next) := by
  intro state later hends
  rw [state?_bind] at hends
  cases hfirst : action state with
  | done value middle =>
      rw [hfirst] at hends
      exact htrans state middle later (haction state middle (by rw [hfirst]; rfl))
        (hnext value middle later hends)
  | failed fault middle =>
      rw [hfirst] at hends
      exact haction state later (by rw [hfirst]; exact hends)
  | outOfFuel =>
      rw [hfirst] at hends
      cases hends

/-- An action that ends in the state it began in keeps every reflexive relation. -/
theorem keeps_of_unchanged (hrefl : ∀ state, relation state state) {action : Action α}
    (hsame : ∀ state, (action state).state? = some state) : Keeps relation action := by
  intro state later hends
  rw [hsame state] at hends
  cases hends
  exact hrefl state

theorem state?_pure (value : α) (state : State) :
    ((pure value : Action α) state).state? = some state := rfl

theorem state?_fail (position : Position) (cause : Cause) (state : State) :
    ((fail position cause : Action α) state).state? = some state := rfl

theorem state?_check (position : Position) (computed : Except Cause α) (state : State) :
    (check position computed state).state? = some state := by
  cases computed <;> rfl

theorem state?_readVariable (position : Position) (name : String) (keys : List Value)
    (state : State) : (readVariable position name keys state).state? = some state :=
  state?_check position (state.read name keys) state

theorem state?_findFunction (position : Position) (name : String) (state : State) :
    (findFunction position name state).state? = some state := by
  unfold findFunction
  cases state.scope.function? name <;> rfl

theorem state?_readLine (position : Position) (format : Option String) (state : State) :
    (readLine position format state).state? = some state.takeLine.2 := by
  unfold readLine
  split
  · next hline => rw [hline]; rfl
  · next hline => rw [hline]; rfl
  · next hline =>
      rw [hline]
      split
      · exact state?_check position _ _
      · rfl

theorem state?_print (position : Position) (line : String) (state : State) :
    (print position line state).state? = some (state.printLine line).2 := by
  unfold print
  split
  · next hline => rw [hline]; rfl
  · next hline => rw [hline]; rfl

theorem keeps_change {update : State → State} (hupdate : ∀ state, relation state (update state)) :
    Keeps relation (change update) := by
  intro state later hends
  cases hends
  exact hupdate state

theorem keeps_attempt (hrefl : ∀ state, relation state state) (position : Position)
    {update : State → Except Cause State}
    (hupdate : ∀ state later, update state = .ok later → relation state later) :
    Keeps relation (attempt position update) := by
  intro state later hends
  unfold attempt at hends
  cases hresult : update state with
  | ok updated =>
      rw [hresult] at hends
      cases hends
      exact hupdate state later hresult
  | error cause =>
      rw [hresult] at hends
      cases hends
      exact hrefl state

/-- What an action with a last step keeps, if the last step is taken from where the action
ends. -/
theorem state?_finally (action : Action α) (update : State → State) (state : State) :
    (action.finally_ update state).state? = (action state).state?.map update := by
  unfold finally_
  cases action state <;> rfl

end Action

/-! ## Disciplines -/

open TableScript.Action

/-- Two relations between the state before and the state after, the first for expressions and the
second for statements, that every single change of a run satisfies. -/
structure Discipline (overExpressions overStatements : State → State → Prop) : Prop where
  expressions_refl : ∀ state, overExpressions state state
  expressions_trans : ∀ first second third, overExpressions first second →
    overExpressions second third → overExpressions first third
  statements_refl : ∀ state, overStatements state state
  statements_trans : ∀ first second third, overStatements first second →
    overStatements second third → overStatements first third
  /-- What an expression keeps, a statement that evaluates it keeps. -/
  embed : ∀ state later, overExpressions state later → overStatements state later
  allocate : ∀ state table, overExpressions state (state.allocate table).2
  takeLine : ∀ state, overExpressions state state.takeLine.2
  printLine : ∀ state line, overExpressions state (state.printLine line).2
  declare : ∀ state name value, overStatements state (state.declare name value)
  assign : ∀ state name keys value later, state.assign name keys value = .ok later →
    overStatements state later
  define : ∀ state function, overStatements state (state.define function)
  /-- A call is an expression: its frame is entered, its block is run, its frame is left. -/
  call : ∀ state function arguments entered later,
    state.enterCall function arguments = .ok entered → overStatements entered later →
    overExpressions state later.leaveCall
  loop : ∀ state keyword later, overStatements (state.enterLoop keyword) later →
    overStatements state later.leaveLoop

namespace Discipline

variable {overExpressions overStatements : State → State → Prop}

theorem keeps_call (discipline : Discipline overExpressions overStatements) (position : Position)
    (function : Function) (arguments : List Value) {body : Action α} {result : α → β}
    (hbody : Keeps overStatements body) :
    Keeps overExpressions (do
      .attempt position (·.enterCall function arguments)
      let value ← body.finally_ State.leaveCall
      pure (result value) : Action β) := by
  intro state later hends
  rw [state?_bind] at hends
  cases hentered : state.enterCall function arguments with
  | error cause =>
      -- a call that cannot be entered changes nothing
      simp only [attempt, hentered] at hends
      cases hends
      exact discipline.expressions_refl state
  | ok entered =>
      simp only [attempt, hentered] at hends
      rw [state?_bind_pure, state?_finally] at hends
      obtain ⟨middle, hmiddle, rfl⟩ := Option.map_eq_some_iff.mp hends
      exact discipline.call state function arguments entered middle hentered
        (hbody entered middle hmiddle)

/-- The frame of a loop is entered, something is run in it, and the frame is left. -/
theorem keeps_inLoopFrame (discipline : Discipline overExpressions overStatements)
    (keyword : LoopKeyword) {action : Action α} (haction : Keeps overStatements action) :
    Keeps overStatements (inLoopFrame keyword action) := by
  intro state later hends
  unfold inLoopFrame at hends
  rw [state?_finally] at hends
  obtain ⟨middle, hmiddle, rfl⟩ := Option.map_eq_some_iff.mp hends
  exact discipline.loop state keyword middle (haction _ middle hmiddle)

/-- A discipline is a logic of runs. -/
def logic (discipline : Discipline overExpressions overStatements) : RunLogic where
  Evaluates _ _ action := Keeps overExpressions action
  Executes _ _ action := Keeps overStatements action
  embed haction := haction.mono discipline.embed
  outOfFuel := keeps_outOfFuel
  pure value := keeps_of_unchanged discipline.expressions_refl (state?_pure value)
  fail position cause := keeps_of_unchanged discipline.expressions_refl (state?_fail position cause)
  evaluates_bind := Keeps.bind discipline.expressions_trans
  executes_bind := Keeps.bind discipline.statements_trans
  readVariable position name keys :=
    keeps_of_unchanged discipline.expressions_refl (state?_readVariable position name keys)
  findFunction position name :=
    keeps_of_unchanged discipline.expressions_refl (state?_findFunction position name)
  newTable := keeps_of_unchanged discipline.expressions_refl fun _ => rfl
  allocate table := by
    intro state later hends
    cases hends
    exact discipline.allocate state table
  readLine position format := by
    intro state later hends
    rw [state?_readLine] at hends
    cases hends
    exact discipline.takeLine state
  print position line := by
    intro state later hends
    rw [state?_print] at hends
    cases hends
    exact discipline.printLine state line
  declare name value := keeps_change fun state => discipline.declare state name value
  assign position name keys value :=
    keeps_attempt discipline.statements_refl position fun state later =>
      discipline.assign state name keys value later
  define function := keeps_change fun state => discipline.define state function
  call position function arguments := discipline.keeps_call position function arguments
  loop hbody := discipline.keeps_inLoopFrame _ hbody

/-- **Every run keeps a discipline**, the kinds of frames entered so far not mattering. -/
theorem kept (discipline : Discipline overExpressions overStatements) (fuel : Nat) :
    discipline.logic.Holds [] fuel :=
  discipline.logic.holds fuel []

end Discipline

end TableScript
