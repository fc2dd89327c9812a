import TableScript.Proofs.Run.Logic

/-!
# Comparing two runs

Two runs of the same code from states that look alike to it do the same: they end in the same way,
with the same value or the same fault, and in states that look alike again.  What "look alike"
means is a parameter.  It is a relation between states that may depend on the kinds of the frames
entered so far, and a `Comparison` says that no single read and no single change of a state can
tell related states apart.  By `Comparison.logic` it is a logic of runs, so that no run can.

A comparison may excuse some causes of a fault: where the first run fails for an excused cause,
nothing is said about the second one.  With no cause excused both runs are in lockstep.
-/

namespace TableScript

variable {α β : Type}

/-- Two outcomes that are the same, their states being related. -/
inductive Outcome.Alike (excused : Cause → Prop) (relation : State → State → Prop) :
    Outcome α → Outcome α → Prop
  | done (value : α) {first second : State} (hstates : relation first second) :
      Alike excused relation (.done value first) (.done value second)
  | failed (fault : Fault) {first second : State} (hstates : relation first second) :
      Alike excused relation (.failed fault first) (.failed fault second)
  | outOfFuel : Alike excused relation .outOfFuel .outOfFuel
  | excused {fault : Fault} (hcause : excused fault.cause) (state : State) (other : Outcome α) :
      Alike excused relation (.failed fault state) other

/-- Two attempts to change a state that succeed alike or fail for the same cause. -/
inductive Attempts (excused : Cause → Prop) (relation : State → State → Prop) :
    Except Cause State → Except Cause State → Prop
  | ok {first second : State} (hstates : relation first second) :
      Attempts excused relation (.ok first) (.ok second)
  | error (cause : Cause) : Attempts excused relation (.error cause) (.error cause)
  | excused {cause : Cause} (hcause : excused cause) (other : Except Cause State) :
      Attempts excused relation (.error cause) other

namespace Action

/-- From related states an action ends alike. -/
def SameFrom (excused : Cause → Prop) (relation : State → State → Prop) (action : Action α) :
    Prop :=
  ∀ first second, relation first second → (action first).Alike excused relation (action second)

variable {excused : Cause → Prop} {relation : State → State → Prop}

theorem sameFrom_outOfFuel : SameFrom excused relation (outOfFuel : Action α) :=
  fun _ _ _ => .outOfFuel

theorem sameFrom_pure (value : α) : SameFrom excused relation (pure value : Action α) :=
  fun _ _ hstates => .done value hstates

theorem sameFrom_fail (position : Position) (cause : Cause) :
    SameFrom excused relation (fail position cause : Action α) :=
  fun _ _ hstates => .failed ⟨cause, position⟩ hstates

theorem sameFrom_check (position : Position) (computed : Except Cause α) :
    SameFrom excused relation (check position computed) := by
  cases computed with
  | ok value => exact sameFrom_pure value
  | error cause => exact sameFrom_fail position cause

/-- Two sequences end alike if their first actions do and the rest does from related states. -/
theorem bind_alike {action action' : Action α} {next next' : α → Action β} {first second : State}
    (haction : (action first).Alike excused relation (action' second))
    (hnext : ∀ value left right, relation left right →
      (next value left).Alike excused relation (next' value right)) :
    ((action >>= next) first).Alike excused relation ((action' >>= next') second) := by
  change (Action.bind action next first).Alike excused relation (Action.bind action' next' second)
  unfold Action.bind
  revert haction
  generalize action first = one, action' second = two
  intro haction
  cases haction with
  | done value hlater => exact hnext value _ _ hlater
  | failed fault hlater => exact .failed fault hlater
  | outOfFuel => exact .outOfFuel
  | excused hcause state other => exact .excused hcause state _

theorem SameFrom.bind {action : Action α} {next : α → Action β}
    (haction : SameFrom excused relation action)
    (hnext : ∀ value, SameFrom excused relation (next value)) :
    SameFrom excused relation (action >>= next) :=
  fun first second hstates => bind_alike (haction first second hstates) hnext

theorem sameFrom_change {update : State → State}
    (hupdate : ∀ {first second}, relation first second → relation (update first) (update second)) :
    SameFrom excused relation (change update) :=
  fun _ _ hstates => .done () (hupdate hstates)

theorem attempt_alike {update : State → Except Cause State} {first second : State}
    (position : Position) (hstates : relation first second)
    (hattempts : Attempts excused relation (update first) (update second)) :
    (attempt position update first).Alike excused relation (attempt position update second) := by
  unfold attempt
  revert hattempts
  generalize update first = one, update second = two
  intro hattempts
  cases hattempts with
  | ok hlater => exact .done () hlater
  | error cause => exact .failed ⟨cause, position⟩ hstates
  | excused hcause other => exact .excused hcause first _

/-- An attempt may lead to states that are related in another sense.  Where it fails, the states
are those before it. -/
theorem attempt_then_alike {inner : State → State → Prop}
    {update update' : State → Except Cause State} {next next' : Unit → Action β}
    {first second : State} (position : Position) (hstates : relation first second)
    (hattempts : Attempts excused inner (update first) (update' second))
    (hnext : ∀ left right, inner left right →
      (next () left).Alike excused relation (next' () right)) :
    ((attempt position update >>= next) first).Alike excused relation
      ((attempt position update' >>= next') second) := by
  change (Action.bind (attempt position update) next first).Alike excused relation
    (Action.bind (attempt position update') next' second)
  unfold Action.bind attempt
  revert hattempts
  generalize update first = one, update' second = two
  intro hattempts
  cases hattempts with
  | ok hlater => exact hnext _ _ hlater
  | error cause => exact .failed ⟨cause, position⟩ hstates
  | excused hcause other => exact .excused hcause first _

/-- A last step brings outcomes that are alike in one sense to outcomes alike in another. -/
theorem finally_alike {inner outer : State → State → Prop} {action : Action α}
    {update : State → State} {first second : State}
    (hupdate : ∀ {left right}, inner left right → outer (update left) (update right))
    (halike : (action first).Alike excused inner (action second)) :
    (action.finally_ update first).Alike excused outer (action.finally_ update second) := by
  unfold finally_
  revert halike
  generalize action first = one, action second = two
  intro halike
  cases halike with
  | done value hlater => exact .done value (hupdate hlater)
  | failed fault hlater => exact .failed fault (hupdate hlater)
  | outOfFuel => exact .outOfFuel
  | excused hcause state other => exact .excused hcause _ _

/-- Two calls are alike outside if they are entered alike, if their blocks end alike from there,
and if leaving brings what is alike inside to what is alike outside.  The arguments may differ. -/
theorem call_alike {inner : State → State → Prop} {function : Function}
    {arguments arguments' : List Value} {body : Action Flow} {first second : State}
    (position : Position)
    (hleave : ∀ {left right}, inner left right → relation left.leaveCall right.leaveCall)
    (hstates : relation first second)
    (hattempts : Attempts excused inner (first.enterCall function arguments)
      (second.enterCall function arguments'))
    (hbody : SameFrom excused inner body) :
    Outcome.Alike excused relation
      ((do
        .attempt position (·.enterCall function arguments)
        let flow ← body.finally_ State.leaveCall
        pure flow.result : Action Value) first)
      ((do
        .attempt position (·.enterCall function arguments')
        let flow ← body.finally_ State.leaveCall
        pure flow.result : Action Value) second) := by
  refine attempt_then_alike position hstates hattempts fun left right hentered => ?_
  refine bind_alike (finally_alike hleave (hbody left right hentered)) ?_
  intro flow later later' hlater
  exact .done flow.result hlater

end Action

/-! ## Comparisons -/

open TableScript.Action

/-- A relation between states, for each list of kinds of frames entered so far, that no single
step of a run can look behind. -/
structure Comparison (excused : Cause → Prop)
    (relation : List FrameKind → State → State → Prop) : Prop where
  read : ∀ {kinds first second}, relation kinds first second → ∀ name keys,
    first.read name keys = second.read name keys
  function? : ∀ {kinds first second}, relation kinds first second → ∀ name,
    first.scope.function? name = second.scope.function? name
  newTable : ∀ {kinds first second}, relation kinds first second →
    first.heap.newTable = second.heap.newTable
  allocate : ∀ {kinds first second}, relation kinds first second → ∀ table,
    (first.allocate table).1 = (second.allocate table).1 ∧
      relation kinds (first.allocate table).2 (second.allocate table).2
  takeLine : ∀ {kinds first second}, relation kinds first second →
    first.takeLine.1 = second.takeLine.1 ∧ relation kinds first.takeLine.2 second.takeLine.2
  printLine : ∀ {kinds first second}, relation kinds first second → ∀ line,
    (first.printLine line).1 = (second.printLine line).1 ∧
      relation kinds (first.printLine line).2 (second.printLine line).2
  declare : ∀ {kinds first second}, relation kinds first second → ∀ name value,
    relation kinds (first.declare name value) (second.declare name value)
  define : ∀ {kinds first second}, relation kinds first second → ∀ function,
    relation kinds (first.define function) (second.define function)
  assign : ∀ {kinds first second}, relation kinds first second → ∀ name keys value,
    Attempts excused (relation kinds) (first.assign name keys value)
      (second.assign name keys value)
  enterCall : ∀ {kinds first second}, relation kinds first second → ∀ function arguments,
    Attempts excused (relation (.call function.name :: kinds))
      (first.enterCall function arguments) (second.enterCall function arguments)
  /-- The frame of a call is left: the states were related before, and were related inside. -/
  leaveCall : ∀ {kinds before before' function first second}, relation kinds before before' →
    relation (.call function :: kinds) first second →
    relation kinds first.leaveCall second.leaveCall
  enterLoop : ∀ {kinds first second}, relation kinds first second → ∀ keyword,
    relation (.loop keyword :: kinds) (first.enterLoop keyword) (second.enterLoop keyword)
  leaveLoop : ∀ {kinds before before' keyword first second}, relation kinds before before' →
    relation (.loop keyword :: kinds) first second →
    relation kinds first.leaveLoop second.leaveLoop

namespace Comparison

variable {excused : Cause → Prop} {relation : List FrameKind → State → State → Prop}

theorem sameFrom_readVariable (comparison : Comparison excused relation) {kinds : List FrameKind}
    (position : Position) (name : String) (keys : List Value) :
    SameFrom excused (relation kinds) (readVariable position name keys) := by
  intro first second hstates
  unfold readVariable
  rw [comparison.read hstates name keys]
  exact sameFrom_check position _ first second hstates

theorem sameFrom_findFunction (comparison : Comparison excused relation) {kinds : List FrameKind}
    (position : Position) (name : String) :
    SameFrom excused (relation kinds) (findFunction position name) := by
  intro first second hstates
  unfold findFunction
  rw [comparison.function? hstates name]
  cases second.scope.function? name with
  | none => exact .failed _ hstates
  | some function => exact .done function hstates

theorem sameFrom_newTable (comparison : Comparison excused relation) {kinds : List FrameKind} :
    SameFrom excused (relation kinds) Action.newTable := by
  intro first second hstates
  unfold Action.newTable
  rw [comparison.newTable hstates]
  exact .done _ hstates

theorem sameFrom_allocate (comparison : Comparison excused relation) {kinds : List FrameKind}
    (table : Table) : SameFrom excused (relation kinds) (Action.allocate table) := by
  intro first second hstates
  obtain ⟨hidentity, hlater⟩ := comparison.allocate hstates table
  change Outcome.Alike excused (relation kinds)
    (.done (Value.table (first.allocate table).1) (first.allocate table).2)
    (.done (Value.table (second.allocate table).1) (second.allocate table).2)
  rw [hidentity]
  exact .done _ hlater

theorem sameFrom_print (comparison : Comparison excused relation) {kinds : List FrameKind}
    (position : Position) (line : String) :
    SameFrom excused (relation kinds) (print position line) := by
  intro first second hstates
  obtain ⟨hproblem, hlater⟩ := comparison.printLine hstates line
  unfold print
  revert hproblem hlater
  generalize first.printLine line = one, second.printLine line = two
  obtain ⟨problem, first⟩ := one
  obtain ⟨problem', second⟩ := two
  rintro rfl hlater
  cases problem with
  | none => exact .done _ hlater
  | some problem => exact .failed _ hlater

theorem sameFrom_readLine (comparison : Comparison excused relation) {kinds : List FrameKind}
    (position : Position) (format : Option String) :
    SameFrom excused (relation kinds) (readLine position format) := by
  intro first second hstates
  obtain ⟨hline, hlater⟩ := comparison.takeLine hstates
  unfold readLine
  revert hline hlater
  generalize first.takeLine = one, second.takeLine = two
  obtain ⟨line, first⟩ := one
  obtain ⟨line', second⟩ := two
  rintro rfl hlater
  match line with
  | none => exact .done _ hlater
  | some (.unreadable problem) => exact .failed _ hlater
  | some (.text line) =>
      dsimp only
      split
      · exact sameFrom_check position _ first second hlater
      · exact .done _ hlater

/-- The call is entered alike, its block ends alike, and its frame is left alike. -/
theorem sameFrom_call (comparison : Comparison excused relation) {kinds : List FrameKind}
    (position : Position) (function : Function) (arguments : List Value) {body : Action Flow}
    (hbody : SameFrom excused (relation (.call function.name :: kinds)) body) :
    SameFrom excused (relation kinds) (do
      .attempt position (·.enterCall function arguments)
      let flow ← body.finally_ State.leaveCall
      pure flow.result : Action Value) := by
  intro first second hstates
  exact call_alike position (fun hleft => comparison.leaveCall hstates hleft) hstates
    (comparison.enterCall hstates function arguments) hbody

theorem sameFrom_inLoopFrame (comparison : Comparison excused relation) {kinds : List FrameKind}
    {keyword : LoopKeyword} {body : Action Flow}
    (hbody : SameFrom excused (relation (.loop keyword :: kinds)) body) :
    SameFrom excused (relation kinds) (inLoopFrame keyword body) := by
  intro first second hstates
  unfold inLoopFrame
  exact finally_alike (fun hleft => comparison.leaveLoop hstates hleft)
    (hbody _ _ (comparison.enterLoop hstates keyword))

/-- A comparison is a logic of runs. -/
def logic (comparison : Comparison excused relation) : RunLogic where
  Evaluates kinds _ action := SameFrom excused (relation kinds) action
  Executes kinds _ action := SameFrom excused (relation kinds) action
  embed haction := haction
  outOfFuel := sameFrom_outOfFuel
  pure := sameFrom_pure
  fail := sameFrom_fail
  evaluates_bind := SameFrom.bind
  executes_bind := SameFrom.bind
  readVariable := comparison.sameFrom_readVariable
  findFunction := comparison.sameFrom_findFunction
  newTable := comparison.sameFrom_newTable
  allocate := comparison.sameFrom_allocate
  readLine := comparison.sameFrom_readLine
  print := comparison.sameFrom_print
  declare name value := sameFrom_change fun hstates => comparison.declare hstates name value
  assign position name keys value _ _ hstates :=
    attempt_alike position hstates (comparison.assign hstates name keys value)
  define function := sameFrom_change fun hstates => comparison.define hstates function
  call := comparison.sameFrom_call
  loop := comparison.sameFrom_inLoopFrame

/-- **No run can tell related states apart.** -/
theorem same (comparison : Comparison excused relation) (kinds : List FrameKind) (fuel : Nat) :
    comparison.logic.Holds kinds fuel :=
  comparison.logic.holds fuel kinds

end Comparison

end TableScript
