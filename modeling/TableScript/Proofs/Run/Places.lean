import TableScript.Proofs.Run.Plan
import TableScript.Proofs.Run.Reshape
import TableScript.Proofs.Syntax.Places

/-!
# Places do not matter to a run

The places in a tree show up in two ways when it is run: a fault carries the place of the node that
failed, and a function that is defined keeps its tree.  Nothing is decided by them.

To say so, places are forgotten on both sides: `Task.erase` forgets those of the tree that is worked
on, `State.erase` those of the functions defined, and `Outcome.erase` also that of the fault.  Then
running and forgetting commute (`Task.run_mirrors`): the run of the erased task from the erased
state ends as the run of the task does, its places forgotten.
-/

namespace TableScript

/-! ## States and outcomes without places -/

/-- A function with all its places forgotten. -/
def Function.erase (function : Function) : Function :=
  { function with body := function.body.erase, position := .start }

namespace Bindings

variable {α β : Type}

/-- The same names, bound to what a function makes of what they were bound to. -/
def map (change : α → β) (bindings : Bindings String α) : Bindings String β :=
  ⟨bindings.entries.map fun entry => (entry.1, change entry.2)⟩

theorem find?_map (change : α → β) (bindings : Bindings String α) (name : String) :
    (bindings.map change).find? name = (bindings.find? name).map change := by
  obtain ⟨entries⟩ := bindings
  change findIn? name (entries.map _) = Option.map change (findIn? name entries)
  induction entries with
  | nil => rfl
  | cons entry rest ih =>
      simp only [List.map_cons, findIn?]
      split
      · rfl
      · exact ih

theorem map_insert (change : α → β) (bindings : Bindings String α) (name : String) (value : α) :
    (bindings.insert name value).map change = (bindings.map change).insert name (change value) := by
  obtain ⟨entries⟩ := bindings
  refine congrArg Bindings.mk ?_
  change (insertEntry name value entries).map _ = insertEntry name (change value) (entries.map _)
  induction entries with
  | nil => rfl
  | cons entry rest ih =>
      simp only [insertEntry, List.map_cons]
      split
      · rfl
      · rw [List.map_cons, ih]

end Bindings

/-- A state with the places of all its functions forgotten. -/
def State.erase (state : State) : State := state.reshape (·.map Function.erase) id

/-- A fault with its place forgotten: its cause, at the start of the text. -/
def Fault.erase (fault : Fault) : Fault := ⟨fault.cause, .start⟩

/-- An outcome with its places forgotten, its value being looked at in some way. -/
def Outcome.eraseAs {α β : Type} (view : α → β) : Outcome α → Outcome β
  | .done value later => .done (view value) later.erase
  | .failed fault later => .failed fault.erase later.erase
  | .outOfFuel => .outOfFuel

/-- An outcome with its places forgotten: that of the fault, and those of the functions defined. -/
def Outcome.erase {α : Type} (outcome : Outcome α) : Outcome α := outcome.eraseAs id

/-! ## Changes of the state -/

namespace State

variable (state : State)

theorem erase_declare (name : String) (value : Value) :
    state.erase.declare name value = (state.declare name value).erase :=
  state.reshape_declare _ _ name value

theorem erase_assign (name : String) (keys : List Value) (value : Value) :
    state.erase.assign name keys value = (state.assign name keys value).map State.erase :=
  state.reshape_assign _ _ name keys value

theorem erase_define (function : Function) :
    state.erase.define function.erase = (state.define function).erase := by
  have hfunctions :=
    Bindings.map_insert Function.erase state.scope.functions function.name function
  exact congrArg (fun functions => { state with scope := { state.scope with functions } })
    hfunctions.symm

theorem erase_enterCall (function : Function) (arguments : List Value) :
    state.erase.enterCall function.erase arguments =
      (state.enterCall function arguments).map State.erase := by
  unfold enterCall Scope.enterCall
  change (if state.scope.callLimit ≤ state.scope.callDepth then _ else _ : Except Cause Scope).map _
    = _
  split <;> rfl

theorem erase_leaveCall : state.erase.leaveCall = state.leaveCall.erase :=
  state.reshape_leaveCall _ _

end State

/-! ## Actions that do not look at places -/

namespace Action

variable {α α' β β' : Type}

/-- From a state without places the second action ends as the first one does from the state itself,
places forgotten. -/
def Mirrors (view : α → β) (action : Action α) (action' : Action β) : Prop :=
  ∀ state, action' state.erase = (action state).eraseAs view

theorem mirrors_pure (view : α → β) (value : α) : Mirrors view (pure value) (pure (view value)) :=
  fun _ => rfl

theorem Mirrors.bind {view : α → α'} {view' : β → β'} {action : Action α} {action' : Action α'}
    {next : α → Action β} {next' : α' → Action β'} (haction : Mirrors view action action')
    (hnext : ∀ value, Mirrors view' (next value) (next' (view value))) :
    Mirrors view' (action >>= next) (action' >>= next') := by
  intro state
  change Action.bind action' next' state.erase = (Action.bind action next state).eraseAs view'
  unfold Action.bind
  rw [haction state]
  cases action state with
  | done value later => exact hnext value later
  | failed fault later => rfl
  | outOfFuel => rfl

theorem Mirrors.finally_ {view : α → α'} {action : Action α} {action' : Action α'}
    (haction : Mirrors view action action') {leave : State → State}
    (hleave : ∀ state, leave state.erase = (leave state).erase) :
    Mirrors view (action.finally_ leave) (action'.finally_ leave) := by
  intro state
  unfold Action.finally_
  rw [haction state]
  cases action state with
  | done value later => exact congrArg (Outcome.done (view value)) (hleave later)
  | failed fault later => exact congrArg (Outcome.failed fault.erase) (hleave later)
  | outOfFuel => rfl

theorem mirrors_fail (view : α → β) (position : Position) (cause : Cause) :
    Mirrors view (fail position cause) (fail .start cause) := fun _ => rfl

theorem mirrors_check (position : Position) (computed : Except Cause α) :
    Mirrors id (check position computed) (check .start computed) := by
  cases computed with
  | ok value => exact mirrors_pure id value
  | error cause => exact mirrors_fail id position cause

theorem mirrors_change {update update' : State → State}
    (hupdate : ∀ state, update' state.erase = (update state).erase) :
    Mirrors id (change update) (change update') :=
  fun state => congrArg (Outcome.done ()) (hupdate state)

theorem mirrors_attempt {update update' : State → Except Cause State} (position : Position)
    (hupdate : ∀ state, update' state.erase = (update state).map State.erase) :
    Mirrors id (attempt position update) (attempt .start update') := by
  intro state
  unfold attempt
  rw [hupdate state]
  cases update state with
  | ok later => rfl
  | error cause => rfl

theorem mirrors_readVariable (position : Position) (name : String) (keys : List Value) :
    Mirrors id (readVariable position name keys) (readVariable .start name keys) :=
  fun state => mirrors_check position (state.read name keys) state

theorem mirrors_newTable : Mirrors id newTable newTable := fun _ => rfl

theorem mirrors_allocate (table : Table) : Mirrors id (allocate table) (allocate table) :=
  fun _ => rfl

/-- The function that is found has its places forgotten. -/
theorem mirrors_findFunction (position : Position) (name : String) :
    Mirrors Function.erase (findFunction position name) (findFunction .start name) := by
  intro state
  have hfound : state.erase.scope.function? name =
      (state.scope.function? name).map Function.erase :=
    Bindings.find?_map Function.erase state.scope.functions name
  unfold findFunction
  rw [hfound]
  cases state.scope.function? name with
  | none => rfl
  | some function => rfl

theorem mirrors_readLine (position : Position) (format : Option String) :
    Mirrors id (readLine position format) (readLine .start format) := by
  intro state
  have hline : state.erase.takeLine = (state.takeLine.1, state.takeLine.2.erase) :=
    state.reshape_takeLine _ _
  unfold readLine
  rw [hline]
  obtain ⟨line, later⟩ := state.takeLine
  cases line with
  | none => rfl
  | some line =>
      cases line with
      | unreadable problem => rfl
      | text line =>
          dsimp only
          split
          · exact mirrors_check position (Reading.ofLine line) later
          · rfl

theorem mirrors_print (position : Position) (line : String) :
    Mirrors id (print position line) (print .start line) := by
  intro state
  have hprinted : state.erase.printLine line =
      ((state.printLine line).1, (state.printLine line).2.erase) := rfl
  unfold print
  rw [hprinted]
  obtain ⟨problem, later⟩ := state.printLine line
  cases problem with
  | none => rfl
  | some problem => rfl

theorem mirrors_declare (name : String) (value : Value) :
    Mirrors id (change (·.declare name value)) (change (·.declare name value)) :=
  mirrors_change fun state => state.erase_declare name value

theorem mirrors_assign (position : Position) (name : String) (keys : List Value) (value : Value) :
    Mirrors id (attempt position (·.assign name keys value))
      (attempt .start (·.assign name keys value)) :=
  mirrors_attempt position fun state => state.erase_assign name keys value

theorem mirrors_define (function : Function) :
    Mirrors id (change (·.define function)) (change (·.define function.erase)) :=
  mirrors_change fun state => state.erase_define function

theorem mirrors_enterCall (position : Position) (function : Function) (arguments : List Value) :
    Mirrors id (attempt position (·.enterCall function arguments))
      (attempt .start (·.enterCall function.erase arguments)) :=
  mirrors_attempt position fun state => state.erase_enterCall function arguments

theorem mirrors_enterLoop (keyword : LoopKeyword) :
    Mirrors id (change (·.enterLoop keyword)) (change (·.enterLoop keyword)) :=
  mirrors_change fun _ => rfl

theorem mirrors_requireBoolean (context : String) (position : Position) (value : Value) :
    Mirrors id (Eval.requireBoolean context position value)
      (Eval.requireBoolean context .start value) := by
  unfold Eval.requireBoolean
  split
  · exact mirrors_pure id _
  · exact mirrors_fail id position _

theorem mirrors_requireNumber (bound : LoopBound) (position : Position) (value : Value) :
    Mirrors id (Eval.requireNumber bound position value)
      (Eval.requireNumber bound .start value) := by
  unfold Eval.requireNumber
  split
  · exact mirrors_pure id _
  · exact mirrors_fail id position _

end Action

/-! ## Plans that do not look at places -/

namespace Plan

variable {α α' β β' : Type} {fuel : Nat}

/-- The plans are carried out alike, places forgotten. -/
def Mirrors (fuel : Nat) (view : α → β) (plan : Plan α) (plan' : Plan β) : Prop :=
  (plan.carryOut (Task.run fuel)).Mirrors view (plan'.carryOut (Task.run fuel))

theorem mirrors_pure (value : α) : Mirrors fuel id (pure value) (pure value) :=
  Action.mirrors_pure id value

theorem mirrors_act {view : α → β} {action : Action α} {action' : Action β}
    (haction : action.Mirrors view action') : Mirrors fuel view (act action) (act action') := by
  unfold Mirrors
  rwa [carryOut_act, carryOut_act]

theorem Mirrors.bind {view : α → α'} {view' : β → β'} {plan : Plan α} {plan' : Plan α'}
    {next : α → Plan β} {next' : α' → Plan β'} (hplan : Mirrors fuel view plan plan')
    (hnext : ∀ value, Mirrors fuel view' (next value) (next' (view value))) :
    Mirrors fuel view' (plan >>= next) (plan' >>= next') := by
  unfold Mirrors
  rw [carryOut_bind, carryOut_bind]
  exact Action.Mirrors.bind hplan hnext

theorem Mirrors.finally_ {view : α → α'} {plan : Plan α} {plan' : Plan α'}
    (hplan : Mirrors fuel view plan plan') {leave : State → State}
    (hleave : ∀ state, leave state.erase = (leave state).erase) :
    Mirrors fuel view (plan.finally_ leave) (plan'.finally_ leave) := by
  unfold Mirrors
  rw [carryOut_finally, carryOut_finally]
  exact Action.Mirrors.finally_ hplan hleave

theorem Mirrors.inLoopFrame {view : α → α'} {plan : Plan α} {plan' : Plan α'}
    (hplan : Mirrors fuel view plan plan') (keyword : LoopKeyword) :
    Mirrors fuel view (inLoopFrame keyword plan) (inLoopFrame keyword plan') :=
  (mirrors_act (Action.mirrors_enterLoop keyword)).bind fun _ => hplan.finally_ fun _ => rfl

end Plan

/-! ## Tasks -/

@[simp] theorem Invocation.position_erase (invocation : Invocation) :
    invocation.erase.position = .start := by
  cases invocation <;> rfl

@[simp] theorem Expression.position_erase (tree : Expression) : tree.erase.position = .start := by
  cases tree with
  | invoke invocation => exact invocation.position_erase
  | _ => rfl

namespace Task

/-- A task with all the places of its tree forgotten. -/
def erase : {α : Type} → Task α → Task α
  | _, .expression tree => .expression tree.erase
  | _, .expressions trees => .expressions (Expression.eraseList trees)
  | _, .condition context guard => .condition context guard.erase
  | _, .tableFields index table fields => .tableFields index table (Field.eraseList fields)
  | _, .invoke invocation => .invoke invocation.erase
  | _, .call _ function arguments => .call .start function.erase arguments
  | _, .bound kind source => .bound kind source.erase
  | _, .stepBound source => .stepBound (Expression.eraseOption source)
  | _, .block body => .block body.erase
  | _, .statements body => .statements (Statement.eraseList body)
  | _, .statement tree => .statement tree.erase
  | _, .branches options otherwise =>
    .branches (Branch.eraseList options) (Block.eraseOption otherwise)
  | _, .whileLoop guard body => .whileLoop guard.erase body.erase
  | _, .repeatLoop body guard => .repeatLoop body.erase guard.erase
  | _, .forLoop _ name ascending limit step body =>
    .forLoop .start name ascending limit step body.erase

open Plan TableScript.Action

section Step

variable {fuel : Nat}
  (hruns : ∀ {β : Type} (task : Task β), (task.run fuel).Mirrors id (task.erase.run fuel))

include hruns

/-- The tasks that are requested are mirrored. -/
theorem work_mirrors {α : Type} (task : Task α) :
    Plan.Mirrors fuel id (work task) (work task.erase) := by
  unfold Plan.Mirrors
  rw [carryOut_work, carryOut_work]
  exact hruns task

theorem ofExpression_mirrors (tree : Expression) :
    Plan.Mirrors fuel id (ofExpression tree) (ofExpression tree.erase) := by
  -- a place is passed on only to the faults that may arise there, so the plans agree but for it
  cases tree with
  | nil position | boolean value position | string contents position => exact mirrors_pure _
  | number form text position => exact mirrors_act (mirrors_check position _)
  | «variable» name path position =>
      refine (work_mirrors hruns (.expressions path)).bind fun keys => ?_
      exact mirrors_act (mirrors_readVariable position name keys)
  | table fields position =>
      refine (mirrors_act mirrors_newTable).bind fun table => ?_
      refine (work_mirrors hruns (.tableFields 1 table fields)).bind fun filled => ?_
      exact mirrors_act (mirrors_allocate filled)
  | invoke invocation => exact work_mirrors hruns (.invoke invocation)
  | binary operator left right position =>
      rw [Expression.erase, ofExpression, ofExpression]
      split
      · refine (work_mirrors hruns (.condition _ left)).bind fun first => ?_
        dsimp only [id]
        split
        · exact mirrors_pure _
        · exact (work_mirrors hruns (.condition _ right)).bind fun second => mirrors_pure _
      · refine (work_mirrors hruns (.expression left)).bind fun first => ?_
        refine (work_mirrors hruns (.expression right)).bind fun second => ?_
        exact mirrors_act (mirrors_check position _)
  | unary operator operand position =>
      refine (work_mirrors hruns (.expression operand)).bind fun value => ?_
      exact mirrors_act (mirrors_check position _)
  | parenthesized inner position =>
      exact (work_mirrors hruns (.expression inner)).bind fun value => mirrors_pure _

theorem ofFields_mirrors (index : Nat) (table : Table) (fields : List Field) :
    Plan.Mirrors fuel id (ofFields index table fields)
      (ofFields index table (Field.eraseList fields)) := by
  cases fields with
  | nil => exact mirrors_pure _
  | cons first rest =>
      -- the place of a bad key is that of the value, which forgetting keeps in its own way
      cases first with
      | positional value =>
          rw [Field.eraseList, Field.erase, ofFields, ofFields, value.position_erase]
          refine (work_mirrors hruns (.expression value)).bind fun item => ?_
          refine (mirrors_act (mirrors_check value.position _)).bind fun later => ?_
          exact work_mirrors hruns (.tableFields (index + 1) later rest)
      | keyed key value =>
          rw [Field.eraseList, Field.erase, ofFields, ofFields, value.position_erase]
          refine (work_mirrors hruns (.expression key)).bind fun name => ?_
          refine (work_mirrors hruns (.expression value)).bind fun item => ?_
          refine (mirrors_act (mirrors_check value.position _)).bind fun later => ?_
          exact work_mirrors hruns (.tableFields index later rest)

theorem ofInvocation_mirrors (invocation : Invocation) :
    Plan.Mirrors fuel id (ofInvocation invocation) (ofInvocation invocation.erase) := by
  cases invocation with
  | call callee arguments position =>
      refine (work_mirrors hruns (.expressions arguments)).bind fun values => ?_
      refine (mirrors_act (mirrors_findFunction position callee)).bind fun function => ?_
      exact work_mirrors hruns (.call position function _)
  | print arguments position =>
      refine (work_mirrors hruns (.expressions arguments)).bind fun values => ?_
      exact (mirrors_act (mirrors_print position _)).bind fun _ => mirrors_pure _
  | read format position =>
      cases format with
      | none => exact mirrors_act (mirrors_readLine position none)
      | some source =>
          refine (work_mirrors hruns (.expression source)).bind fun value => ?_
          exact mirrors_act (mirrors_readLine position _)

theorem ofStatement_mirrors (tree : Statement) :
    Plan.Mirrors fuel id (ofStatement tree) (ofStatement tree.erase) := by
  cases tree with
  | empty position => exact mirrors_pure _
  | break_ position => exact mirrors_pure _
  | declare name namePosition value position =>
      refine (work_mirrors hruns (.expression value)).bind fun item => ?_
      exact (mirrors_act (mirrors_declare name item)).bind fun _ => mirrors_pure _
  | assign name path value position =>
      refine (work_mirrors hruns (.expressions path)).bind fun keys => ?_
      refine (work_mirrors hruns (.expression value)).bind fun item => ?_
      exact (mirrors_act (mirrors_assign position name keys item)).bind fun _ => mirrors_pure _
  | choose options otherwise position => exact work_mirrors hruns (.branches options otherwise)
  | define name parameters body position =>
      -- the only change of the state that keeps places
      have hdefine := mirrors_define ⟨name, parameters, body, position⟩
      exact (mirrors_act hdefine).bind fun _ => mirrors_pure _
  | while_ guard body position =>
      exact (work_mirrors hruns (.whileLoop guard body)).inLoopFrame .while_
  | repeat_ body guard position =>
      exact (work_mirrors hruns (.repeatLoop body guard)).inLoopFrame .repeat_
  | for_ name start limit step body position =>
      refine (work_mirrors hruns (.bound .start start)).bind fun first => ?_
      refine (work_mirrors hruns (.bound .limit limit)).bind fun last => ?_
      refine (work_mirrors hruns (.stepBound step)).bind fun increment => ?_
      dsimp only [id]
      split
      · exact mirrors_act (mirrors_fail id position _)
      · refine Plan.Mirrors.inLoopFrame ?_ .for_
        refine (mirrors_act (mirrors_declare name first)).bind fun _ => ?_
        exact work_mirrors hruns (.forLoop position name _ last increment body)
  | do_ body position => exact (work_mirrors hruns (.block body)).inLoopFrame .do_
  | invoke invocation =>
      exact (work_mirrors hruns (.invoke invocation)).bind fun _ => mirrors_pure _

theorem ofBranches_mirrors (options : List Branch) (otherwise : Option Block) :
    Plan.Mirrors fuel id (ofBranches options otherwise)
      (ofBranches (Branch.eraseList options) (Block.eraseOption otherwise)) := by
  cases options with
  | nil =>
      cases otherwise with
      | none => exact mirrors_pure _
      | some body => exact work_mirrors hruns (.block body)
  | cons first rest =>
      obtain ⟨guard, body⟩ := first
      rw [Branch.eraseList, Branch.erase, ofBranches, ofBranches]
      refine (work_mirrors hruns (.condition "if" guard)).bind fun verdict => ?_
      cases verdict with
      | true => exact work_mirrors hruns (.block body)
      | false => exact work_mirrors hruns (.branches rest otherwise)

omit hruns in
theorem afterRound_mirrors {again again' : Plan Flow} (hagain : Plan.Mirrors fuel id again again')
    (flow : Flow) : Plan.Mirrors fuel id (afterRound again flow) (afterRound again' flow) := by
  cases flow with
  | normal => exact hagain
  | broken => exact mirrors_pure _
  | returned value => exact mirrors_pure _

theorem block_mirrors (body : Block) :
    Plan.Mirrors fuel id (plan (.block body)) (plan (.block body.erase)) := by
  obtain ⟨body, result⟩ := body
  refine (work_mirrors hruns (.statements body)).bind fun flow => ?_
  cases flow with
  | normal =>
      cases result with
      | none => exact mirrors_pure _
      | some last =>
          exact (work_mirrors hruns (.expressions last.values)).bind fun values => mirrors_pure _
  | broken => exact mirrors_pure _
  | returned value => exact mirrors_pure _

/-- **Plans do not look at places**, if the runs of the tasks they request do not. -/
theorem plan_mirrors {α : Type} (task : Task α) :
    Plan.Mirrors fuel id task.plan task.erase.plan := by
  -- the two plans request the same tasks, one with places and one without, so `bind` goes along
  -- both
  cases task with
  | expression tree => exact ofExpression_mirrors hruns tree
  | expressions trees =>
      cases trees with
      | nil => exact mirrors_pure _
      | cons first rest =>
          refine (work_mirrors hruns (.expression first)).bind fun value => ?_
          exact (work_mirrors hruns (.expressions rest)).bind fun values => mirrors_pure _
  | condition context guard =>
      rw [erase, plan, plan, guard.position_erase]
      refine (work_mirrors hruns (.expression guard)).bind fun value => ?_
      exact mirrors_act (mirrors_requireBoolean context guard.position value)
  | tableFields index table fields => exact ofFields_mirrors hruns index table fields
  | invoke invocation => exact ofInvocation_mirrors hruns invocation
  -- the function that is called may have places where its mirror has none
  | call position function arguments =>
      refine (mirrors_act (mirrors_enterCall position function arguments)).bind fun _ => ?_
      refine Plan.Mirrors.bind ?_ fun flow => mirrors_pure _
      exact (work_mirrors hruns (.block function.body)).finally_ State.erase_leaveCall
  | bound kind source =>
      rw [erase, plan, plan, source.position_erase]
      refine (work_mirrors hruns (.expression source)).bind fun value => ?_
      exact mirrors_act (mirrors_requireNumber kind source.position value)
  | stepBound source =>
      cases source with
      | none => exact mirrors_pure _
      | some step => exact work_mirrors hruns (.bound .step step)
  | block body => exact block_mirrors hruns body
  | statements body =>
      cases body with
      | nil => exact mirrors_pure _
      | cons first rest =>
          refine (work_mirrors hruns (.statement first)).bind fun flow => ?_
          cases flow with
          | normal => exact work_mirrors hruns (.statements rest)
          | broken => exact mirrors_pure _
          | returned value => exact mirrors_pure _
  | statement tree => exact ofStatement_mirrors hruns tree
  | branches options otherwise => exact ofBranches_mirrors hruns options otherwise
  | whileLoop guard body =>
      refine (work_mirrors hruns (.condition "while" guard)).bind fun verdict => ?_
      cases verdict with
      | true =>
          refine (work_mirrors hruns (.block body)).bind fun flow => ?_
          exact afterRound_mirrors (work_mirrors hruns (.whileLoop guard body)) flow
      | false => exact mirrors_pure _
  | repeatLoop body guard =>
      refine (work_mirrors hruns (.block body)).bind fun flow => afterRound_mirrors ?_ flow
      refine (work_mirrors hruns (.condition "until" guard)).bind fun verdict => ?_
      cases verdict with
      | true => exact mirrors_pure _
      | false => exact work_mirrors hruns (.repeatLoop body guard)
  | forLoop position name ascending limit step body =>
      have hread := mirrors_readVariable position name []
      refine (mirrors_act hread).bind fun counter => ?_
      dsimp only [id]
      split
      · exact mirrors_pure _
      · refine (work_mirrors hruns (.block body)).bind fun flow => afterRound_mirrors ?_ flow
        refine (mirrors_act hread).bind fun current => ?_
        refine (mirrors_act (mirrors_check position _)).bind fun next => ?_
        -- the counter is a number and has no places, so both loops go on or both stop
        cases next with
        | none => exact mirrors_pure _
        | some value =>
            refine (mirrors_act (mirrors_declare name value)).bind fun _ => ?_
            exact work_mirrors hruns (.forLoop position name ascending limit step body)

end Step

/-- **Running and forgetting places commute.**  The induction is on the fuel. -/
theorem run_mirrors (fuel : Nat) {α : Type} (task : Task α) :
    (task.run fuel).Mirrors id (task.erase.run fuel) := by
  induction fuel generalizing α with
  | zero =>
      rw [run_zero, run_zero]
      exact fun _ => rfl
  | succ fuel ih =>
      rw [run_succ, run_succ]
      exact plan_mirrors ih task

end Task

/-! ## Programs -/

/-- A program with its places forgotten ends as the program does, places forgotten.  It does not
matter whether places were forgotten in the state, as nothing is defined at the start. -/
theorem execute_erase (fuel : Nat) (program : Block) (state : State) :
    execute fuel program.erase state = (execute fuel program state).erase := by
  -- restarting forgets the functions, and with them all places that a state has
  have hblock := Task.run_mirrors fuel (.block program)
  exact (hblock.bind fun flow => Action.mirrors_pure id flow.result) state.restart

/-- **Programs that differ in places only end alike**: with the same value or a fault for the same
cause, and in states that differ in the places of functions only. -/
theorem execute_of_erase_eq {program program' : Block} (hsame : program.erase = program'.erase)
    (fuel : Nat) (state : State) :
    (execute fuel program state).erase = (execute fuel program' state).erase := by
  rw [← execute_erase, ← execute_erase, hsame]

end TableScript
