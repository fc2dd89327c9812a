import TableScript.Proofs.Run.Logic

/-!
# What happens during a run

An outcome says how a run ends and nothing about what it came by.  To speak of the moments of a
run, of every call that is made or every round of a loop, this module takes the evaluator apart.

A `Task` is one piece of its work: an expression, a block, a call, a round of a loop.  A `Plan`
says what is done for a task, the work on its parts being requested and not done.  `Task.run_succ`
is the link: a task with one more unit of fuel is its plan carried out, each request being the run
of a task with the fuel there was.  So the requests that a plan meets are the moments of the run,
and `Along` speaks of them at all depths.
-/

namespace TableScript

/-! ## Actions in sequence -/

namespace Action

variable {α β : Type}

instance : LawfulMonad Action := LawfulMonad.mk' Action
  (by
    intro α action
    funext state
    change Action.bind action (fun value => Action.pure (id value)) state = _
    unfold Action.bind
    cases action state <;> rfl)
  (fun _ _ => rfl)
  (by
    intro α β γ action next further
    funext state
    change Action.bind (Action.bind action next) further state =
      Action.bind action (fun value => Action.bind (next value) further) state
    unfold Action.bind
    cases action state <;> rfl)

/-- A sequence ends with a value if its two parts do, one after the other. -/
theorem bind_eq_done {action : Action α} {next : α → Action β} {state later : State} {value : β} :
    (action >>= next) state = .done value later ↔
      ∃ first middle,
        action state = .done first middle ∧ next first middle = .done value later := by
  change Action.bind action next state = _ ↔ _
  unfold Action.bind
  cases action state with
  | done first middle =>
      constructor
      · intro hnext
        exact ⟨first, middle, rfl, hnext⟩
      · rintro ⟨_, _, heq, hnext⟩
        cases heq
        exact hnext
  | failed fault middle => simp
  | outOfFuel => simp

theorem finally_eq_done {action : Action α} {update : State → State} {state later : State}
    {value : α} :
    action.finally_ update state = .done value later ↔
      ∃ middle, action state = .done value middle ∧ update middle = later := by
  unfold finally_
  cases action state with
  | done first middle =>
      constructor
      · intro hends
        cases hends
        exact ⟨middle, rfl, rfl⟩
      · rintro ⟨_, heq, rfl⟩
        cases heq
        rfl
  | failed fault middle => simp
  | outOfFuel => simp

/-! ### When a single action ends with a value -/

@[simp] theorem pure_eq_done {first value : α} {state later : State} :
    (pure first : Action α) state = .done value later ↔ first = value ∧ state = later := by
  change Outcome.done first state = _ ↔ _
  simp

@[simp] theorem fail_eq_done {position : Position} {cause : Cause} {value : α}
    {state later : State} : fail position cause state = .done value later ↔ False := by
  simp [fail]

@[simp] theorem check_eq_done {position : Position} {computed : Except Cause α} {value : α}
    {state later : State} :
    check position computed state = .done value later ↔ computed = .ok value ∧ state = later := by
  cases computed with
  | ok first =>
      change Outcome.done first state = _ ↔ _
      simp
  | error cause => simp [check]

@[simp] theorem change_eq_done {update : State → State} {value : Unit} {state later : State} :
    change update state = .done value later ↔ update state = later := by
  simp [change]

@[simp] theorem attempt_eq_done {position : Position} {update : State → Except Cause State}
    {value : Unit} {state later : State} :
    attempt position update state = .done value later ↔ update state = .ok later := by
  unfold attempt
  cases update state <;> simp

@[simp] theorem readVariable_eq_done {position : Position} {name : String} {keys : List Value}
    {value : Value} {state later : State} :
    readVariable position name keys state = .done value later ↔
      state.read name keys = .ok value ∧ state = later :=
  check_eq_done

@[simp] theorem newTable_eq_done {table : Table} {state later : State} :
    newTable state = .done table later ↔ state.heap.newTable = table ∧ state = later := by
  simp [newTable]

@[simp] theorem allocate_eq_done {table : Table} {value : Value} {state later : State} :
    allocate table state = .done value later ↔
      .table (state.allocate table).1 = value ∧ (state.allocate table).2 = later := by
  simp [allocate]

@[simp] theorem findFunction_eq_done {position : Position} {name : String} {function : Function}
    {state later : State} :
    findFunction position name state = .done function later ↔
      state.scope.function? name = some function ∧ state = later := by
  unfold findFunction
  cases state.scope.function? name <;> simp

/-- Printing a line hands it to the output. -/
theorem print_eq_done {position : Position} {line : String} {value : Unit} {state later : State}
    (hends : print position line state = .done value later) : (state.printLine line).2 = later := by
  unfold print at hends
  split at hends
  · next hline =>
      cases hends
      rw [hline]
  · cases hends

/-- Reading a line takes it from the input. -/
theorem readLine_eq_done {position : Position} {format : Option String} {value : Value}
    {state later : State} (hends : readLine position format state = .done value later) :
    state.takeLine.2 = later := by
  unfold readLine at hends
  split at hends
  · next hline =>
      cases hends
      rw [hline]
  · cases hends
  · next hline =>
      rw [hline]
      split at hends
      · exact (check_eq_done.mp hends).2
      · cases hends
        rfl

@[simp] theorem requireBoolean_eq_done {context : String} {position : Position} {value : Value}
    {verdict : Bool} {state later : State} :
    Eval.requireBoolean context position value state = .done verdict later ↔
      value = .boolean verdict ∧ state = later := by
  cases value <;> simp [Eval.requireBoolean]

@[simp] theorem requireNumber_eq_done {bound : LoopBound} {position : Position}
    {value number : Value} {state later : State} :
    Eval.requireNumber bound position value state = .done number later ↔
      value.first.isNumber = true ∧ value.first = number ∧ state = later := by
  unfold Eval.requireNumber
  split <;> simp [*]

end Action

/-! ## Tasks -/

/-- One piece of the evaluator's work, and the type of what it gives. -/
inductive Task : Type → Type where
  | expression (tree : Expression) : Task Value
  | expressions (trees : List Expression) : Task (List Value)
  | condition (context : String) (guard : Expression) : Task Bool
  | tableFields (index : Nat) (table : Table) (fields : List Field) : Task Table
  | invoke (invocation : Invocation) : Task Value
  | call (position : Position) (function : Function) (arguments : List Value) : Task Value
  | bound (kind : LoopBound) (source : Expression) : Task Value
  | stepBound (source : Option Expression) : Task Value
  | block (body : Block) : Task Flow
  | statements (body : List Statement) : Task Flow
  | statement (tree : Statement) : Task Flow
  | branches (options : List Branch) (otherwise : Option Block) : Task Flow
  | whileLoop (guard : Expression) (body : Block) : Task Flow
  | repeatLoop (body : Block) (guard : Expression) : Task Flow
  | forLoop (position : Position) (name : String) (ascending : Bool) (limit step : Value)
    (body : Block) : Task Flow

namespace Task

/-- The work on a task with a given amount of fuel. -/
def run (fuel : Nat) : {α : Type} → Task α → Action α
  | _, .expression tree => Eval.expression fuel tree
  | _, .expressions trees => Eval.expressions fuel trees
  | _, .condition context guard => Eval.condition fuel context guard
  | _, .tableFields index table fields => Eval.tableFields fuel index table fields
  | _, .invoke invocation => Eval.invoke fuel invocation
  | _, .call position function arguments => Eval.call fuel position function arguments
  | _, .bound kind source => Eval.bound fuel kind source
  | _, .stepBound source => Eval.stepBound fuel source
  | _, .block body => Eval.block fuel body
  | _, .statements body => Eval.statements fuel body
  | _, .statement tree => Eval.statement fuel tree
  | _, .branches options otherwise => Eval.branches fuel options otherwise
  | _, .whileLoop guard body => Eval.whileLoop fuel guard body
  | _, .repeatLoop body guard => Eval.repeatLoop fuel body guard
  | _, .forLoop position name ascending limit step body =>
    Eval.forLoop fuel position name ascending limit step body

end Task

/-! ## Plans -/

/-- What is done for a task, the work on its parts being requested. -/
inductive Plan : Type → Type 1 where
  /-- Nothing more is done. -/
  | give {α : Type} (value : α) : Plan α
  /-- Something is done to the state. -/
  | perform {α β : Type} (action : Action β) (next : β → Plan α) : Plan α
  /-- A task is worked on. -/
  | request {α β : Type} (task : Task β) (next : β → Plan α) : Plan α
  /-- A plan is carried out, and then the state is changed, also after a fault. -/
  | within {α β : Type} (inner : Plan β) (leave : State → State) (next : β → Plan α) : Plan α

namespace Plan

variable {α β : Type}

/-- One plan after another. -/
protected def bind : Plan α → (α → Plan β) → Plan β
  | .give value, further => further value
  | .perform action next, further => .perform action fun value => (next value).bind further
  | .request task next, further => .request task fun value => (next value).bind further
  | .within inner leave next, further =>
    .within inner leave fun value => (next value).bind further

instance : Monad Plan where
  pure := .give
  bind := .bind

/-- The plan to do something to the state. -/
def act (action : Action α) : Plan α := .perform action .give

/-- The plan to work on a task. -/
def work (task : Task α) : Plan α := .request task .give

/-- The plan to do something and to change the state afterwards. -/
def finally_ (inner : Plan α) (leave : State → State) : Plan α := .within inner leave .give

/-- The plan to do something in the frame of a loop. -/
def inLoopFrame (keyword : LoopKeyword) (inner : Plan α) : Plan α := do
  act (.change (·.enterLoop keyword))
  inner.finally_ State.leaveLoop

/-- A plan is carried out, given how tasks are run. -/
def carryOut (run : {α : Type} → Task α → Action α) : {α : Type} → Plan α → Action α
  | _, .give value => pure value
  | _, .perform action next => action >>= fun value => (next value).carryOut run
  | _, .request task next => run task >>= fun value => (next value).carryOut run
  | _, .within inner leave next =>
    (inner.carryOut run).finally_ leave >>= fun value => (next value).carryOut run

variable (run : {α : Type} → Task α → Action α)

@[simp] theorem carryOut_pure (value : α) :
    (pure value : Plan α).carryOut run = pure value := rfl

@[simp] theorem carryOut_bind (plan : Plan α) (further : α → Plan β) :
    (plan >>= further).carryOut run =
      plan.carryOut run >>= fun value => (further value).carryOut run := by
  change (plan.bind further).carryOut run = _
  induction plan with
  | give value => rfl
  | perform action next ih => simp only [Plan.bind, carryOut, ih, bind_assoc]
  | request task next ih => simp only [Plan.bind, carryOut, ih, bind_assoc]
  | within inner leave next _ ih => simp only [Plan.bind, carryOut, ih, bind_assoc]

@[simp] theorem carryOut_act (action : Action α) : (act action).carryOut run = action :=
  bind_pure action

@[simp] theorem carryOut_work (task : Task α) : (work task).carryOut run = run task :=
  bind_pure (run task)

@[simp] theorem carryOut_finally (inner : Plan α) (leave : State → State) :
    (inner.finally_ leave).carryOut run = (inner.carryOut run).finally_ leave :=
  bind_pure ((inner.carryOut run).finally_ leave)

@[simp] theorem carryOut_inLoopFrame (keyword : LoopKeyword) (inner : Plan α) :
    (inLoopFrame keyword inner).carryOut run = .inLoopFrame keyword (inner.carryOut run) := by
  rw [inLoopFrame, carryOut_bind, carryOut_act, carryOut_finally]
  rfl

end Plan

namespace Task

open Plan

/-! ## The plan of every task -/

/-- What is done for an expression. -/
def ofExpression : Expression → Plan Value
  | .nil _ => pure .nil
  | .boolean value _ => pure (.boolean value)
  | .number form text position => act (.check position (Reading.ofLiteral form text))
  | .string contents _ => pure (.string contents)
  | .variable name path position => do
    let keys ← work (.expressions path)
    act (.readVariable position name keys)
  | .table fields _ => do
    let table ← act .newTable
    let filled ← work (.tableFields 1 table fields)
    act (.allocate filled)
  | .invoke invocation => work (.invoke invocation)
  | .binary operator left right position =>
    match operator.decisive? with
    | some decisive => do
      let first ← work (.condition operator.symbol left)
      if first = decisive then pure (.boolean first)
      else
        let second ← work (.condition operator.symbol right)
        pure (.boolean second)
    | none => do
      let first ← work (.expression left)
      let second ← work (.expression right)
      act (.check position (Operator.binary operator first second))
  | .unary operator operand position => do
    let value ← work (.expression operand)
    act (.check position (Operator.unary operator value))
  | .parenthesized inner _ => do
    let value ← work (.expression inner)
    pure value.first

/-- What is done for the fields of a table constructor. -/
def ofFields (index : Nat) (table : Table) : List Field → Plan Table
  | [] => pure table
  | .positional value :: rest => do
    let item ← work (.expression value)
    let later ← act (.check value.position
      ((table.set (.integer (Int64.ofNat index)) item).mapError .invalidKey))
    work (.tableFields (index + 1) later rest)
  | .keyed key value :: rest => do
    let name ← work (.expression key)
    let item ← work (.expression value)
    let later ← act (.check value.position ((table.set name item).mapError .invalidKey))
    work (.tableFields index later rest)

/-- What is done for an invocation. -/
def ofInvocation : Invocation → Plan Value
  | .call callee arguments position => do
    let values ← work (.expressions arguments)
    let function ← act (.findFunction position callee)
    work (.call position function (Eval.spread values))
  | .print arguments position => do
    let values ← work (.expressions arguments)
    act (.print position (tabulate (Value.texts values)))
    pure .nil
  | .read none position => act (.readLine position none)
  | .read (some format) position => do
    let value ← work (.expression format)
    act (.readLine position (some value.text))

/-- What is done for a statement. -/
def ofStatement : Statement → Plan Flow
  | .empty _ => pure .normal
  | .break_ _ => pure .broken
  | .declare name _ value _ => do
    let item ← work (.expression value)
    act (.change (·.declare name item))
    pure .normal
  | .assign name path value position => do
    let keys ← work (.expressions path)
    let item ← work (.expression value)
    act (.attempt position (·.assign name keys item))
    pure .normal
  | .choose options otherwise _ => work (.branches options otherwise)
  | .define name parameters body position => do
    act (.change (·.define ⟨name, parameters, body, position⟩))
    pure .normal
  | .while_ guard body _ => inLoopFrame .while_ (work (.whileLoop guard body))
  | .repeat_ body guard _ => inLoopFrame .repeat_ (work (.repeatLoop body guard))
  | .for_ name start limit step body position => do
    let first ← work (.bound .start start)
    let last ← work (.bound .limit limit)
    let increment ← work (.stepBound step)
    match Eval.ascending? increment with
    | none => act (.fail position (.unusableStep increment))
    | some ascending =>
      inLoopFrame .for_ do
        act (.change (·.declare name first))
        work (.forLoop position name ascending last increment body)
  | .do_ body _ => inLoopFrame .do_ (work (.block body))
  | .invoke invocation => do
    let _ ← work (.invoke invocation)
    pure .normal

/-- What is done for the branches of a choice. -/
def ofBranches : List Branch → Option Block → Plan Flow
  | [], none => pure .normal
  | [], some otherwise => work (.block otherwise)
  | .mk guard body :: rest, otherwise => do
    if ← work (.condition "if" guard) then work (.block body)
    else work (.branches rest otherwise)

/-- What is done after the block of a loop: `again` if it ended normally. -/
def afterRound (again : Plan Flow) : Flow → Plan Flow
  | .normal => again
  | .broken => pure .normal
  | .returned value => pure (.returned value)

/-- What is done for a task. -/
def plan : {α : Type} → Task α → Plan α
  | _, .expression tree => ofExpression tree
  | _, .expressions [] => pure []
  | _, .expressions (first :: rest) => do
    let value ← work (.expression first)
    let values ← work (.expressions rest)
    pure (value :: values)
  | _, .condition context guard => do
    let value ← work (.expression guard)
    act (Eval.requireBoolean context guard.position value)
  | _, .tableFields index table fields => ofFields index table fields
  | _, .invoke invocation => ofInvocation invocation
  | _, .call position function arguments => do
    act (.attempt position (·.enterCall function arguments))
    let flow ← (work (.block function.body)).finally_ State.leaveCall
    pure flow.result
  | _, .bound kind source => do
    let value ← work (.expression source)
    act (Eval.requireNumber kind source.position value)
  | _, .stepBound none => pure (.integer 1)
  | _, .stepBound (some source) => work (.bound .step source)
  | _, .block (.mk body result) => do
    match ← work (.statements body) with
    | .normal =>
      match result with
      | none => pure .normal
      | some last =>
        let values ← work (.expressions last.values)
        pure (.returned (Eval.returnValue values))
    | flow => pure flow
  | _, .statements [] => pure .normal
  | _, .statements (first :: rest) => do
    match ← work (.statement first) with
    | .normal => work (.statements rest)
    | flow => pure flow
  | _, .statement tree => ofStatement tree
  | _, .branches options otherwise => ofBranches options otherwise
  | _, .whileLoop guard body => do
    if ← work (.condition "while" guard) then
      let flow ← work (.block body)
      afterRound (work (.whileLoop guard body)) flow
    else pure .normal
  | _, .repeatLoop body guard => do
    let flow ← work (.block body)
    afterRound (do
      if ← work (.condition "until" guard) then pure .normal
      else work (.repeatLoop body guard)) flow
  | _, .forLoop position name ascending limit step body => do
    let counter ← act (.readVariable position name [])
    if Eval.hasPassed ascending counter limit then pure .normal
    else
      let flow ← work (.block body)
      afterRound (do
        let current ← act (.readVariable position name [])
        match ← act (.check position (Eval.advance current step)) with
        | none => pure .normal
        | some next =>
          act (.change (·.declare name next))
          work (.forLoop position name ascending limit step body)) flow

/-! ## The link to the evaluator -/

section Link

variable (fuel : Nat)

theorem carryOut_ofExpression (tree : Expression) :
    (ofExpression tree).carryOut (run fuel) = Eval.expression (fuel + 1) tree := by
  cases tree with
  | binary operator left right position =>
      rw [ofExpression, Eval.expression]
      cases operator.decisive? with
      | none => simp [run]
      | some decisive =>
          simp only [carryOut_bind, carryOut_work, run]
          congr 1
          funext first
          split <;> simp [run]
  | _ => simp [ofExpression, Eval.expression, run]

theorem carryOut_ofFields (index : Nat) (table : Table) (fields : List Field) :
    (ofFields index table fields).carryOut (run fuel) =
      Eval.tableFields (fuel + 1) index table fields := by
  cases fields with
  | nil => rfl
  | cons first rest =>
      cases first <;> simp [ofFields, Eval.tableFields, run]

theorem carryOut_ofInvocation (invocation : Invocation) :
    (ofInvocation invocation).carryOut (run fuel) = Eval.invoke (fuel + 1) invocation := by
  cases invocation with
  | read format position => cases format <;> simp [ofInvocation, Eval.invoke, run]
  | _ => simp [ofInvocation, Eval.invoke, run]

theorem carryOut_ofStatement (tree : Statement) :
    (ofStatement tree).carryOut (run fuel) = Eval.statement (fuel + 1) tree := by
  cases tree with
  | for_ name start limit step body position =>
      rw [ofStatement, Eval.statement]
      simp only [carryOut_bind, carryOut_work, run]
      congr; funext first
      congr; funext last
      congr; funext increment
      cases Eval.ascending? increment <;> simp [run]
  | _ => simp [ofStatement, Eval.statement, run]

theorem carryOut_ofBranches (options : List Branch) (otherwise : Option Block) :
    (ofBranches options otherwise).carryOut (run fuel) =
      Eval.branches (fuel + 1) options otherwise := by
  cases options with
  | nil => cases otherwise <;> simp [ofBranches, Eval.branches, run]
  | cons first rest =>
      obtain ⟨guard, body⟩ := first
      rw [ofBranches, Eval.branches]
      simp only [carryOut_bind, carryOut_work, run]
      congr; funext verdict
      split <;> simp [run]

/-- Without fuel nothing is done. -/
theorem run_zero {α : Type} (task : Task α) : task.run 0 = .outOfFuel := by
  cases task <;> rfl

/-- **A task is its plan carried out.**  With one more unit of fuel a task does what its plan says,
each request being the run of a task with the fuel there was. -/
theorem run_succ {α : Type} (task : Task α) :
    task.run (fuel + 1) = task.plan.carryOut (run fuel) := by
  -- the evaluator and the plan differ only in how they are cut into parts; the tasks with much to
  -- do have their own lemma
  cases task with
  | expression tree => exact (carryOut_ofExpression fuel tree).symm
  | expressions trees => cases trees <;> simp [plan, run, Eval.expressions]
  | condition context guard => simp [plan, run, Eval.condition]
  | tableFields index table fields => exact (carryOut_ofFields fuel index table fields).symm
  | invoke invocation => exact (carryOut_ofInvocation fuel invocation).symm
  | call position function arguments => simp [plan, run, Eval.call]
  | bound kind source => simp [plan, run, Eval.bound]
  | stepBound source => cases source <;> simp [plan, run, Eval.stepBound]
  | block body =>
      obtain ⟨body, result⟩ := body
      simp only [plan, run, carryOut_bind, carryOut_work]
      unfold Eval.block
      congr; funext flow
      -- only a block that ends normally goes on to its values
      cases flow <;> cases result <;> simp [run]
  | statements body =>
      cases body with
      | nil => rfl
      | cons first rest =>
          simp only [plan, run, Eval.statements, carryOut_bind, carryOut_work]
          congr; funext flow
          cases flow <;> simp [run]
  | statement tree => exact (carryOut_ofStatement fuel tree).symm
  | branches options otherwise => exact (carryOut_ofBranches fuel options otherwise).symm
  | whileLoop guard body =>
      simp only [plan, run, Eval.whileLoop, carryOut_bind, carryOut_work]
      congr; funext verdict
      cases verdict with
      | false => rfl
      | true =>
          simp only [if_true, carryOut_bind, carryOut_work, run]
          congr; funext flow
          cases flow <;> simp [afterRound, run]
  -- the guard stands behind the block, so the round is opened before it
  | repeatLoop body guard =>
      simp only [plan, run, Eval.repeatLoop, carryOut_bind, carryOut_work]
      congr; funext flow
      cases flow with
      | normal =>
          simp only [afterRound, carryOut_bind, carryOut_work, run]
          congr; funext verdict
          cases verdict <;> simp [run]
      | _ => rfl
  | forLoop position name ascending limit step body =>
      simp only [plan, run, Eval.forLoop, carryOut_bind, carryOut_act]
      congr; funext counter
      split
      · rfl
      · simp only [carryOut_bind, carryOut_work, run]
        congr; funext flow
        cases flow with
        | normal =>
            simp only [afterRound, carryOut_bind, carryOut_act]
            congr; funext current
            congr; funext next
            cases next <;> simp [run]
        | _ => rfl

end Link

end Task

/-! ## The moments of a run -/

/-- Every request that a plan comes to when it is carried out from a state is as `holds` says. -/
def Plan.Requests (run : {β : Type} → Task β → Action β)
    (holds : {β : Type} → Task β → State → Prop) : {α : Type} → Plan α → State → Prop
  | _, .give _, _ => True
  | _, .perform action next, state =>
    ∀ value later, action state = .done value later → (next value).Requests run holds later
  | _, .request task next, state =>
    holds task state ∧
      ∀ value later, run task state = .done value later → (next value).Requests run holds later
  | _, .within inner leave next, state =>
    inner.Requests run holds state ∧
      ∀ value later, inner.carryOut run state = .done value later →
        (next value).Requests run holds (leave later)

namespace Plan

variable {α β : Type} {run : {β : Type} → Task β → Action β}
  {holds : {β : Type} → Task β → State → Prop} {state : State}

@[simp] theorem requests_pure (value : α) : (pure value : Plan α).Requests run holds state :=
  trivial

@[simp] theorem requests_bind (plan : Plan α) (further : α → Plan β) :
    (plan >>= further).Requests run holds state ↔
      plan.Requests run holds state ∧
        ∀ value later, plan.carryOut run state = .done value later →
          (further value).Requests run holds later := by
  change (plan.bind further).Requests run holds state ↔ _
  induction plan generalizing state with
  | give given =>
      simp only [Plan.bind, Requests, true_and]
      constructor
      · rintro hfurther _ _ hends
        cases hends
        exact hfurther
      · exact fun hfurther => hfurther given state rfl
  | perform action next ih =>
      simp only [Plan.bind, Requests, ih, carryOut, Action.bind_eq_done]
      grind
  | request task next ih =>
      simp only [Plan.bind, Requests, ih, carryOut, Action.bind_eq_done]
      grind
  | within inner leave next _ ih =>
      simp only [Plan.bind, Requests, ih, carryOut, Action.bind_eq_done, Action.finally_eq_done]
      grind

@[simp] theorem requests_act (action : Action α) : (act action).Requests run holds state :=
  fun _ _ _ => trivial

@[simp] theorem requests_work (task : Task α) :
    (work task).Requests run holds state ↔ holds task state :=
  ⟨And.left, fun hholds => ⟨hholds, fun _ _ _ => trivial⟩⟩

@[simp] theorem requests_finally (inner : Plan α) (leave : State → State) :
    (inner.finally_ leave).Requests run holds state ↔ inner.Requests run holds state :=
  ⟨And.left, fun hinner => ⟨hinner, fun _ _ _ => trivial⟩⟩

@[simp] theorem requests_inLoopFrame (keyword : LoopKeyword) (inner : Plan α) :
    (inLoopFrame keyword inner).Requests run holds state ↔
      inner.Requests run holds (state.enterLoop keyword) := by
  simp only [inLoopFrame, requests_bind, requests_act, requests_finally, carryOut_act,
    Action.change_eq_done, true_and]
  exact ⟨fun hinner => hinner () _ rfl, fun hinner _ _ hlater => hlater ▸ hinner⟩

end Plan

/-- At the moments of the work on a task from a state something holds of the task that is worked on,
the state, and the fuel left: of the task itself, and of the tasks that are requested for it, for
those in turn, and so on, as long as the tasks requested are ones to be entered. -/
def Task.Along (enters : {β : Type} → Task β → Prop)
    (holds : Nat → {β : Type} → Task β → State → Prop) :
    Nat → {α : Type} → Task α → State → Prop
  | 0, _, task, state => holds 0 task state
  | fuel + 1, _, task, state =>
    holds (fuel + 1) task state ∧
      task.plan.Requests (run fuel)
        (fun part inner => enters part → Task.Along enters holds fuel part inner) state

/-- At every moment of the work on a task something holds. -/
abbrev Task.Throughout (holds : Nat → {β : Type} → Task β → State → Prop) (fuel : Nat) {α : Type}
    (task : Task α) (state : State) : Prop :=
  task.Along (fun _ => True) holds fuel state

theorem Plan.Requests.mono {run : {β : Type} → Task β → Action β}
    {holds also : {β : Type} → Task β → State → Prop}
    (himplies : ∀ {β : Type} (task : Task β) (state : State), holds task state → also task state)
    {α : Type} {plan : Plan α} {state : State} (hplan : plan.Requests run holds state) :
    plan.Requests run also state := by
  induction plan generalizing state with
  | give value => trivial
  | perform action next ih =>
      intro value later hends
      exact ih value (hplan value later hends)
  | request task next ih =>
      refine ⟨himplies task state hplan.1, fun value later hends => ?_⟩
      exact ih value (hplan.2 value later hends)
  | within inner leave next ihInner ih =>
      refine ⟨ihInner hplan.1, fun value later hends => ?_⟩
      exact ih value (hplan.2 value later hends)

theorem Task.Along.mono {enters : {β : Type} → Task β → Prop}
    {holds also : Nat → {β : Type} → Task β → State → Prop}
    (himplies : ∀ (fuel : Nat) {β : Type} (task : Task β) (state : State),
      holds fuel task state → also fuel task state)
    {fuel : Nat} {α : Type} {task : Task α} {state : State}
    (hrun : task.Along enters holds fuel state) : task.Along enters also fuel state := by
  induction fuel generalizing α state with
  | zero => exact himplies 0 task state hrun
  | succ fuel ih =>
      refine ⟨himplies (fuel + 1) task state hrun.1, hrun.2.mono ?_⟩
      intro β part inner hpart henters
      exact ih (hpart henters)

end TableScript
