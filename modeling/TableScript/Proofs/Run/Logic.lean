import TableScript.Program

/-!
# One induction along the evaluator

Many facts about runs are proved in the same way: they hold of the single things that a run does,
they pass from two actions to the one after the other, and then they hold of everything that is
evaluated.  This module does that induction once, for any such fact.

A `RunLogic` consists of two statements about actions, one for those that evaluate an expression
and one for those that execute statements, and of what makes them go through: the single changes
and readings of the state, sequences, and the frames of calls and loops.  Both statements may
depend on the kinds of the frames entered since the run began.  `RunLogic.holds` is the result.

The two statements differ because an expression reaches a statement only through a call, and the
frame of that call is gone when the expression ends; the field `call` is where this is used.
-/

namespace TableScript

/-- Two statements about actions that hold of the single steps of a run and of sequences. -/
structure RunLogic where
  /-- What is said of an action that evaluates an expression inside frames of the given kinds. -/
  Evaluates : List FrameKind → ∀ {α : Type}, Action α → Prop
  /-- What is said of an action that executes statements inside frames of the given kinds. -/
  Executes : List FrameKind → ∀ {α : Type}, Action α → Prop
  embed : ∀ {kinds α} {action : Action α}, Evaluates kinds action → Executes kinds action
  outOfFuel : ∀ {kinds} {α : Type}, Evaluates kinds (.outOfFuel : Action α)
  pure : ∀ {kinds} {α : Type} (value : α), Evaluates kinds (Pure.pure value : Action α)
  fail : ∀ {kinds} {α : Type} position cause, Evaluates kinds (.fail position cause : Action α)
  evaluates_bind : ∀ {kinds α β} {action : Action α} {next : α → Action β},
    Evaluates kinds action → (∀ value, Evaluates kinds (next value)) →
    Evaluates kinds (action >>= next)
  executes_bind : ∀ {kinds α β} {action : Action α} {next : α → Action β},
    Executes kinds action → (∀ value, Executes kinds (next value)) →
    Executes kinds (action >>= next)
  readVariable : ∀ {kinds} position name keys, Evaluates kinds (.readVariable position name keys)
  findFunction : ∀ {kinds} position name, Evaluates kinds (.findFunction position name)
  newTable : ∀ {kinds}, Evaluates kinds .newTable
  allocate : ∀ {kinds} table, Evaluates kinds (.allocate table)
  readLine : ∀ {kinds} position format, Evaluates kinds (.readLine position format)
  print : ∀ {kinds} position line, Evaluates kinds (.print position line)
  declare : ∀ {kinds} name value, Executes kinds (.change (·.declare name value))
  assign : ∀ {kinds} position name keys value,
    Executes kinds (.attempt position (·.assign name keys value))
  define : ∀ {kinds} function, Executes kinds (.change (·.define function))
  /-- A call: its frame is entered, its block is run, its frame is left. -/
  call : ∀ {kinds} position function arguments {body : Action Flow},
    Executes (.call function.name :: kinds) body →
    Evaluates kinds do
      .attempt position (·.enterCall function arguments)
      let flow ← body.finally_ State.leaveCall
      Pure.pure flow.result
  loop : ∀ {kinds keyword} {body : Action Flow}, Executes (.loop keyword :: kinds) body →
    Executes kinds (.inLoopFrame keyword body)

namespace RunLogic

variable {α β : Type} (logic : RunLogic) {kinds : List FrameKind}

/-! ## Derived rules -/

theorem check (position : Position) (computed : Except Cause α) :
    logic.Evaluates kinds (.check position computed) := by
  cases computed with
  | ok value => exact logic.pure value
  | error cause => exact logic.fail position cause

/-- A statement begins with the evaluation of an expression. -/
theorem executes_after {action : Action α} {next : α → Action β}
    (haction : logic.Evaluates kinds action)
    (hnext : ∀ value, logic.Executes kinds (next value)) :
    logic.Executes kinds (action >>= next) :=
  logic.executes_bind (logic.embed haction) hnext

theorem requireBoolean (context : String) (position : Position) (value : Value) :
    logic.Evaluates kinds (Eval.requireBoolean context position value) := by
  unfold Eval.requireBoolean
  split
  · exact logic.pure _
  · exact logic.fail _ _

theorem requireNumber (bound : LoopBound) (position : Position) (value : Value) :
    logic.Evaluates kinds (Eval.requireNumber bound position value) := by
  unfold Eval.requireNumber
  split
  · exact logic.pure _
  · exact logic.fail _ _

/-! ## The evaluator -/

/-- The statements of a logic hold of all parts of the evaluator with a given amount of fuel,
inside frames of the given kinds. -/
structure Holds (logic : RunLogic) (kinds : List FrameKind) (fuel : Nat) : Prop where
  expression : ∀ tree, logic.Evaluates kinds (Eval.expression fuel tree)
  expressions : ∀ trees, logic.Evaluates kinds (Eval.expressions fuel trees)
  condition : ∀ context guard, logic.Evaluates kinds (Eval.condition fuel context guard)
  tableFields : ∀ index table fields,
    logic.Evaluates kinds (Eval.tableFields fuel index table fields)
  invoke : ∀ invocation, logic.Evaluates kinds (Eval.invoke fuel invocation)
  call : ∀ position function arguments,
    logic.Evaluates kinds (Eval.call fuel position function arguments)
  bound : ∀ kind source, logic.Evaluates kinds (Eval.bound fuel kind source)
  stepBound : ∀ source, logic.Evaluates kinds (Eval.stepBound fuel source)
  block : ∀ body, logic.Executes kinds (Eval.block fuel body)
  statements : ∀ body, logic.Executes kinds (Eval.statements fuel body)
  statement : ∀ tree, logic.Executes kinds (Eval.statement fuel tree)
  branches : ∀ options otherwise,
    logic.Executes kinds (Eval.branches fuel options otherwise)
  whileLoop : ∀ guard body, logic.Executes kinds (Eval.whileLoop fuel guard body)
  repeatLoop : ∀ body guard, logic.Executes kinds (Eval.repeatLoop fuel body guard)
  forLoop : ∀ position name ascending limit step body,
    logic.Executes kinds (Eval.forLoop fuel position name ascending limit step body)

/-! ### One more unit of fuel -/

section Step

variable {logic} {fuel : Nat} (holds : ∀ kinds, logic.Holds kinds fuel)

include holds

theorem expression_succ (tree : Expression) :
    logic.Evaluates kinds (Eval.expression (fuel + 1) tree) := by
  -- as the evaluator does: each part that is evaluated has one unit of fuel less, and `holds` is
  -- about it
  cases tree with
  | nil position => exact logic.pure _
  | boolean value position => exact logic.pure _
  | string contents position => exact logic.pure _
  | number form text position =>
      rw [Eval.expression]
      exact logic.check _ _
  | «variable» name path position =>
      rw [Eval.expression]
      refine logic.evaluates_bind ((holds _).expressions path) fun keys => ?_
      exact logic.readVariable _ _ _
  | table fields position =>
      rw [Eval.expression]
      refine logic.evaluates_bind logic.newTable fun table => ?_
      refine logic.evaluates_bind ((holds _).tableFields 1 table fields) fun filled => ?_
      exact logic.allocate filled
  | invoke invocation =>
      rw [Eval.expression]
      exact (holds _).invoke invocation
  | binary operator left right position =>
      rw [Eval.expression]
      split
      · refine logic.evaluates_bind ((holds _).condition _ left) fun first => ?_
        split
        · exact logic.pure _
        · refine logic.evaluates_bind ((holds _).condition _ right) fun second => ?_
          exact logic.pure _
      · refine logic.evaluates_bind ((holds _).expression left) fun first => ?_
        refine logic.evaluates_bind ((holds _).expression right) fun second => ?_
        exact logic.check _ _
  | unary operator operand position =>
      rw [Eval.expression]
      refine logic.evaluates_bind ((holds _).expression operand) fun value => ?_
      exact logic.check _ _
  | parenthesized inner position =>
      rw [Eval.expression]
      refine logic.evaluates_bind ((holds _).expression inner) fun value => ?_
      exact logic.pure _

theorem expressions_succ (trees : List Expression) :
    logic.Evaluates kinds (Eval.expressions (fuel + 1) trees) := by
  cases trees with
  | nil => exact logic.pure _
  | cons first rest =>
      rw [Eval.expressions]
      refine logic.evaluates_bind ((holds _).expression first) fun value => ?_
      refine logic.evaluates_bind ((holds _).expressions rest) fun values => ?_
      exact logic.pure _

theorem condition_succ (context : String) (guard : Expression) :
    logic.Evaluates kinds (Eval.condition (fuel + 1) context guard) := by
  rw [Eval.condition]
  refine logic.evaluates_bind ((holds _).expression guard) fun value => ?_
  exact logic.requireBoolean context _ value

theorem tableFields_succ (index : Nat) (table : Table) (fields : List Field) :
    logic.Evaluates kinds (Eval.tableFields (fuel + 1) index table fields) := by
  cases fields with
  | nil => exact logic.pure _
  | cons first rest =>
      cases first with
      | positional value =>
          rw [Eval.tableFields]
          refine logic.evaluates_bind ((holds _).expression value) fun item => ?_
          refine logic.evaluates_bind (logic.check _ _) fun later => ?_
          exact (holds _).tableFields (index + 1) later rest
      | keyed key value =>
          rw [Eval.tableFields]
          refine logic.evaluates_bind ((holds _).expression key) fun name => ?_
          refine logic.evaluates_bind ((holds _).expression value) fun item => ?_
          refine logic.evaluates_bind (logic.check _ _) fun later => ?_
          exact (holds _).tableFields index later rest

theorem invoke_succ (invocation : Invocation) :
    logic.Evaluates kinds (Eval.invoke (fuel + 1) invocation) := by
  cases invocation with
  | call callee arguments position =>
      rw [Eval.invoke]
      refine logic.evaluates_bind ((holds _).expressions arguments) fun values => ?_
      -- the function is looked up after its arguments are evaluated
      refine logic.evaluates_bind (logic.findFunction _ _) fun function => ?_
      exact (holds _).call position function _
  | print arguments position =>
      rw [Eval.invoke]
      refine logic.evaluates_bind ((holds _).expressions arguments) fun values => ?_
      refine logic.evaluates_bind (logic.print position _) fun _ => ?_
      exact logic.pure _
  | read format position =>
      cases format with
      | none =>
          rw [Eval.invoke]
          exact logic.readLine position none
      | some source =>
          rw [Eval.invoke]
          refine logic.evaluates_bind ((holds _).expression source) fun value => ?_
          exact logic.readLine position _

theorem call_succ (position : Position) (function : Function) (arguments : List Value) :
    logic.Evaluates kinds (Eval.call (fuel + 1) position function arguments) := by
  rw [Eval.call]
  exact logic.call position function arguments ((holds _).block function.body)

theorem bound_succ (kind : LoopBound) (source : Expression) :
    logic.Evaluates kinds (Eval.bound (fuel + 1) kind source) := by
  rw [Eval.bound]
  refine logic.evaluates_bind ((holds _).expression source) fun value => ?_
  exact logic.requireNumber kind _ value

theorem stepBound_succ (source : Option Expression) :
    logic.Evaluates kinds (Eval.stepBound (fuel + 1) source) := by
  cases source with
  | none => exact logic.pure _
  | some step =>
      rw [Eval.stepBound]
      exact (holds _).bound .step step

theorem block_succ (body : Block) : logic.Executes kinds (Eval.block (fuel + 1) body) := by
  obtain ⟨body, result⟩ := body
  unfold Eval.block
  refine logic.executes_bind ((holds _).statements body) fun flow => ?_
  -- only where the statements end normally are the values of a return evaluated
  split
  · split
    · exact logic.embed (logic.pure _)
    · refine logic.executes_after ((holds _).expressions _) fun values => ?_
      exact logic.embed (logic.pure _)
  · exact logic.embed (logic.pure _)

theorem statements_succ (body : List Statement) :
    logic.Executes kinds (Eval.statements (fuel + 1) body) := by
  cases body with
  | nil => exact logic.embed (logic.pure _)
  | cons first rest =>
      rw [Eval.statements]
      refine logic.executes_bind ((holds _).statement first) fun flow => ?_
      split
      · exact (holds _).statements rest
      · exact logic.embed (logic.pure _)

theorem statement_succ (tree : Statement) :
    logic.Executes kinds (Eval.statement (fuel + 1) tree) := by
  -- what evaluates only is embedded, and the frame of a loop is entered and left by one rule
  cases tree with
  | empty position => exact logic.embed (logic.pure _)
  | break_ position => exact logic.embed (logic.pure _)
  | declare name namePosition value position =>
      rw [Eval.statement]
      refine logic.executes_after ((holds _).expression value) fun item => ?_
      refine logic.executes_bind (logic.declare name item) fun _ => ?_
      exact logic.embed (logic.pure _)
  | assign name path value position =>
      rw [Eval.statement]
      refine logic.executes_after ((holds _).expressions path) fun keys => ?_
      refine logic.executes_after ((holds _).expression value) fun item => ?_
      refine logic.executes_bind (logic.assign position name keys item) fun _ => ?_
      exact logic.embed (logic.pure _)
  | choose options otherwise position =>
      rw [Eval.statement]
      exact (holds _).branches options otherwise
  | define name parameters body position =>
      rw [Eval.statement]
      refine logic.executes_bind (logic.define _) fun _ => ?_
      exact logic.embed (logic.pure _)
  | while_ guard body position =>
      rw [Eval.statement]
      exact logic.loop ((holds _).whileLoop guard body)
  | repeat_ body guard position =>
      rw [Eval.statement]
      exact logic.loop ((holds _).repeatLoop body guard)
  | for_ name start limit step body position =>
      rw [Eval.statement]
      refine logic.executes_after ((holds _).bound .start start) fun first => ?_
      refine logic.executes_after ((holds _).bound .limit limit) fun last => ?_
      refine logic.executes_after ((holds _).stepBound step) fun increment => ?_
      split
      · exact logic.embed (logic.fail _ _)
      · refine logic.loop ?_
        refine logic.executes_bind (logic.declare name first) fun _ => ?_
        exact (holds _).forLoop position name _ last increment body
  | do_ body position =>
      rw [Eval.statement]
      exact logic.loop ((holds _).block body)
  | invoke invocation =>
      rw [Eval.statement]
      refine logic.executes_after ((holds _).invoke invocation) fun _ => ?_
      exact logic.embed (logic.pure _)

theorem branches_succ (options : List Branch) (otherwise : Option Block) :
    logic.Executes kinds (Eval.branches (fuel + 1) options otherwise) := by
  cases options with
  | nil =>
      cases otherwise with
      | none => exact logic.embed (logic.pure _)
      | some body =>
          rw [Eval.branches]
          exact (holds _).block body
  | cons first rest =>
      obtain ⟨guard, body⟩ := first
      rw [Eval.branches]
      refine logic.executes_after ((holds _).condition _ guard) fun verdict => ?_
      split
      · exact (holds _).block body
      · exact (holds _).branches rest otherwise

theorem whileLoop_succ (guard : Expression) (body : Block) :
    logic.Executes kinds (Eval.whileLoop (fuel + 1) guard body) := by
  rw [Eval.whileLoop]
  refine logic.executes_after ((holds _).condition _ guard) fun verdict => ?_
  split
  · refine logic.executes_bind ((holds _).block body) fun flow => ?_
    split
    · exact (holds _).whileLoop guard body
    · exact logic.embed (logic.pure _)
    · exact logic.embed (logic.pure _)
  · exact logic.embed (logic.pure _)

theorem repeatLoop_succ (body : Block) (guard : Expression) :
    logic.Executes kinds (Eval.repeatLoop (fuel + 1) body guard) := by
  rw [Eval.repeatLoop]
  refine logic.executes_bind ((holds _).block body) fun flow => ?_
  split
  · refine logic.executes_after ((holds _).condition _ guard) fun verdict => ?_
    split
    · exact logic.embed (logic.pure _)
    · exact (holds _).repeatLoop body guard
  · exact logic.embed (logic.pure _)
  · exact logic.embed (logic.pure _)

theorem forLoop_succ (position : Position) (name : String) (ascending : Bool)
    (limit step : Value) (body : Block) :
    logic.Executes kinds (Eval.forLoop (fuel + 1) position name ascending limit step body) := by
  rw [Eval.forLoop]
  refine logic.executes_bind (logic.embed (logic.readVariable _ _ _)) fun counter => ?_
  split
  · exact logic.embed (logic.pure _)
  · refine logic.executes_bind ((holds _).block body) fun flow => ?_
    split
    · refine logic.executes_bind (logic.embed (logic.readVariable _ _ _)) fun current => ?_
      refine logic.executes_bind (logic.embed (logic.check _ _)) fun next => ?_
      split
      · exact logic.embed (logic.pure _)
      · refine logic.executes_bind (logic.declare name _) fun _ => ?_
        exact (holds _).forLoop position name ascending limit step body
    · exact logic.embed (logic.pure _)
    · exact logic.embed (logic.pure _)

end Step

/-- **What holds of the single steps holds of every run.**  The induction is on the fuel; each part
of the evaluator passes on less of it than it got. -/
theorem holds (logic : RunLogic) (fuel : Nat) : ∀ kinds, logic.Holds kinds fuel := by
  induction fuel with
  | zero =>
      intro kinds
      constructor <;> intros
      -- the parts that execute are logical through the embedding; all parts stop without fuel
      case block | statements | statement | branches | whileLoop | repeatLoop | forLoop =>
        exact logic.embed logic.outOfFuel
      all_goals exact logic.outOfFuel
  | succ fuel ih =>
      intro kinds
      exact
        { expression := expression_succ ih
          expressions := expressions_succ ih
          condition := condition_succ ih
          tableFields := tableFields_succ ih
          invoke := invoke_succ ih
          call := call_succ ih
          bound := bound_succ ih
          stepBound := stepBound_succ ih
          block := block_succ ih
          statements := statements_succ ih
          statement := statement_succ ih
          branches := branches_succ ih
          whileLoop := whileLoop_succ ih
          repeatLoop := repeatLoop_succ ih
          forLoop := forLoop_succ ih }

end RunLogic

end TableScript
