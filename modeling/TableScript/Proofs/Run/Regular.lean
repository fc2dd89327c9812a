import TableScript.Proofs.Run.Plan

/-!
# What a plan can do

The plans of all tasks are made of few things.  A plan looks something up, changes one part of the
state, or fails; it requests work; and it enters the frame of a call or of a loop, carries out a
plan inside, and leaves that same frame.  `Action.Single` lists what is done in one go, and
`Plan.Regular` says of a plan that it consists of nothing else.

`Task.plan_regular` looks at every task once.  A fact about all runs that depends only on what
plans are made of is then an induction over regular plans, with one case for each of these things.
-/

namespace TableScript

/-! ## Single actions -/

/-- What a run does in one go, frames apart. -/
inductive Action.Single : {α : Type} → Action α → Prop
  | pure {α : Type} (value : α) : Single (pure value)
  | fail {α : Type} (position : Position) (cause : Cause) : Single (.fail position cause : Action α)
  | readVariable (position : Position) (name : String) (keys : List Value) :
      Single (.readVariable position name keys)
  | findFunction (position : Position) (name : String) : Single (.findFunction position name)
  | newTable : Single .newTable
  | allocate (table : Table) : Single (.allocate table)
  | readLine (position : Position) (format : Option String) : Single (.readLine position format)
  | print (position : Position) (line : String) : Single (.print position line)
  | declare (name : String) (value : Value) : Single (.change (·.declare name value))
  | assign (position : Position) (name : String) (keys : List Value) (value : Value) :
      Single (.attempt position (·.assign name keys value))
  | define (function : Function) : Single (.change (·.define function))

namespace Action

variable {α : Type}

theorem single_check (position : Position) (computed : Except Cause α) :
    Single (.check position computed) := by
  cases computed with
  | ok value => exact .pure value
  | error cause => exact .fail position cause

theorem single_requireBoolean (context : String) (position : Position) (value : Value) :
    Single (Eval.requireBoolean context position value) := by
  unfold Eval.requireBoolean
  split
  · exact .pure _
  · exact .fail _ _

theorem single_requireNumber (bound : LoopBound) (position : Position) (value : Value) :
    Single (Eval.requireNumber bound position value) := by
  unfold Eval.requireNumber
  split
  · exact .pure _
  · exact .fail _ _

end Action

/-! ## Regular plans -/

/-- A plan of single actions, requests, and frames that are entered and left. -/
inductive Plan.Regular : {α : Type} → Plan α → Prop
  | give {α : Type} (value : α) : Regular (.give value)
  | perform {α β : Type} {action : Action β} {next : β → Plan α} (haction : action.Single)
      (hnext : ∀ value, (next value).Regular) : Regular (.perform action next)
  | request {α β : Type} (task : Task β) {next : β → Plan α}
      (hnext : ∀ value, (next value).Regular) : Regular (.request task next)
  /-- The frame of a call is entered, unless that fails, and left after what is done inside. -/
  | call {α β : Type} (position : Position) (function : Function) (arguments : List Value)
      {inner : Plan β} {next : β → Plan α} (hinner : inner.Regular)
      (hnext : ∀ value, (next value).Regular) :
      Regular (.perform (.attempt position (·.enterCall function arguments))
        fun _ => .within inner State.leaveCall next)
  /-- The frame of a loop is entered, and left after what is done inside. -/
  | loop {α β : Type} (keyword : LoopKeyword) {inner : Plan β} {next : β → Plan α}
      (hinner : inner.Regular) (hnext : ∀ value, (next value).Regular) :
      Regular (.perform (.change (·.enterLoop keyword))
        fun _ => .within inner State.leaveLoop next)

namespace Plan

variable {α β : Type}

theorem Regular.bind {plan : Plan α} {further : α → Plan β} (hplan : plan.Regular)
    (hfurther : ∀ value, (further value).Regular) : (plan >>= further).Regular := by
  change (plan.bind further).Regular
  induction hplan with
  | give value => exact hfurther value
  | perform haction _ ih => exact .perform haction fun value => ih value hfurther
  | request task _ ih => exact .request task fun value => ih value hfurther
  | call position function arguments hinner _ _ ih =>
      exact .call position function arguments hinner fun value => ih value hfurther
  | loop keyword hinner _ _ ih => exact .loop keyword hinner fun value => ih value hfurther

theorem regular_pure (value : α) : (pure value : Plan α).Regular := .give value

theorem regular_act {action : Action α} (haction : action.Single) : (act action).Regular :=
  .perform haction .give

theorem regular_work (task : Task α) : (work task).Regular := .request task .give

theorem regular_inLoopFrame {keyword : LoopKeyword} {inner : Plan α} (hinner : inner.Regular) :
    (inLoopFrame keyword inner).Regular :=
  .loop keyword hinner .give

end Plan

namespace Task

open Plan

/-! ## The plan of every task is regular -/

theorem ofExpression_regular (tree : Expression) : (ofExpression tree).Regular := by
  -- plans are made of single actions and requests, so it is enough to name them in their order
  cases tree with
  | nil position | boolean value position | string contents position => exact regular_pure _
  | number form text position => exact regular_act (Action.single_check _ _)
  | «variable» name path position =>
      exact (regular_work _).bind fun keys => regular_act (.readVariable _ _ _)
  | table fields position =>
      refine (regular_act .newTable).bind fun table => (regular_work _).bind fun filled => ?_
      exact regular_act (.allocate filled)
  | invoke invocation => exact regular_work _
  | binary operator left right position =>
      rw [ofExpression]
      split
      · refine (regular_work _).bind fun first => ?_
        split
        · exact regular_pure _
        · exact (regular_work _).bind fun second => regular_pure _
      · refine (regular_work _).bind fun first => (regular_work _).bind fun second => ?_
        exact regular_act (Action.single_check _ _)
  | unary operator operand position =>
      exact (regular_work _).bind fun value => regular_act (Action.single_check _ _)
  | parenthesized inner position => exact (regular_work _).bind fun value => regular_pure _

theorem ofFields_regular (index : Nat) (table : Table) (fields : List Field) :
    (ofFields index table fields).Regular := by
  cases fields with
  | nil => exact regular_pure _
  | cons first rest =>
      cases first with
      | positional value =>
          refine (regular_work _).bind fun item => ?_
          exact (regular_act (Action.single_check _ _)).bind fun later => regular_work _
      | keyed key value =>
          refine (regular_work _).bind fun name => (regular_work _).bind fun item => ?_
          exact (regular_act (Action.single_check _ _)).bind fun later => regular_work _

theorem ofInvocation_regular (invocation : Invocation) : (ofInvocation invocation).Regular := by
  cases invocation with
  | call callee arguments position =>
      refine (regular_work _).bind fun values => ?_
      exact (regular_act (.findFunction _ _)).bind fun function => regular_work _
  | print arguments position =>
      refine (regular_work _).bind fun values => ?_
      exact (regular_act (.print _ _)).bind fun _ => regular_pure _
  | read format position =>
      cases format with
      | none => exact regular_act (.readLine _ _)
      | some source => exact (regular_work _).bind fun value => regular_act (.readLine _ _)

theorem ofStatement_regular (tree : Statement) : (ofStatement tree).Regular := by
  cases tree with
  | empty position | break_ position => exact regular_pure _
  | declare name namePosition value position =>
      refine (regular_work _).bind fun item => ?_
      exact (regular_act (.declare _ _)).bind fun _ => regular_pure _
  | assign name path value position =>
      refine (regular_work _).bind fun keys => (regular_work _).bind fun item => ?_
      exact (regular_act (.assign _ _ _ _)).bind fun _ => regular_pure _
  | choose options otherwise position => exact regular_work _
  | define name parameters body position =>
      exact (regular_act (.define _)).bind fun _ => regular_pure _
  -- the frame of a loop is the one place where a statement enters something that it must leave
  | while_ guard body position => exact regular_inLoopFrame (regular_work _)
  | repeat_ body guard position => exact regular_inLoopFrame (regular_work _)
  | for_ name start limit step body position =>
      rw [ofStatement]
      refine (regular_work _).bind fun first => (regular_work _).bind fun last => ?_
      refine (regular_work _).bind fun increment => ?_
      split
      · exact regular_act (.fail _ _)
      · refine regular_inLoopFrame ?_
        exact (regular_act (.declare _ _)).bind fun _ => regular_work _
  | do_ body position => exact regular_inLoopFrame (regular_work _)
  | invoke invocation => exact (regular_work _).bind fun _ => regular_pure _

theorem ofBranches_regular (options : List Branch) (otherwise : Option Block) :
    (ofBranches options otherwise).Regular := by
  cases options with
  | nil =>
      cases otherwise with
      | none => exact regular_pure _
      | some body => exact regular_work _
  | cons first rest =>
      obtain ⟨guard, body⟩ := first
      refine (regular_work _).bind fun verdict => ?_
      split
      · exact regular_work _
      · exact regular_work _

theorem afterRound_regular {again : Plan Flow} (hagain : again.Regular) (flow : Flow) :
    (afterRound again flow).Regular := by
  cases flow with
  | normal => exact hagain
  | broken | returned value => exact regular_pure _

/-- **Every task has a regular plan.** -/
theorem plan_regular {α : Type} (task : Task α) : task.plan.Regular := by
  cases task with
  | expression tree => exact ofExpression_regular tree
  | expressions trees =>
      cases trees with
      | nil => exact regular_pure _
      | cons first rest =>
          refine (regular_work _).bind fun value => ?_
          exact (regular_work _).bind fun values => regular_pure _
  | condition context guard =>
      exact (regular_work _).bind fun value => regular_act (Action.single_requireBoolean _ _ _)
  | tableFields index table fields => exact ofFields_regular index table fields
  | invoke invocation => exact ofInvocation_regular invocation
  -- a call is regular as it stands: the frame is entered, the body requested, and the frame left
  | call position function arguments =>
      exact .call position function arguments (regular_work _) fun flow => regular_pure _
  | bound kind source =>
      exact (regular_work _).bind fun value => regular_act (Action.single_requireNumber _ _ _)
  | stepBound source =>
      cases source with
      | none => exact regular_pure _
      | some step => exact regular_work _
  | block body =>
      obtain ⟨body, result⟩ := body
      refine (regular_work _).bind fun flow => ?_
      split
      · split
        · exact regular_pure _
        · exact (regular_work _).bind fun values => regular_pure _
      · exact regular_pure _
  | statements body =>
      cases body with
      | nil => exact regular_pure _
      | cons first rest =>
          refine (regular_work _).bind fun flow => ?_
          split
          · exact regular_work _
          · exact regular_pure _
  | statement tree => exact ofStatement_regular tree
  | branches options otherwise => exact ofBranches_regular options otherwise
  | whileLoop guard body =>
      refine (regular_work _).bind fun verdict => ?_
      split
      · exact (regular_work _).bind fun flow => afterRound_regular (regular_work _) flow
      · exact regular_pure _
  | repeatLoop body guard =>
      refine (regular_work _).bind fun flow => afterRound_regular ?_ flow
      refine (regular_work _).bind fun verdict => ?_
      split
      · exact regular_pure _
      · exact regular_work _
  | forLoop position name ascending limit step body =>
      refine (regular_act (.readVariable _ _ _)).bind fun counter => ?_
      split
      · exact regular_pure _
      · refine (regular_work _).bind fun flow => afterRound_regular ?_ flow
        refine (regular_act (.readVariable _ _ _)).bind fun current => ?_
        refine (regular_act (Action.single_check _ _)).bind fun next => ?_
        split
        · exact regular_pure _
        · exact (regular_act (.declare _ _)).bind fun _ => regular_work _

end Task

end TableScript
