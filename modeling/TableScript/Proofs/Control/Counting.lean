import TableScript.Proofs.Frames.Balance
import TableScript.Proofs.Run.Contract
import TableScript.Proofs.Run.Fuel

/-!
# Counting loops

A counting loop goes on from what it finds in its variable, so how often it runs its block depends
on what the block does to that variable.  The variable is bound in the frame of the loop.  A block
that neither declares nor assigns the name cannot change it there: an assignment inside a function
that is called does not see the frame, and a loop inside the block that counts the same name has a
frame of its own.  This is `leavesBinding_ensured`.

If moreover all bounds are integers, the distance to the limit goes down in every round, and the
loop ends if its block does (`forLoop_ends`).
-/

namespace TableScript

/-! ## Which names are rebound -/

mutual

/-- Whether a statement, or one inside it, declares a name or assigns it as a whole.  What functions
do that are defined inside it is not meant. -/
def Statement.rebinds (name : String) : Statement → Bool
  | .declare bound _ _ _ => bound == name
  | .assign target path _ _ => target == name && path.isEmpty
  | .choose options otherwise _ =>
    Branch.anyRebinds name options || Block.optionRebinds name otherwise
  | .while_ _ body _ => body.rebinds name
  | .repeat_ body _ _ => body.rebinds name
  | .for_ _ _ _ _ body _ => body.rebinds name
  | .do_ body _ => body.rebinds name
  | .empty _ | .break_ _ | .define _ _ _ _ | .invoke _ => false

def Statement.anyRebinds (name : String) : List Statement → Bool
  | [] => false
  | first :: rest => first.rebinds name || Statement.anyRebinds name rest

def Branch.anyRebinds (name : String) : List Branch → Bool
  | [] => false
  | .mk _ body :: rest => body.rebinds name || Branch.anyRebinds name rest

def Block.optionRebinds (name : String) : Option Block → Bool
  | none => false
  | some body => body.rebinds name

/-- Whether a statement of a block declares a name or assigns it as a whole. -/
def Block.rebinds (name : String) : Block → Bool
  | .mk statements _ => Statement.anyRebinds name statements

end

/-- Whether statements that are worked on for a task rebind a name. -/
def Task.rebinds (name : String) : {α : Type} → Task α → Bool
  | _, .block body => body.rebinds name
  | _, .statements body => Statement.anyRebinds name body
  | _, .statement tree => tree.rebinds name
  | _, .branches options otherwise =>
    Branch.anyRebinds name options || Block.optionRebinds name otherwise
  | _, .whileLoop _ body => body.rebinds name
  | _, .repeatLoop body _ => body.rebinds name
  | _, .forLoop _ _ _ _ _ body => body.rebinds name
  | _, .expression _ | _, .expressions _ | _, .condition _ _ | _, .tableFields _ _ _
  | _, .invoke _ | _, .call _ _ _ | _, .bound _ _ | _, .stepBound _ => false

/-! ## What the frames bind a name to -/

/-- What each frame binds a name to, the innermost frame first. -/
def State.bindingsOf (state : State) (name : String) : List (Option Value) :=
  state.scope.frames.map (·.bindings.find? name)

section BindingsOf

variable {state later : State} {name : String}

theorem bindingsOf_of_sameStack (hsame : SameStack state later) :
    later.bindingsOf name = state.bindingsOf name := by
  unfold State.bindingsOf
  rw [hsame.frames]

@[simp] theorem bindingsOf_enterLoop (keyword : LoopKeyword) :
    (state.enterLoop keyword).bindingsOf name = none :: state.bindingsOf name := rfl

@[simp] theorem bindingsOf_leaveLoop :
    state.leaveLoop.bindingsOf name = (state.bindingsOf name).tail :=
  List.map_tail

/-- A declaration binds its name in the innermost frame, and no other name anywhere. -/
theorem bindingsOf_declare (bound : String) (value : Value) :
    (state.declare bound value).bindingsOf name =
      match state.bindingsOf name with
      | [] => []
      | old :: rest => (if bound = name then some value else old) :: rest := by
  unfold State.declare Scope.declare State.bindingsOf
  cases state.scope.frames with
  | nil => rfl
  | cons frame rest => simp [Bindings.find?_insert]

theorem bindingsOf_declare_self {old : Option Value} {outer : List (Option Value)}
    (hbound : state.bindingsOf name = old :: outer) (value : Value) :
    (state.declare name value).bindingsOf name = some value :: outer := by
  rw [bindingsOf_declare, hbound]
  simp

theorem bindingsOf_declare_of_ne {bound : String} (hne : bound ≠ name) (value : Value) :
    (state.declare bound value).bindingsOf name = state.bindingsOf name := by
  rw [bindingsOf_declare]
  split
  · next hnone => rw [hnone]
  · next hcons => rw [hcons, if_neg hne]

@[simp] theorem tail_bindingsOf_declare (bound : String) (value : Value) :
    ((state.declare bound value).bindingsOf name).tail = (state.bindingsOf name).tail := by
  rw [bindingsOf_declare]
  split
  · next hnone => rw [hnone]
  · next hcons => rw [hcons, List.tail_cons, List.tail_cons]

/-- An assignment to another variable, or to a field, binds the name nowhere. -/
theorem bindingsOf_assign {target : String} {keys : List Value} {value : Value}
    (hassign : state.assign target keys value = .ok later) (hother : target ≠ name ∨ keys ≠ []) :
    later.bindingsOf name = state.bindingsOf name := by
  rcases State.assign_cases hassign with ⟨hkeys, rfl⟩ | ⟨_, _, _, -, -, -, rfl⟩
  · have hne : target ≠ name := hother.resolve_right (absurd hkeys)
    rcases state.scope.store_cases target value with ⟨-, hstored⟩ | ⟨frames, hupdate, hstored⟩
    · rw [hstored]
      rfl
    · obtain ⟨loops, frame, outer, old, -, -, hframes, rfl⟩ := Frames.update?_eq_some hupdate
      rw [hstored]
      simp [State.bindingsOf, hframes, Bindings.find?_insert, hne]
  · rfl

/-- A name that the innermost frame binds has that value. -/
theorem read_of_bindingsOf {value : Value} {outer : List (Option Value)}
    (hbound : state.bindingsOf name = some value :: outer) : state.read name [] = .ok value := by
  unfold State.bindingsOf at hbound
  obtain ⟨frame, rest, hframes, hfound, -⟩ := List.map_eq_cons_iff.mp hbound
  simp [State.read, State.follow, Scope.lookup, hframes, Frames.find?, hfound]

end BindingsOf

/-! ## What a block leaves alone -/

/-- As many expressions give as many values. -/
theorem length_of_run_expressions {fuel : Nat} {trees : List Expression} {state later : State}
    {values : List Value} (hends : (Task.expressions trees).run fuel state = .done values later) :
    values.length = trees.length := by
  induction trees generalizing fuel state later values with
  | nil =>
      cases fuel with
      | zero => cases hends
      | succ fuel =>
          cases hends
          rfl
  | cons first rest ih =>
      cases fuel with
      | zero => cases hends
      | succ fuel =>
          rw [Task.run_succ] at hends
          simp only [Task.plan, Plan.carryOut_bind, Plan.carryOut_work, Plan.carryOut_pure,
            Action.bind_eq_done, Action.pure_eq_done] at hends
          obtain ⟨value, _, -, others, _, hothers, rfl, -⟩ := hends
          rw [List.length_cons, List.length_cons, ih hothers]

/-- What is left alone by a task that does not rebind a name.  A loop that counts may count that
very name, in its own frame, which is the innermost one. -/
def Task.LeavesBinding (name : String) : {α : Type} → Task α → State → α → State → Prop
  | _, .forLoop _ _ _ _ _ _, state, _, later =>
    (later.bindingsOf name).tail = (state.bindingsOf name).tail
  | _, .expressions trees, state, values, later =>
    later.bindingsOf name = state.bindingsOf name ∧ values.length = trees.length
  | _, _, state, _, later => later.bindingsOf name = state.bindingsOf name

/-- What does not rebind a name leaves it alone. -/
def leavesBinding (name : String) : Contract where
  Requires task _ := task.rebinds name = false
  Ensures task := task.LeavesBinding name

section LeavesBinding

variable {name : String} {α : Type} {state : State}

@[simp] theorem leavesBinding_requires {task : Task α} :
    (leavesBinding name).Requires task state ↔ task.rebinds name = false := Iff.rfl

/-- From a state a plan ends with the name bound in all frames as given. -/
abbrev Plan.EndsBound (name : String) (bindings : List (Option Value)) (plan : Plan α)
    (state : State) : Prop :=
  plan.Secures (leavesBinding name) (fun _ later => later.bindingsOf name = bindings) state

theorem ofStatement_endsBound (tree : Statement) (htree : tree.rebinds name = false) :
    (Task.ofStatement tree).EndsBound name (state.bindingsOf name) state := by
  cases tree with
  | empty position => rfl
  | break_ position => rfl
  | declare bound namePosition value position =>
      have hne : bound ≠ name := by simpa [Statement.rebinds] using htree
      simp only [Task.ofStatement, Plan.secures_bind, Plan.secures_work, Plan.secures_act,
        Plan.secures_pure, Action.change_eq_done]
      refine ⟨rfl, fun item later hlater => ?_⟩
      rintro _ _ rfl
      exact (bindingsOf_declare_of_ne hne item).trans hlater
  | assign target path value position =>
      simp only [Task.ofStatement, Plan.secures_bind, Plan.secures_work, Plan.secures_act,
        Plan.secures_pure, Action.attempt_eq_done]
      refine ⟨rfl, fun keys middle hmiddle => ⟨rfl, fun item later hlater _ after hassign => ?_⟩⟩
      -- as many keys as the path has steps, so none only if the variable itself is assigned
      have hother : target ≠ name ∨ keys ≠ [] := by
        by_cases htarget : target = name
        · right
          intro hkeys
          have hlength : keys.length = path.length := hmiddle.2
          rw [hkeys, List.length_nil] at hlength
          have hpath : path = [] := List.eq_nil_of_length_eq_zero hlength.symm
          simp [Statement.rebinds, htarget, hpath] at htree
        · exact Or.inl htarget
      calc after.bindingsOf name
        _ = later.bindingsOf name := bindingsOf_assign hassign hother
        _ = middle.bindingsOf name := hlater
        _ = state.bindingsOf name := hmiddle.1
  | choose options otherwise position => exact ⟨htree, fun _ _ hlater => hlater⟩
  | define function parameters body position =>
      rintro _ _ hends
      cases hends
      rfl
  | while_ guard body position | repeat_ body guard position | do_ body position =>
      simp only [Task.ofStatement, Plan.secures_inLoopFrame, Plan.secures_work]
      refine ⟨htree, fun flow later hlater => ?_⟩
      rw [bindingsOf_leaveLoop]
      exact congrArg List.tail hlater
  | for_ counter start limit step body position =>
      simp only [Task.ofStatement, Plan.secures_bind, Plan.secures_work]
      refine ⟨rfl, fun first afterFirst hfirst => ⟨rfl, fun last afterLast hlast => ?_⟩⟩
      refine ⟨rfl, fun increment afterStep hstep => ?_⟩
      have hsame : afterStep.bindingsOf name = state.bindingsOf name :=
        hstep.trans (hlast.trans hfirst)
      cases Eval.ascending? increment with
      | none => simp
      | some ascending =>
          simp only [Plan.secures_inLoopFrame, Plan.secures_bind, Plan.secures_act,
            Plan.secures_work, Action.change_eq_done]
          rintro _ _ rfl
          refine ⟨htree, fun flow later hlater => ?_⟩
          -- the name may be the one that is counted, but in the frame that is left
          calc later.leaveLoop.bindingsOf name
            _ = (later.bindingsOf name).tail := bindingsOf_leaveLoop
            _ = (((afterStep.enterLoop .for_).declare counter first).bindingsOf name).tail := hlater
            _ = afterStep.bindingsOf name := by rw [tail_bindingsOf_declare]; rfl
            _ = state.bindingsOf name := hsame
  | invoke invocation => exact ⟨rfl, fun _ _ hlater => hlater⟩

theorem ofBranches_endsBound (options : List Branch) (otherwise : Option Block)
    (htree : (Task.branches options otherwise).rebinds name = false) :
    (Task.ofBranches options otherwise).EndsBound name (state.bindingsOf name) state := by
  cases options with
  | nil =>
      cases otherwise with
      | none => rfl
      | some body => exact ⟨htree, fun _ _ hlater => hlater⟩
  | cons first rest =>
      obtain ⟨guard, body⟩ := first
      simp only [Task.rebinds, Branch.anyRebinds, Bool.or_assoc, Bool.or_eq_false_iff] at htree
      simp only [Task.ofBranches, Plan.secures_bind, Plan.secures_work]
      refine ⟨rfl, fun verdict later hlater => ?_⟩
      split
      · exact ⟨htree.1, fun _ _ hafter => hafter.trans hlater⟩
      · exact ⟨by simpa [Task.rebinds] using htree.2, fun _ _ hafter => hafter.trans hlater⟩

theorem statements_endsBound (body : List Statement)
    (hbody : Statement.anyRebinds name body = false) :
    (Task.statements body).plan.EndsBound name (state.bindingsOf name) state := by
  cases body with
  | nil => rfl
  | cons first rest =>
      simp only [Statement.anyRebinds, Bool.or_eq_false_iff] at hbody
      simp only [Task.plan, Plan.secures_bind, Plan.secures_work]
      refine ⟨hbody.1, fun flow later hlater => ?_⟩
      -- after a `break` or a return no statement follows, and nothing is rebound any more
      cases flow with
      | normal => exact ⟨hbody.2, fun _ _ hafter => hafter.trans hlater⟩
      | broken | returned value => exact hlater

theorem block_endsBound (body : Block) (hbody : body.rebinds name = false) :
    (Task.block body).plan.EndsBound name (state.bindingsOf name) state := by
  obtain ⟨body, result⟩ := body
  simp only [Task.plan, Plan.secures_bind, Plan.secures_work]
  refine ⟨hbody, fun flow later hlater => ?_⟩
  cases flow with
  | normal =>
      cases result with
      | none => exact hlater
      | some last =>
          simp only [Plan.secures_bind, Plan.secures_work, Plan.secures_pure]
          exact ⟨rfl, fun _ _ hafter => hafter.1.trans hlater⟩
  | broken | returned value => exact hlater

/-- The rounds of a counting loop leave what is behind its frame alone; the frame itself is the
innermost one throughout. -/
theorem forLoop_secures (position : Position) (counter : String) (ascending : Bool)
    (limit step : Value) {body : Block} (hbody : body.rebinds name = false) :
    (Task.forLoop position counter ascending limit step body).plan.Secures (leavesBinding name)
      (fun _ later => (later.bindingsOf name).tail = (state.bindingsOf name).tail) state := by
  simp only [Task.plan, Plan.secures_bind, Plan.secures_act, Action.readVariable_eq_done]
  rintro current _ ⟨-, rfl⟩
  split
  · rfl
  · simp only [Plan.secures_bind, Plan.secures_work]
    refine ⟨hbody, fun flow later hlater => ?_⟩
    have hround : (later.bindingsOf name).tail = (state.bindingsOf name).tail :=
      congrArg List.tail hlater
    refine Task.afterRound_secures (fun _ => hround) ?_ flow
    simp only [Plan.secures_bind, Plan.secures_act, Action.readVariable_eq_done,
      Action.check_eq_done]
    rintro found _ ⟨-, rfl⟩ next _ ⟨-, rfl⟩
    cases next with
    | none => exact hround
    | some value =>
        simp only [Plan.secures_bind, Plan.secures_act, Plan.secures_work, Action.change_eq_done]
        rintro _ _ rfl
        refine ⟨hbody, fun _ after hafter => ?_⟩
        -- the counter is declared in the innermost frame, and the tail is what is behind it
        calc (after.bindingsOf name).tail
          _ = ((later.declare counter value).bindingsOf name).tail := hafter
          _ = (later.bindingsOf name).tail := tail_bindingsOf_declare counter value
          _ = (state.bindingsOf name).tail := hround

/-- **A name that is not rebound stays bound as it was**, in every frame.  Expressions leave the
whole stack alone; for statements this is a matter of their plans. -/
theorem leavesBinding_ensured {fuel : Nat} {task : Task α} {later : State} {value : α}
    (hrebinds : task.rebinds name = false) (hends : task.run fuel state = .done value later) :
    task.LeavesBinding name state value later := by
  refine (leavesBinding name).ensured_of ?_ hrebinds hends
  intro α task state hrebinds
  -- what only evaluates leaves the stack as it was, which is known without looking at plans
  have hsame {β : Type} {action : Action β} (hkeeps : action.Keeps SameStack) {value : β}
      {later : State} (hends : action state = .done value later) :
      later.bindingsOf name = state.bindingsOf name :=
    bindingsOf_of_sameStack (hkeeps state later (by rw [hends]; rfl))
  cases task with
  | expression tree => exact .inl fun fuel _ _ => hsame ((balance.kept fuel).expression tree)
  | expressions trees =>
      refine .inl fun fuel values later hends => ⟨?_, length_of_run_expressions hends⟩
      exact hsame ((balance.kept fuel).expressions trees) hends
  | condition context guard =>
      exact .inl fun fuel _ _ => hsame ((balance.kept fuel).condition context guard)
  | tableFields index table fields =>
      exact .inl fun fuel _ _ => hsame ((balance.kept fuel).tableFields index table fields)
  | invoke invocation => exact .inl fun fuel _ _ => hsame ((balance.kept fuel).invoke invocation)
  | call position function arguments =>
      exact .inl fun fuel _ _ => hsame ((balance.kept fuel).call position function arguments)
  | bound kind source => exact .inl fun fuel _ _ => hsame ((balance.kept fuel).bound kind source)
  | stepBound source => exact .inl fun fuel _ _ => hsame ((balance.kept fuel).stepBound source)
  | block body => exact .inr (block_endsBound body hrebinds)
  | statements body => exact .inr (statements_endsBound body hrebinds)
  | statement tree => exact .inr (ofStatement_endsBound tree hrebinds)
  | branches options otherwise => exact .inr (ofBranches_endsBound options otherwise hrebinds)
  -- a round and what comes after it leave the name alone in turn
  | whileLoop guard body =>
      refine .inr ?_
      simp only [Task.plan, Plan.secures_bind, Plan.secures_work]
      refine ⟨rfl, fun verdict later hlater => ?_⟩
      split
      · refine ⟨hrebinds, fun flow after hafter => ?_⟩
        have hround := hafter.trans hlater
        refine Task.afterRound_secures (fun _ => hround) ?_ flow
        exact ⟨hrebinds, fun _ _ hrest => hrest.trans hround⟩
      · exact hlater
  | repeatLoop body guard =>
      refine .inr ⟨hrebinds, fun flow later hlater => ?_⟩
      refine Task.afterRound_secures (fun _ => hlater) ?_ flow
      simp only [Plan.secures_bind, Plan.secures_work]
      refine ⟨rfl, fun verdict after hafter => ?_⟩
      have hround := hafter.trans hlater
      split
      · exact hround
      · exact ⟨hrebinds, fun _ _ hrest => hrest.trans hround⟩
  | forLoop position counter ascending limit step body =>
      exact .inr (forLoop_secures position counter ascending limit step hrebinds)

end LeavesBinding

/-! ## Integer bounds -/

/-- Whether an expression is an integer literal, perhaps negated. -/
def Expression.isIntegerLiteral : Expression → Bool
  | .number .integer _ _ => true
  | .unary .negate operand _ => operand.isIntegerLiteral
  | _ => false

/-- The value of an integer literal, if it has one, is an integer. -/
theorem integer_of_literal {source : Expression} (hliteral : source.isIntegerLiteral = true)
    {state later : State} {value : Value}
    (hends : (Task.expression source).outcome state = .done value later) :
    ∃ number, value = .integer number := by
  fun_induction Expression.isIntegerLiteral source generalizing value later with
  | case1 text position =>
      rw [Task.outcome_eq] at hends
      simp only [Task.plan, Task.ofExpression, Plan.carryOut_act, Action.check_eq_done,
        Reading.ofLiteral] at hends
      obtain ⟨hread, -⟩ := hends
      split at hread
      · cases hread
        exact ⟨_, rfl⟩
      · cases hread
  | case2 operand position ih =>
      rw [Task.outcome_eq] at hends
      simp only [Task.plan, Task.ofExpression, Plan.carryOut_bind, Plan.carryOut_work,
        Plan.carryOut_act, Action.bind_eq_done, Action.check_eq_done] at hends
      obtain ⟨inner, middle, hinner, hnegated, -⟩ := hends
      -- the negation of an integer is one, wrapped around if need be
      obtain ⟨number, rfl⟩ := ih hliteral hinner
      cases hnegated
      exact ⟨-number, rfl⟩
  | case3 => cases hliteral

/-- A bound is the first of the values that its expression gives, and a number. -/
theorem given_of_bound {kind : LoopBound} {source : Expression} {state later : State}
    {value : Value} (hends : (Task.bound kind source).outcome state = .done value later) :
    ∃ given, (Task.expression source).outcome state = .done given later ∧
      given.first = value ∧ value.isNumber = true := by
  rw [Task.outcome_eq] at hends
  simp only [Task.plan, Plan.carryOut_bind, Plan.carryOut_work, Plan.carryOut_act,
    Action.bind_eq_done, Action.requireNumber_eq_done] at hends
  obtain ⟨given, _, hgiven, hnumber, rfl, rfl⟩ := hends
  exact ⟨given, hgiven, rfl, hnumber⟩

theorem integer_of_bound {kind : LoopBound} {source : Expression}
    (hliteral : source.isIntegerLiteral = true) {state later : State} {value : Value}
    (hends : (Task.bound kind source).outcome state = .done value later) :
    ∃ number, value = .integer number := by
  obtain ⟨given, hgiven, rfl, -⟩ := given_of_bound hends
  obtain ⟨number, rfl⟩ := integer_of_literal hliteral hgiven
  exact ⟨number, rfl⟩

theorem integer_of_stepBound {source : Option Expression}
    (hliteral : source.all Expression.isIntegerLiteral = true) {state later : State} {value : Value}
    (hends : (Task.stepBound source).outcome state = .done value later) :
    ∃ number, value = .integer number := by
  rw [Task.outcome_eq] at hends
  cases source with
  | none =>
      simp only [Task.plan, Plan.carryOut_pure, Action.pure_eq_done] at hends
      exact ⟨1, hends.1.symm⟩
  | some step =>
      simp only [Task.plan, Plan.carryOut_work] at hends
      exact integer_of_bound hliteral hends

/-! ## The number of rounds -/

namespace Eval

/-- How many integers lie between a counter and its limit, both included. -/
def roundsLeft (ascending : Bool) (counter limit : Int64) : Nat :=
  if ascending then (limit.toInt - counter.toInt + 1).toNat
  else (counter.toInt - limit.toInt + 1).toNat

/-- Upwards by a positive step, downwards by a negative one. -/
theorem sign_of_ascending? {step : Int64} {ascending : Bool}
    (hascending : ascending? (.integer step) = some ascending) :
    0 < step.toInt ∧ ascending = true ∨ step.toInt < 0 ∧ ascending = false := by
  simp only [ascending?] at hascending
  split at hascending
  · cases hascending
  · next hmoves =>
      have hne : step.toInt ≠ 0 := fun hzero => hmoves (Int64.toInt_inj.mp hzero)
      cases hascending
      by_cases hup : (0 : Int64) < step
      · have hpositive : 0 < step.toInt := Int64.lt_iff_toInt_lt.mp hup
        exact .inl ⟨hpositive, decide_eq_true hup⟩
      · have hnot : ¬ 0 < step.toInt := fun hpositive => hup (Int64.lt_iff_toInt_lt.mpr hpositive)
        exact .inr ⟨by omega, decide_eq_false hup⟩

/-- A counter goes on as long as it is not beyond its limit. -/
theorem hasPassed_eq_false_iff {ascending : Bool} {counter limit : Int64} :
    hasPassed ascending (.integer counter) (.integer limit) = false ↔
      if ascending then counter.toInt ≤ limit.toInt else limit.toInt ≤ counter.toInt := by
  cases ascending with
  | true =>
      have hnot : hasPassed true (.integer counter) (.integer limit) = false ↔
          Ord.compare counter.toInt limit.toInt ≠ .gt := by
        simp [hasPassed, Operator.ordered, Value.compare]
      rw [hnot, Ne, Int.compare_eq_gt]
      simp only [if_true]
      omega
  | false =>
      have hnot : hasPassed false (.integer counter) (.integer limit) = false ↔
          Ord.compare counter.toInt limit.toInt ≠ .lt := by
        simp [hasPassed, Operator.ordered, Value.compare]
      rw [hnot, Ne, Int.compare_eq_lt]
      simp only [Bool.false_eq_true, if_false]
      omega

/-- A step adds without wrapping around, or it would leave the range of integers. -/
theorem advance_cases (counter step : Int64) :
    (∃ number, advance (.integer counter) (.integer step) = .ok (some (.integer number)) ∧
      number.toInt = counter.toInt + step.toInt) ∨
    (advance (.integer counter) (.integer step) = .ok none ∧
      ¬ (Int64.minValue.toInt ≤ counter.toInt + step.toInt ∧
        counter.toInt + step.toInt ≤ Int64.maxValue.toInt)) := by
  simp only [advance]
  split
  · next hrange =>
      rw [Int64.toInt_minValue, Int64.toInt_maxValue] at hrange
      exact .inl ⟨_, rfl, Int64.toInt_ofInt_of_le (by omega) (by omega)⟩
  · next hrange => exact .inr ⟨rfl, hrange⟩

/-- As long as a counter has not passed its limit, a step brings it nearer. -/
theorem roundsLeft_of_advance {ascending : Bool} {counter limit step : Int64} {next : Value}
    (hascending : ascending? (.integer step) = some ascending)
    (hgoesOn : hasPassed ascending (.integer counter) (.integer limit) = false)
    (hadvance : advance (.integer counter) (.integer step) = .ok (some next)) :
    ∃ number, next = .integer number ∧
      roundsLeft ascending number limit < roundsLeft ascending counter limit := by
  have hle := hasPassed_eq_false_iff.mp hgoesOn
  obtain ⟨number, hnext, hnumber⟩ | ⟨hnone, -⟩ := advance_cases counter step
  · rw [hnext] at hadvance
    cases hadvance
    refine ⟨number, rfl, ?_⟩
    rcases sign_of_ascending? hascending with ⟨hup, rfl⟩ | ⟨hdown, rfl⟩
    · simp only [roundsLeft, if_true] at hle ⊢
      omega
    · simp only [roundsLeft, Bool.false_eq_true, if_false] at hle ⊢
      omega
  · rw [hnone] at hadvance
    cases hadvance

end Eval

/-- **A counting loop with integer bounds ends** if its block ends and does not rebind the counter.
The induction is on the number of rounds that are left. -/
theorem forLoop_ends {holds : State → Prop} {name : String} {body : Block}
    (hrebinds : body.rebinds name = false)
    (hbody : ∀ state, holds state → (Task.block body).Ends state)
    (hround : ∀ state flow later, holds state →
      (Task.block body).outcome state = .done flow later → holds later)
    (hdeclare : ∀ state value, holds state → holds (state.declare name value))
    (position : Position) {ascending : Bool} {step limit counter : Int64}
    (hascending : Eval.ascending? (.integer step) = some ascending) {state : State}
    {outer : List (Option Value)} (hstate : holds state)
    (hcounter : state.bindingsOf name = some (.integer counter) :: outer) :
    (Task.forLoop position name ascending (.integer limit) (.integer step) body).Ends state := by
  induction hrounds : Eval.roundsLeft ascending counter limit using Nat.strongRecOn
    generalizing counter state with
  -- it is not the counter that decreases, but the rounds between it and the limit, in either
  -- direction
  | ind rounds ih =>
      apply Task.ends_of_requests
      simp only [Task.plan, Plan.requests_bind, Plan.requests_act, Plan.carryOut_act,
        Action.readVariable_eq_done, true_and]
      rintro found _ ⟨hfound, rfl⟩
      rw [read_of_bindingsOf hcounter] at hfound
      cases hfound
      split
      · trivial
      · next hgoesOn =>
        simp only [Plan.requests_bind, Plan.requests_work, Plan.carryOut_work]
        refine ⟨hbody state hstate, fun flow later hends => ?_⟩
        have hlater : holds later := hround state flow later hstate hends
        obtain ⟨fuel, hrun⟩ := Task.exists_run_of_outcome hends
        -- the block leaves the counter as it was, so the step is made from the number that was
        -- tested
        have hleft : (Task.block body).LeavesBinding name state flow later :=
          leavesBinding_ensured hrebinds hrun
        have hsame : later.bindingsOf name = some (.integer counter) :: outer :=
          hleft.trans hcounter
        cases flow with
        | broken | returned value => trivial
        | normal =>
            simp only [Task.afterRound, Plan.requests_bind, Plan.requests_act, Plan.carryOut_act,
              Action.readVariable_eq_done, Action.check_eq_done, true_and]
            rintro current _ ⟨hcurrent, rfl⟩ next _ ⟨hnext, rfl⟩
            rw [read_of_bindingsOf hsame] at hcurrent
            cases hcurrent
            cases next with
            -- at the end of the range there is no next number, and the loop ends
            | none => trivial
            | some value =>
                obtain ⟨number, rfl, hfewer⟩ :=
                  Eval.roundsLeft_of_advance hascending (by simpa using hgoesOn) hnext
                simp only [Plan.requests_bind, Plan.requests_act, Plan.requests_work,
                  Plan.carryOut_act, Action.change_eq_done, true_and]
                rintro _ _ rfl
                refine ih _ (hrounds ▸ hfewer) (hdeclare later _ hlater) ?_ rfl
                exact bindingsOf_declare_self hsame _

end TableScript
