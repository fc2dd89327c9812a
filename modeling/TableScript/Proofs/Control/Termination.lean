import TableScript.Proofs.Control.Counting
import TableScript.Proofs.Control.Definitions
import TableScript.Proofs.Frames.CallDepth

/-!
# Programs that end

A program ends, with a value or with a fault, if all its loops count by integer literals and leave
their counters alone.  It may call itself as much as it likes, redefine functions that are running
and define functions when others are called: the call limit bounds how deep calls go, and whatever
is called is one of the finitely many functions that the program writes down.

The argument has three layers.

* Calls: `budget` more calls fit inside each other.  A call that is entered leaves one less
  (`Ready.enterCall`), so calls end by induction on the budget (`callsEnd`).
* Trees: if calls end, then so does everything else, by recursion on the tree
  (`Expression.ends`, `Block.ends`).
* Rounds: a counting loop ends by induction on the rounds left, which is `forLoop_ends`.
-/

namespace TableScript

/-! ## Loops that count -/

mutual

/-- Whether every loop of a statement, those of functions defined in it included, counts between
integer literals and leaves its counter alone. -/
def Statement.isCounted : Statement → Bool
  | .choose options otherwise _ => Branch.allCounted options && Block.optionCounted otherwise
  | .define _ _ body _ => body.isCounted
  | .while_ _ _ _ | .repeat_ _ _ _ => false
  | .for_ name start limit step body _ =>
    start.isIntegerLiteral && limit.isIntegerLiteral && step.all Expression.isIntegerLiteral &&
      !body.rebinds name && body.isCounted
  | .do_ body _ => body.isCounted
  | .empty _ | .break_ _ | .declare _ _ _ _ | .assign _ _ _ _ | .invoke _ => true

def Statement.allCounted : List Statement → Bool
  | [] => true
  | first :: rest => first.isCounted && Statement.allCounted rest

def Branch.allCounted : List Branch → Bool
  | [] => true
  | .mk _ body :: rest => body.isCounted && Branch.allCounted rest

def Block.optionCounted : Option Block → Bool
  | none => true
  | some body => body.isCounted

/-- Whether every loop of a block counts between integer literals and leaves its counter alone. -/
def Block.isCounted : Block → Bool
  | .mk statements _ => Statement.allCounted statements

end

mutual

theorem Statement.isCounted_of_mem_definitions {function : Function} :
    (tree : Statement) → tree.isCounted = true → function ∈ tree.definitions →
      function.body.isCounted = true
  | .choose options otherwise _, hcounted, hmember => by
    simp only [Statement.isCounted, Bool.and_eq_true] at hcounted
    rw [Statement.definitions] at hmember
    rcases List.mem_append.mp hmember with hmember | hmember
    · exact Branch.isCounted_of_mem_definitions options hcounted.1 hmember
    · exact Block.isCounted_of_mem_definitionsOfOption otherwise hcounted.2 hmember
  | .define name parameters body position, hcounted, hmember => by
    rw [Statement.definitions] at hmember
    rcases List.mem_cons.mp hmember with rfl | hmember
    · exact hcounted
    · exact Block.isCounted_of_mem_definitions body hcounted hmember
  | .for_ _ _ _ _ body _, hcounted, hmember => by
    simp only [Statement.isCounted, Bool.and_eq_true] at hcounted
    exact Block.isCounted_of_mem_definitions body hcounted.2 hmember
  | .do_ body _, hcounted, hmember => Block.isCounted_of_mem_definitions body hcounted hmember

theorem Statement.isCounted_of_mem_definitionsOfEach {function : Function} :
    (trees : List Statement) → Statement.allCounted trees = true →
      function ∈ Statement.definitionsOfEach trees → function.body.isCounted = true
  | first :: rest, hcounted, hmember => by
    simp only [Statement.allCounted, Bool.and_eq_true] at hcounted
    rcases List.mem_append.mp hmember with hmember | hmember
    · exact Statement.isCounted_of_mem_definitions first hcounted.1 hmember
    · exact Statement.isCounted_of_mem_definitionsOfEach rest hcounted.2 hmember

theorem Branch.isCounted_of_mem_definitions {function : Function} :
    (options : List Branch) → Branch.allCounted options = true →
      function ∈ Branch.definitionsOfEach options → function.body.isCounted = true
  | .mk _ body :: rest, hcounted, hmember => by
    simp only [Branch.allCounted, Bool.and_eq_true] at hcounted
    rcases List.mem_append.mp hmember with hmember | hmember
    · exact Block.isCounted_of_mem_definitions body hcounted.1 hmember
    · exact Branch.isCounted_of_mem_definitions rest hcounted.2 hmember

theorem Block.isCounted_of_mem_definitionsOfOption {function : Function} :
    (otherwise : Option Block) → Block.optionCounted otherwise = true →
      function ∈ Block.definitionsOfOption otherwise → function.body.isCounted = true
  | some body, hcounted, hmember => Block.isCounted_of_mem_definitions body hcounted hmember

/-- What holds of the loops of a block holds of those of its functions. -/
theorem Block.isCounted_of_mem_definitions {function : Function} :
    (body : Block) → body.isCounted = true → function ∈ body.definitions →
      function.body.isCounted = true
  | .mk statements _, hcounted, hmember =>
    Statement.isCounted_of_mem_definitionsOfEach statements hcounted hmember

end

/-! ## Room for calls -/

/-- Only known functions can be found, and at most so many more calls fit inside each other. -/
structure Ready (known : List Function) (budget : Nat) (state : State) : Prop where
  knows : state.Knows known
  room : state.scope.callLimit ≤ state.scope.callDepth + budget

/-- Nothing in a run changes the call limit. -/
theorem limitKept : Discipline (fun before after => after.scope.callLimit = before.scope.callLimit)
    (fun before after => after.scope.callLimit = before.scope.callLimit) where
  expressions_refl _ := rfl
  expressions_trans _ _ _ hfirst hsecond := hsecond.trans hfirst
  statements_refl _ := rfl
  statements_trans _ _ _ hfirst hsecond := hsecond.trans hfirst
  embed _ _ hsame := hsame
  allocate _ _ := rfl
  takeLine state := by
    unfold State.takeLine
    split <;> rfl
  printLine _ _ := rfl
  declare _ := Scope.callLimit_declare
  assign _ _ _ _ _ := Scope.callLimit_assign
  define _ _ := rfl
  -- a call and its return change the depth, and never the limit
  call state function arguments entered later hentered hlater := by
    obtain ⟨hlimit, -, -⟩ := Scope.count_of_enterCall (State.scope_enterCall hentered)
    calc later.leaveCall.scope.callLimit
      _ = later.scope.callLimit := Scope.callLimit_leaveCall
      _ = entered.scope.callLimit := hlater
      _ = state.scope.callLimit := hlimit
  loop _ _ _ hlater := hlater

namespace Ready

variable {α : Type} {known : List Function} {budget : Nat} {state later : State}

theorem enterLoop (hready : Ready known budget state) (keyword : LoopKeyword) :
    Ready known budget (state.enterLoop keyword) := ⟨hready.knows, hready.room⟩

theorem declare (hready : Ready known budget state) (name : String) (value : Value) :
    Ready known budget (state.declare name value) where
  knows := knows_declare.mpr hready.knows
  room := by
    have hlimit : (state.declare name value).scope.callLimit = state.scope.callLimit :=
      limitKept.declare state name value
    have hdepth := (localChange_declare state name value).callDepth
    rw [hlimit, hdepth]
    exact hready.room

/-- A call that is entered takes one from the budget, which was not used up. -/
theorem enterCall (hready : Ready known budget state) {function : Function}
    {arguments : List Value} (hentered : state.enterCall function arguments = .ok later) :
    ∃ less, budget = less + 1 ∧ Ready known less later := by
  obtain ⟨hlimit, hdepth, hfree⟩ := Scope.count_of_enterCall (State.scope_enterCall hentered)
  have hroom := hready.room
  refine ⟨budget - 1, by omega, (knows_enterCall hentered).mpr hready.knows, ?_⟩
  omega

/-- However much is worked on in between, afterwards there is as much room as before. -/
theorem after (hready : Ready known budget state) (hclosed : Closed known) {task : Task α}
    (htask : task.definitions ⊆ known) {value : α}
    (hends : task.outcome state = .done value later) : Ready known budget later := by
  obtain ⟨fuel, hrun⟩ := Task.exists_run_of_outcome hends
  have hlast : (task.run fuel state).state? = some later := by rw [hrun]; rfl
  have hdepth : later.scope.callDepth = state.scope.callDepth :=
    (balance.logic.executes_run [] fuel task state later hlast).callDepth
  have hlimit : later.scope.callLimit = state.scope.callLimit :=
    limitKept.logic.executes_run [] fuel task state later hlast
  refine ⟨(onlyKnown_sound hclosed).ensured ⟨htask, hready.knows⟩ hrun, ?_⟩
  rw [hdepth, hlimit]
  exact hready.room

end Ready

/-! ## If calls end, everything ends -/

/-- All tasks that a plan comes to request end. -/
abbrev Plan.RequestsEnd {α : Type} (plan : Plan α) (state : State) : Prop :=
  plan.Requests Task.outcome (fun part inner => part.Ends inner) state

theorem condition_ends {context : String} {guard : Expression} {state : State}
    (hguard : (Task.expression guard).Ends state) : (Task.condition context guard).Ends state :=
  Task.ends_of_requests ⟨hguard, fun _ _ _ => Plan.requests_act _⟩

theorem bound_ends {kind : LoopBound} {source : Expression} {state : State}
    (hsource : (Task.expression source).Ends state) : (Task.bound kind source).Ends state :=
  Task.ends_of_requests ⟨hsource, fun _ _ _ => Plan.requests_act _⟩

/-- Where there is room for so many calls inside each other, calls of known functions end; and what
known functions define is known. -/
structure CallsEnd (known : List Function) (budget : Nat) : Prop where
  closed : Closed known
  ends : ∀ (position : Position) (function : Function) (arguments : List Value) (state : State),
    function ∈ known → Ready known budget state →
    (Task.call position function arguments).Ends state

section Trees

variable {known : List Function} {budget : Nat}

/-- Work that ends leaves as much room as there was, for what comes next. -/
theorem CallsEnd.work_bind (hcalls : CallsEnd known budget) {α β : Type} {task : Task α}
    {further : α → Plan β} {state : State} (htask : task.definitions ⊆ known)
    (hready : Ready known budget state) (hends : task.Ends state)
    (hfurther : ∀ value later, Ready known budget later →
      task.outcome state = .done value later → (further value).RequestsEnd later) :
    (Plan.work task >>= further).RequestsEnd state := by
  simp only [Plan.requests_bind, Plan.requests_work, Plan.carryOut_work]
  refine ⟨hends, fun value later hlater => ?_⟩
  exact hfurther value later (hready.after hcalls.closed htask hlater) hlater

/-- Evaluating an expression defines nothing. -/
theorem CallsEnd.evaluate_bind (hcalls : CallsEnd known budget) {α β : Type} {task : Task α}
    {further : α → Plan β} {state : State} (htask : task.definitions = [])
    (hready : Ready known budget state) (hends : task.Ends state)
    (hfurther : ∀ value later, Ready known budget later → (further value).RequestsEnd later) :
    (Plan.work task >>= further).RequestsEnd state := by
  refine hcalls.work_bind (by simp [htask]) hready hends fun value later hlater _ => ?_
  exact hfurther value later hlater

theorem requestsEnd_check_bind {α β : Type} {position : Position} {computed : Except Cause α}
    {further : α → Plan β} {state : State}
    (hfurther : ∀ value, (further value).RequestsEnd state) :
    (Plan.act (.check position computed) >>= further).RequestsEnd state := by
  simp only [Plan.requests_bind, Plan.requests_act, Plan.carryOut_act, Action.check_eq_done,
    true_and]
  rintro value _ ⟨-, rfl⟩
  exact hfurther value

/-! ### Expressions -/

mutual

theorem Expression.ends (hcalls : CallsEnd known budget) : (tree : Expression) →
    ∀ {state : State}, Ready known budget state → (Task.expression tree).Ends state
  | .nil _, _, _ | .boolean _ _, _, _ | .string _ _, _, _ =>
    Task.ends_of_requests (Plan.requests_pure _)
  | .number _ _ _, _, _ => Task.ends_of_requests (Plan.requests_act _)
  | .variable _ path _, _, hready => by
    apply Task.ends_of_requests
    refine hcalls.evaluate_bind rfl hready (Expression.all_end hcalls path hready) ?_
    exact fun _ _ _ => Plan.requests_act _
  -- the fields are evaluated behind a new table, which changes nothing
  | .table fields _, _, hready => by
    apply Task.ends_of_requests
    simp only [Task.plan, Task.ofExpression, Plan.requests_bind, Plan.requests_act,
      Plan.carryOut_act, Action.newTable_eq_done, true_and]
    rintro table _ ⟨-, rfl⟩
    exact ⟨(Plan.requests_work _).mpr (Field.all_end hcalls 1 table fields hready), by simp⟩
  | .invoke invocation, _, hready => by
    apply Task.ends_of_requests
    exact (Plan.requests_work _).mpr (Invocation.ends hcalls invocation hready)
  | .binary operator left right _, _, hready => by
    apply Task.ends_of_requests
    rw [Task.plan, Task.ofExpression]
    split
    · -- a lazy operator: its second operand may not be evaluated
      have hleft := Expression.ends hcalls left hready
      refine hcalls.evaluate_bind rfl hready (condition_ends hleft) ?_
      intro first later hlater
      split
      · exact Plan.requests_pure _
      · have hright := Expression.ends hcalls right hlater
        refine hcalls.evaluate_bind rfl hlater (condition_ends hright) ?_
        exact fun _ _ _ => Plan.requests_pure _
    · refine hcalls.evaluate_bind rfl hready (Expression.ends hcalls left hready) ?_
      intro first later hlater
      refine hcalls.evaluate_bind rfl hlater (Expression.ends hcalls right hlater) ?_
      exact fun _ _ _ => Plan.requests_act _
  | .unary _ operand _, _, hready => by
    apply Task.ends_of_requests
    refine hcalls.evaluate_bind rfl hready (Expression.ends hcalls operand hready) ?_
    exact fun _ _ _ => Plan.requests_act _
  | .parenthesized inner _, _, hready => by
    apply Task.ends_of_requests
    refine hcalls.evaluate_bind rfl hready (Expression.ends hcalls inner hready) ?_
    exact fun _ _ _ => Plan.requests_pure _

theorem Expression.all_end (hcalls : CallsEnd known budget) : (trees : List Expression) →
    ∀ {state : State}, Ready known budget state → (Task.expressions trees).Ends state
  | [], _, _ => Task.ends_of_requests (Plan.requests_pure _)
  | first :: rest, _, hready => by
    apply Task.ends_of_requests
    refine hcalls.evaluate_bind rfl hready (Expression.ends hcalls first hready) ?_
    intro value later hlater
    refine hcalls.evaluate_bind rfl hlater (Expression.all_end hcalls rest hlater) ?_
    exact fun _ _ _ => Plan.requests_pure _

theorem Field.all_end (hcalls : CallsEnd known budget) (index : Nat) (table : Table) :
    (fields : List Field) → ∀ {state : State}, Ready known budget state →
      (Task.tableFields index table fields).Ends state
  | [], _, _ => Task.ends_of_requests (Plan.requests_pure _)
  | .positional value :: rest, _, hready => by
    apply Task.ends_of_requests
    refine hcalls.evaluate_bind rfl hready (Expression.ends hcalls value hready) ?_
    intro item later hlater
    refine requestsEnd_check_bind fun stored => ?_
    exact (Plan.requests_work _).mpr (Field.all_end hcalls (index + 1) stored rest hlater)
  | .keyed key value :: rest, _, hready => by
    apply Task.ends_of_requests
    refine hcalls.evaluate_bind rfl hready (Expression.ends hcalls key hready) ?_
    intro name middle hmiddle
    refine hcalls.evaluate_bind rfl hmiddle (Expression.ends hcalls value hmiddle) ?_
    intro item later hlater
    refine requestsEnd_check_bind fun stored => ?_
    exact (Plan.requests_work _).mpr (Field.all_end hcalls index stored rest hlater)

theorem Invocation.ends (hcalls : CallsEnd known budget) : (invocation : Invocation) →
    ∀ {state : State}, Ready known budget state → (Task.invoke invocation).Ends state
  | .call callee arguments position, _, hready => by
    apply Task.ends_of_requests
    refine hcalls.evaluate_bind rfl hready (Expression.all_end hcalls arguments hready) ?_
    intro values later hlater
    simp only [Plan.requests_bind, Plan.requests_act, Plan.requests_work, Plan.carryOut_act,
      Action.findFunction_eq_done, true_and]
    rintro function _ ⟨hfound, rfl⟩
    exact hcalls.ends position function _ later (hlater.knows callee function hfound) hlater
  | .print arguments _, _, hready => by
    apply Task.ends_of_requests
    refine hcalls.evaluate_bind rfl hready (Expression.all_end hcalls arguments hready) ?_
    simp
  | .read none _, _, _ => Task.ends_of_requests (Plan.requests_act _)
  | .read (some format) _, _, hready => by
    apply Task.ends_of_requests
    refine hcalls.evaluate_bind rfl hready (Expression.ends hcalls format hready) ?_
    exact fun _ _ _ => Plan.requests_act _

end

/-! ### Statements -/

theorem stepBound_ends (hcalls : CallsEnd known budget) (step : Option Expression) {state : State}
    (hready : Ready known budget state) : (Task.stepBound step).Ends state := by
  cases step with
  | none => exact Task.ends_of_requests (Plan.requests_pure _)
  | some source =>
      apply Task.ends_of_requests
      exact (Plan.requests_work _).mpr (bound_ends (Expression.ends hcalls source hready))

/-- A counting loop ends if its block does: its bounds are integers, and its counter starts in the
innermost frame. -/
theorem for_ends (hcalls : CallsEnd known budget) {name : String} {start limit : Expression}
    {step : Option Expression} {body : Block} {position : Position}
    (hcounted : (Statement.for_ name start limit step body position).isCounted = true)
    (hdefinitions : body.definitions ⊆ known)
    (hbody : ∀ {state : State}, Ready known budget state → (Task.block body).Ends state)
    {state : State} (hready : Ready known budget state) :
    (Task.statement (.for_ name start limit step body position)).Ends state := by
  simp only [Statement.isCounted, Bool.and_eq_true, Bool.not_eq_true'] at hcounted
  obtain ⟨⟨⟨⟨hstart, hlimit⟩, hstep⟩, hrebinds⟩, -⟩ := hcounted
  apply Task.ends_of_requests
  rw [Task.plan, Task.ofStatement]
  -- first the three parts of the head end, then their values are found to be integers
  refine hcalls.work_bind (List.nil_subset _) hready (bound_ends (start.ends hcalls hready)) ?_
  intro first afterFirst hafterFirst hfirst
  refine hcalls.work_bind (List.nil_subset _) hafterFirst
    (bound_ends (limit.ends hcalls hafterFirst)) ?_
  intro last afterLast hafterLast hlast
  refine hcalls.work_bind (List.nil_subset _) hafterLast (stepBound_ends hcalls step hafterLast) ?_
  intro increment entry hentry hincrement
  obtain ⟨firstNumber, rfl⟩ := integer_of_bound hstart hfirst
  obtain ⟨lastNumber, rfl⟩ := integer_of_bound hlimit hlast
  obtain ⟨increase, rfl⟩ := integer_of_stepBound hstep hincrement
  cases hascending : Eval.ascending? (.integer increase) with
  | none => exact Plan.requests_act _
  | some ascending =>
      simp only [Plan.requests_inLoopFrame, Plan.requests_bind, Plan.requests_act,
        Plan.requests_work, Plan.carryOut_act, Action.change_eq_done, true_and]
      rintro _ _ rfl
      -- there is still room for the same calls after each round, and that is what the block needs
      refine forLoop_ends hrebinds (fun inner hinner => hbody hinner) ?_ ?_ position hascending
        ((hentry.enterLoop .for_).declare name _)
        (bindingsOf_declare_self (bindingsOf_enterLoop .for_) _)
      · intro inner flow later hinner hends
        have hblock : (Task.block body).definitions ⊆ known := hdefinitions
        exact hinner.after hcalls.closed hblock hends
      · exact fun inner value hinner => hinner.declare name value

mutual

theorem Statement.ends (hcalls : CallsEnd known budget) : (tree : Statement) →
    tree.isCounted = true → tree.definitions ⊆ known →
    ∀ {state : State}, Ready known budget state → (Task.statement tree).Ends state
  | .empty _, _, _, _, _ | .break_ _, _, _, _, _ => Task.ends_of_requests (Plan.requests_pure _)
  | .declare _ _ value _, _, _, _, hready => by
    apply Task.ends_of_requests
    refine hcalls.evaluate_bind rfl hready (Expression.ends hcalls value hready) ?_
    simp
  | .assign _ path value _, _, _, _, hready => by
    apply Task.ends_of_requests
    refine hcalls.evaluate_bind rfl hready (Expression.all_end hcalls path hready) ?_
    intro keys later hlater
    refine hcalls.evaluate_bind rfl hlater (Expression.ends hcalls value hlater) ?_
    simp
  -- loops with a guard are not counted, so there are no cases for them
  | .choose options otherwise _, hcounted, hdefinitions, _, hready => by
    simp only [Statement.isCounted, Bool.and_eq_true] at hcounted
    rw [Statement.definitions, List.append_subset] at hdefinitions
    apply Task.ends_of_requests
    apply (Plan.requests_work _).mpr
    exact Branch.all_end hcalls (Block.option_ends hcalls otherwise hcounted.2 hdefinitions.2)
      options hcounted.1 hdefinitions.1 hready
  | .define _ _ _ _, _, _, _, _ => by
    apply Task.ends_of_requests
    simp [Task.plan, Task.ofStatement]
  | .for_ _ _ _ _ body _, hcounted, hdefinitions, _, hready => by
    refine for_ends hcalls hcounted hdefinitions ?_ hready
    simp only [Statement.isCounted, Bool.and_eq_true] at hcounted
    exact Block.ends hcalls body hcounted.2 hdefinitions
  | .do_ body _, hcounted, hdefinitions, _, hready => by
    apply Task.ends_of_requests
    rw [Task.plan, Task.ofStatement, Plan.requests_inLoopFrame, Plan.requests_work]
    exact Block.ends hcalls body hcounted hdefinitions (hready.enterLoop .do_)
  | .invoke invocation, _, _, _, hready => by
    apply Task.ends_of_requests
    refine hcalls.evaluate_bind rfl hready (Invocation.ends hcalls invocation hready) ?_
    exact fun _ _ _ => Plan.requests_pure _

theorem Statement.all_end (hcalls : CallsEnd known budget) : (trees : List Statement) →
    Statement.allCounted trees = true → Statement.definitionsOfEach trees ⊆ known →
    ∀ {state : State}, Ready known budget state → (Task.statements trees).Ends state
  | [], _, _, _, _ => Task.ends_of_requests (Plan.requests_pure _)
  | first :: rest, hcounted, hdefinitions, _, hready => by
    simp only [Statement.allCounted, Bool.and_eq_true] at hcounted
    rw [Statement.definitionsOfEach, List.append_subset] at hdefinitions
    apply Task.ends_of_requests
    refine hcalls.work_bind hdefinitions.1 hready
      (Statement.ends hcalls first hcounted.1 hdefinitions.1 hready) ?_
    intro flow later hlater _
    cases flow with
    | normal =>
        apply (Plan.requests_work _).mpr
        exact Statement.all_end hcalls rest hcounted.2 hdefinitions.2 hlater
    | broken | returned value => exact Plan.requests_pure _

theorem Branch.all_end (hcalls : CallsEnd known budget) {otherwise : Option Block}
    (hotherwise : ∀ body ∈ otherwise, ∀ {state : State}, Ready known budget state →
      (Task.block body).Ends state) : (options : List Branch) →
    Branch.allCounted options = true → Branch.definitionsOfEach options ⊆ known →
    ∀ {state : State}, Ready known budget state → (Task.branches options otherwise).Ends state
  | [], _, _, _, hready => by
    apply Task.ends_of_requests
    cases otherwise with
    | none => exact Plan.requests_pure _
    | some body => exact (Plan.requests_work _).mpr (hotherwise body rfl hready)
  | .mk guard body :: rest, hcounted, hdefinitions, _, hready => by
    simp only [Branch.allCounted, Bool.and_eq_true] at hcounted
    rw [Branch.definitionsOfEach, List.append_subset] at hdefinitions
    apply Task.ends_of_requests
    refine hcalls.evaluate_bind rfl hready (condition_ends (Expression.ends hcalls guard hready)) ?_
    intro verdict later hlater
    split
    · apply (Plan.requests_work _).mpr
      exact Block.ends hcalls body hcounted.1 hdefinitions.1 hlater
    · apply (Plan.requests_work _).mpr
      exact Branch.all_end hcalls hotherwise rest hcounted.2 hdefinitions.2 hlater

theorem Block.option_ends (hcalls : CallsEnd known budget) : (otherwise : Option Block) →
    Block.optionCounted otherwise = true → Block.definitionsOfOption otherwise ⊆ known →
    ∀ body ∈ otherwise, ∀ {state : State}, Ready known budget state → (Task.block body).Ends state
  | some body, hcounted, hdefinitions, _, rfl, _, hready =>
    Block.ends hcalls body hcounted hdefinitions hready

theorem Block.ends (hcalls : CallsEnd known budget) : (body : Block) →
    body.isCounted = true → body.definitions ⊆ known →
    ∀ {state : State}, Ready known budget state → (Task.block body).Ends state
  | .mk statements result, hcounted, hdefinitions, _, hready => by
    apply Task.ends_of_requests
    refine hcalls.work_bind hdefinitions hready
      (Statement.all_end hcalls statements hcounted hdefinitions hready) ?_
    intro flow later hlater _
    cases flow with
    | normal =>
        cases result with
        | none => exact Plan.requests_pure _
        | some last =>
            refine hcalls.evaluate_bind rfl hlater (Expression.all_end hcalls last.values hlater) ?_
            exact fun _ _ _ => Plan.requests_pure _
    | broken | returned value => exact Plan.requests_pure _

end

end Trees

/-! ## Calls end -/

/-- **Calls end**, however many fit inside each other: where none fits a call fails at once, and
otherwise its body is run with room for one less. -/
theorem callsEnd {known : List Function} (hclosed : Closed known)
    (hcounted : ∀ function ∈ known, function.body.isCounted = true) (budget : Nat) :
    CallsEnd known budget := by
  induction budget with
  | zero =>
      refine ⟨hclosed, fun position function arguments state _ hready => ?_⟩
      apply Task.ends_of_requests
      simp only [Task.plan, Plan.requests_bind, Plan.requests_act, Plan.carryOut_act,
        Action.attempt_eq_done, true_and]
      intro _ entered hentered
      -- there is no room left, so the call is refused
      obtain ⟨less, hless, -⟩ := hready.enterCall hentered
      exact absurd hless (by omega)
  | succ budget ih =>
      refine ⟨hclosed, fun position function arguments state hknown hready => ?_⟩
      apply Task.ends_of_requests
      simp only [Task.plan, Plan.requests_bind, Plan.requests_act, Plan.requests_finally,
        Plan.requests_work, Plan.requests_pure, Plan.carryOut_act, Action.attempt_eq_done, true_and,
        implies_true, and_true]
      intro _ entered hentered
      obtain ⟨less, hless, hentry⟩ := hready.enterCall hentered
      -- a call that is entered leaves room for one less, and its body ends with that
      obtain rfl : less = budget := by omega
      exact Block.ends ih function.body (hcounted function hknown) (hclosed function hknown) hentry

/-! ## The result -/

/-- A program all of whose loops count ends from wherever it is started. -/
theorem program_ends {program : Block} (hcounted : program.isCounted = true) (state : State) :
    (Task.block program).Ends state.restart := by
  have hclosed : Closed program.definitions := Block.closed_definitions program
  have hbodies : ∀ function ∈ program.definitions, function.body.isCounted = true :=
    fun _ hmember => Block.isCounted_of_mem_definitions program hcounted hmember
  -- nothing is defined yet, and there is room for as many calls as the limit says
  have hready : Ready program.definitions state.scope.callLimit state.restart := by
    refine ⟨?_, ?_⟩
    · intro name function hfound
      cases hfound
    · exact Nat.le_add_left _ _
  exact Block.ends (callsEnd hclosed hbodies _) program hcounted (List.Subset.refl _) hready

/-- **A program all of whose loops count ends**, with a value or with a fault, whatever its call
limit and its input: some amount of fuel suffices, and with more the outcome is the same. -/
theorem execute_ends {program : Block} (hcounted : program.isCounted = true) (state : State) :
    ∃ fuel,
      (∃ value later, ∀ larger, fuel ≤ larger →
        execute larger program state = .done value later) ∨
      ∃ fault later, ∀ larger, fuel ≤ larger →
        execute larger program state = .failed fault later := by
  obtain ⟨fuel, hends⟩ := program_ends hcounted state
  have hstays (larger : Nat) (hle : fuel ≤ larger) :
      Eval.block larger program state.restart = Eval.block fuel program state.restart :=
    Task.run_staysAs hle (.block program) state.restart hends
  refine ⟨fuel, ?_⟩
  cases houtcome : Eval.block fuel program state.restart with
  | done flow later =>
      refine .inl ⟨flow.result, later, fun larger hle => ?_⟩
      exact Action.bind_of_done ((hstays larger hle).trans houtcome)
  | failed fault later =>
      refine .inr ⟨fault, later, fun larger hle => ?_⟩
      exact Action.bind_of_failed ((hstays larger hle).trans houtcome)
  | outOfFuel => exact absurd houtcome hends

/-- Two functions that call each other for ever, from inside a loop that counts down; the second one
redefines the first one each time it is called. -/
def mutualCalls : Block :=
  let first : Block := .mk [.for_ "i" (.number .integer "3" .start)
    (.unary .negate (.number .integer "3" .start) .start)
    (some (.unary .negate (.number .integer "1" .start) .start))
    (.mk [.invoke (.call "second" [.variable "i" [] .start] .start)] none) .start] none
  .mk [
    .define "first" [] first .start,
    .define "second" ["n"] (.mk [.define "first" [] first .start,
      .invoke (.call "first" [] .start)] none) .start,
    .invoke (.call "first" [] .start)] none

/-- That program ends under a limit of a thousand calls. -/
theorem execute_ends_mutualCalls : mutualCalls.isCounted = true ∧ ∃ fuel,
    (∃ value later, ∀ larger, fuel ≤ larger →
      execute larger mutualCalls (.start .plain 1000 [] .silent) = .done value later) ∨
    ∃ fault later, ∀ larger, fuel ≤ larger →
      execute larger mutualCalls (.start .plain 1000 [] .silent) = .failed fault later :=
  ⟨by decide, execute_ends (by decide) _⟩

end TableScript
