import TableScript.Proofs.Run.Changes
import TableScript.Proofs.Run.Contract
import TableScript.Proofs.Run.Discipline

/-!
# The functions of a program

A function is defined by a statement, which may stand anywhere: in a branch, in a loop, or in the
body of another function, so that it is defined only when that function is called.  `definitions`
lists the functions of all such statements.  A run calls no other function: whatever is redefined
along the way, the functions that can be found are among those that the program writes down.
-/

namespace TableScript

/-! ## Where functions are written down -/

mutual

/-- The functions that a statement defines, and those that their bodies define. -/
def Statement.definitions : Statement → List Function
  | .choose options otherwise _ =>
    Branch.definitionsOfEach options ++ Block.definitionsOfOption otherwise
  | .define name parameters body position =>
    ⟨name, parameters, body, position⟩ :: body.definitions
  | .while_ _ body _ => body.definitions
  | .repeat_ body _ _ => body.definitions
  | .for_ _ _ _ _ body _ => body.definitions
  | .do_ body _ => body.definitions
  | .empty _ | .break_ _ | .declare _ _ _ _ | .assign _ _ _ _ | .invoke _ => []

def Statement.definitionsOfEach : List Statement → List Function
  | [] => []
  | first :: rest => first.definitions ++ Statement.definitionsOfEach rest

def Branch.definitionsOfEach : List Branch → List Function
  | [] => []
  | .mk _ body :: rest => body.definitions ++ Branch.definitionsOfEach rest

def Block.definitionsOfOption : Option Block → List Function
  | none => []
  | some body => body.definitions

/-- The functions that a block defines, and those that their bodies define. -/
def Block.definitions : Block → List Function
  | .mk statements _ => Statement.definitionsOfEach statements

end

/-- Functions among which is everything that their bodies define. -/
def Closed (known : List Function) : Prop :=
  ∀ function ∈ known, function.body.definitions ⊆ known

theorem Closed.append {left right : List Function} (hleft : Closed left) (hright : Closed right) :
    Closed (left ++ right) := by
  intro function hfunction
  rcases List.mem_append.mp hfunction with hmember | hmember
  · exact fun other hother => List.mem_append_left _ (hleft function hmember hother)
  · exact fun other hother => List.mem_append_right _ (hright function hmember hother)

theorem closed_nil : Closed [] := by simp [Closed]

mutual

theorem Statement.closed_definitions : (tree : Statement) → Closed tree.definitions
  | .choose options otherwise _ =>
    (Branch.closed_definitionsOfEach options).append (Block.closed_definitionsOfOption otherwise)
  | .define name parameters body position => by
    intro function hfunction
    rw [Statement.definitions] at hfunction ⊢
    rcases List.mem_cons.mp hfunction with rfl | hmember
    · exact List.subset_cons_self _ _
    · exact fun other hother =>
        List.mem_cons_of_mem _ (Block.closed_definitions body function hmember hother)
  | .while_ _ body _ => Block.closed_definitions body
  | .repeat_ body _ _ => Block.closed_definitions body
  | .for_ _ _ _ _ body _ => Block.closed_definitions body
  | .do_ body _ => Block.closed_definitions body
  | .empty _ | .break_ _ | .declare _ _ _ _ | .assign _ _ _ _ | .invoke _ => closed_nil

theorem Statement.closed_definitionsOfEach :
    (trees : List Statement) → Closed (Statement.definitionsOfEach trees)
  | [] => closed_nil
  | first :: rest =>
    (Statement.closed_definitions first).append (Statement.closed_definitionsOfEach rest)

theorem Branch.closed_definitionsOfEach :
    (options : List Branch) → Closed (Branch.definitionsOfEach options)
  | [] => closed_nil
  | .mk _ body :: rest =>
    (Block.closed_definitions body).append (Branch.closed_definitionsOfEach rest)

theorem Block.closed_definitionsOfOption :
    (otherwise : Option Block) → Closed (Block.definitionsOfOption otherwise)
  | none => closed_nil
  | some body => Block.closed_definitions body

/-- Whatever the functions of a block define, the block defines. -/
theorem Block.closed_definitions : (body : Block) → Closed body.definitions
  | .mk statements _ => Statement.closed_definitionsOfEach statements

end

/-! ## Which functions a state holds -/

/-- All functions that can be found are known. -/
def State.Knows (known : List Function) (state : State) : Prop :=
  ∀ name function, state.scope.function? name = some function → function ∈ known

section Knows

variable {known : List Function} {state later : State}

theorem knows_congr (hsame : later.scope.functions = state.scope.functions) :
    later.Knows known ↔ state.Knows known := by
  unfold State.Knows Scope.function?
  rw [hsame]

@[simp] theorem knows_declare {name : String} {value : Value} :
    (state.declare name value).Knows known ↔ state.Knows known :=
  knows_congr (State.functions_declare name value)

theorem knows_assign {name : String} {keys : List Value} {value : Value}
    (hassign : state.assign name keys value = .ok later) :
    later.Knows known ↔ state.Knows known :=
  knows_congr (State.functions_assign hassign)

theorem knows_enterCall {function : Function} {arguments : List Value}
    (hentered : state.enterCall function arguments = .ok later) :
    later.Knows known ↔ state.Knows known :=
  knows_congr (State.functions_enterCall hentered)

@[simp] theorem knows_leaveCall : state.leaveCall.Knows known ↔ state.Knows known :=
  knows_congr State.functions_leaveCall

@[simp] theorem knows_enterLoop {keyword : LoopKeyword} :
    (state.enterLoop keyword).Knows known ↔ state.Knows known := Iff.rfl

@[simp] theorem knows_leaveLoop : state.leaveLoop.Knows known ↔ state.Knows known := Iff.rfl

@[simp] theorem knows_allocate {table : Table} :
    (state.allocate table).2.Knows known ↔ state.Knows known := Iff.rfl

@[simp] theorem knows_printLine {line : String} :
    (state.printLine line).2.Knows known ↔ state.Knows known := Iff.rfl

@[simp] theorem knows_takeLine : state.takeLine.2.Knows known ↔ state.Knows known :=
  knows_congr State.functions_takeLine

/-- A definition adds one function to those that can be found. -/
theorem State.Knows.define {function : Function} (hknows : state.Knows known)
    (hfunction : function ∈ known) : (state.define function).Knows known := by
  intro name found hfound
  rw [State.define, Scope.define, Scope.function?, Bindings.find?_insert] at hfound
  split at hfound
  · cases hfound
    exact hfunction
  · exact hknows name found hfound

end Knows

/-! ## Which functions a run finds -/

/-- The functions that work on a task may define, or call without looking for them. -/
def Task.definitions : {α : Type} → Task α → List Function
  | _, .call _ function _ => [function]
  | _, .block body => body.definitions
  | _, .statements body => Statement.definitionsOfEach body
  | _, .statement tree => tree.definitions
  | _, .branches options otherwise =>
    Branch.definitionsOfEach options ++ Block.definitionsOfOption otherwise
  | _, .whileLoop _ body => body.definitions
  | _, .repeatLoop body _ => body.definitions
  | _, .forLoop _ _ _ _ _ body => body.definitions
  | _, .expression _ | _, .expressions _ | _, .condition _ _ | _, .tableFields _ _ _
  | _, .invoke _ | _, .bound _ _ | _, .stepBound _ => []

/-- Nothing but known functions is defined, found and called. -/
def onlyKnown (known : List Function) : Contract where
  Requires task state := task.definitions ⊆ known ∧ state.Knows known
  Ensures _ _ _ later := later.Knows known

section OnlyKnown

variable {known : List Function} {α : Type} {state : State}

@[simp] theorem onlyKnown_requires {task : Task α} :
    (onlyKnown known).Requires task state ↔ task.definitions ⊆ known ∧ state.Knows known := Iff.rfl

@[simp] theorem onlyKnown_ensures {task : Task α} {later : State} {value : α} :
    (onlyKnown known).Ensures task state value later ↔ later.Knows known := Iff.rfl

/-- After a plan that keeps to the known functions, what it gives not mattering. -/
abbrev Plan.KeepsKnown (known : List Function) (plan : Plan α) (state : State) : Prop :=
  plan.Secures (onlyKnown known) (fun _ later => later.Knows known) state

theorem work_keepsKnown {task : Task α} (htask : task.definitions ⊆ known)
    (hknows : state.Knows known) : (Plan.work task).KeepsKnown known state :=
  ⟨⟨htask, hknows⟩, fun _ _ hends => hends⟩

theorem ofExpression_keepsKnown (tree : Expression) (hknows : state.Knows known) :
    (Task.ofExpression tree).KeepsKnown known state := by
  cases tree with
  | binary operator left right position =>
      rw [Task.ofExpression]
      cases operator.decisive? with
      | none => simp_all [Task.definitions]
      | some decisive =>
          simp only [Plan.secures_bind, Plan.secures_work, onlyKnown_requires, onlyKnown_ensures]
          refine ⟨⟨List.nil_subset _, hknows⟩, fun first later hlater => ?_⟩
          split <;> simp_all [Task.definitions]
  | _ => simp_all [Task.ofExpression, Task.definitions]

theorem ofFields_keepsKnown (index : Nat) (table : Table) (fields : List Field)
    (hknows : state.Knows known) : (Task.ofFields index table fields).KeepsKnown known state := by
  cases fields with
  | nil => exact hknows
  | cons first rest => cases first <;> simp_all [Task.ofFields, Task.definitions]

theorem ofInvocation_keepsKnown (invocation : Invocation) (hknows : state.Knows known) :
    (Task.ofInvocation invocation).KeepsKnown known state := by
  have hread : ∀ {position : Position} {format : Option String} {value : Value}
      {before later : State}, before.Knows known →
      Action.readLine position format before = .done value later → later.Knows known := by
    intro position format value before later hbefore hends
    rw [← Action.readLine_eq_done hends]
    exact knows_takeLine.mpr hbefore
  cases invocation with
  | call callee arguments position =>
      simp only [Task.ofInvocation, Plan.secures_bind, Plan.secures_work, Plan.secures_act,
        onlyKnown_requires, onlyKnown_ensures, Action.findFunction_eq_done]
      refine ⟨⟨List.nil_subset _, hknows⟩, ?_⟩
      rintro values later hlater function _ ⟨hfound, rfl⟩
      -- the function that is called was found, so it is known
      have hfunction : function ∈ known := hlater callee function hfound
      exact ⟨⟨by simpa [Task.definitions] using hfunction, hlater⟩, fun _ _ hafter => hafter⟩
  | print arguments position =>
      simp only [Task.ofInvocation, Plan.secures_bind, Plan.secures_work, Plan.secures_act,
        Plan.secures_pure, onlyKnown_requires, onlyKnown_ensures]
      refine ⟨⟨List.nil_subset _, hknows⟩, fun values middle hmiddle _ later hends => ?_⟩
      rw [← Action.print_eq_done hends]
      exact knows_printLine.mpr hmiddle
  | read format position =>
      cases format with
      | none => exact fun value later => hread hknows
      | some source =>
          simp only [Task.ofInvocation, Plan.secures_bind, Plan.secures_work, Plan.secures_act,
            onlyKnown_requires, onlyKnown_ensures]
          exact ⟨⟨List.nil_subset _, hknows⟩, fun _ _ hlater _ _ => hread hlater⟩

theorem ofStatement_keepsKnown (tree : Statement) (htree : tree.definitions ⊆ known)
    (hknows : state.Knows known) : (Task.ofStatement tree).KeepsKnown known state := by
  cases tree with
  | assign name path value position =>
      simp only [Task.ofStatement, Plan.secures_bind, Plan.secures_work, Plan.secures_act,
        Plan.secures_pure, onlyKnown_requires, onlyKnown_ensures, Action.attempt_eq_done]
      refine ⟨⟨List.nil_subset _, hknows⟩, fun keys middle hmiddle => ?_⟩
      refine ⟨⟨List.nil_subset _, hmiddle⟩, fun item later hlater _ after hassign => ?_⟩
      exact (knows_assign hassign).mpr hlater
  | define name parameters body position =>
      simp only [Task.ofStatement, Plan.secures_bind, Plan.secures_act, Plan.secures_pure,
        Action.change_eq_done]
      rintro _ _ rfl
      -- this is where a function becomes known: it is written in the tree
      exact hknows.define (htree (by simp [Statement.definitions]))
  | for_ name start limit step body position =>
      simp only [Task.ofStatement, Plan.secures_bind, Plan.secures_work, onlyKnown_requires,
        onlyKnown_ensures]
      refine ⟨⟨List.nil_subset _, hknows⟩, fun first _ hfirst => ?_⟩
      refine ⟨⟨List.nil_subset _, hfirst⟩, fun last _ hlast => ?_⟩
      refine ⟨⟨List.nil_subset _, hlast⟩, fun increment _ hincrement => ?_⟩
      rw [Statement.definitions] at htree
      cases Eval.ascending? increment <;> simp_all [Task.definitions]
  | _ => simp_all [Task.ofStatement, Task.definitions, Statement.definitions]

theorem ofBranches_keepsKnown (options : List Branch) (otherwise : Option Block)
    (htree : Branch.definitionsOfEach options ++ Block.definitionsOfOption otherwise ⊆ known)
    (hknows : state.Knows known) :
    (Task.ofBranches options otherwise).KeepsKnown known state := by
  cases options with
  | nil => cases otherwise <;>
      simp_all [Task.ofBranches, Task.definitions, Branch.definitionsOfEach,
        Block.definitionsOfOption]
  | cons first rest =>
      obtain ⟨guard, body⟩ := first
      simp only [Branch.definitionsOfEach, List.append_assoc, List.append_subset] at htree
      simp only [Task.ofBranches, Plan.secures_bind, Plan.secures_work, onlyKnown_requires,
        onlyKnown_ensures]
      refine ⟨⟨List.nil_subset _, hknows⟩, fun verdict later hlater => ?_⟩
      split <;> simp_all [Task.definitions]

/-- **No plan leaves the known functions.** -/
theorem onlyKnown_sound (hclosed : Closed known) : (onlyKnown known).Sound := by
  constructor
  rintro α task state ⟨htask, hknows⟩
  cases task with
  | expression tree => exact ofExpression_keepsKnown tree hknows
  | expressions trees => cases trees <;> simp_all [Task.plan, Task.definitions]
  | condition context guard => simp_all [Task.plan, Task.definitions]
  | tableFields index table fields => exact ofFields_keepsKnown index table fields hknows
  | invoke invocation => exact ofInvocation_keepsKnown invocation hknows
  | call position function arguments =>
      -- the body of a known function defines known functions only, as the known ones are closed
      have hfunction : function ∈ known := htask (List.mem_singleton_self function)
      simp only [Task.plan, Plan.secures_bind, Plan.secures_act, Plan.secures_finally,
        Plan.secures_work, Plan.secures_pure, onlyKnown_requires, onlyKnown_ensures,
        Action.attempt_eq_done, knows_leaveCall]
      intro _ entered hentered
      exact ⟨⟨hclosed function hfunction, (knows_enterCall hentered).mpr hknows⟩,
        fun _ _ hafter => hafter⟩
  | bound kind source => simp_all [Task.plan, Task.definitions]
  | stepBound source => cases source <;> simp_all [Task.plan, Task.definitions]
  | block body =>
      obtain ⟨body, result⟩ := body
      simp only [Task.plan, Plan.secures_bind, Plan.secures_work, onlyKnown_requires,
        onlyKnown_ensures]
      refine ⟨⟨htask, hknows⟩, fun flow later hlater => ?_⟩
      cases flow <;> cases result <;> simp_all [Task.definitions]
  | statements body =>
      cases body with
      | nil => exact hknows
      | cons first rest =>
          simp only [Task.definitions, Statement.definitionsOfEach, List.append_subset] at htask
          simp only [Task.plan, Plan.secures_bind, Plan.secures_work, onlyKnown_requires,
            onlyKnown_ensures]
          refine ⟨⟨htask.1, hknows⟩, fun flow later hlater => ?_⟩
          cases flow <;> simp_all [Task.definitions]
  | statement tree => exact ofStatement_keepsKnown tree htask hknows
  | branches options otherwise => exact ofBranches_keepsKnown options otherwise htask hknows
  | whileLoop guard body =>
      simp only [Task.plan, Plan.secures_bind, Plan.secures_work, onlyKnown_requires,
        onlyKnown_ensures]
      refine ⟨⟨List.nil_subset _, hknows⟩, fun verdict later hlater => ?_⟩
      split
      · refine ⟨⟨htask, hlater⟩, fun flow after hafter => ?_⟩
        exact Task.afterRound_secures (fun _ => hafter) (work_keepsKnown htask hafter) flow
      · exact hlater
  | repeatLoop body guard =>
      refine ⟨⟨htask, hknows⟩, fun flow later hlater => ?_⟩
      refine Task.afterRound_secures (fun _ => hlater) ?_ flow
      simp only [Plan.secures_bind, Plan.secures_work, onlyKnown_requires, onlyKnown_ensures]
      refine ⟨⟨List.nil_subset _, hlater⟩, fun verdict after hafter => ?_⟩
      split
      · exact hafter
      · exact work_keepsKnown htask hafter
  -- only the block is executed; reading and declaring the counter defines nothing
  | forLoop position name ascending limit step body =>
      simp only [Task.plan, Plan.secures_bind, Plan.secures_act, Action.readVariable_eq_done]
      rintro counter _ ⟨-, rfl⟩
      split
      · exact hknows
      · refine ⟨⟨htask, hknows⟩, fun flow later hlater => ?_⟩
        refine Task.afterRound_secures (fun _ => hlater) ?_ flow
        simp only [Plan.secures_bind, Plan.secures_act, Action.readVariable_eq_done,
          Action.check_eq_done]
        rintro current _ ⟨-, rfl⟩ next _ ⟨-, rfl⟩
        cases next with
        | none => exact hlater
        | some value =>
            simp only [Plan.secures_bind, Plan.secures_act, Action.change_eq_done]
            rintro _ _ rfl
            exact work_keepsKnown htask (knows_declare.mpr hlater)

/-- **Every function that a program calls is one that it writes down**, at every moment of its
run. -/
theorem called_mem_definitions (program : Block) (fuel : Nat) (state : State) :
    (Task.block program).Throughout (fun _ _ task _ => task.definitions ⊆ program.definitions)
      fuel state.restart := by
  -- a program starts without functions, whatever was defined before
  have hnothing : state.restart.Knows program.definitions := by
    intro name function hfound
    cases hfound
  have hsound := onlyKnown_sound (Block.closed_definitions program)
  refine (hsound.throughout fuel ⟨List.Subset.refl _, hnothing⟩).mono ?_
  intro _ β task inner hrequires
  exact hrequires.1

end OnlyKnown

end TableScript
