import TableScript.Proofs.Run.Causes
import TableScript.Proofs.Run.Changes
import TableScript.Proofs.Run.Standard

/-!
# The faults of a run

A fault has a place and a cause.  Its place comes from a node of the tree that is run, and so does
the literal where the cause is one that cannot be read.  The tree need not be that of the statement
under way: the body of a function was read long before the call, and is found in the state.

## Strategy

`marked` is the standard that keeps track of this.  All marks of the tasks that are worked on, and
of the bodies of the functions that are defined, are among given ones; so are those that a fault
needs then (`Fault.Expected`).  Every action that can fail has a lemma on its cause; those are the
lemmas `expected_of_…`.

For a program that was compiled the marks are those of its tokens, and a fault always names the
place of one of them (`fault_at_token`).  With the description of the operators the causes say when
an operation in a program fails (`operators_fail_asDescribed`).
-/

namespace TableScript

open Plan TableScript.Action

/-- All marks that the work on a task may come across, those of the functions that it finds
apart. -/
def Task.marks : {α : Type} → Task α → List Mark
  | _, .expression tree => tree.marks
  | _, .expressions trees => Expression.marksOfEach trees
  | _, .condition _ guard => guard.marks
  | _, .tableFields _ _ fields => Field.marksOfEach fields
  | _, .invoke invocation => invocation.marks
  | _, .call position function _ => .place position :: function.body.marks
  | _, .bound _ source => source.marks
  | _, .stepBound source => Expression.marksOfOption source
  | _, .block body => body.marks
  | _, .statements body => Statement.marksOfEach body
  | _, .statement tree => tree.marks
  | _, .branches options otherwise =>
    Branch.marksOfEach options ++ Block.marksOfOption otherwise
  | _, .whileLoop guard body => guard.marks ++ body.marks
  | _, .repeatLoop body guard => body.marks ++ guard.marks
  | _, .forLoop position _ _ _ _ body => .place position :: body.marks

/-- All marks of the functions of a state are among the given ones. -/
def State.FunctionsIn (marks : List Mark) (state : State) : Prop :=
  ∀ name function, state.scope.function? name = some function → function.body.marks ⊆ marks

/-- Tasks and functions have no other marks than the given ones, and faults are expected with
these. -/
def marked (marks : List Mark) : Standard where
  OfState state := state.FunctionsIn marks
  OfTask task _ := task.marks ⊆ marks
  OfResult _ _ _ := True
  OfFault fault := fault.Expected marks

section Marked

variable {marks : List Mark} {state later : State} {heap : Heap}

/-! ## The functions of a state -/

theorem State.FunctionsIn.congr (hstate : state.FunctionsIn marks)
    (hsame : later.scope.functions = state.scope.functions) : later.FunctionsIn marks := by
  intro name function hfound
  refine hstate name function ?_
  rw [Scope.function?, hsame] at hfound
  exact hfound

theorem State.FunctionsIn.define {function : Function} (hstate : state.FunctionsIn marks)
    (hfunction : function.body.marks ⊆ marks) : (state.define function).FunctionsIn marks := by
  intro name found hfound
  rw [State.define, Scope.define, Scope.function?, Bindings.find?_insert] at hfound
  -- the new function hides any other of its name, and the others stay as they were
  split at hfound
  · cases hfound
    exact hfunction
  · exact hstate name found hfound

/-! ## Single actions -/

section Actions

variable {α : Type} {position : Position} (hplace : .place position ∈ marks)

theorem marked_declare (name : String) (value : Value) {after : Unit → Heap → Prop}
    (hafter : after () heap) :
    (change (·.declare name value)).Meets (marked marks) after heap := by
  refine meets_change ?_
  rintro state rfl hstate
  exact ⟨hafter, hstate.congr (State.functions_declare name value)⟩

include hplace

theorem marked_check {computed : Except Cause α} {after : α → Heap → Prop}
    (hafter : ∀ value, after value heap)
    (hcause : ∀ cause, computed = .error cause → cause.Expected marks) :
    (check position computed).Meets (marked marks) after heap :=
  meets_check (fun value _ => hafter value) fun cause hfails => ⟨hplace, hcause cause hfails⟩

theorem marked_readVariable (name : String) (keys : List Value) {after : Value → Heap → Prop}
    (hafter : ∀ value, after value heap) :
    (readVariable position name keys).Meets (marked marks) after heap :=
  meets_readVariable (fun _ value _ _ _ => hafter value) fun _ _ hfails =>
    ⟨hplace, State.expected_of_read hfails⟩

theorem marked_print (line : String) {after : Unit → Heap → Prop} (hafter : after () heap) :
    (print position line).Meets (marked marks) after heap :=
  meets_print hafter (fun _ hstate => hstate) fun _ => ⟨hplace, trivial⟩

theorem marked_readLine (format : Option String) :
    (readLine position format).Meets (marked marks) (fun _ _ => True) heap :=
  meets_readLine (fun _ hstate => hstate.congr State.functions_takeLine) trivial (fun _ => trivial)
    (fun _ _ _ => trivial) (fun _ => ⟨hplace, trivial⟩) fun _ _ hfails =>
      ⟨hplace, Reading.expected_of_ofLine hfails⟩

end Actions

theorem marked_inLoopFrame {keyword : LoopKeyword} {inner : Plan Flow}
    (hinner : inner.Meets (marked marks) (fun _ _ => True) heap) :
    (inLoopFrame keyword inner).Meets (marked marks) (fun _ _ => True) heap :=
  meets_inLoopFrame (fun _ hstate => hstate) (fun _ hstate => hstate) hinner

/-! ## Plans -/

/-- A plan comes across no other marks, and fails in expected ways only. -/
abbrev Plan.MarkedBy {α : Type} (marks : List Mark) (heap : Heap) (plan : Plan α) : Prop :=
  plan.Meets (marked marks) (fun _ _ => True) heap

theorem work_marked {α : Type} {task : Task α} (htask : task.marks ⊆ marks) :
    (work task).MarkedBy marks heap :=
  ⟨htask, fun _ _ _ _ => trivial⟩

theorem work_bind_marked {α β : Type} {task : Task α} {next : α → Plan β}
    (htask : task.marks ⊆ marks) (hnext : ∀ value later, (next value).MarkedBy marks later) :
    (work task >>= next).MarkedBy marks heap :=
  work_bind_meets htask fun value later _ _ => hnext value later

theorem ofExpression_marked {tree : Expression} (htree : tree.marks ⊆ marks) :
    (Task.ofExpression tree).MarkedBy marks heap := by
  -- the place of a fault is always that of the tree at hand, and its mark the first one
  cases tree with
  | nil position | boolean value position | string contents position => trivial
  | number form text position =>
      simp only [Expression.marks, List.cons_subset] at htree
      exact marked_check htree.1 (fun _ => trivial) fun _ =>
        Reading.expected_of_ofLiteral htree.2.1
  | «variable» name path position =>
      rw [Expression.marks, List.cons_subset] at htree
      exact work_bind_marked htree.2 fun keys _ =>
        marked_readVariable htree.1 name keys fun _ => trivial
  | table fields position =>
      rw [Expression.marks, List.cons_subset] at htree
      refine act_bind_meets (meets_newTable ?_)
      refine work_bind_marked htree.2 fun table _ => ?_
      exact fun state _ hstate => ⟨trivial, hstate⟩
  | invoke invocation => exact work_marked htree
  | binary operator left right position =>
      rw [Expression.marks, List.cons_subset, List.append_subset] at htree
      obtain ⟨hplace, hleft, hright⟩ := htree
      rw [Task.ofExpression]
      split
      · refine work_bind_marked hleft fun first _ => ?_
        split
        · trivial
        · exact work_bind_marked hright fun second _ => trivial
      · -- no lazy operator gets here, so the fault is one of the operands
        next hevaluated =>
          refine work_bind_marked hleft fun first _ => work_bind_marked hright fun second _ => ?_
          exact marked_check hplace (fun _ => trivial) fun _ =>
            Operator.expected_of_binary hevaluated
  | unary operator operand position =>
      rw [Expression.marks, List.cons_subset] at htree
      exact work_bind_marked htree.2 fun value _ =>
        marked_check htree.1 (fun _ => trivial) fun _ => Operator.expected_of_unary
  | parenthesized inner position =>
      rw [Expression.marks, List.cons_subset] at htree
      exact work_bind_marked htree.2 fun value _ => trivial

/-- A field that cannot be stored is a fault at its value. -/
theorem ofFields_marked {index : Nat} {table : Table} {fields : List Field}
    (hfields : Field.marksOfEach fields ⊆ marks) :
    (Task.ofFields index table fields).MarkedBy marks heap := by
  cases fields with
  | nil => trivial
  | cons first rest =>
      rw [Field.marksOfEach, List.append_subset] at hfields
      obtain ⟨hfirst, hrest⟩ := hfields
      cases first with
      | positional value =>
          refine work_bind_marked hfirst fun item _ => ?_
          exact marked_check (hfirst value.place_mem_marks) (fun later => work_marked hrest)
            fun _ => Table.expected_of_set
      | keyed key value =>
          rw [Field.marks, List.append_subset] at hfirst
          refine work_bind_marked hfirst.1 fun name _ => work_bind_marked hfirst.2 fun item _ => ?_
          exact marked_check (hfirst.2 value.place_mem_marks) (fun later => work_marked hrest)
            fun _ => Table.expected_of_set

theorem ofInvocation_marked {invocation : Invocation} (hinvocation : invocation.marks ⊆ marks) :
    (Task.ofInvocation invocation).MarkedBy marks heap := by
  cases invocation with
  | call callee arguments position =>
      rw [Invocation.marks, List.cons_subset] at hinvocation
      obtain ⟨hplace, harguments⟩ := hinvocation
      refine work_bind_marked harguments fun values _ => ?_
      -- the function was found in the state, so the marks in its body are among the given ones
      refine meets_findFunction (fun state function hstate hfound => ?_) ⟨hplace, trivial⟩
      refine work_marked ?_
      rw [Task.marks, List.cons_subset]
      exact ⟨hplace, hstate callee function hfound⟩
  | print arguments position =>
      rw [Invocation.marks, List.cons_subset] at hinvocation
      exact work_bind_marked hinvocation.2 fun values _ => marked_print hinvocation.1 _ trivial
  | read format position =>
      rw [Invocation.marks, List.cons_subset] at hinvocation
      cases format with
      | none => exact marked_readLine hinvocation.1 none
      | some source =>
          exact work_bind_marked hinvocation.2 fun value _ => marked_readLine hinvocation.1 _

theorem ofStatement_marked {tree : Statement} (htree : tree.marks ⊆ marks) :
    (Task.ofStatement tree).MarkedBy marks heap := by
  cases tree with
  | empty position | break_ position => trivial
  | declare name namePosition value position =>
      simp only [Statement.marks, List.cons_subset] at htree
      exact work_bind_marked htree.2.2 fun item _ => marked_declare name item trivial
  | assign name path value position =>
      simp only [Statement.marks, List.cons_subset, List.append_subset] at htree
      obtain ⟨hplace, hpath, hvalue⟩ := htree
      refine work_bind_marked hpath fun keys _ => work_bind_marked hvalue fun item _ => ?_
      refine act_bind_meets (meets_attempt (fun state later _ hstate hassign => ?_) ?_)
      · -- an assignment stores a value and no function
        exact ⟨trivial, hstate.congr (State.functions_assign hassign)⟩
      · exact fun _ _ hfails => ⟨hplace, State.expected_of_assign hfails⟩
  | choose options otherwise position =>
      rw [Statement.marks, List.cons_subset] at htree
      exact work_marked htree.2
  | define name parameters body position =>
      rw [Statement.marks, List.cons_subset] at htree
      exact act_bind_meets (meets_change fun _ _ hstate => ⟨trivial, hstate.define htree.2⟩)
  | while_ guard body position | repeat_ body guard position | do_ body position =>
      rw [Statement.marks, List.cons_subset] at htree
      exact marked_inLoopFrame (work_marked htree.2)
  | for_ name start limit step body position =>
      simp only [Statement.marks, List.cons_subset, List.append_subset] at htree
      obtain ⟨hplace, ⟨⟨hstart, hlimit⟩, hstep⟩, hbody⟩ := htree
      rw [Task.ofStatement]
      refine work_bind_marked hstart fun first _ => work_bind_marked hlimit fun last _ => ?_
      refine work_bind_marked hstep fun increment _ => ?_
      split
      · exact meets_fail ⟨hplace, trivial⟩
      · refine marked_inLoopFrame (marked_declare name first ?_)
        exact work_marked (List.cons_subset.mpr ⟨hplace, hbody⟩)
  | invoke invocation => exact work_bind_marked htree fun _ _ => trivial

theorem ofBranches_marked {options : List Branch} {otherwise : Option Block}
    (htree : Branch.marksOfEach options ++ Block.marksOfOption otherwise ⊆ marks) :
    (Task.ofBranches options otherwise).MarkedBy marks heap := by
  rw [List.append_subset] at htree
  cases options with
  | nil =>
      cases otherwise with
      | none => trivial
      | some body => exact work_marked htree.2
  | cons first rest =>
      obtain ⟨guard, body⟩ := first
      simp only [Branch.marksOfEach, List.append_subset] at htree
      obtain ⟨⟨⟨hguard, hbody⟩, hrest⟩, hotherwise⟩ := htree
      refine work_bind_marked hguard fun verdict _ => ?_
      split
      · exact work_marked hbody
      · exact work_marked (List.append_subset.mpr ⟨hrest, hotherwise⟩)

/-- A round of a loop: its block, and then what follows if the loop goes on. -/
theorem round_marked {body : Block} {again : Plan Flow} (hbody : body.marks ⊆ marks)
    (hagain : ∀ later, again.MarkedBy marks later) :
    (work (.block body) >>= Task.afterRound again).MarkedBy marks heap :=
  work_bind_marked hbody fun _ later => Task.afterRound_meets trivial trivial (hagain later)

/-- **No plan comes across a mark that is not in its task or in a function that it finds**, and none
fails in a way that is not expected with these marks. -/
theorem marked_sound (marks : List Mark) : (marked marks).Sound := by
  constructor
  intro α task heap htask
  change task.marks ⊆ marks at htask
  change task.plan.MarkedBy marks heap
  cases task with
  | expression tree => exact ofExpression_marked htask
  | expressions trees =>
      cases trees with
      | nil => trivial
      | cons first rest =>
          rw [Task.marks, Expression.marksOfEach, List.append_subset] at htask
          exact work_bind_marked htask.1 fun _ _ => work_bind_marked htask.2 fun _ _ => trivial
  | condition context guard =>
      refine work_bind_marked htask fun value _ => ?_
      exact meets_requireBoolean (fun _ => trivial) ⟨htask guard.place_mem_marks, trivial⟩
  | tableFields index table fields => exact ofFields_marked htask
  | invoke invocation => exact ofInvocation_marked htask
  -- the call may be refused at its own place; in the body it is about the marks of the function
  | call position function arguments =>
      rw [Task.marks, List.cons_subset] at htask
      have hleave (state : State) (hstate : state.FunctionsIn marks) :
          state.leaveCall.FunctionsIn marks := hstate.congr State.functions_leaveCall
      refine act_bind_meets (meets_attempt (fun state later _ hstate hentered => ?_) ?_)
      · refine ⟨?_, hstate.congr (State.functions_enterCall hentered)⟩
        exact ⟨fun inner => ⟨rfl, hleave inner⟩, work_marked htask.2⟩
      · exact fun _ _ hfails => ⟨htask.1, State.expected_of_enterCall hfails⟩
  | bound kind source =>
      refine work_bind_marked htask fun value _ => ?_
      exact meets_requireNumber (fun _ => trivial) ⟨htask source.place_mem_marks, trivial⟩
  | stepBound source =>
      cases source with
      | none => trivial
      | some step => exact work_marked htask
  | block body =>
      obtain ⟨body, result⟩ := body
      rw [Task.marks, Block.marks, List.append_subset] at htask
      refine work_bind_marked htask.1 fun flow _ => ?_
      cases flow with
      | normal =>
          cases result with
          | none => trivial
          | some last =>
              have hvalues := (List.cons_subset.mp htask.2).2
              exact work_bind_marked hvalues fun _ _ => trivial
      | broken | returned value => trivial
  | statements body =>
      cases body with
      | nil => trivial
      | cons first rest =>
          rw [Task.marks, Statement.marksOfEach, List.append_subset] at htask
          refine work_bind_marked htask.1 fun flow _ => ?_
          cases flow with
          | normal => exact work_marked htask.2
          | broken | returned value => trivial
  | statement tree => exact ofStatement_marked htask
  | branches options otherwise => exact ofBranches_marked htask
  | whileLoop guard body =>
      -- a round asks for the same task again, with the same marks
      have hparts := List.append_subset.mp htask
      refine work_bind_marked hparts.1 fun verdict _ => ?_
      split
      · exact round_marked hparts.2 fun _ => work_marked htask
      · trivial
  | repeatLoop body guard =>
      have hparts := List.append_subset.mp htask
      refine round_marked hparts.1 fun _ => work_bind_marked hparts.2 fun verdict _ => ?_
      split
      · trivial
      · exact work_marked htask
  -- the counter is read and written at the place of the loop
  | forLoop position name ascending limit step body =>
      obtain ⟨hplace, hbody⟩ := List.cons_subset.mp htask
      refine act_bind_meets (marked_readVariable hplace name [] fun counter => ?_)
      split
      · trivial
      · refine round_marked hbody fun _ => ?_
        refine act_bind_meets (marked_readVariable hplace name [] fun current => ?_)
        refine act_bind_meets (marked_check hplace (fun next => ?_) fun _ =>
          Eval.expected_of_advance)
        cases next with
        | none => trivial
        | some value => exact act_bind_meets (marked_declare name value (work_marked htask))

end Marked

/-! ## Programs -/

/-- **A program fails in expected ways only**: at a place in it, and for a cause that is expected
with the number literals in it. -/
theorem expected_of_failed {fuel : Nat} {program : Block} {state later : State} {fault : Fault}
    (hfails : execute fuel program state = .failed fault later) :
    fault.Expected program.marks := by
  -- no function is left from an earlier program, so the marks of this one are all
  have hnothing : state.restart.FunctionsIn program.marks := by
    intro name function hfound
    cases hfound
  have hmeets : (execute fuel program state).Meets (marked program.marks) fun _ _ => True :=
    (marked_sound program.marks).execute_meets fuel (List.Subset.refl _) hnothing
      fun _ _ _ => trivial
  rw [hfails] at hmeets
  exact hmeets.1

/-- A text is compiled by cutting it into tokens and reading these. -/
theorem tokenize_of_compile {source : String} {program : Block}
    (hcompile : compile source = .ok program) :
    ∃ tokens, tokenize source = .ok tokens ∧ parse tokens = .ok program := by
  unfold compile at hcompile
  split at hcompile
  · next tokens htokens => exact ⟨tokens, htokens, hcompile⟩
  · cases hcompile

/-- **Every fault points into the text.**  Where the execution of a compiled program fails, from
whatever state, with whatever input and output and under whatever limit, the place of the fault is
that of a token of the text. -/
theorem fault_at_token {source : String} {program : Block}
    (hcompile : compile source = .ok program) {fuel : Nat} {state later : State} {fault : Fault}
    (hfails : execute fuel program state = .failed fault later) :
    ∃ tokens, tokenize source = .ok tokens ∧
      ∃ token ∈ tokens.list, token.position = fault.position := by
  obtain ⟨tokens, htokens, hparse⟩ := tokenize_of_compile hcompile
  obtain ⟨token, hmember, hmark⟩ := exists_token_of_parse hparse (expected_of_failed hfails).place
  have hplace : token.position = fault.position := by
    simpa [Token.marks, eq_comm] using hmark
  exact ⟨tokens, htokens, token, hmember, hplace⟩

/-- A function that reads a field of a field of its parameter, called with a number. -/
def fieldOfNumber : String := "function f(t)\n  return {t.x.y}\nend\nreturn f(7)"

/-- The place of the fault that an outcome ends with. -/
def Outcome.faultPlace? {α : Type} : Outcome α → Option Position
  | .failed fault _ => some fault.position
  | .done _ _ | .outOfFuel => none

/-- The call stands in the fourth line, the fault in the second one, at the variable inside the
table constructor of the function; and a token of the text begins there. -/
theorem fault_at_token_insideCall :
    ∃ program fault later, compile fieldOfNumber = .ok program ∧
      execute 40 program (.start .plain 200 [] .silent) = .failed fault later ∧
      fault.position = ⟨2, 11⟩ ∧
      ∃ tokens, tokenize fieldOfNumber = .ok tokens ∧
        ∃ token ∈ tokens.list, token.position = fault.position := by
  have hrun : (compile fieldOfNumber).toOption.bind
      (fun program => (execute 40 program (.start .plain 200 [] .silent)).faultPlace?) =
        some ⟨2, 11⟩ := by decide +kernel
  obtain ⟨program, hprogram, hfault⟩ := Option.bind_eq_some_iff.mp hrun
  have hcompile : compile fieldOfNumber = .ok program := by
    cases hresult : compile fieldOfNumber with
    | ok compiled =>
        rw [hresult] at hprogram
        rw [Option.some.inj hprogram]
    | error diagnostics =>
        rw [hresult] at hprogram
        cases hprogram
  cases hends : execute 40 program (.start .plain 200 [] .silent) with
  | failed fault later =>
      rw [hends] at hfault
      have hplace : fault.position = ⟨2, 11⟩ := Option.some.inj hfault
      exact ⟨program, fault, later, hcompile, hends, hplace, fault_at_token hcompile hends⟩
  | done value later | outOfFuel =>
      rw [hends] at hfault
      cases hfault

/-- A line that cannot be printed is a fault as well, and its place is that of the call. -/
example :
    (compile "\n  print(1)").toOption.bind (fun program =>
      (execute 10 program (.start .plain 5 [] (.standard "" [some "broken pipe"]))).faultPlace?) =
        some ⟨2, 3⟩ := by
  decide +kernel

/-! ## Operators in a run -/

open Number Text Operator in
/-- **Operators fail as described.**  An operator whose operands are both evaluated fails exactly
with the kind of fault that the operands are described to cause (`Fails`), unless it is a power
whose exponent is a text, and the text no numeral or that of a whole number.  Such a power is
described as a fault of type; it uses the numeral for its exponent, and what is no numeral is a
fault of format.  Operands that are not described to cause a fault give a value of the kind that
is described (`Yields`).  Comparisons and the joining of texts never fail.  No run fails because
operands were given to an operator that is evaluated lazily, or because arithmetic was asked of an
operator that is not arithmetic. -/
theorem operators_fail_asDescribed (operator : BinaryOperator) (left right : Value) :
    (operator.decisive? = none →
      ((∀ kind, FailsWith operator left right kind ↔ Fails operator left right kind) ↔
        (operator = .power → ¬ Overlooked left right)) ∧
      ((∀ kind, ¬ Fails operator left right kind) →
        ∃ value, binary operator left right = .ok value ∧ Yields operator left right value)) ∧
    (Overlooked left right →
      Fails .power left right .type ∧ ∃ text, right = .string text ∧
        (IsDecimal (trim text.toList) → ∃ result, binary .power left right = .ok (.float result)) ∧
        (¬ IsDecimal (trim text.toList) → FailsWith .power left right .format)) ∧
    (operator ∈ [.concat, .equal, .notEqual, .less, .lessEqual, .greater, .greaterEqual] →
      ∃ value, binary operator left right = .ok value) ∧
    ∀ fuel program state fault later, execute fuel program state = .failed fault later →
      fault.cause ≠ .lazyOperator operator ∧ fault.cause ≠ .notArithmetic operator := by
  refine ⟨fun hevaluated => ?_, power_overlooked, fun hplain => ?_,
    fun fuel program state fault later hfails => ?_⟩
  · exact ⟨failsWith_iff_iff_not_overlooked hevaluated, gives_of_not_fails hevaluated⟩
  · obtain ⟨value, hvalue, -⟩ := (plain_asDescribed left right hplain).gives (plain_never hplain)
    exact ⟨value, hvalue⟩
  · have hexpected := (expected_of_failed hfails).cause
    -- the two causes of a mistaken evaluator are expected of no program
    constructor <;> intro hcause <;> rw [hcause] at hexpected <;> exact hexpected

/-- A program that prints the sum of a number and nil. -/
def printSumWithNil : Block :=
  .mk [.invoke (.print [.binary .add (.number .integer "1" .start) (.nil .start) .start] .start)]
    none

open Number Text Operator in
/-- The left operand decides over the kind of the fault, and remainders by zero fail.  A text that
is no numeral is a fault of format as an exponent too.  The sum of a number and nil fails in a run,
and not for a mistake of the evaluator. -/
theorem operators_fail_asDescribed_leftFirst :
    FailsWith .add .nil (.string "abc") .type ∧ FailsWith .add (.string "abc") .nil .format ∧
    FailsWith .modulo (.integer 7) (.integer 0) .arithmetic ∧
    (∃ value, binary .less .nil (.boolean true) = .ok value) ∧
    FailsWith .power (.integer 2) (.string "abc") .format ∧
    ∃ fault later, execute 10 printSumWithNil (.start .plain 5 [] .silent) = .failed fault later ∧
      fault.cause ≠ .lazyOperator .and ∧ fault.cause ≠ .notArithmetic .and := by
  have hword : ¬ IsDecimal (trim "abc".toList) := parseFloat?_eq_none_iff.mp (by decide +kernel)
  have hadd (left right : Value) :=
    (((operators_fail_asDescribed .add left right).1 rfl).1.mpr nofun)
  have hmodulo := ((operators_fail_asDescribed .modulo (.integer 7) (.integer 0)).1 rfl).1.mpr nofun
  have hoverlooked : Overlooked (.integer 2) (.string "abc") := by
    refine ⟨usable_integer 2, "abc", rfl, fun number hnumber => ?_⟩
    rw [parseFloat?_eq_none_iff.mpr hword] at hnumber
    cases hnumber
  obtain ⟨-, text, htext, -, hformat⟩ := (operators_fail_asDescribed .power _ _).2.1 hoverlooked
  cases htext
  obtain ⟨-, -, hplain, -⟩ := operators_fail_asDescribed .less .nil (.boolean true)
  obtain ⟨-, -, -, hruns⟩ := operators_fail_asDescribed .and .nil .nil
  obtain ⟨fault, later, hfails⟩ : ∃ fault later,
      execute 10 printSumWithNil (.start .plain 5 [] .silent) = .failed fault later := ⟨_, _, rfl⟩
  refine ⟨?_, ?_, ?_, hplain (by decide), hformat hword, fault, later, hfails,
    hruns _ _ _ _ _ hfails⟩
  · exact (hadd _ _ .type).mpr (.left rfl .nil)
  · exact (hadd _ _ .format).mpr (.left rfl (.string hword))
  · exact (hmodulo .arithmetic).mpr (.modulo 7)

open Number Operator in
/-- Operators do not always fail as described: a power takes the text of a whole number for its
exponent. -/
theorem power_takes_text :
    ¬ ∀ operator left right kind, operator.decisive? = none →
      (FailsWith operator left right kind ↔ Fails operator left right kind) := by
  intro hdescribed
  have hthree : isWhole ((parseFloat? "3").getD 0) = true := by decide +kernel
  have hoverlooked : Overlooked (.integer 2) (.string "3") := by
    refine ⟨usable_integer 2, "3", rfl, fun number hnumber => ?_⟩
    rw [hnumber, Option.getD_some] at hthree
    exact isWhole_iff_integral.mp hthree
  exact not_overlooked_of_failsWith_iff (fun kind => hdescribed .power _ _ kind rfl) hoverlooked

end TableScript
