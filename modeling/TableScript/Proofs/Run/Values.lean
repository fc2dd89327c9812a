import TableScript.Proofs.Run.Standard
import TableScript.Proofs.Run.Stored
import TableScript.Proofs.Values.Scalars

/-!
# The values of a run

Values come from literals, from operators and from input lines, which are scalars; from table
constructors; and from a `return` of several values, which makes a list of them.  They go on through
variables, arguments, tables and their keys.  So a property that these sources have, and that passes
from a list to its items and back, is one of all values that a run deals with.

`ValueStandard` is such a property.  It may depend on the heap if it does not get lost when the heap
grows.  `ValueStandard.sound` is what follows: the values in a state, those that a task is given and
those that it gives have the property all along.
-/

namespace TableScript

open Plan TableScript.Action

/-- A property of values that is kept by all that a run makes of them. -/
structure ValueStandard where
  OfValue : Heap → Value → Prop
  grows : ∀ {heap later value}, heap.GrowsInto later → OfValue heap value → OfValue later value
  scalar : ∀ {heap value}, value.isScalar = true → OfValue heap value
  table : ∀ {heap identity}, heap.Has identity → OfValue heap (.table identity)
  list : ∀ {heap items}, 2 ≤ items.length → (∀ item ∈ items, OfValue heap item) →
    OfValue heap (.list items)
  items : ∀ {heap items}, OfValue heap (.list items) → ∀ item ∈ items, OfValue heap item

namespace Task

/-- Something holds of the values that a task is given. -/
def Takes (holds : Value → Prop) : {α : Type} → Task α → Prop
  | _, .call _ _ arguments => ∀ value ∈ arguments, holds value
  | _, .tableFields _ table _ => table.Each holds
  | _, .forLoop _ _ _ limit step _ => holds limit ∧ holds step
  | _, _ => True

/-- Something holds of the values that a task gives. -/
def Gives (holds : Value → Prop) : {α : Type} → Task α → α → Prop
  | _, .expression _, value => holds value
  | _, .expressions _, values => ∀ value ∈ values, holds value
  | _, .condition _ _, _ => True
  | _, .tableFields _ _ _, table => table.Each holds
  | _, .invoke _, value => holds value
  | _, .call _ _ _, value => holds value
  | _, .bound _ _, value => holds value
  | _, .stepBound _, value => holds value
  | _, .block _, flow => holds flow.result
  | _, .statements _, flow => holds flow.result
  | _, .statement _, flow => holds flow.result
  | _, .branches _ _, flow => holds flow.result
  | _, .whileLoop _ _, flow => holds flow.result
  | _, .repeatLoop _ _, flow => holds flow.result
  | _, .forLoop _ _ _ _ _ _, flow => holds flow.result

end Task

namespace ValueStandard

variable (values : ValueStandard) {heap later : Heap}

/-- All values meet the standard: those in a state, and those that a task is given and gives. -/
def standard : Standard where
  OfState state := state.Each (values.OfValue state.heap)
  OfTask task heap := task.Takes (values.OfValue heap)
  OfResult task value heap := task.Gives (values.OfValue heap) value
  OfFault _ := True

theorem nil : values.OfValue heap .nil := values.scalar rfl

/-! ## Rules on values -/

theorem first {value : Value} (hvalue : values.OfValue heap value) :
    values.OfValue heap value.first := by
  cases value with
  | list items =>
      cases items with
      | nil => exact values.nil
      | cons item rest => exact values.items hvalue item List.mem_cons_self
  | _ => exact hvalue

/-- The last argument is spread over the items of a list. -/
theorem spread {arguments : List Value}
    (harguments : ∀ value ∈ arguments, values.OfValue heap value) :
    ∀ value ∈ Eval.spread arguments, values.OfValue heap value := by
  unfold Eval.spread
  split
  · next items hlast =>
      have hitems := values.items (harguments _ (List.mem_of_getLast? hlast))
      refine List.forall_mem_append.mpr ⟨fun value hvalue => ?_, hitems⟩
      exact harguments value (List.dropLast_subset arguments hvalue)
  · exact harguments

/-- A `return` makes a list of two values or more only. -/
theorem returnValue {given : List Value} (hgiven : ∀ value ∈ given, values.OfValue heap value) :
    values.OfValue heap (Eval.returnValue given) := by
  match given with
  | [] => exact values.nil
  | [value] => exact hgiven value List.mem_cons_self
  | first :: second :: rest =>
      refine values.list ?_ hgiven
      simp only [List.length_cons]
      omega

/-! ## Actions -/

/-- A change that leaves the heap alone goes from a state that meets the standard to one that does
if the values in it do. -/
theorem ofState_congr {state : State} (hsame : state.heap = heap) :
    values.standard.OfState state ↔ state.Each (values.OfValue heap) := by
  subst hsame
  exact Iff.rfl

theorem declare_meets (name : String) {value : Value} (hvalue : values.OfValue heap value)
    {after : Unit → Heap → Prop} (hafter : after () heap) :
    (change (·.declare name value)).Meets values.standard after heap := by
  refine meets_change ?_
  rintro state rfl hstate
  exact ⟨hafter, State.Each.declare hstate name hvalue⟩

theorem readVariable_meets (position : Position) (name : String) (keys : List Value) :
    (readVariable position name keys).Meets values.standard
      (fun value heap => values.OfValue heap value) heap :=
  meets_readVariable
    (fun _ _ hheap hstate hread => hheap ▸ State.Each.read hstate values.nil hread)
    fun _ _ _ => trivial

theorem readLine_meets (position : Position) (format : Option String) :
    (readLine position format).Meets values.standard
      (fun value heap => values.OfValue heap value) heap := by
  refine meets_readLine (fun state hstate => ?_) values.nil (fun _ => values.scalar rfl)
    (fun _ _ hread => values.scalar (Reading.ofLine_isScalar hread)) (fun _ => trivial)
    fun _ _ _ => trivial
  exact (values.ofState_congr State.heap_takeLine).mpr (State.Each.takeLine hstate)

/-! ## Plans -/

/-- A flow that returns a value that meets the standard, or nothing. -/
abbrev Returns (plan : Plan Flow) (heap : Heap) : Prop :=
  plan.Meets values.standard (fun flow heap => values.OfValue heap flow.result) heap

theorem inLoopFrame_meets {keyword : LoopKeyword} {inner : Plan Flow}
    (hinner : values.Returns inner heap) : values.Returns (inLoopFrame keyword inner) heap :=
  meets_inLoopFrame (fun _ hstate => State.Each.enterLoop hstate keyword)
    (fun _ hstate => State.Each.leaveLoop hstate) hinner

/-- A task that is all that there is to do gives what it gives. -/
theorem work_meets {α : Type} {task : Task α} {after : α → Heap → Prop}
    (htask : task.Takes (values.OfValue heap))
    (hafter : ∀ value later, task.Gives (values.OfValue later) value → after value later) :
    (work task).Meets values.standard after heap :=
  ⟨htask, fun value later _ => hafter value later⟩

theorem ofExpression_meets (tree : Expression) :
    (Task.ofExpression tree).Meets values.standard (fun value heap => values.OfValue heap value)
      heap := by
  cases tree with
  | nil position | boolean value position | string contents position => exact values.scalar rfl
  | number form text position =>
      exact meets_check (fun _ hread => values.scalar (Reading.ofLiteral_isScalar hread))
        fun _ _ => trivial
  | «variable» name path position =>
      refine work_bind_meets trivial fun keys later _ _ => ?_
      exact values.readVariable_meets position name keys
  | table fields position =>
      refine act_bind_meets (meets_newTable ?_)
      refine work_bind_meets (Table.each_empty _) fun table later _ htable => ?_
      rintro state rfl hstate
      -- the new table is in the heap that has grown by it, and so is what was there before
      have hgrows := Heap.GrowsInto.allocate state.heap table
      refine ⟨values.table (Heap.has_allocate table), ?_⟩
      exact (State.Each.allocate hstate htable).mono fun _ => values.grows hgrows
  | invoke invocation => exact values.work_meets trivial fun _ _ => id
  | binary operator left right position =>
      rw [Task.ofExpression]
      split
      · -- a lazy operator gives one of its operands, as a boolean
        refine work_bind_meets trivial fun first _ _ _ => ?_
        split
        · exact values.scalar rfl
        · exact work_bind_meets trivial fun second _ _ _ => values.scalar rfl
      · refine work_bind_meets trivial fun first _ _ _ => ?_
        refine work_bind_meets trivial fun second _ _ _ => ?_
        exact meets_check (fun _ hresult => values.scalar (Operator.binary_isScalar hresult))
          fun _ _ => trivial
  | unary operator operand position =>
      refine work_bind_meets trivial fun value _ _ _ => ?_
      exact meets_check (fun _ hresult => values.scalar (Operator.unary_isScalar hresult))
        fun _ _ => trivial
  | parenthesized inner position =>
      exact work_bind_meets trivial fun value later _ hvalue => values.first hvalue

theorem ofFields_meets {table : Table} (htable : table.Each (values.OfValue heap)) (index : Nat)
    (fields : List Field) :
    (Task.ofFields index table fields).Meets values.standard
      (fun table heap => table.Each (values.OfValue heap)) heap := by
  -- whatever the key, the table with the new entry is passed on to the fields that follow
  have hstore {key item : Value} {later : Heap} (htable : table.Each (values.OfValue later))
      (hkey : values.OfValue later key) (hitem : values.OfValue later item) (position : Position)
      (next : Nat) (rest : List Field) :
      (act (.check position ((table.set key item).mapError .invalidKey)) >>= fun stored =>
        work (.tableFields next stored rest)).Meets values.standard
          (fun table heap => table.Each (values.OfValue heap)) later := by
    refine act_bind_meets (meets_check (fun stored hset => ?_) fun _ _ => trivial)
    cases hstored : table.set key item with
    | ok filled =>
        rw [hstored] at hset
        cases hset
        exact values.work_meets (htable.set hkey hitem hstored) fun _ _ => id
    | error problem =>
        rw [hstored] at hset
        cases hset
  cases fields with
  | nil => exact htable
  | cons first rest =>
      cases first with
      | positional value =>
          refine work_bind_meets trivial fun item later hgrows hitem => ?_
          exact hstore (htable.mono fun _ => values.grows hgrows) (values.scalar rfl) hitem
            value.position (index + 1) rest
      | keyed key value =>
          refine work_bind_meets trivial fun name middle hgrows hname => ?_
          refine work_bind_meets trivial fun item later hgrows' hitem => ?_
          exact hstore (htable.mono fun _ => values.grows (hgrows.trans hgrows'))
            (values.grows hgrows' hname) hitem value.position index rest

theorem ofInvocation_meets (invocation : Invocation) :
    (Task.ofInvocation invocation).Meets values.standard
      (fun value heap => values.OfValue heap value) heap := by
  cases invocation with
  | call callee arguments position =>
      refine work_bind_meets trivial fun given later _ hgiven => ?_
      refine act_bind_meets (meets_findFunction (fun _ function _ _ => ?_) trivial)
      exact values.work_meets (values.spread hgiven) fun _ _ => id
  | print arguments position =>
      refine work_bind_meets trivial fun given later _ _ => ?_
      refine act_bind_meets (meets_print values.nil (fun state hstate => ?_) fun _ => trivial)
      exact State.Each.printLine hstate _
  | read format position =>
      cases format with
      | none => exact values.readLine_meets position none
      | some source =>
          exact work_bind_meets trivial fun value later _ _ => values.readLine_meets position _

theorem ofStatement_meets (tree : Statement) : values.Returns (Task.ofStatement tree) heap := by
  cases tree with
  | empty position | break_ position => exact values.nil
  | declare name namePosition value position =>
      refine work_bind_meets trivial fun item later _ hitem => ?_
      exact act_bind_meets (values.declare_meets name hitem values.nil)
  | assign name path value position =>
      refine work_bind_meets trivial fun keys middle _ hkeys => ?_
      refine work_bind_meets trivial fun item later hgrows hitem => ?_
      refine act_bind_meets (meets_attempt ?_ fun _ _ _ => trivial)
      rintro state last rfl hstate hassign
      -- the keys were evaluated before the value, in a heap that may have been smaller
      have hkeys' := fun key hkey => values.grows hgrows (hkeys key hkey)
      have hlast := State.heap_growsInto_assign hassign
      exact ⟨values.nil,
        (State.Each.assign hstate hkeys' hitem hassign).mono fun _ => values.grows hlast⟩
  | choose options otherwise position => exact values.work_meets trivial fun _ _ => id
  | define name parameters body position =>
      refine act_bind_meets (meets_change fun state _ hstate => ?_)
      exact ⟨values.nil, State.Each.define hstate _⟩
  | while_ guard body position | repeat_ body guard position | do_ body position =>
      exact values.inLoopFrame_meets (values.work_meets trivial fun _ _ => id)
  | for_ name start limit step body position =>
      rw [Task.ofStatement]
      refine work_bind_meets trivial fun first afterFirst _ hfirst => ?_
      refine work_bind_meets trivial fun last afterLast hgrows hlast => ?_
      refine work_bind_meets trivial fun increment later hgrows' hincrement => ?_
      split
      · exact meets_fail trivial
      · have hfirst' := values.grows (hgrows.trans hgrows') hfirst
        refine values.inLoopFrame_meets (act_bind_meets (values.declare_meets name hfirst' ?_))
        exact values.work_meets ⟨values.grows hgrows' hlast, hincrement⟩ fun _ _ => id
  | invoke invocation => exact work_bind_meets trivial fun _ _ _ _ => values.nil

theorem ofBranches_meets (options : List Branch) (otherwise : Option Block) :
    values.Returns (Task.ofBranches options otherwise) heap := by
  cases options with
  | nil =>
      cases otherwise with
      | none => exact values.nil
      | some body => exact values.work_meets trivial fun _ _ => id
  | cons first rest =>
      obtain ⟨guard, body⟩ := first
      refine work_bind_meets trivial fun verdict _ _ _ => ?_
      split
      · exact values.work_meets trivial fun _ _ => id
      · exact values.work_meets trivial fun _ _ => id

/-- A round of a loop returns what its block does, or what follows it. -/
theorem round_meets (body : Block) {again : Plan Flow}
    (hagain : ∀ later, heap.GrowsInto later → values.Returns again later) :
    values.Returns (work (.block body) >>= Task.afterRound again) heap :=
  work_bind_meets trivial fun _ later hgrows hflow =>
    Task.afterRound_meets values.nil hflow (hagain later hgrows)

/-- **What is done for a task keeps the standard.** -/
theorem sound : values.standard.Sound := by
  constructor
  intro α task heap htask
  -- values come from literals, variables and the tasks requested; only a result list is made here
  cases task with
  | expression tree => exact values.ofExpression_meets tree
  | expressions trees =>
      cases trees with
      | nil => exact fun _ hvalue => absurd hvalue List.not_mem_nil
      | cons first rest =>
          refine work_bind_meets trivial fun value _ _ hvalue => ?_
          refine work_bind_meets trivial fun others _ hgrows hothers => ?_
          exact List.forall_mem_cons.mpr ⟨values.grows hgrows hvalue, hothers⟩
  | condition context guard =>
      refine work_bind_meets trivial fun value _ _ _ => ?_
      exact meets_requireBoolean (fun _ => trivial) trivial
  | tableFields index table fields => exact values.ofFields_meets htask index fields
  | invoke invocation => exact values.ofInvocation_meets invocation
  | call position function arguments =>
      -- the arguments are bound in the new frame, which is why the task has to meet the standard
      refine act_bind_meets (meets_attempt ?_ fun _ _ _ => trivial)
      rintro state entered rfl hstate hentered
      have hsame := State.heap_enterCall hentered
      refine ⟨(meets_bind _ _).mpr ((meets_finally _ _).mpr ⟨fun state => ⟨rfl, ?_⟩, ?_⟩), ?_⟩
      · exact State.Each.leaveCall
      · exact values.work_meets trivial fun flow _ hflow => hflow
      · exact (values.ofState_congr hsame).mpr
          (State.Each.enterCall hstate values.nil htask hentered)
  | bound kind source =>
      refine work_bind_meets trivial fun value _ _ hvalue => ?_
      exact meets_requireNumber (fun _ => values.first hvalue) trivial
  | stepBound source =>
      cases source with
      | none => exact values.scalar rfl
      | some step => exact values.work_meets trivial fun _ _ => id
  | block body =>
      obtain ⟨body, result⟩ := body
      refine work_bind_meets trivial fun flow _ _ hflow => ?_
      cases flow with
      | normal =>
          cases result with
          | none => exact values.nil
          | some last =>
              -- the values of a return are made a list only if there are two of them
              exact work_bind_meets trivial fun given _ _ hgiven => values.returnValue hgiven
      | broken | returned value => exact hflow
  | statements body =>
      cases body with
      | nil => exact values.nil
      | cons first rest =>
          refine work_bind_meets trivial fun flow _ _ hflow => ?_
          cases flow with
          | normal => exact values.work_meets trivial fun _ _ => id
          | broken | returned value => exact hflow
  | statement tree => exact values.ofStatement_meets tree
  | branches options otherwise => exact values.ofBranches_meets options otherwise
  | whileLoop guard body =>
      refine work_bind_meets trivial fun verdict _ _ _ => ?_
      split
      · exact values.round_meets body fun _ _ => values.work_meets trivial fun _ _ => id
      · exact values.nil
  | repeatLoop body guard =>
      refine values.round_meets body fun _ _ => work_bind_meets trivial fun verdict _ _ _ => ?_
      split
      · exact values.nil
      · exact values.work_meets trivial fun _ _ => id
  | forLoop position name ascending limit step body =>
      -- nothing has to be known of the counter that is read: what is stored is a number
      refine act_bind_meets (meets_readVariable (fun _ counter _ _ _ => ?_) fun _ _ _ => trivial)
      split
      · exact values.nil
      · refine values.round_meets body fun later hgrows => ?_
        refine act_bind_meets (meets_readVariable (fun _ current _ _ _ => ?_) fun _ _ _ => trivial)
        refine act_bind_meets (meets_check (fun next hnext => ?_) fun _ _ => trivial)
        cases next with
        | none => exact values.nil
        | some value =>
            have hvalue : values.OfValue later value :=
              values.scalar (Value.isScalar_of_isNumber (Eval.advance_isNumber hnext))
            refine act_bind_meets (values.declare_meets name hvalue ?_)
            exact values.work_meets
              ⟨values.grows hgrows htask.1, values.grows hgrows htask.2⟩ fun _ _ => id

/-! ## Runs -/

/-- What a task gives meets the standard, if what it takes and what is stored does. -/
theorem gives_of_run {α : Type} {fuel : Nat} (task : Task α) {state later : State} {value : α}
    (hstate : state.Each (values.OfValue state.heap))
    (htask : task.Takes (values.OfValue state.heap))
    (hends : task.run fuel state = .done value later) :
    task.Gives (values.OfValue later.heap) value := by
  have hmeets := values.sound.run_meets fuel task state.heap htask state rfl hstate
  rw [hends] at hmeets
  exact hmeets.1

/-- Everything that a session leaves meets the standard. -/
theorem each_of_reaches {host : Host} {callLimit : Nat} {input : List InputLine} {output : Output}
    {state : State} (hreached : Session.Reaches host callLimit input output state) :
    state.Each (values.OfValue state.heap) := by
  change values.standard.OfState state
  refine hreached.of_moments ?_ ?_ ?_ ?_
  · exact State.each_start host callLimit input output
  · exact fun _ hstate => State.Each.restart hstate
  · exact fun _ _ _ hstate => ⟨hstate.globals, hstate.frames, hstate.tables⟩
  · intro α fuel task state htree hstate
    refine values.sound.moments fuel ?_ hstate
    cases htree <;> trivial

end ValueStandard

end TableScript
