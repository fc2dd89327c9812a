import TableScript.Proofs.Run.Fuel
import TableScript.Proofs.Run.Values
import TableScript.Proofs.Lists.Proper

/-!
# No run makes a degenerate list

Lists come from a `return` of several values.  They go on through variables, arguments, tables and
their keys, and further returns.  That all of them are proper is a standard of values
(`properLists`), so that everything in a session meets it: the lists in the state, those that a task
is given and those that it gives.

What is made of lists does not come to their odd cases then: a line that is printed shows all values
in its arguments and nothing else, and where the first of several values is asked for there is one.
-/

namespace TableScript

/-- All lists are proper. -/
def properLists : ValueStandard where
  OfValue _ value := value.Proper
  grows _ := id
  scalar := Value.proper_of_isScalar
  table _ := .single rfl
  list := .list
  items hproper := (Value.proper_list_iff.mp hproper).2

/-- The values that a task is given are proper. -/
abbrev Task.Proper {α : Type} (task : Task α) : Prop := task.Takes Value.Proper

/-- The values that a task gives are proper. -/
abbrev Task.GivesProper {α : Type} (task : Task α) (value : α) : Prop :=
  task.Gives Value.Proper value

/-! ## What is made of lists -/

/-- What is made of lists shows their items.  A line that is printed, or that fails to be, has the
texts of all values in its arguments; parentheses and bounds take the first item of a list, and do
not make one up. -/
def Task.UnpacksLists : Nat → {α : Type} → Task α → State → Prop
  | fuel + 1, _, .invoke (.print arguments position), state =>
    ∀ values later, Eval.expressions fuel arguments state = .done values later →
      Eval.invoke (fuel + 1) (.print arguments position) state =
        match later.printLine (tabulate ((values.flatMap Value.leaves).map Value.text)) with
        | (none, printed) => .done .nil printed
        | (some problem, printed) => .failed ⟨.console problem, position⟩ printed
  | fuel + 1, _, .expression (.parenthesized inner position), state =>
    ∀ items later, Eval.expression fuel inner state = .done (.list items) later →
      ∃ item rest, items = item :: rest ∧
        Eval.expression (fuel + 1) (.parenthesized inner position) state = .done item later
  | fuel + 1, _, .bound kind source, state =>
    ∀ items later, Eval.expression fuel source state = .done (.list items) later →
      ∃ item rest, items = item :: rest ∧
        Eval.bound (fuel + 1) kind source state =
          if item.isNumber then .done item later
          else .failed ⟨.notNumberBound kind item, source.position⟩ later
  | _, _, _, _ => True

section Unpacking

variable {fuel : Nat} {state : State} (hstate : state.Proper)

include hstate

/-- A list that an expression gives has a first item. -/
theorem exists_cons_of_expression {tree : Expression} {items : List Value} {later : State}
    (hends : Eval.expression fuel tree state = .done (.list items) later) :
    ∃ item rest, items = item :: rest :=
  Value.Proper.exists_cons (properLists.gives_of_run (.expression tree) hstate trivial hends)

theorem unpacksLists {α : Type} (task : Task α) : task.UnpacksLists fuel state := by
  -- one case for each of the three kinds of task that take a list apart
  unfold Task.UnpacksLists
  split
  · next fuel arguments position =>
      intro values later hends
      have hvalues : ∀ value ∈ values, value.Proper :=
        properLists.gives_of_run (.expressions arguments) hstate trivial hends
      rw [← Value.tabulate_texts hvalues, Eval.invoke, Action.bind_of_done hends]
      simp only [bind, Action.bind, Action.print]
      rcases later.printLine (tabulate (Value.texts values)) with ⟨_ | problem, printed⟩ <;> rfl
  · next fuel inner position =>
      intro items later hends
      obtain ⟨item, rest, rfl⟩ := exists_cons_of_expression hstate hends
      refine ⟨item, rest, rfl, ?_⟩
      rw [Eval.expression]
      exact Action.bind_of_done hends
  · next fuel kind source =>
      intro items later hends
      obtain ⟨item, rest, rfl⟩ := exists_cons_of_expression hstate hends
      refine ⟨item, rest, rfl, ?_⟩
      rw [Eval.bound, Action.bind_of_done hends, Eval.requireNumber]
      change (if item.isNumber then pure item else _ : Action Value) later = _
      split <;> rfl
  · trivial

end Unpacking

/-- **No list has fewer than two items.**  When a program is executed, after whatever came before it
in a session, all lists are proper in every state that it comes through, the last one included; so
is what it returns, and so are the values that each task is given or gives, be they arguments,
operands, keys or bounds.  A printed line therefore shows exactly the values in its arguments, and
parentheses and bounds never make up a value for a list. -/
theorem lists_proper {host : Host} {callLimit : Nat} {input : List InputLine} {output : Output}
    {state : State} (hreached : Session.Reaches host callLimit input output state) (fuel : Nat)
    (program : Block) :
    (∀ moment ∈ (Task.block program).moments fuel state.restart, moment.Proper) ∧
    (∀ later, (execute fuel program state).state? = some later →
      later ∈ (Task.block program).moments fuel state.restart) ∧
    (∀ value later, execute fuel program state = .done value later → value.Proper) ∧
    (Task.block program).Throughout
      (fun left _ task inner =>
        task.Proper ∧
        (∀ value later, task.run left inner = .done value later → task.GivesProper value) ∧
        task.UnpacksLists left inner)
      fuel state.restart := by
  have htask : properLists.standard.OfTask (.block program) state.restart.heap := trivial
  have hstart : state.restart.Proper := (properLists.each_of_reaches hreached).restart
  -- the four parts are the standard read at the moments, at the end, of the value, and at each task
  refine ⟨?_, ?_, ?_, ?_⟩
  · exact properLists.sound.moments fuel htask hstart
  · intro later hends
    unfold execute at hends
    rw [Action.state?_bind_pure] at hends
    exact (Task.block program).state?_mem_moments hends
  · intro value later hends
    have hmeets : (execute fuel program state).Meets properLists.standard fun value _ =>
        value.Proper :=
      properLists.sound.execute_meets fuel htask hstart fun _ _ hflow => hflow
    rw [hends] at hmeets
    exact hmeets.1
  · refine (properLists.sound.throughout fuel htask hstart).mono ?_
    intro left α task inner hmoment
    obtain ⟨htask, hinner⟩ := hmoment
    exact ⟨htask, fun _ _ => properLists.gives_of_run task hinner htask, unpacksLists hinner task⟩

/-- A function that returns two values, a function that returns these together and a third one, and
a line that shows what comes of it. -/
def nestedReturns : Block :=
  let number (digits : String) : Expression := .number .integer digits .start
  let call (name : String) : Expression := .invoke (.call name [] .start)
  .mk [
    .define "pair" [] (.mk [] (some ⟨[number "1", number "2"], .start⟩)) .start,
    .define "three" [] (.mk [] (some ⟨[call "pair", number "3"], .start⟩)) .start,
    .invoke (.print [call "three"] .start)] (some ⟨[call "three"], .start⟩)

/-- The list that is printed and returned has a list in it; both are proper, and the line shows the
three numbers. -/
theorem lists_proper_nestedReturns :
    ∃ later, execute 20 nestedReturns (.start .plain 5 [] (.kept "")) =
        .done (.list [.list [.integer 1, .integer 2], .integer 3]) later ∧
      later.output = .kept "1\t2\t3\n" ∧
      (Value.list [.list [.integer 1, .integer 2], .integer 3]).Proper := by
  have hends : ∃ later, execute 20 nestedReturns (.start .plain 5 [] (.kept "")) =
      .done (.list [.list [.integer 1, .integer 2], .integer 3]) later ∧
        later.output = .kept "1\t2\t3\n" := ⟨_, rfl, by decide +kernel⟩
  obtain ⟨later, hends, hprinted⟩ := hends
  exact ⟨later, hends, hprinted, (lists_proper .start 20 nestedReturns).2.2.1 _ later hends⟩

end TableScript
