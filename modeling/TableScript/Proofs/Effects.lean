import TableScript.Proofs.Frames.Moments
import TableScript.Proofs.Run.Changes
import TableScript.Proofs.Run.Comparison

/-!
# Effects accumulate, and printing is not observed

A fault does not undo what was done before it, so that a session goes on from whatever a run left.
What it left has everything that there was: names that were bound globally and functions that were
defined are so still, printed lines follow what was printed before, and of the input only lines from
its beginning are gone.  `State.GrowsInto` says this of two states, and every run keeps it.

What is printed does not come back: two runs from states that differ only in their output go on in
lockstep and print the same lines (`PrintedAlike`), one of them perhaps into nothing.  Only an
output that fails can be told from another one.
-/

namespace TableScript

variable {α : Type}

/-! ## Printed lines -/

namespace Output

/-- The lines for which there is no problem. -/
def acceptedLines : List (Option String) → List String → List String
  | _, [] => []
  | [], lines => lines
  | none :: rest, line :: lines => line :: acceptedLines rest lines
  | some _ :: rest, _ :: lines => acceptedLines rest lines

theorem acceptedLines_nil (lines : List String) : acceptedLines [] lines = lines := by
  cases lines <;> rfl

theorem acceptedLines_append (problems : List (Option String)) (lines further : List String) :
    acceptedLines problems (lines ++ further) =
      acceptedLines problems lines ++ acceptedLines (problems.drop lines.length) further := by
  induction lines generalizing problems with
  | nil => simp [acceptedLines]
  | cons line rest ih =>
      match problems with
      | [] => simp [acceptedLines_nil]
      | none :: others => simp [acceptedLines, ih]
      | some problem :: others => simp [acceptedLines, ih]

/-- Prints several lines, each with a line break at its end; those that are not taken are lost. -/
def printLines (lines : List String) : Output → Output
  | kept text => kept (text ++ String.join (lines.map (· ++ "\n")))
  | silent => silent
  | standard taken problems =>
    standard (taken ++ String.join ((acceptedLines problems lines).map (· ++ "\n")))
      (problems.drop lines.length)

theorem printLines_nil (output : Output) : output.printLines [] = output := by
  cases output with
  | kept text => simp [printLines]
  | silent => rfl
  | standard taken problems => simp [printLines, acceptedLines]

theorem printLines_append (output : Output) (lines further : List String) :
    output.printLines (lines ++ further) = (output.printLines lines).printLines further := by
  cases output with
  | kept text => simp [printLines, String.append_assoc]
  | silent => rfl
  | standard taken problems =>
      simp [printLines, acceptedLines_append, String.append_assoc]

theorem printLine_eq_printLines (output : Output) (line : String) :
    (output.printLine line).2 = output.printLines [line] := by
  match output with
  | kept text => simp [printLine, printLines, String.append_assoc]
  | silent => rfl
  | standard taken [] => simp [printLine, printLines, acceptedLines, String.append_assoc]
  | standard taken (none :: rest) =>
      simp [printLine, printLines, acceptedLines, String.append_assoc]
  | standard taken (some problem :: rest) => simp [printLine, printLines, acceptedLines]

/-- Nothing keeps a line from being printed. -/
def NeverFails : Output → Prop
  | standard _ problems => ∀ problem ∈ problems, problem = none
  | _ => True

theorem NeverFails.printLine {output : Output} (hnever : output.NeverFails) (line : String) :
    (output.printLine line).1 = none := by
  match output with
  | kept text | silent | standard taken [] | standard taken (none :: rest) => rfl
  | standard taken (some problem :: rest) => cases hnever (some problem) List.mem_cons_self

theorem NeverFails.printLines {output : Output} (hnever : output.NeverFails)
    (lines : List String) : (output.printLines lines).NeverFails := by
  cases output with
  | kept text => trivial
  | silent => trivial
  | standard taken problems =>
      exact fun problem hproblem => hnever problem (List.mem_of_mem_drop hproblem)

end Output

/-! ## What only grows -/

/-- Whatever is bound globally and defined in the first state is so in the second one, perhaps
anew.  The input of the second is what is left of that of the first, and its output that of the
first with further lines. -/
structure State.GrowsInto (state later : State) : Prop where
  globals : ∀ name, (state.scope.globals.find? name).isSome →
    (later.scope.globals.find? name).isSome
  functions : ∀ name, (state.scope.function? name).isSome → (later.scope.function? name).isSome
  input : later.input <:+ state.input
  output : ∃ lines, later.output = state.output.printLines lines

/-- Binding a name takes no other name away. -/
theorem Bindings.isSome_find?_insert {bindings : Bindings String α} {other : String}
    (hbound : (bindings.find? other).isSome) (name : String) (value : α) :
    ((bindings.insert name value).find? other).isSome := by
  rw [find?_insert]
  split
  · rfl
  · exact hbound

namespace State

variable {state middle later : State}

namespace GrowsInto

/-- A change of anything else is no matter. -/
theorem of_eq (hglobals : later.scope.globals = state.scope.globals)
    (hfunctions : later.scope.functions = state.scope.functions)
    (hinput : later.input = state.input) (houtput : later.output = state.output) :
    state.GrowsInto later where
  globals name hbound := by rwa [hglobals]
  functions name hdefined := by rwa [Scope.function?, hfunctions]
  input := hinput ▸ List.suffix_refl _
  output := ⟨[], by rw [houtput, Output.printLines_nil]⟩

theorem refl (state : State) : state.GrowsInto state := of_eq rfl rfl rfl rfl

theorem trans (hfirst : state.GrowsInto middle) (hsecond : middle.GrowsInto later) :
    state.GrowsInto later where
  globals name hbound := hsecond.globals name (hfirst.globals name hbound)
  functions name hdefined := hsecond.functions name (hfirst.functions name hdefined)
  input := hsecond.input.trans hfirst.input
  output := by
    obtain ⟨lines, hlines⟩ := hfirst.output
    obtain ⟨further, hfurther⟩ := hsecond.output
    exact ⟨lines ++ further, by rw [hfurther, hlines, Output.printLines_append]⟩

/-- A name is bound globally, everything else staying as it is. -/
theorem insertGlobal (state : State) (name : String) (value : Value) :
    state.GrowsInto { state with scope :=
      { state.scope with globals := state.scope.globals.insert name value } } where
  globals _ hbound := Bindings.isSome_find?_insert hbound name value
  functions _ hdefined := hdefined
  input := List.suffix_refl _
  output := ⟨[], (Output.printLines_nil _).symm⟩

end GrowsInto

theorem growsInto_declare (state : State) (name : String) (value : Value) :
    state.GrowsInto (state.declare name value) := by
  unfold declare
  rcases state.scope.declare_cases name value with ⟨-, hdeclared⟩ | ⟨_, _, -, hdeclared⟩
  · rw [hdeclared]
    exact .insertGlobal state name value
  · rw [hdeclared]
    exact .of_eq rfl rfl rfl rfl

theorem growsInto_assign {name : String} {keys : List Value} {value : Value}
    (hassign : state.assign name keys value = .ok later) : state.GrowsInto later := by
  rcases assign_cases hassign with ⟨-, rfl⟩ | ⟨_, _, _, -, -, -, rfl⟩
  · rcases state.scope.store_cases name value with ⟨-, hstored⟩ | ⟨_, -, hstored⟩
    · rw [hstored]
      exact .insertGlobal state name value
    · rw [hstored]
      exact .of_eq rfl rfl rfl rfl
  · exact .of_eq rfl rfl rfl rfl

theorem growsInto_define (state : State) (function : Function) :
    state.GrowsInto (state.define function) where
  globals _ hbound := hbound
  functions _ hdefined := Bindings.isSome_find?_insert hdefined function.name function
  input := List.suffix_refl _
  output := ⟨[], (Output.printLines_nil _).symm⟩

theorem growsInto_takeLine (state : State) : state.GrowsInto state.takeLine.2 := by
  unfold takeLine
  split
  · exact .refl state
  · next line rest hinput =>
      refine ⟨fun _ => id, fun _ => id, ?_, ⟨[], (Output.printLines_nil _).symm⟩⟩
      rw [hinput]
      exact List.suffix_cons line rest

theorem growsInto_printLine (state : State) (line : String) :
    state.GrowsInto (state.printLine line).2 :=
  ⟨fun _ => id, fun _ => id, List.suffix_refl _,
    ⟨[line], state.output.printLine_eq_printLines line⟩⟩

theorem growsInto_enterCall {function : Function} {arguments : List Value}
    (hentered : state.enterCall function arguments = .ok later) : state.GrowsInto later := by
  obtain ⟨scope, hscope, rfl⟩ := enterCall_cases hentered
  obtain ⟨-, rfl⟩ := Scope.enterCall_cases hscope
  exact .of_eq rfl rfl rfl rfl

theorem growsInto_leaveCall (state : State) : state.GrowsInto state.leaveCall := by
  unfold leaveCall Scope.leaveCall
  split
  · exact .refl state
  · exact .of_eq rfl rfl rfl rfl

end State

/-- Every single change of a run only adds to what there is. -/
theorem growth : Discipline State.GrowsInto State.GrowsInto where
  expressions_refl := .refl
  expressions_trans _ _ _ := .trans
  statements_refl := .refl
  statements_trans _ _ _ := .trans
  embed _ _ := id
  allocate _ _ := .of_eq rfl rfl rfl rfl
  takeLine := State.growsInto_takeLine
  printLine := State.growsInto_printLine
  declare := State.growsInto_declare
  assign _ _ _ _ _ := State.growsInto_assign
  define := State.growsInto_define
  call _ _ _ _ later hentered hlater :=
    (State.growsInto_enterCall hentered).trans (hlater.trans later.growsInto_leaveCall)
  loop state keyword later hlater := by
    have henter : state.GrowsInto (state.enterLoop keyword) := .of_eq rfl rfl rfl rfl
    have hleave : later.GrowsInto later.leaveLoop := .of_eq rfl rfl rfl rfl
    exact henter.trans (hlater.trans hleave)

/-! ## What is not observed -/

namespace State

/-- The state with another output. -/
def withOutput (state : State) (output : Output) : State := { state with output := output }

variable (state : State) (output : Output)

theorem withOutput_assign (name : String) (keys : List Value) (value : Value) :
    (state.withOutput output).assign name keys value =
      (state.assign name keys value).map (·.withOutput output) := by
  unfold assign
  cases keys.getLast? with
  | none => rfl
  | some last =>
      simp only [withOutput]
      cases reach state.heap name [] (state.scope.lookup name) keys.dropLast with
      | error cause => rfl
      | ok identity =>
          simp only [setEntry]
          cases (state.heap.table identity).set last value with
          | ok table => rfl
          | error problem => rfl

theorem withOutput_enterCall (function : Function) (arguments : List Value) :
    (state.withOutput output).enterCall function arguments =
      (state.enterCall function arguments).map (·.withOutput output) := by
  unfold enterCall
  simp only [withOutput]
  cases state.scope.enterCall function arguments with
  | ok scope => rfl
  | error cause => rfl

theorem withOutput_takeLine :
    (state.withOutput output).takeLine =
      (state.takeLine.1, state.takeLine.2.withOutput output) := by
  obtain ⟨scope, heap, input, former⟩ := state
  cases input with
  | nil => rfl
  | cons line rest => rfl

end State

/-- One state with two outputs, into which the same lines were printed since they were `left` and
`right`. -/
inductive PrintedAlike (left right : Output) : State → State → Prop
  | intro (state : State) (lines : List String) :
      PrintedAlike left right (state.withOutput (left.printLines lines))
        (state.withOutput (right.printLines lines))

namespace PrintedAlike

variable {left right : Output} {first second : State}

theorem start (state : State) (left right : Output) :
    PrintedAlike left right (state.withOutput left) (state.withOutput right) := by
  have hnothing : PrintedAlike left right _ _ := .intro state []
  rwa [Output.printLines_nil, Output.printLines_nil] at hnothing

theorem printLine (hleft : left.NeverFails) (hright : right.NeverFails)
    (halike : PrintedAlike left right first second) (line : String) :
    (first.printLine line).1 = (second.printLine line).1 ∧
      PrintedAlike left right (first.printLine line).2 (second.printLine line).2 := by
  obtain ⟨state, lines⟩ := halike
  -- what was printed so far is only lengthened, and nothing that was printed is read
  have hprinted {output : Output} (hnever : output.NeverFails) :
      (state.withOutput (output.printLines lines)).printLine line =
        (none, state.withOutput (output.printLines (lines ++ [line]))) := by
    rw [Output.printLines_append, ← Output.printLine_eq_printLines]
    exact Prod.ext ((hnever.printLines lines).printLine line) rfl
  rw [hprinted hleft, hprinted hright]
  exact ⟨rfl, ⟨state, lines ++ [line]⟩⟩

/-- What is attempted without a look at the output succeeds alike or fails for one cause. -/
theorem attempts (halike : PrintedAlike left right first second)
    (update : State → Except Cause State)
    (hupdate : ∀ state output,
      update (state.withOutput output) = (update state).map (·.withOutput output)) :
    Attempts (fun _ => False) (PrintedAlike left right) (update first) (update second) := by
  obtain ⟨state, lines⟩ := halike
  rw [hupdate, hupdate]
  cases update state with
  | ok later => exact .ok ⟨later, lines⟩
  | error cause => exact .error cause

theorem takeLine (halike : PrintedAlike left right first second) :
    first.takeLine.1 = second.takeLine.1 ∧
      PrintedAlike left right first.takeLine.2 second.takeLine.2 := by
  obtain ⟨state, lines⟩ := halike
  rw [State.withOutput_takeLine, State.withOutput_takeLine]
  exact ⟨rfl, ⟨state.takeLine.2, lines⟩⟩

end PrintedAlike

/-- No step of a run looks at the output, if that does not fail. -/
theorem printing_unobserved {left right : Output} (hleft : left.NeverFails)
    (hright : right.NeverFails) :
    Comparison (fun _ => False) fun _ => PrintedAlike left right where
  read := by
    rintro _ _ _ ⟨state, lines⟩ name keys
    rfl
  function? := by
    rintro _ _ _ ⟨state, lines⟩ name
    rfl
  newTable := by
    rintro _ _ _ ⟨state, lines⟩
    rfl
  allocate := by
    rintro _ _ _ ⟨state, lines⟩ table
    exact ⟨rfl, ⟨(state.allocate table).2, lines⟩⟩
  takeLine := PrintedAlike.takeLine
  printLine := PrintedAlike.printLine hleft hright
  declare := by
    rintro _ _ _ ⟨state, lines⟩ name value
    exact ⟨state.declare name value, lines⟩
  define := by
    rintro _ _ _ ⟨state, lines⟩ function
    exact ⟨state.define function, lines⟩
  -- the two steps that may be refused do not depend on the output either way
  assign halike name keys value :=
    halike.attempts (·.assign name keys value) fun state output =>
      state.withOutput_assign output name keys value
  enterCall halike function arguments :=
    halike.attempts (·.enterCall function arguments) fun state output =>
      state.withOutput_enterCall output function arguments
  leaveCall := by
    rintro _ _ _ _ _ _ _ ⟨state, lines⟩
    exact ⟨state.leaveCall, lines⟩
  enterLoop := by
    rintro _ _ _ ⟨state, lines⟩ keyword
    exact ⟨state.enterLoop keyword, lines⟩
  leaveLoop := by
    rintro _ _ _ _ _ _ _ ⟨state, lines⟩
    exact ⟨state.leaveLoop, lines⟩

/-! ## The result -/

/-- **Effects accumulate, and printing is not observed.**  Whatever is evaluated, an expression, a
statement, a block or any part of the work on one, from whatever state: where it ends, be it with a
value or with a fault, the state has grown.  And from two states that differ only in their outputs,
neither of which fails, it ends alike, with the same value or the same fault, in states that differ
only in their outputs again, after the same lines were printed. -/
theorem effects_accumulate (fuel : Nat) (task : Task α) (state : State) :
    (∀ later, (task.run fuel state).state? = some later → state.GrowsInto later) ∧
    ∀ left right : Output, left.NeverFails → right.NeverFails →
      (task.run fuel (state.withOutput left)).Alike (fun _ => False) (PrintedAlike left right)
        (task.run fuel (state.withOutput right)) := by
  -- growth is about one run; that printing is not observed compares two
  constructor
  · intro later hends
    exact growth.logic.executes_run [] fuel task state later hends
  · intro left right hleft hright
    have hsame := (printing_unobserved hleft hright).logic.executes_run [] fuel task
    exact hsame _ _ (.start state left right)

/-- A function that prints a line of the input, takes the value of a global name away and then
stores into a field of it. -/
def Function.printing : Function where
  name := "f"
  parameters := []
  body := .mk [.invoke (.print [.invoke (.read none .start)] .start),
    .assign "x" [] (.nil .start) .start,
    .assign "x" [.string "y" .start] (.boolean true .start) .start] none
  position := .start

/-- A state with that function, something printed and two lines to read. -/
def State.beforePrinting : State where
  scope :=
    { Scope.start 5 with
      globals := Bindings.empty.insert "x" (.boolean true)
      functions := Bindings.empty.insert "f" Function.printing }
  heap := .start .plain
  input := [.text "one", .text "two"]
  output := .kept "zero\n"

/-- The call fails in the end.  What it printed and read before stays so, the name is bound to nil,
and a call that prints into nothing fails in the same way. -/
theorem effects_accumulate_beforeFault : ∃ fault later,
    (Task.invoke (.call "f" [] .start)).run 20 .beforePrinting = .failed fault later ∧
    later.output = .kept "zero\none\n" ∧ later.input = [.text "two"] ∧
    later.scope.globals.find? "x" = some .nil ∧
    State.beforePrinting.GrowsInto later ∧
    Outcome.Alike (fun _ => False) (PrintedAlike (.kept "zero\n") .silent)
      ((Task.invoke (.call "f" [] .start)).run 20 .beforePrinting)
      ((Task.invoke (.call "f" [] .start)).run 20 (State.beforePrinting.withOutput .silent)) := by
  have haccumulate := effects_accumulate 20 (.invoke (.call "f" [] .start)) .beforePrinting
  exact ⟨_, _, rfl, by decide +kernel, rfl, rfl, haccumulate.1 _ rfl,
    haccumulate.2 (.kept "zero\n") .silent trivial trivial⟩

end TableScript
