import TableScript.Proofs.Frames.Balance
import TableScript.Proofs.Run.Comparison

/-!
# A function does not see its caller

Two calls of one function from states that differ only in their frames do the same, and each
leaves the frames of its own caller as they were.  Arguments beyond the parameters do not matter,
and missing ones are nil.

Inside the call both stacks have the same frames in front, the frame of the call among them, and
each has its own caller's frames behind (`AgreeInside`).  Reading, storing and declaring look at a
stack only up to the first frame of a call, so they cannot get behind the shared frames; this is
`Frames.find?_append` and `Frames.update?_append`.  Frames entered further inside are put in front
of the shared ones and taken away from there.  The rest is `Comparison.same`.
-/

namespace TableScript

/-! ## Looking at a stack up to the nearest call -/

namespace Frames

variable {shared : List Frame}

/-- Behind a frame that belongs to no call, the call is further out. -/
theorem call_mem_tail {frame : Frame} {rest : List Frame} (hframe : ¬ frame.isCall = true)
    (hcall : ∃ function, .call function ∈ (frame :: rest).map Frame.kind) :
    ∃ function, .call function ∈ rest.map Frame.kind := by
  obtain ⟨function, hmem⟩ := hcall
  rw [List.map_cons, List.mem_cons] at hmem
  rcases hmem with hkind | hmem
  · simp [Frame.isCall, ← hkind] at hframe
  · exact ⟨function, hmem⟩

/-- A name is looked for no further than the first frame of a call. -/
theorem find?_append (hcall : ∃ function, .call function ∈ shared.map Frame.kind)
    (name : String) (callers : List Frame) :
    find? name (shared ++ callers) = find? name shared := by
  induction shared with
  | nil => simp at hcall
  | cons frame rest ih =>
      simp only [List.cons_append, find?]
      cases frame.bindings.find? name with
      | some value => rfl
      | none =>
          by_cases hframe : frame.isCall = true
          · simp [hframe]
          · simp only [hframe, ih (call_mem_tail hframe hcall)]

/-- A name is rebound no further out than in the first frame of a call. -/
theorem update?_append (hcall : ∃ function, .call function ∈ shared.map Frame.kind)
    (name : String) (value : Value) (callers : List Frame) :
    update? name value (shared ++ callers) = (update? name value shared).map (· ++ callers) := by
  induction shared with
  | nil => simp at hcall
  | cons frame rest ih =>
      simp only [List.cons_append, update?]
      cases frame.bindings.find? name with
      | some old => simp
      | none =>
          by_cases hframe : frame.isCall = true
          · simp [hframe]
          · simp only [hframe, ih (call_mem_tail hframe hcall)]
            cases update? name value rest <;> simp

theorem update?_kinds {name : String} {value : Value} {frames updated : List Frame}
    (hupdate : update? name value frames = some updated) :
    updated.map Frame.kind = frames.map Frame.kind := by
  obtain ⟨loops, frame, outer, old, -, -, rfl, rfl⟩ := update?_eq_some hupdate
  simp

end Frames

/-! ## States that agree inside a call -/

/-- The state with other frames. -/
def State.withFrames (state : State) (frames : List Frame) : State :=
  { state with scope := { state.scope with frames := frames } }

/-- The states are one state with two stacks: both have the same frames in front, of the given
kinds and one of them belonging to a call, and behind these each has the frames of its callers. -/
inductive AgreeInside (callers callers' : List Frame) (kinds : List FrameKind) :
    State → State → Prop
  | intro (state : State) (shared : List Frame) (hkinds : shared.map Frame.kind = kinds)
      (hcall : ∃ function, .call function ∈ kinds) :
      AgreeInside callers callers' kinds (state.withFrames (shared ++ callers))
        (state.withFrames (shared ++ callers'))

namespace AgreeInside

variable {callers callers' : List Frame} {kinds : List FrameKind} {first second : State}

theorem lookup_eq (hinside : AgreeInside callers callers' kinds first second) (name : String) :
    first.scope.lookup name = second.scope.lookup name := by
  obtain ⟨state, shared, rfl, hcall⟩ := hinside
  simp only [Scope.lookup, State.withFrames, Frames.find?_append hcall]

theorem heap_eq (hinside : AgreeInside callers callers' kinds first second) :
    first.heap = second.heap := by
  obtain ⟨state, shared, -, -⟩ := hinside
  rfl

theorem read_eq (hinside : AgreeInside callers callers' kinds first second) (name : String)
    (keys : List Value) : first.read name keys = second.read name keys := by
  unfold State.read
  rw [hinside.lookup_eq name, hinside.heap_eq]

theorem declare (hinside : AgreeInside callers callers' kinds first second) (name : String)
    (value : Value) :
    AgreeInside callers callers' kinds (first.declare name value) (second.declare name value) := by
  obtain ⟨state, shared, rfl, hcall⟩ := hinside
  cases shared with
  | nil => simp at hcall
  | cons frame rest =>
      exact ⟨state, { frame with bindings := frame.bindings.insert name value } :: rest, rfl, hcall⟩

theorem store (hinside : AgreeInside callers callers' kinds first second) (name : String)
    (value : Value) :
    AgreeInside callers callers' kinds
      { first with scope := first.scope.store name value }
      { second with scope := second.scope.store name value } := by
  obtain ⟨state, shared, rfl, hcall⟩ := hinside
  simp only [Scope.store, State.withFrames, Frames.update?_append hcall]
  cases hupdate : Frames.update? name value shared with
  | none =>
      exact ⟨{ state with scope := { state.scope with
        globals := state.scope.globals.insert name value } }, shared, rfl, hcall⟩
  | some updated => exact ⟨state, updated, Frames.update?_kinds hupdate, hcall⟩

/-- Storing into a table depends on the heap alone, and changes the heap alone. -/
theorem setEntry (hinside : AgreeInside callers callers' kinds first second)
    (identity : TableId) (key value : Value) :
    Attempts (fun _ => False) (AgreeInside callers callers' kinds)
      (first.setEntry identity key value) (second.setEntry identity key value) := by
  obtain ⟨state, shared, hkinds, hcall⟩ := hinside
  unfold State.setEntry
  simp only [State.withFrames]
  split
  · next table _ =>
      exact .ok ⟨{ state with heap := state.heap.replace identity table }, shared, hkinds, hcall⟩
  · exact .error _

theorem assign (hinside : AgreeInside callers callers' kinds first second) (name : String)
    (keys : List Value) (value : Value) :
    Attempts (fun _ => False) (AgreeInside callers callers' kinds)
      (first.assign name keys value) (second.assign name keys value) := by
  unfold State.assign
  split
  · exact .ok (hinside.store name value)
  · rw [hinside.lookup_eq name, hinside.heap_eq]
    split
    · exact hinside.setEntry _ _ value
    · exact .error _

theorem takeLine (hinside : AgreeInside callers callers' kinds first second) :
    first.takeLine.1 = second.takeLine.1 ∧
      AgreeInside callers callers' kinds first.takeLine.2 second.takeLine.2 := by
  obtain ⟨state, shared, hkinds, hcall⟩ := hinside
  unfold State.takeLine
  simp only [State.withFrames]
  split
  · exact ⟨rfl, ⟨state, shared, hkinds, hcall⟩⟩
  · next line rest _ => exact ⟨rfl, ⟨{ state with input := rest }, shared, hkinds, hcall⟩⟩

/-- Another call is entered alike: the limit and the number of calls under way are the same. -/
theorem enterCall (hinside : AgreeInside callers callers' kinds first second)
    (function : Function) (arguments : List Value) :
    Attempts (fun _ => False) (AgreeInside callers callers' (.call function.name :: kinds))
      (first.enterCall function arguments) (second.enterCall function arguments) := by
  obtain ⟨state, shared, rfl, outer, hcall⟩ := hinside
  unfold State.enterCall Scope.enterCall
  by_cases hlimit : state.scope.callLimit ≤ state.scope.callDepth
  · simp only [State.withFrames, hlimit, if_true]
    exact .error _
  · simp only [State.withFrames, hlimit, if_false]
    exact .ok ⟨{ state with scope := { state.scope with callDepth := state.scope.callDepth + 1 } },
      ⟨.call function.name, Scope.bindParameters .empty function.parameters arguments⟩ :: shared,
      rfl, outer, List.mem_cons_of_mem _ hcall⟩

/-- The foremost frame is taken away; there was a call behind it, as there was before it came. -/
theorem leaveCall {function : String} {before before' : State}
    (hbefore : AgreeInside callers callers' kinds before before')
    (hinside : AgreeInside callers callers' (.call function :: kinds) first second) :
    AgreeInside callers callers' kinds first.leaveCall second.leaveCall := by
  obtain ⟨state, shared, hkinds, -⟩ := hinside
  obtain ⟨-, -, -, hcall⟩ := hbefore
  obtain ⟨frame, rest, rfl, -, hrest⟩ := List.map_eq_cons_iff.mp hkinds
  exact ⟨{ state with scope := { state.scope with callDepth := state.scope.callDepth - 1 } },
    rest, hrest, hcall⟩

theorem enterLoop (hinside : AgreeInside callers callers' kinds first second)
    (keyword : LoopKeyword) :
    AgreeInside callers callers' (.loop keyword :: kinds) (first.enterLoop keyword)
      (second.enterLoop keyword) := by
  obtain ⟨state, shared, rfl, outer, hcall⟩ := hinside
  exact ⟨state, ⟨.loop keyword, .empty⟩ :: shared, rfl, outer, List.mem_cons_of_mem _ hcall⟩

theorem leaveLoop {keyword : LoopKeyword} {before before' : State}
    (hbefore : AgreeInside callers callers' kinds before before')
    (hinside : AgreeInside callers callers' (.loop keyword :: kinds) first second) :
    AgreeInside callers callers' kinds first.leaveLoop second.leaveLoop := by
  obtain ⟨state, shared, hkinds, -⟩ := hinside
  obtain ⟨-, -, -, hcall⟩ := hbefore
  obtain ⟨frame, rest, rfl, -, hrest⟩ := List.map_eq_cons_iff.mp hkinds
  exact ⟨state, rest, hrest, hcall⟩

end AgreeInside

/-- Nothing inside a call can tell apart what lies behind its frame. -/
theorem isolation (callers callers' : List Frame) :
    Comparison (fun _ => False) (AgreeInside callers callers') where
  read := AgreeInside.read_eq
  function? := by
    rintro kinds first second ⟨state, shared, hkinds, hcall⟩ name
    rfl
  -- the address of a new table depends on the heap, and both sides have the same
  newTable hinside := by rw [hinside.heap_eq]
  allocate := by
    rintro kinds first second ⟨state, shared, hkinds, hcall⟩ table
    exact ⟨rfl, (state.allocate table).2, shared, hkinds, hcall⟩
  takeLine := AgreeInside.takeLine
  printLine := by
    rintro kinds first second ⟨state, shared, hkinds, hcall⟩ line
    exact ⟨rfl, (state.printLine line).2, shared, hkinds, hcall⟩
  declare := AgreeInside.declare
  define := by
    rintro kinds first second ⟨state, shared, hkinds, hcall⟩ function
    exact ⟨state.define function, shared, hkinds, hcall⟩
  assign := AgreeInside.assign
  enterCall := AgreeInside.enterCall
  leaveCall := AgreeInside.leaveCall
  enterLoop := AgreeInside.enterLoop
  leaveLoop := AgreeInside.leaveLoop

/-! ## Arguments -/

/-- Exactly as many values as there are parameters: surplus values are dropped, and missing ones
are nil. -/
def fitArguments (count : Nat) (arguments : List Value) : List Value :=
  arguments.take count ++ List.replicate (count - arguments.length) .nil

theorem fitArguments_succ (count : Nat) (arguments : List Value) :
    fitArguments (count + 1) arguments =
      arguments.headD .nil :: fitArguments count arguments.tail := by
  cases arguments with
  | nil => simp [fitArguments, List.replicate_succ]
  | cons first rest => simp [fitArguments]

/-- Parameters are bound to the fitted arguments. -/
theorem bindParameters_fitArguments (parameters : List String) (bindings : Bindings String Value)
    (arguments : List Value) :
    Scope.bindParameters bindings parameters (fitArguments parameters.length arguments) =
      Scope.bindParameters bindings parameters arguments := by
  induction parameters generalizing bindings arguments with
  | nil => rfl
  | cons parameter rest ih =>
      rw [List.length_cons, fitArguments_succ]
      simp only [Scope.bindParameters, List.headD_cons, List.tail_cons]
      exact ih _ _

theorem bindParameters_congr {parameters : List String} {arguments arguments' : List Value}
    (hfit : fitArguments parameters.length arguments = fitArguments parameters.length arguments')
    (bindings : Bindings String Value) :
    Scope.bindParameters bindings parameters arguments =
      Scope.bindParameters bindings parameters arguments' := by
  rw [← bindParameters_fitArguments, hfit, bindParameters_fitArguments]

/-! ## The result -/

/-- The states agree on everything but their frames. -/
structure AgreeApartFromFrames (first second : State) : Prop where
  globals : first.scope.globals = second.scope.globals
  functions : first.scope.functions = second.scope.functions
  callDepth : first.scope.callDepth = second.scope.callDepth
  callLimit : first.scope.callLimit = second.scope.callLimit
  heap : first.heap = second.heap
  input : first.input = second.input
  output : first.output = second.output

theorem AgreeApartFromFrames.eq_withFrames {first second : State}
    (hagree : AgreeApartFromFrames first second) :
    second = first.withFrames second.scope.frames := by
  obtain ⟨⟨globals, functions, frames, depth, limit⟩, heap, input, output⟩ := first
  obtain ⟨⟨globals', functions', frames', depth', limit'⟩, heap', input', output'⟩ := second
  obtain ⟨hglobals, hfunctions, hdepth, hlimit, hheap, hinput, houtput⟩ := hagree
  cases hglobals; cases hfunctions; cases hdepth; cases hlimit; cases hheap; cases hinput
  cases houtput
  rfl

/-- The call is entered alike, with nothing shared but its own frame. -/
theorem AgreeApartFromFrames.enterCall {first second : State}
    (hagree : AgreeApartFromFrames first second) (function : Function)
    {arguments arguments' : List Value}
    (hfit : fitArguments function.parameters.length arguments =
      fitArguments function.parameters.length arguments') :
    Attempts (fun _ => False)
      (AgreeInside first.scope.frames second.scope.frames [.call function.name])
      (first.enterCall function arguments) (second.enterCall function arguments') := by
  rw [hagree.eq_withFrames]
  unfold State.enterCall Scope.enterCall
  rw [bindParameters_congr hfit]
  -- the depth and the limit are the same on both sides, so the call is refused on both or on none
  by_cases hlimit : first.scope.callLimit ≤ first.scope.callDepth
  · simp only [State.withFrames, hlimit, if_true]
    exact .error _
  · simp only [State.withFrames, hlimit, if_false]
    exact .ok ⟨{ first with scope := { first.scope with callDepth := first.scope.callDepth + 1 } },
      [⟨.call function.name, Scope.bindParameters .empty function.parameters arguments'⟩], rfl,
      function.name, by simp⟩

/-- **A function does not see its caller.**  From two states that differ only in their frames, and
with arguments that are the same once fitted to the parameters, a call does the same: it returns
the same value, or fails in the same way, and the states after it agree on everything but their
frames, which on each side are the caller's own, as they were. -/
theorem call_isolated (fuel : Nat) (position : Position) (function : Function)
    {first second : State} {arguments arguments' : List Value}
    (hagree : AgreeApartFromFrames first second)
    (hfit : fitArguments function.parameters.length arguments =
      fitArguments function.parameters.length arguments') :
    Outcome.Alike (fun _ => False)
      (fun later later' => AgreeApartFromFrames later later' ∧
        later.scope.frames = first.scope.frames ∧ later'.scope.frames = second.scope.frames)
      (Eval.call fuel position function arguments first)
      (Eval.call fuel position function arguments' second) := by
  cases fuel with
  | zero => exact .outOfFuel
  | succ fuel =>
      rw [Eval.call, Eval.call]
      refine Action.call_alike position ?_ ⟨hagree, rfl, rfl⟩ (hagree.enterCall function hfit)
        ((isolation _ _).same [.call function.name] fuel |>.block function.body)
      -- one frame is shared where the body ends, that of the call; taken off, each side has its own
      -- frames
      rintro left right ⟨state, shared, hkinds, -⟩
      obtain ⟨frame, rest, rfl, -, hrest⟩ := List.map_eq_cons_iff.mp hkinds
      obtain rfl := List.map_eq_nil_iff.mp hrest
      exact ⟨⟨rfl, rfl, rfl, rfl, rfl, rfl, rfl⟩, rfl, rfl⟩

/-- A function that returns a variable of its caller's loop, as it hopes, and its parameter. -/
def Function.peeking : Function where
  name := "g"
  parameters := ["a"]
  body := .mk [] (some ⟨[.variable "i" [] .start, .variable "a" [] .start], .start⟩)
  position := .start

/-- Called inside a loop that binds `i` and with a surplus argument, it gives what it gives without
frames and without that argument: nil, and the argument. -/
theorem call_isolated_from_loop :
    (∃ later, Eval.call 9 .start .peeking [.integer 4, .integer 5] .insideLoop =
      .done (.list [.nil, .integer 4]) later) ∧
    Outcome.Alike (fun _ => False)
      (fun later later' => AgreeApartFromFrames later later' ∧
        later.scope.frames = State.insideLoop.scope.frames ∧ later'.scope.frames = [])
      (Eval.call 9 .start .peeking [.integer 4, .integer 5] .insideLoop)
      (Eval.call 9 .start .peeking [.integer 4] (State.insideLoop.withFrames [])) := by
  have hagree : AgreeApartFromFrames .insideLoop (State.insideLoop.withFrames []) :=
    ⟨rfl, rfl, rfl, rfl, rfl, rfl, rfl⟩
  have hfit : fitArguments 1 [.integer 4, .integer 5] = fitArguments 1 [.integer 4] := rfl
  exact ⟨⟨_, rfl⟩, call_isolated 9 .start .peeking hagree hfit⟩

end TableScript
