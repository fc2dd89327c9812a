import TableScript.Proofs.Run.Comparison
import TableScript.Proofs.Run.Reshape

/-!
# A higher call limit changes nothing but where recursion fails

The number of calls that may be under way is looked at when a call is entered, and nowhere else.  So
two runs of one program under two limits are in lockstep as long as the lower one is not hit, and a
run in which it is hit fails there for good: no condition, argument or loop takes a fault away.

`DifferInLimit` relates the states of the two runs, which are the same but for the limit.  That no
read and no change can tell them apart is because setting the limit commutes with all of them, as a
case of `State.reshape`; the one exception, `enterCall`, is excused where the lower limit is hit.
-/

namespace TableScript

/-- The state with another call limit. -/
def State.withCallLimit (state : State) (limit : Nat) : State :=
  { state with scope := { state.scope with callLimit := limit } }

theorem State.withCallLimit_eq (state : State) (limit : Nat) :
    state.withCallLimit limit = state.reshape id fun _ => limit := rfl

/-! ## The comparison -/

/-- The states are one state with two call limits. -/
inductive DifferInLimit (lower larger : Nat) : State → State → Prop
  | intro (state : State) :
      DifferInLimit lower larger (state.withCallLimit lower) (state.withCallLimit larger)

namespace DifferInLimit

variable {lower larger : Nat} {first second : State}

theorem declare (hdiffer : DifferInLimit lower larger first second) (name : String)
    (value : Value) : DifferInLimit lower larger (first.declare name value)
      (second.declare name value) := by
  obtain ⟨state⟩ := hdiffer
  simp only [State.withCallLimit_eq, State.reshape_declare]
  exact ⟨state.declare name value⟩

theorem assign (hdiffer : DifferInLimit lower larger first second) (name : String)
    (keys : List Value) (value : Value) :
    Attempts (fun cause => cause.kind = .recursion) (DifferInLimit lower larger)
      (first.assign name keys value) (second.assign name keys value) := by
  obtain ⟨state⟩ := hdiffer
  simp only [State.withCallLimit_eq, State.reshape_assign]
  cases state.assign name keys value with
  | ok later => exact .ok ⟨later⟩
  | error cause => exact .error cause

theorem takeLine (hdiffer : DifferInLimit lower larger first second) :
    first.takeLine.1 = second.takeLine.1 ∧
      DifferInLimit lower larger first.takeLine.2 second.takeLine.2 := by
  obtain ⟨state⟩ := hdiffer
  rw [State.withCallLimit_eq, State.withCallLimit_eq, State.reshape_takeLine,
    State.reshape_takeLine]
  exact ⟨rfl, ⟨state.takeLine.2⟩⟩

theorem leaveCall (hdiffer : DifferInLimit lower larger first second) :
    DifferInLimit lower larger first.leaveCall second.leaveCall := by
  obtain ⟨state⟩ := hdiffer
  simp only [State.withCallLimit_eq, State.reshape_leaveCall]
  exact ⟨state.leaveCall⟩

/-- The only place where the limit is looked at.  Below the lower limit there is room under both. -/
theorem enterCall (hle : lower ≤ larger) (hdiffer : DifferInLimit lower larger first second)
    (function : Function) (arguments : List Value) :
    Attempts (fun cause => cause.kind = .recursion) (DifferInLimit lower larger)
      (first.enterCall function arguments) (second.enterCall function arguments) := by
  obtain ⟨state⟩ := hdiffer
  unfold State.enterCall Scope.enterCall
  by_cases hroom : lower ≤ state.scope.callDepth
  · simp only [State.withCallLimit, hroom, if_true]
    refine .excused ?_ _
    rfl
  · have hmore : ¬ larger ≤ state.scope.callDepth := by omega
    simp only [State.withCallLimit, hroom, hmore, if_false]
    exact .ok ⟨{ state with scope := { state.scope with
      frames := ⟨.call function.name,
        Scope.bindParameters .empty function.parameters arguments⟩ :: state.scope.frames
      callDepth := state.scope.callDepth + 1 } }⟩

end DifferInLimit

/-- Under a higher limit a run does the same, unless it fails because the lower one is hit. -/
theorem limitComparison {lower larger : Nat} (hle : lower ≤ larger) :
    Comparison (fun cause => cause.kind = .recursion) (fun _ => DifferInLimit lower larger) where
  read := by
    rintro _ _ _ ⟨state⟩ name keys
    rfl
  function? := by
    rintro _ _ _ ⟨state⟩ name
    rfl
  newTable := by
    rintro _ _ _ ⟨state⟩
    rfl
  allocate := by
    rintro _ _ _ ⟨state⟩ table
    exact ⟨rfl, ⟨(state.allocate table).2⟩⟩
  takeLine := DifferInLimit.takeLine
  printLine := by
    rintro _ _ _ ⟨state⟩ line
    exact ⟨rfl, ⟨(state.printLine line).2⟩⟩
  declare := DifferInLimit.declare
  define := by
    rintro _ _ _ ⟨state⟩ function
    exact ⟨state.define function⟩
  assign := DifferInLimit.assign
  -- the only step that looks at the limit: it may be refused under the lower one alone
  enterCall := DifferInLimit.enterCall hle
  leaveCall _ := DifferInLimit.leaveCall
  enterLoop := by
    rintro _ _ _ ⟨state⟩ keyword
    exact ⟨state.enterLoop keyword⟩
  leaveLoop := by
    rintro _ _ _ _ _ _ _ ⟨state⟩
    exact ⟨state.leaveLoop⟩

/-! ## The result -/

/-- The two runs of a program end alike. -/
theorem execute_alike (fuel : Nat) (program : Block) (state : State) {limit : Nat}
    (hle : state.scope.callLimit ≤ limit) :
    Outcome.Alike (fun cause => cause.kind = .recursion)
      (DifferInLimit state.scope.callLimit limit)
      (execute fuel program state) (execute fuel program (state.withCallLimit limit)) := by
  have hblock := ((limitComparison hle).same [] fuel).block program
  refine Action.bind_alike (hblock _ _ ⟨state.restart⟩) ?_
  intro flow left right hstates
  exact .done flow.result hstates

/-- **A program that does not hit its call limit does the same under every higher one.**  It returns
the same value, or fails at the same place for the same cause, and the states afterwards are the
same but for the limit: variables, functions, tables, the input left and the output. -/
theorem execute_callLimit_mono (fuel : Nat) (program : Block) (state : State) {limit : Nat}
    (hle : state.scope.callLimit ≤ limit) :
    (∀ value later, execute fuel program state = .done value later →
      execute fuel program (state.withCallLimit limit) =
        .done value (later.withCallLimit limit)) ∧
    ∀ fault later, execute fuel program state = .failed fault later →
      fault.cause.kind ≠ .recursion →
      execute fuel program (state.withCallLimit limit) =
        .failed fault (later.withCallLimit limit) := by
  have halike := execute_alike fuel program state hle
  constructor
  · intro value later hends
    rw [hends] at halike
    generalize execute fuel program (state.withCallLimit limit) = other at halike
    cases halike with
    | done _ hstates =>
        obtain ⟨common⟩ := hstates
        rfl
  · intro fault later hends hcause
    rw [hends] at halike
    generalize execute fuel program (state.withCallLimit limit) = other at halike
    cases halike with
    | failed _ hstates =>
        obtain ⟨common⟩ := hstates
        rfl
    -- the lower limit was hit in the first run, which is what the hypothesis excludes
    | excused hexcused _ _ => exact absurd hexcused hcause

/-- Two functions, the first of which calls the second one and stores what it returns; the second
one fails if its parameter is nil. -/
def nestedCalls : Block :=
  .mk [
    .define "inner" ["n"]
      (.mk [] (some ⟨[.unary .negate (.variable "n" [] .start) .start], .start⟩))
      .start,
    .define "outer" ["n"] (.mk [.assign "seen" []
      (.invoke (.call "inner" [.variable "n" [] .start] .start)) .start] none) .start,
    .invoke (.call "outer" [.number .integer "4" .start] .start),
    .invoke (.call "outer" [] .start)] none

/-- Two calls inside each other fit under a limit of two.  The fault that ends the program is no
matter of the limit, so it is the same under a limit of nine, after the same assignment. -/
theorem execute_callLimit_mono_nestedCalls : ∃ fault later,
    execute 20 nestedCalls (.start .plain 2 [] .silent) = .failed fault later ∧
    fault.cause.kind ≠ .recursion ∧
    later.scope.globals.find? "seen" = some (.integer (-4)) ∧
    execute 20 nestedCalls (.start .plain 9 [] .silent) =
      .failed fault (later.withCallLimit 9) := by
  refine ⟨_, _, rfl, by decide, rfl, ?_⟩
  have hle : (State.start .plain 2 [] .silent).scope.callLimit ≤ 9 := by decide
  exact (execute_callLimit_mono 20 nestedCalls _ hle).2 _ _ rfl (by decide)

end TableScript
