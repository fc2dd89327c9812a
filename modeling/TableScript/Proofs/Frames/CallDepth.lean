import TableScript.Proofs.Frames.Moments
import TableScript.Proofs.Run.Fuel

/-!
# The count of calls under way

A scope counts the calls that are under way beside the frames themselves: the count goes up when the
frame of a call is entered and down when one is left, and it is compared with the limit.  Nothing in
the definition of a scope ties the count to the frames.

`Scope.Reachable` are the scopes that come about from the one in which a program starts when the
frame that is left is always of the right kind.  In all of them the count is right
(`Scope.Reachable.accounted`), and they are all that a run comes through
(`reachable_invariant`), faults included.
-/

namespace TableScript

/-! ## Scopes that can be reached -/

namespace Scope

/-- One change of a scope.  The frame of a call is left where the innermost frame belongs to a call
or there is none, and the frame of a loop where it belongs to a loop or there is none. -/
inductive Step : Scope → Scope → Prop
  | declare (scope : Scope) (name : String) (value : Value) :
      Step scope (scope.declare name value)
  | assign {state later : State} {name : String} {keys : List Value} {value : Value}
      (hassign : state.assign name keys value = .ok later) : Step state.scope later.scope
  | enterCall {scope entered : Scope} {function : Function} {arguments : List Value}
      (hentered : scope.enterCall function arguments = .ok entered) : Step scope entered
  | leaveCall {scope : Scope} (htop : ∀ frame ∈ scope.frames.head?, frame.isCall = true) :
      Step scope scope.leaveCall
  | enterLoop (scope : Scope) (keyword : LoopKeyword) : Step scope (scope.enterLoop keyword)
  | leaveLoop {scope : Scope} (htop : ∀ frame ∈ scope.frames.head?, frame.isCall = false) :
      Step scope scope.leaveLoop
  | define (scope : Scope) (function : Function) : Step scope (scope.define function)

/-- The scopes that come about by such changes from the one in which a program starts. -/
inductive Reachable (callLimit : Nat) : Scope → Prop
  | start : Reachable callLimit (.start callLimit)
  | step {scope later : Scope} (hreached : Reachable callLimit scope)
      (hstep : Step scope later) : Reachable callLimit later

/-! ## The count -/

/-- The number of calls under way is the number of their frames, and within the limit. -/
structure Accounted (callLimit : Nat) (scope : Scope) : Prop where
  callLimit_eq : scope.callLimit = callLimit
  callDepth_eq : scope.callDepth = scope.frames.countP Frame.isCall
  callDepth_le : scope.callDepth ≤ callLimit

variable {callLimit : Nat} {scope later : Scope}

/-- How many frames belong to calls is a matter of their kinds. -/
theorem countP_isCall_of_kinds {first second : List Frame}
    (hkinds : second.map Frame.kind = first.map Frame.kind) :
    second.countP Frame.isCall = first.countP Frame.isCall := by
  induction first generalizing second with
  | nil =>
      rw [List.map_nil, List.map_eq_nil_iff] at hkinds
      rw [hkinds]
  | cons frame rest ih =>
      obtain ⟨frame', rest', rfl, hkind, hrest⟩ := List.map_eq_cons_iff.mp hkinds
      rw [List.countP_cons, List.countP_cons, ih hrest, Frames.isCall_eq_of_kind_eq hkind]

/-- A local change moves no frame, so it leaves the count right if it leaves the limit alone. -/
theorem Accounted.of_localChange {state after : State} (hcount : Accounted callLimit state.scope)
    (hchange : LocalChange state after)
    (hlimit : after.scope.callLimit = state.scope.callLimit) :
    Accounted callLimit after.scope where
  callLimit_eq := hlimit.trans hcount.callLimit_eq
  callDepth_eq := by
    rw [hchange.callDepth, hcount.callDepth_eq, countP_isCall_of_kinds hchange.kinds]
  callDepth_le := by
    rw [hchange.callDepth]
    exact hcount.callDepth_le

theorem callLimit_declare (name : String) (value : Value) :
    (scope.declare name value).callLimit = scope.callLimit := by
  rcases scope.declare_cases name value with ⟨-, hdeclared⟩ | ⟨_, _, -, hdeclared⟩
  · rw [hdeclared]
  · rw [hdeclared]

theorem callLimit_assign {state after : State} {name : String} {keys : List Value} {value : Value}
    (hassign : state.assign name keys value = .ok after) :
    after.scope.callLimit = state.scope.callLimit := by
  rcases State.assign_cases hassign with ⟨-, rfl⟩ | ⟨_, _, _, -, -, -, rfl⟩
  · rcases state.scope.store_cases name value with ⟨-, hstored⟩ | ⟨_, -, hstored⟩
    · rw [hstored]
    · rw [hstored]
  · rfl

theorem callLimit_leaveCall : scope.leaveCall.callLimit = scope.callLimit := by
  unfold leaveCall
  split <;> rfl

/-- A call that is entered counts, and there was room for it. -/
theorem count_of_enterCall {function : Function} {arguments : List Value}
    (hentered : scope.enterCall function arguments = .ok later) :
    later.callLimit = scope.callLimit ∧ later.callDepth = scope.callDepth + 1 ∧
      scope.callDepth < scope.callLimit := by
  obtain ⟨hroom, rfl⟩ := enterCall_cases hentered
  exact ⟨rfl, rfl, hroom⟩

/-- A call is entered exactly if there is room for it. -/
theorem enterCall_eq_error_iff (function : Function) (arguments : List Value) :
    (∃ cause, scope.enterCall function arguments = .error cause) ↔
      scope.callLimit ≤ scope.callDepth := by
  unfold enterCall
  split
  · next hfull => simp [hfull]
  · next hroom => simp [hroom]

theorem Accounted.enterCall (hcount : Accounted callLimit scope) {function : Function}
    {arguments : List Value} (hentered : scope.enterCall function arguments = .ok later) :
    Accounted callLimit later := by
  obtain ⟨hlimit, hdepth, hroom⟩ := count_of_enterCall hentered
  refine ⟨hlimit.trans hcount.callLimit_eq, ?_, ?_⟩
  · have hframe : later.frames.countP Frame.isCall = scope.frames.countP Frame.isCall + 1 := by
      obtain ⟨-, rfl⟩ := enterCall_cases hentered
      exact List.countP_cons_of_pos rfl
    rw [hdepth, hframe, hcount.callDepth_eq]
  · have hcallLimit := hcount.callLimit_eq
    omega

/-- The frame that is left is that of a call, so count and frames go down together. -/
theorem Accounted.leaveCall (hcount : Accounted callLimit scope)
    (htop : ∀ frame ∈ scope.frames.head?, frame.isCall = true) :
    Accounted callLimit scope.leaveCall := by
  have hdepth := hcount.callDepth_eq
  have hle := hcount.callDepth_le
  unfold Scope.leaveCall
  split
  · exact hcount
  · next frame rest hframes =>
      have hcall : frame.isCall = true := htop frame (by rw [hframes]; rfl)
      rw [hframes, List.countP_cons_of_pos hcall] at hdepth
      refine ⟨hcount.callLimit_eq, ?_, ?_⟩
      · change scope.callDepth - 1 = rest.countP Frame.isCall
        omega
      · change scope.callDepth - 1 ≤ callLimit
        omega

theorem Accounted.leaveLoop (hcount : Accounted callLimit scope)
    (htop : ∀ frame ∈ scope.frames.head?, frame.isCall = false) :
    Accounted callLimit scope.leaveLoop := by
  refine ⟨hcount.callLimit_eq, ?_, hcount.callDepth_le⟩
  have hdepth := hcount.callDepth_eq
  unfold Scope.leaveLoop
  cases hframes : scope.frames with
  | nil => rwa [hframes] at hdepth
  | cons frame rest =>
      have hloop : frame.isCall = false := htop frame (by rw [hframes]; rfl)
      rw [hframes, List.countP_cons_of_neg (by simp [hloop])] at hdepth
      exact hdepth

/-- **Every change keeps the count right.** -/
theorem Step.accounted (hstep : Step scope later) (hcount : Accounted callLimit scope) :
    Accounted callLimit later := by
  cases hstep with
  | declare _ name value =>
      -- what else there is in a state is not looked at
      let state : State := ⟨scope, .start .plain, [], .silent⟩
      have hchange : LocalChange state (state.declare name value) :=
        localChange_declare state name value
      exact hcount.of_localChange hchange (callLimit_declare name value)
  | assign hassign =>
      exact hcount.of_localChange (localChange_assign hassign) (callLimit_assign hassign)
  | enterCall hentered => exact hcount.enterCall hentered
  | leaveCall htop => exact hcount.leaveCall htop
  | enterLoop _ keyword => exact ⟨hcount.callLimit_eq, hcount.callDepth_eq, hcount.callDepth_le⟩
  | leaveLoop htop => exact hcount.leaveLoop htop
  | define _ function => exact ⟨hcount.callLimit_eq, hcount.callDepth_eq, hcount.callDepth_le⟩

/-- **In every scope that can be reached the count is right.** -/
theorem Reachable.accounted (hreached : Reachable callLimit scope) :
    Accounted callLimit scope := by
  induction hreached with
  | start => exact ⟨rfl, rfl, Nat.zero_le _⟩
  | step _ hstep ih => exact hstep.accounted ih

end Scope

/-! ## Runs -/

/-- Of a state only the scope is looked at and changed when a call is entered. -/
theorem State.scope_enterCall {state entered : State} {function : Function} {arguments : List Value}
    (hentered : state.enterCall function arguments = .ok entered) :
    state.scope.enterCall function arguments = .ok entered.scope := by
  obtain ⟨scope, hscope, rfl⟩ := State.enterCall_cases hentered
  exact hscope

/-- To be reachable is an invariant of runs, since they leave only frames of the right kind. -/
theorem reachable_invariant (callLimit : Nat) :
    Invariant fun state => Scope.Reachable callLimit state.scope where
  allocate _ _ hreached := hreached
  takeLine state hreached := by
    unfold State.takeLine
    split <;> exact hreached
  printLine _ _ hreached := hreached
  declare _ name value hreached := hreached.step (.declare _ name value)
  assign _ _ _ _ _ hassign hreached := hreached.step (.assign hassign)
  define _ function hreached := hreached.step (.define _ function)
  enterCall _ _ _ _ hentered hreached := hreached.step (.enterCall (State.scope_enterCall hentered))
  leaveCall state frame rest hframes hcall hreached :=
    hreached.step (.leaveCall (by simp [hframes, hcall]))
  enterLoop _ keyword hreached := hreached.step (.enterLoop _ keyword)
  leaveLoop state frame rest hframes hloop hreached :=
    hreached.step (.leaveLoop (by simp [hframes, hloop]))

/-- A call that cannot be entered fails and leaves the whole state as it is. -/
theorem Eval.call_of_enterCall_error {state : State} {function : Function} {arguments : List Value}
    {cause : Cause} (hrefused : state.scope.enterCall function arguments = .error cause)
    (fuel : Nat) (position : Position) :
    Eval.call (fuel + 1) position function arguments state = .failed ⟨cause, position⟩ state := by
  have hattempt : Action.attempt position (·.enterCall function arguments) state =
      .failed ⟨cause, position⟩ state := by
    simp only [Action.attempt, State.enterCall, hrefused]
    rfl
  rw [Eval.call]
  exact Action.bind_of_failed hattempt

/-- **The count of calls is right at every moment.**  In every scope that can be reached the number
of calls under way is the number of frames that belong to calls, and within the limit; a call is
refused exactly if the limit is reached, and then fails without any change of the state.  All scopes
that a run comes through can be reached: those of any work that begins in one, and those of every
program. -/
theorem callDepth_accounted (callLimit : Nat) :
    (∀ scope, Scope.Reachable callLimit scope →
      scope.callLimit = callLimit ∧
      scope.callDepth = scope.frames.countP Frame.isCall ∧
      scope.callDepth ≤ callLimit ∧
      ∀ function arguments,
        (∃ cause, scope.enterCall function arguments = .error cause) ↔
          scope.callDepth = callLimit) ∧
    (∀ (state : State) (function : Function) (arguments : List Value) (cause : Cause),
      state.scope.enterCall function arguments = .error cause →
      ∀ fuel position, Eval.call (fuel + 1) position function arguments state =
        .failed ⟨cause, position⟩ state) ∧
    (∀ (state : State), Scope.Reachable callLimit state.scope →
      ∀ (fuel : Nat) {α : Type} (task : Task α), ∀ moment ∈ task.moments fuel state,
        Scope.Reachable callLimit moment.scope) ∧
    ∀ (fuel : Nat) (program : Block) (state : State), state.scope.callLimit = callLimit →
      (∀ moment ∈ (Task.block program).moments fuel state.restart,
        Scope.Reachable callLimit moment.scope) ∧
      ∀ later, (execute fuel program state).state? = some later →
        later ∈ (Task.block program).moments fuel state.restart := by
  -- to be reachable is an invariant of single changes, and so holds at all moments
  have hinvariant := reachable_invariant callLimit
  refine ⟨?_, ?_, ?_, ?_⟩
  · intro scope hreached
    -- the depth is at most the limit, so a refusal means that it is the limit
    obtain ⟨hlimit, hdepth, hle⟩ := hreached.accounted
    refine ⟨hlimit, hdepth, hle, fun function arguments => ?_⟩
    rw [Scope.enterCall_eq_error_iff, hlimit]
    omega
  · intro state function arguments cause hrefused fuel position
    exact Eval.call_of_enterCall_error hrefused fuel position
  · intro state hreached fuel α task
    exact hinvariant.moments fuel task hreached
  · -- a program starts in the first scope of all that can be reached
    rintro fuel program state rfl
    refine ⟨hinvariant.moments fuel (.block program) .start, fun later hends => ?_⟩
    unfold execute at hends
    rw [Action.state?_bind_pure] at hends
    exact (Task.block program).state?_mem_moments hends

/-- A function that calls itself from inside a loop. -/
def Function.endless : Function where
  name := "f"
  parameters := []
  body := .mk [.do_ (.mk [.invoke (.call "f" [] .start)] none) .start] none
  position := .start

/-- The state inside the loop of the only call that a limit of one admits. -/
def State.insideEndless : State :=
  let scope : Scope := (Scope.start 1).define .endless
  let called : Scope := { scope with frames := [⟨.call "f", .empty⟩], callDepth := 1 }
  ⟨called.enterLoop .do_, .start .plain, [], .silent⟩

/-- That state is reached by a definition, a call and a loop.  Of its two frames one counts, the
next call is refused, and what the run goes on to can be reached as well. -/
theorem callDepth_accounted_insideEndless :
    Scope.Reachable 1 State.insideEndless.scope ∧
    State.insideEndless.scope.callDepth =
      State.insideEndless.scope.frames.countP Frame.isCall ∧
    (∃ cause, State.insideEndless.scope.enterCall .endless [] = .error cause) ∧
    ∀ moment ∈ (Task.block Function.endless.body).moments 9 .insideEndless,
      Scope.Reachable 1 moment.scope := by
  have hreached : Scope.Reachable 1 State.insideEndless.scope := by
    have hdefined : Scope.Reachable 1 ((Scope.start 1).define .endless) :=
      Scope.Reachable.start.step (.define _ .endless)
    have hentered : ((Scope.start 1).define .endless).enterCall .endless [] = .ok _ := rfl
    exact (hdefined.step (.enterCall hentered)).step (.enterLoop _ .do_)
  obtain ⟨hscopes, -, hruns, -⟩ := callDepth_accounted 1
  obtain ⟨-, hdepth, -, hrefused⟩ := hscopes _ hreached
  exact ⟨hreached, hdepth, (hrefused .endless []).mpr rfl, hruns _ hreached 9 _⟩

end TableScript
