import TableScript.Proofs.Frames.Balance
import TableScript.Proofs.Run.Regular

/-!
# What holds at every moment of a run

The outcome of a run shows its last state only.  `Task.moments` lists all states that a run comes
through, in order: inside the frames of calls and loops too, on the way to a fault, and before and
after each frame is left.

An `Invariant` is kept by every single change of the state; of the two changes that take a frame
away it says so only where the frame is of the right kind.  That suffices: plans are regular and
runs are balanced, so a frame is left where it is the innermost one, and an invariant that holds at
the start of a run holds at all its moments (`Invariant.moments`).
-/

namespace TableScript

open TableScript.Action

variable {α β : Type}

/-! ## The moments of a run -/

/-- The states from an outcome on: after a value those of what is done next, and after a fault the
state that it leaves. -/
def Outcome.statesAfter (next : α → State → List State) : Outcome α → List State
  | .done value later => next value later
  | .failed _ later => [later]
  | .outOfFuel => []

/-- The states that a plan comes through when it is carried out, given those that the tasks it
requests come through. -/
def Plan.moments (run : {β : Type} → Task β → Action β)
    (during : {β : Type} → Task β → State → List State) : {α : Type} → Plan α → State → List State
  | _, .give _, state => [state]
  | _, .perform action next, state =>
    state :: (action state).statesAfter fun value => (next value).moments run during
  | _, .request task next, state =>
    during task state ++
      (run task state).statesAfter fun value => (next value).moments run during
  | _, .within inner leave next, state =>
    inner.moments run during state ++
      ((inner.carryOut run).finally_ leave state).statesAfter fun value =>
        (next value).moments run during

/-- The states that the work on a task comes through, from the state it begins in to the one it
ends in. -/
def Task.moments : Nat → {α : Type} → Task α → State → List State
  | 0, _, _, state => [state]
  | fuel + 1, _, task, state => task.plan.moments (run fuel) (Task.moments fuel) state

theorem Outcome.mem_statesAfter {action : Action α} {next : α → Action β}
    {states : α → State → List State} {state later : State}
    (hends : ((action >>= next) state).state? = some later)
    (hnext : ∀ value middle, (next value middle).state? = some later →
      later ∈ states value middle) : later ∈ (action state).statesAfter states := by
  rw [state?_bind] at hends
  cases hfirst : action state with
  | done value middle =>
      rw [hfirst] at hends
      exact hnext value middle hends
  | failed fault middle =>
      rw [hfirst] at hends
      cases hends
      exact List.mem_singleton_self _
  | outOfFuel =>
      rw [hfirst] at hends
      cases hends

/-- What holds of the state that an outcome leaves, and of all that is done next if it holds there,
holds of all states from the outcome on. -/
theorem Outcome.of_mem_statesAfter {holds : State → Prop} {outcome : Outcome α}
    {next : α → State → List State}
    (hleft : ∀ later, outcome.state? = some later → holds later)
    (hnext : ∀ value later, holds later → ∀ moment ∈ next value later, holds moment) :
    ∀ moment ∈ outcome.statesAfter next, holds moment := by
  intro moment hmoment
  cases outcome with
  | done value later => exact hnext value later (hleft later rfl) moment hmoment
  | failed fault later =>
      cases List.mem_singleton.mp hmoment
      exact hleft moment rfl
  | outOfFuel => cases hmoment

/-- A plan ends in one of its moments. -/
theorem Plan.state?_mem_moments {run : {β : Type} → Task β → Action β}
    {during : {β : Type} → Task β → State → List State} (plan : Plan α) {state later : State}
    (hends : (plan.carryOut run state).state? = some later) :
    later ∈ plan.moments run during state := by
  induction plan generalizing state with
  | give value =>
      cases hends
      exact List.mem_singleton_self _
  | perform action next ih =>
      exact List.mem_cons_of_mem _ (Outcome.mem_statesAfter hends fun value _ => ih value)
  | request task next ih =>
      exact List.mem_append_right _ (Outcome.mem_statesAfter hends fun value _ => ih value)
  | within inner leave next _ ih =>
      exact List.mem_append_right _ (Outcome.mem_statesAfter hends fun value _ => ih value)

/-- A run ends in one of its moments. -/
theorem Task.state?_mem_moments {fuel : Nat} (task : Task α) {state later : State}
    (hends : (task.run fuel state).state? = some later) : later ∈ task.moments fuel state := by
  cases fuel with
  | zero =>
      rw [run_zero] at hends
      cases hends
  | succ fuel =>
      rw [run_succ] at hends
      exact task.plan.state?_mem_moments hends

/-! ## Runs and plans keep a discipline -/

namespace RunLogic

variable (logic : RunLogic) (kinds : List FrameKind)

theorem executes_run (fuel : Nat) (task : Task α) : logic.Executes kinds (task.run fuel) := by
  have hholds := logic.holds fuel kinds
  cases task with
  | expression tree => exact logic.embed (hholds.expression tree)
  | expressions trees => exact logic.embed (hholds.expressions trees)
  | condition context guard => exact logic.embed (hholds.condition context guard)
  | tableFields index table fields => exact logic.embed (hholds.tableFields index table fields)
  | invoke invocation => exact logic.embed (hholds.invoke invocation)
  | call position function arguments =>
      exact logic.embed (hholds.call position function arguments)
  | bound kind source => exact logic.embed (hholds.bound kind source)
  | stepBound source => exact logic.embed (hholds.stepBound source)
  | block body => exact hholds.block body
  | statements body => exact hholds.statements body
  | statement tree => exact hholds.statement tree
  | branches options otherwise => exact hholds.branches options otherwise
  | whileLoop guard body => exact hholds.whileLoop guard body
  | repeatLoop body guard => exact hholds.repeatLoop body guard
  | forLoop position name ascending limit step body =>
      exact hholds.forLoop position name ascending limit step body

theorem executes_single {action : Action α} (haction : action.Single) :
    logic.Executes kinds action := by
  cases haction with
  | pure value => exact logic.embed (logic.pure value)
  | fail position cause => exact logic.embed (logic.fail position cause)
  | readVariable position name keys => exact logic.embed (logic.readVariable position name keys)
  | findFunction position name => exact logic.embed (logic.findFunction position name)
  | newTable => exact logic.embed logic.newTable
  | allocate table => exact logic.embed (logic.allocate table)
  | readLine position format => exact logic.embed (logic.readLine position format)
  | print position line => exact logic.embed (logic.print position line)
  | declare name value => exact logic.declare name value
  | assign position name keys value => exact logic.assign position name keys value
  | define function => exact logic.define function

end RunLogic

/-- A regular plan keeps what statements keep, if the runs of the tasks it requests do. -/
theorem Discipline.keeps_carryOut {overExpressions overStatements : State → State → Prop}
    (discipline : Discipline overExpressions overStatements)
    {run : {β : Type} → Task β → Action β}
    (hrun : ∀ {β : Type} (task : Task β), (run task).Keeps overStatements) {plan : Plan α}
    (hplan : plan.Regular) : (plan.carryOut run).Keeps overStatements := by
  have hsequence {α β : Type} {action : Action α} {next : α → Action β}
      (haction : action.Keeps overStatements) (hnext : ∀ value, (next value).Keeps overStatements) :
      (action >>= next).Keeps overStatements :=
    Keeps.bind discipline.statements_trans haction hnext
  induction hplan with
  | give value => exact discipline.logic.executes_single [] (.pure value)
  | perform haction _ ih => exact hsequence (discipline.logic.executes_single [] haction) ih
  | request task _ ih => exact hsequence (hrun task) ih
  -- a call evaluates: what happens inside is undone when its frame is left
  | @call _ β position function arguments inner _ _ _ ihInner ih =>
      have hcall : Keeps overExpressions (do
          .attempt position (·.enterCall function arguments)
          let value ← (inner.carryOut run).finally_ State.leaveCall
          pure (id value)) := discipline.keeps_call position function arguments ihInner
      simpa [Plan.carryOut] using hsequence (hcall.mono discipline.embed) ih
  | loop keyword _ _ ihInner ih =>
      have hloop := hsequence (discipline.keeps_inLoopFrame keyword ihInner) ih
      exact hloop

/-! ## Invariants -/

/-- A property of states that every single change of a run keeps.  A frame is taken away only by
what its kind asks for. -/
structure Invariant (holds : State → Prop) : Prop where
  allocate : ∀ state table, holds state → holds (state.allocate table).2
  takeLine : ∀ state, holds state → holds state.takeLine.2
  printLine : ∀ state line, holds state → holds (state.printLine line).2
  declare : ∀ state name value, holds state → holds (state.declare name value)
  assign : ∀ state name keys value later, state.assign name keys value = .ok later →
    holds state → holds later
  define : ∀ state function, holds state → holds (state.define function)
  enterCall : ∀ state function arguments entered,
    state.enterCall function arguments = .ok entered → holds state → holds entered
  leaveCall : ∀ state frame rest, state.scope.frames = frame :: rest → frame.isCall = true →
    holds state → holds state.leaveCall
  enterLoop : ∀ state keyword, holds state → holds (state.enterLoop keyword)
  leaveLoop : ∀ state frame rest, state.scope.frames = frame :: rest → frame.isCall = false →
    holds state → holds state.leaveLoop

namespace Invariant

variable {holds : State → Prop} (invariant : Invariant holds)

include invariant

theorem keeps_single {action : Action α} (haction : action.Single) :
    action.Keeps fun state later => holds state → holds later := by
  have hrefl : ∀ state, holds state → holds state := fun _ => id
  -- either the state stays as it is, or one of the changes is made that the invariant names
  cases haction with
  | pure value => exact keeps_of_unchanged hrefl (state?_pure value)
  | fail position cause => exact keeps_of_unchanged hrefl (state?_fail position cause)
  | readVariable position name keys =>
      exact keeps_of_unchanged hrefl (state?_readVariable position name keys)
  | findFunction position name =>
      exact keeps_of_unchanged hrefl (state?_findFunction position name)
  | newTable => exact keeps_of_unchanged hrefl fun _ => rfl
  | allocate table =>
      intro state later hends
      cases hends
      exact invariant.allocate state table
  | readLine position format =>
      intro state later hends
      rw [state?_readLine] at hends
      cases hends
      exact invariant.takeLine state
  | print position line =>
      intro state later hends
      rw [state?_print] at hends
      cases hends
      exact invariant.printLine state line
  | declare name value => exact keeps_change fun state => invariant.declare state name value
  | assign position name keys value =>
      refine keeps_attempt hrefl position fun state later hassign => ?_
      exact invariant.assign state name keys value later hassign
  | define function => exact keeps_change fun state => invariant.define state function

/-- Where the block of a call has ended, the frame of the call may be left. -/
theorem leaveCall_of_localChange {state entered later : State} {function : Function}
    {arguments : List Value} (hentered : state.enterCall function arguments = .ok entered)
    (hchange : LocalChange entered later) (hlater : holds later) : holds later.leaveCall := by
  obtain ⟨frame, hkind, hframes⟩ := frames_at_leaveCall hentered hchange
  exact invariant.leaveCall later frame _ hframes (by simp [Frame.isCall, hkind]) hlater

/-- Where something that ran in the frame of a loop has ended, the frame may be left. -/
theorem leaveLoop_of_localChange {state later : State} {keyword : LoopKeyword}
    (hchange : LocalChange (state.enterLoop keyword) later) (hlater : holds later) :
    holds later.leaveLoop := by
  obtain ⟨frame, rest, hkind, hframes, -⟩ := frames_at_leaveLoop hchange
  exact invariant.leaveLoop later frame rest hframes (by simp [Frame.isCall, hkind]) hlater

section Plans

variable {run : {β : Type} → Task β → Action β} {during : {β : Type} → Task β → State → List State}
  (hbalanced : ∀ {β : Type} (task : Task β), (run task).Keeps LocalChange)
  (hlast : ∀ {β : Type} (task : Task β) (state later : State),
    (run task state).state? = some later → later ∈ during task state)
  (hduring : ∀ {β : Type} (task : Task β) (state : State), holds state →
    ∀ moment ∈ during task state, holds moment)

include hbalanced hlast hduring

/-- An invariant holds at all moments of a regular plan if it does in the tasks requested. -/
theorem plan_moments {plan : Plan α} (hplan : plan.Regular) {state : State} (hstate : holds state) :
    ∀ moment ∈ plan.moments run during state, holds moment := by
  -- what is inside a frame and what follows when the frame is left
  have hwithin {α β : Type} {inner : Plan β} {leave : State → State} {next : β → Plan α}
      {entered : State} (hinner : ∀ moment ∈ inner.moments run during entered, holds moment)
      (hleave : ∀ later, (inner.carryOut run entered).state? = some later → holds later →
        holds (leave later))
      (hnext : ∀ value (later : State), holds later →
        ∀ moment ∈ (next value).moments run during later, holds moment) :
      ∀ moment ∈ (Plan.within inner leave next).moments run during entered, holds moment := by
    have hleft : ∀ later, ((inner.carryOut run).finally_ leave entered).state? = some later →
        holds later := by
      intro later hends
      rw [state?_finally] at hends
      obtain ⟨middle, hmiddle, rfl⟩ := Option.map_eq_some_iff.mp hends
      exact hleave middle hmiddle (hinner middle (inner.state?_mem_moments hmiddle))
    intro moment hmoment
    rcases List.mem_append.mp hmoment with hmoment | hmoment
    · exact hinner moment hmoment
    · exact Outcome.of_mem_statesAfter hleft hnext moment hmoment
  -- regular plans only: a frame is left where it was entered, after a body that kept it innermost
  induction hplan generalizing state with
  | give value =>
      intro moment hmoment
      cases List.mem_singleton.mp hmoment
      exact hstate
  | @perform _ _ action next haction _ ih =>
      have hleft : ∀ later, (action state).state? = some later → holds later :=
        fun later hends => invariant.keeps_single haction state later hends hstate
      intro moment hmoment
      rcases List.mem_cons.mp hmoment with rfl | hmoment
      · exact hstate
      · exact Outcome.of_mem_statesAfter hleft (fun value later => ih value) moment hmoment
  | request task _ ih =>
      have hleft : ∀ later, (run task state).state? = some later → holds later :=
        fun later hends => hduring task state hstate later (hlast task state later hends)
      intro moment hmoment
      rcases List.mem_append.mp hmoment with hmoment | hmoment
      · exact hduring task state hstate moment hmoment
      · exact Outcome.of_mem_statesAfter hleft (fun value later => ih value) moment hmoment
  | call position function arguments hinner _ ihInner ih =>
      intro moment hmoment
      rcases List.mem_cons.mp hmoment with rfl | hmoment
      · exact hstate
      · unfold attempt at hmoment
        -- a call that is refused leaves the state, and there are no moments inside it
        cases hentered : state.enterCall function arguments with
        | error cause =>
            simp only [hentered] at hmoment
            cases List.mem_singleton.mp hmoment
            exact hstate
        | ok entered =>
            simp only [hentered] at hmoment
            have hstart : holds entered :=
              invariant.enterCall state function arguments entered hentered hstate
            have hleave := fun later hends =>
              invariant.leaveCall_of_localChange hentered
                (balance.keeps_carryOut hbalanced hinner entered later hends)
            exact hwithin (ihInner hstart) hleave (fun value later => ih value) moment hmoment
  | loop keyword hinner _ ihInner ih =>
      intro moment hmoment
      rcases List.mem_cons.mp hmoment with rfl | hmoment
      · exact hstate
      · have hstart : holds (state.enterLoop keyword) := invariant.enterLoop state keyword hstate
        have hleave := fun later hends =>
          invariant.leaveLoop_of_localChange
            (balance.keeps_carryOut hbalanced hinner (state.enterLoop keyword) later hends)
        exact hwithin (ihInner hstart) hleave (fun value later => ih value) moment hmoment

end Plans

/-- **An invariant that holds at the start of a run holds at all its moments.**  The induction is on
the fuel. -/
theorem moments (fuel : Nat) (task : Task α) {state : State} (hstate : holds state) :
    ∀ moment ∈ task.moments fuel state, holds moment := by
  induction fuel generalizing α state with
  | zero =>
      intro moment hmoment
      cases List.mem_singleton.mp hmoment
      exact hstate
  | succ fuel ih =>
      -- the runs of the parts are balanced, and end in one of their own moments
      refine invariant.plan_moments ?_ ?_ ?_ task.plan_regular hstate
      · intro β part
        exact balance.logic.executes_run [] fuel part
      · intro β part inner later
        exact part.state?_mem_moments
      · intro β part inner hinner
        exact ih part hinner

end Invariant

/-! ## Sessions -/

/-- A task that is given by a tree alone. -/
inductive Task.OfTree : {α : Type} → Task α → Prop
  | block (body : Block) : OfTree (.block body)
  | statement (tree : Statement) : OfTree (.statement tree)
  | expression (tree : Expression) : OfTree (.expression tree)

/-- What holds at the start of a session, and at all moments of a run that begins where it holds,
holds after every step of the session. -/
theorem Session.Reaches.of_moments {holds : State → Prop} {host : Host} {callLimit : Nat}
    {input : List InputLine} {output : Output} {state : State}
    (hreached : Session.Reaches host callLimit input output state)
    (hstart : holds (.start host callLimit input output))
    (hrestart : ∀ state, holds state → holds state.restart)
    (hconsole : ∀ (state : State) (input : List InputLine) (output : Output), holds state →
      holds { state with input := input, output := output })
    (hrun : ∀ {α : Type} (fuel : Nat) (task : Task α) (state : State), task.OfTree → holds state →
      ∀ moment ∈ task.moments fuel state, holds moment) : holds state := by
  have hlast {α : Type} {fuel : Nat} {task : Task α} {before later : State} (htree : task.OfTree)
      (hbefore : holds before) (hends : (task.run fuel before).state? = some later) : holds later :=
    hrun fuel task before htree hbefore later (task.state?_mem_moments hends)
  induction hreached with
  | start => exact hstart
  | @step before later _ hstep ih =>
      cases hstep with
      | @execute fuel program _ _ hends =>
          unfold TableScript.execute at hends
          rw [Action.state?_bind_pure] at hends
          exact hlast (.block program) (hrestart before ih) hends
      | @block fuel body _ _ hends => exact hlast (.block body) ih hends
      | @statement fuel tree _ _ hends => exact hlast (.statement tree) ih hends
      | @expression fuel tree _ _ hends => exact hlast (.expression tree) ih hends
      | supply line => exact hconsole before _ before.output ih
      | clear => exact hconsole before before.input _ ih

end TableScript
