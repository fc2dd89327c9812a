import TableScript.Proofs.Frames.Moments
import TableScript.Proofs.Run.HeapGrowth

/-!
# Standards that a whole run meets

A contract speaks of tasks that end with a value.  A `Standard` speaks of all that a run deals with:
it says which states, which tasks, which results of tasks and which faults are as they should be.
What it says of a task or of a result may depend on the heap at the time, since a value can be the
identity of a table.  It does not depend on the rest of the state, so that a plan can be checked
step by step (`Plan.Meets`): behind a request it goes on in any heap that has what there was before.

A standard is *sound* if the plan of every task that meets it does.  Then everything in a run meets
it: what the run ends with, be it a value or a fault (`Standard.Sound.run_meets`), every state that
it comes through (`Standard.Sound.moments`), and every task that it works on
(`Standard.Sound.throughout`).
-/

namespace TableScript

variable {α β : Type}

/-- What is as it should be in a run. -/
structure Standard where
  OfState : State → Prop
  /-- Of a task, when the work on it begins in a heap. -/
  OfTask : {α : Type} → Task α → Heap → Prop
  /-- Of what the work on a task gives, when it ends in a heap. -/
  OfResult : {α : Type} → Task α → α → Heap → Prop
  OfFault : Fault → Prop

variable {standard : Standard} {after : α → Heap → Prop}

/-! ## Outcomes and actions -/

/-- An outcome has a value as `after` says or a fault that meets the standard, and a state that
does. -/
def Outcome.Meets (standard : Standard) (after : α → Heap → Prop) : Outcome α → Prop
  | .done value later => after value later.heap ∧ standard.OfState later
  | .failed fault later => standard.OfFault fault ∧ standard.OfState later
  | .outOfFuel => True

/-- What holds of the states that meet the standard holds of all states from an outcome on, if it
does of those of what is done next. -/
theorem Outcome.Meets.statesAfter {outcome : Outcome α} {next : α → State → List State}
    (houtcome : outcome.Meets standard after)
    (hnext : ∀ value later, outcome = .done value later → after value later.heap →
      standard.OfState later → ∀ moment ∈ next value later, standard.OfState moment) :
    ∀ moment ∈ outcome.statesAfter next, standard.OfState moment := by
  intro moment hmoment
  cases outcome with
  | done value later => exact hnext value later rfl houtcome.1 houtcome.2 moment hmoment
  | failed fault later =>
      cases List.mem_singleton.mp hmoment
      exact houtcome.2
  | outOfFuel => cases hmoment

namespace Action

variable {heap : Heap}

/-- From every state with a heap that meets the standard an action ends with an outcome that
does. -/
def Meets (standard : Standard) (after : α → Heap → Prop) (action : Action α) (heap : Heap) :
    Prop :=
  ∀ state, state.heap = heap → standard.OfState state → (action state).Meets standard after

theorem Meets.bind {action : Action α} {next : α → Action β} {afterNext : β → Heap → Prop}
    (haction : action.Meets standard after heap)
    (hnext : ∀ state value later, state.heap = heap → action state = .done value later →
      after value later.heap → (next value).Meets standard afterNext later.heap) :
    (action >>= next).Meets standard afterNext heap := by
  intro state hheap hstate
  have hfirst := haction state hheap hstate
  change (Action.bind action next state).Meets standard afterNext
  unfold Action.bind
  cases hends : action state with
  | done value later =>
      rw [hends] at hfirst
      exact hnext state value later hheap hends hfirst.1 later rfl hfirst.2
  | failed fault later =>
      rw [hends] at hfirst
      exact hfirst
  | outOfFuel => trivial

theorem Meets.finally_ {action : Action α} {leave : State → State}
    (haction : action.Meets standard after heap) (hsame : ∀ state, (leave state).heap = state.heap)
    (hleave : ∀ state, standard.OfState state → standard.OfState (leave state)) :
    (action.finally_ leave).Meets standard after heap := by
  intro state hheap hstate
  have hinner := haction state hheap hstate
  unfold Action.finally_
  cases hends : action state with
  | done value later =>
      rw [hends] at hinner
      exact ⟨(hsame later).symm ▸ hinner.1, hleave later hinner.2⟩
  | failed fault later =>
      rw [hends] at hinner
      exact ⟨hinner.1, hleave later hinner.2⟩
  | outOfFuel => trivial

/-! ### Single actions -/

theorem meets_pure {value : α} (hvalue : after value heap) :
    (pure value : Action α).Meets standard after heap := by
  rintro state rfl hstate
  exact ⟨hvalue, hstate⟩

theorem meets_fail {position : Position} {cause : Cause}
    (hfault : standard.OfFault ⟨cause, position⟩) :
    (fail position cause : Action α).Meets standard after heap :=
  fun _ _ hstate => ⟨hfault, hstate⟩

theorem meets_check {position : Position} {computed : Except Cause α}
    (hvalue : ∀ value, computed = .ok value → after value heap)
    (hfault : ∀ cause, computed = .error cause → standard.OfFault ⟨cause, position⟩) :
    (check position computed).Meets standard after heap := by
  cases computed with
  | ok value => exact meets_pure (hvalue value rfl)
  | error cause => exact meets_fail (hfault cause rfl)

theorem meets_change {update : State → State} {after : Unit → Heap → Prop}
    (hupdate : ∀ state, state.heap = heap → standard.OfState state →
      after () (update state).heap ∧ standard.OfState (update state)) :
    (change update).Meets standard after heap :=
  hupdate

theorem meets_attempt {position : Position} {update : State → Except Cause State}
    {after : Unit → Heap → Prop}
    (hupdate : ∀ state later, state.heap = heap → standard.OfState state →
      update state = .ok later → after () later.heap ∧ standard.OfState later)
    (hfault : ∀ state cause, update state = .error cause →
      standard.OfFault ⟨cause, position⟩) :
    (attempt position update).Meets standard after heap := by
  intro state hheap hstate
  unfold attempt
  cases hresult : update state with
  | ok later => exact hupdate state later hheap hstate hresult
  | error cause => exact ⟨hfault state cause hresult, hstate⟩

theorem meets_readVariable {position : Position} {name : String} {keys : List Value}
    {after : Value → Heap → Prop}
    (hread : ∀ state value, state.heap = heap → standard.OfState state →
      state.read name keys = .ok value → after value heap)
    (hfault : ∀ (state : State) cause, state.read name keys = .error cause →
      standard.OfFault ⟨cause, position⟩) :
    (readVariable position name keys).Meets standard after heap := by
  intro state hheap hstate
  exact meets_check (fun value => hread state value hheap hstate) (hfault state) state hheap hstate

theorem meets_findFunction {position : Position} {name : String} {after : Function → Heap → Prop}
    (hfound : ∀ state function, standard.OfState state →
      state.scope.function? name = some function → after function heap)
    (hfault : standard.OfFault ⟨.undefinedFunction name, position⟩) :
    (findFunction position name).Meets standard after heap := by
  rintro state rfl hstate
  unfold findFunction
  cases hresult : state.scope.function? name with
  | some function => exact ⟨hfound state function hstate hresult, hstate⟩
  | none => exact ⟨hfault, hstate⟩

theorem meets_newTable {after : Table → Heap → Prop} (hnew : after heap.newTable heap) :
    newTable.Meets standard after heap := by
  rintro state rfl hstate
  exact ⟨hnew, hstate⟩

theorem meets_print {position : Position} {line : String} {after : Unit → Heap → Prop}
    (hafter : after () heap)
    (hprint : ∀ state, standard.OfState state → standard.OfState (state.printLine line).2)
    (hfault : ∀ problem, standard.OfFault ⟨.console problem, position⟩) :
    (print position line).Meets standard after heap := by
  rintro state rfl hstate
  have hlater := hprint state hstate
  have hheap : (state.printLine line).2.heap = state.heap := rfl
  unfold print
  split
  · next hprinted =>
      rw [hprinted] at hlater hheap
      exact ⟨hheap ▸ hafter, hlater⟩
  · next problem _ hprinted =>
      rw [hprinted] at hlater
      exact ⟨hfault problem, hlater⟩

/-- What is read from a line is nil, a text or a number. -/
theorem meets_readLine {position : Position} {format : Option String}
    {after : Value → Heap → Prop}
    (htake : ∀ state, standard.OfState state → standard.OfState state.takeLine.2)
    (hnil : after .nil heap) (htext : ∀ line, after (.string line) heap)
    (hnumber : ∀ line value, Reading.ofLine line = .ok value → after value heap)
    (hunreadable : ∀ problem, standard.OfFault ⟨.console problem, position⟩)
    (hline : ∀ line cause, Reading.ofLine line = .error cause →
      standard.OfFault ⟨cause, position⟩) :
    (readLine position format).Meets standard after heap := by
  rintro state rfl hstate
  have hlater := htake state hstate
  have hheap := @State.heap_takeLine state
  unfold readLine
  split
  · next htaken =>
      rw [htaken] at hlater hheap
      exact ⟨hheap ▸ hnil, hlater⟩
  · next problem _ htaken =>
      rw [htaken] at hlater
      exact ⟨hunreadable problem, hlater⟩
  · next line later htaken =>
      rw [htaken] at hlater hheap
      split
      · exact meets_check (hnumber line) (hline line) later hheap hlater
      · exact ⟨hheap ▸ htext line, hlater⟩

theorem meets_requireBoolean {context : String} {position : Position} {value : Value}
    {after : Bool → Heap → Prop} (hafter : ∀ verdict, after verdict heap)
    (hfault : standard.OfFault ⟨.notBoolean context value, position⟩) :
    (Eval.requireBoolean context position value).Meets standard after heap := by
  unfold Eval.requireBoolean
  split
  · exact meets_pure (hafter _)
  · exact meets_fail hfault

theorem meets_requireNumber {bound : LoopBound} {position : Position} {value : Value}
    {after : Value → Heap → Prop} (hafter : value.first.isNumber = true → after value.first heap)
    (hfault : standard.OfFault ⟨.notNumberBound bound value.first, position⟩) :
    (Eval.requireNumber bound position value).Meets standard after heap := by
  unfold Eval.requireNumber
  split
  · next hnumber => exact meets_pure (hafter hnumber)
  · exact meets_fail hfault

end Action

/-! ## Plans -/

namespace Plan

variable {heap : Heap}

/-- In a heap, from states that meet the standard, a plan does and requests only what does, and ends
with what `after` says, as far as the standard tells. -/
def Meets (standard : Standard) : {α : Type} → Plan α → (α → Heap → Prop) → Heap → Prop
  | _, .give value, after, heap => after value heap
  | _, .perform action next, after, heap =>
    action.Meets standard (fun value => (next value).Meets standard after) heap
  | _, .request task next, after, heap =>
    standard.OfTask task heap ∧ ∀ value later, heap.GrowsInto later →
      standard.OfResult task value later → (next value).Meets standard after later
  | _, .within inner leave next, after, heap =>
    (∀ state, (leave state).heap = state.heap ∧
      (standard.OfState state → standard.OfState (leave state))) ∧
      inner.Meets standard (fun value => (next value).Meets standard after) heap

@[simp] theorem meets_pure (value : α) :
    (pure value : Plan α).Meets standard after heap ↔ after value heap := Iff.rfl

@[simp] theorem meets_bind (plan : Plan α) (further : α → Plan β) {after : β → Heap → Prop} :
    (plan >>= further).Meets standard after heap ↔
      plan.Meets standard (fun value => (further value).Meets standard after) heap := by
  -- the induction is about all heaps at once, so it is on the two conditions as such
  have hsame : (plan.bind further).Meets standard after =
      plan.Meets standard fun value => (further value).Meets standard after := by
    induction plan with
    | give value => rfl
    | perform action next ih => funext heap; simp only [Plan.bind, Meets, ih]
    | request task next ih => funext heap; simp only [Plan.bind, Meets, ih]
    | within inner leave next _ ih => funext heap; simp only [Plan.bind, Meets, ih]
  exact iff_of_eq (congrFun hsame heap)

@[simp] theorem meets_act (action : Action α) :
    (act action).Meets standard after heap ↔ action.Meets standard after heap := Iff.rfl

@[simp] theorem meets_work (task : Task α) :
    (work task).Meets standard after heap ↔
      standard.OfTask task heap ∧ ∀ value later, heap.GrowsInto later →
        standard.OfResult task value later → after value later := Iff.rfl

@[simp] theorem meets_finally (inner : Plan α) (leave : State → State) :
    (inner.finally_ leave).Meets standard after heap ↔
      (∀ state, (leave state).heap = state.heap ∧
        (standard.OfState state → standard.OfState (leave state))) ∧
        inner.Meets standard after heap := Iff.rfl

/-- After a task a plan meets a standard if it does for every result that the task may have. -/
theorem work_bind_meets {task : Task α} {next : α → Plan β} {after : β → Heap → Prop}
    (htask : standard.OfTask task heap)
    (hnext : ∀ value later, heap.GrowsInto later → standard.OfResult task value later →
      (next value).Meets standard after later) :
    (work task >>= next).Meets standard after heap := by
  rw [meets_bind, meets_work]
  exact ⟨htask, hnext⟩

theorem act_bind_meets {action : Action α} {next : α → Plan β} {after : β → Heap → Prop}
    (haction : action.Meets standard (fun value => (next value).Meets standard after) heap) :
    (act action >>= next).Meets standard after heap := by
  rw [meets_bind, meets_act]
  exact haction

/-- In the frame of a loop a plan meets a standard that does not look at empty frames and keeps
holding when a frame is left. -/
theorem meets_inLoopFrame {keyword : LoopKeyword} {inner : Plan α}
    (henter : ∀ state, standard.OfState state → standard.OfState (state.enterLoop keyword))
    (hleave : ∀ state, standard.OfState state → standard.OfState state.leaveLoop)
    (hinner : inner.Meets standard after heap) :
    (inLoopFrame keyword inner).Meets standard after heap := by
  rw [inLoopFrame, meets_bind, meets_act]
  refine Action.meets_change fun state hheap hstate => ⟨?_, henter state hstate⟩
  subst hheap
  exact ⟨fun state => ⟨rfl, hleave state⟩, hinner⟩

section Runs

variable {run : {β : Type} → Task β → Action β}
  (hrun : ∀ {β : Type} (task : Task β) (heap : Heap), standard.OfTask task heap →
    (run task).Meets standard (standard.OfResult task) heap)
  (hgrows : ∀ {β : Type} (task : Task β) (state later : State),
    (run task state).state? = some later → state.heap.GrowsInto later.heap)

include hrun hgrows

/-- A plan that meets a standard does so when it is carried out by runs that do. -/
theorem Meets.carryOut {plan : Plan α} (hplan : plan.Meets standard after heap) :
    (plan.carryOut run).Meets standard after heap := by
  induction plan generalizing heap with
  | give value => exact Action.meets_pure hplan
  | perform action next ih =>
      exact Action.Meets.bind hplan fun _ value _ _ _ hnext => ih value hnext
  | request task next ih =>
      refine (hrun task heap hplan.1).bind fun state value later hheap hends hvalue => ?_
      have hlater := hgrows task state later (congrArg Outcome.state? hends)
      exact ih value (hplan.2 value later.heap (hheap ▸ hlater) hvalue)
  | within inner leave next ihInner ih =>
      have hinner := (ihInner hplan.2).finally_ (fun state => (hplan.1 state).1)
        fun state => (hplan.1 state).2
      exact hinner.bind fun _ value _ _ _ hnext => ih value hnext

/-- All states that such a plan comes through meet the standard, if those of the tasks do that it
requests. -/
theorem Meets.moments {during : {β : Type} → Task β → State → List State}
    (hduring : ∀ {β : Type} (task : Task β) (state : State), standard.OfTask task state.heap →
      standard.OfState state → ∀ moment ∈ during task state, standard.OfState moment)
    {plan : Plan α} {state : State} (hplan : plan.Meets standard after state.heap)
    (hstate : standard.OfState state) :
    ∀ moment ∈ plan.moments run during state, standard.OfState moment := by
  induction plan generalizing state with
  | give value =>
      intro moment hmoment
      cases List.mem_singleton.mp hmoment
      exact hstate
  | perform action next ih =>
      refine List.forall_mem_cons.mpr ⟨hstate, ?_⟩
      exact (hplan state rfl hstate).statesAfter fun value later _ hnext => ih value hnext
  | request task next ih =>
      refine List.forall_mem_append.mpr ⟨hduring task state hplan.1 hstate, ?_⟩
      refine (hrun task _ hplan.1 state rfl hstate).statesAfter fun value later hends hvalue => ?_
      have hlater := hgrows task state later (congrArg Outcome.state? hends)
      exact ih value (hplan.2 value later.heap hlater hvalue)
  -- leaving is done on a fault as well, and its result is one more moment
  | within inner leave next ihInner ih =>
      refine List.forall_mem_append.mpr ⟨ihInner hplan.2 hstate, ?_⟩
      have hinner := (Meets.carryOut hrun hgrows hplan.2).finally_
        (fun state => (hplan.1 state).1) fun state => (hplan.1 state).2
      exact (hinner state rfl hstate).statesAfter fun value later _ hnext => ih value hnext

/-- What such a plan requests meets the standard, and so does the state in which it is requested. -/
theorem Meets.requests {plan : Plan α} {state : State}
    (hplan : plan.Meets standard after state.heap) (hstate : standard.OfState state) :
    plan.Requests run (fun part inner => standard.OfTask part inner.heap ∧ standard.OfState inner)
      state := by
  -- each request is met in a state that the actions before it left, and these keep the standard
  induction plan generalizing state with
  | give value => trivial
  | perform action next ih =>
      intro value later hends
      have hfirst := hplan state rfl hstate
      rw [hends] at hfirst
      exact ih value hfirst.1 hfirst.2
  | request task next ih =>
      refine ⟨⟨hplan.1, hstate⟩, fun value later hends => ?_⟩
      have hfirst := hrun task _ hplan.1 state rfl hstate
      have hlater := hgrows task state later (congrArg Outcome.state? hends)
      rw [show run task state = .done value later from hends] at hfirst
      exact ih value (hplan.2 value later.heap hlater hfirst.1) hfirst.2
  | within inner leave next ihInner ih =>
      refine ⟨ihInner hplan.2 hstate, fun value later hends => ?_⟩
      have hfirst := Meets.carryOut hrun hgrows hplan.2 state rfl hstate
      rw [hends] at hfirst
      obtain ⟨hsame, hleave⟩ := hplan.1 later
      exact ih value (hsame.symm ▸ hfirst.1) (hleave hfirst.2)

end Runs

end Plan

/-- After the block of a loop a plan meets a standard, if it does where the loop goes on and if what
the block ended with may be passed on. -/
theorem Task.afterRound_meets {again : Plan Flow} {flow : Flow} {after : Flow → Heap → Prop}
    {heap : Heap} (hnormal : after .normal heap) (hflow : after flow heap)
    (hagain : again.Meets standard after heap) :
    (Task.afterRound again flow).Meets standard after heap := by
  cases flow with
  | normal => exact hagain
  | broken => exact hnormal
  | returned value => exact hflow

/-! ## Runs -/

namespace Standard

/-- The plan of every task that meets the standard does. -/
structure Sound (standard : Standard) : Prop where
  meets : ∀ {α : Type} (task : Task α) (heap : Heap), standard.OfTask task heap →
    task.plan.Meets standard (standard.OfResult task) heap

namespace Sound

variable (hsound : standard.Sound)

include hsound

/-- **What a run ends with meets the standard.**  The induction is on the fuel. -/
theorem run_meets (fuel : Nat) (task : Task α) (heap : Heap) (htask : standard.OfTask task heap) :
    (task.run fuel).Meets standard (standard.OfResult task) heap := by
  induction fuel generalizing α heap with
  | zero =>
      rw [Task.run_zero]
      exact fun _ _ _ => trivial
  | succ fuel ih =>
      rw [Task.run_succ]
      refine (hsound.meets task heap htask).carryOut (fun part => ih part) ?_
      exact fun part state later => part.heap_growsInto fuel

/-- **Every state that a run comes through meets the standard.** -/
theorem moments (fuel : Nat) {task : Task α} {state : State}
    (htask : standard.OfTask task state.heap) (hstate : standard.OfState state) :
    ∀ moment ∈ task.moments fuel state, standard.OfState moment := by
  induction fuel generalizing α state with
  | zero =>
      intro moment hmoment
      cases List.mem_singleton.mp hmoment
      exact hstate
  | succ fuel ih =>
      refine (hsound.meets task _ htask).moments (fun part => hsound.run_meets fuel part) ?_ ?_
        hstate
      · exact fun part inner later => part.heap_growsInto fuel
      · intro β part inner hpart hinner
        exact ih hpart hinner

/-- **Every task that a run works on meets the standard**, and so does the state it begins in. -/
theorem throughout (fuel : Nat) {task : Task α} {state : State}
    (htask : standard.OfTask task state.heap) (hstate : standard.OfState state) :
    task.Throughout
      (fun _ _ part inner => standard.OfTask part inner.heap ∧ standard.OfState inner)
      fuel state := by
  induction fuel generalizing α state with
  | zero => exact ⟨htask, hstate⟩
  | succ fuel ih =>
      refine ⟨⟨htask, hstate⟩, ?_⟩
      -- the parts are the requests of the plan, each with the fuel that is left
      refine ((hsound.meets task _ htask).requests (fun part => hsound.run_meets fuel part) ?_
        hstate).mono ?_
      · exact fun part inner later => part.heap_growsInto fuel
      · rintro β part inner ⟨hpart, hinner⟩ _
        exact ih hpart hinner

/-- What a program ends with meets the standard, if nothing has to be bound for that. -/
theorem execute_meets (fuel : Nat) {program : Block} {state : State} {after : Value → Heap → Prop}
    (htask : standard.OfTask (.block program) state.heap) (hstate : standard.OfState state.restart)
    (hafter : ∀ flow later, standard.OfResult (.block program) flow later →
      after flow.result later) :
    (execute fuel program state).Meets standard after := by
  have hblock := hsound.run_meets fuel (.block program) state.heap htask
  refine hblock.bind (fun _ flow later _ _ hflow => ?_) state.restart rfl hstate
  exact Action.meets_pure (hafter flow later.heap hflow)

end Sound

end Standard

end TableScript
