import TableScript.Proofs.Run.Discipline
import TableScript.Proofs.Run.Regular

/-!
# Fuel does not matter once it suffices

A run that ends with some amount of fuel ends in the same way with any larger amount
(`Task.run_staysAs`).  So a task has an outcome of its own, `Task.outcome`: what its runs end with
as soon as there is fuel enough, or nothing if no amount is enough.

Outcomes need no fuel: by `Task.outcome_eq` the outcome of a task is its plan carried out, each
request being the outcome of the task requested.  And since a regular plan does nothing that takes
fuel but to request work, a task ends if all tasks requested for it end; this is
`Task.ends_of_requests`, with which termination is proved.
-/

namespace TableScript

variable {α β : Type}

/-! ## Outcomes that stay as they are -/

/-- If the first outcome is known, the second one is the same. -/
def Outcome.StaysAs (first second : Outcome α) : Prop := first ≠ .outOfFuel → second = first

theorem Outcome.staysAs_refl (outcome : Outcome α) : outcome.StaysAs outcome := fun _ => rfl

theorem Outcome.outOfFuel_staysAs (outcome : Outcome α) : Outcome.outOfFuel.StaysAs outcome :=
  fun hends => absurd rfl hends

namespace Action

theorem bind_of_done {action : Action α} {next : α → Action β} {state later : State} {value : α}
    (hends : action state = .done value later) : (action >>= next) state = next value later := by
  change Action.bind action next state = _
  unfold Action.bind
  rw [hends]

theorem bind_of_failed {action : Action α} {next : α → Action β} {state later : State}
    {fault : Fault} (hends : action state = .failed fault later) :
    (action >>= next) state = .failed fault later := by
  change Action.bind action next state = _
  unfold Action.bind
  rw [hends]

theorem bind_of_outOfFuel {action : Action α} {next : α → Action β} {state : State}
    (hends : action state = .outOfFuel) : (action >>= next) state = .outOfFuel := by
  change Action.bind action next state = _
  unfold Action.bind
  rw [hends]

theorem bind_staysAs {action action' : Action α} {next next' : α → Action β} {state : State}
    (haction : (action state).StaysAs (action' state))
    (hnext : ∀ value later, (next value later).StaysAs (next' value later)) :
    ((action >>= next) state).StaysAs ((action' >>= next') state) := by
  cases hfirst : action state with
  | done value later =>
      have hsame : action' state = .done value later := by
        rw [haction (by rw [hfirst]; simp), hfirst]
      rw [bind_of_done hfirst, bind_of_done hsame]
      exact hnext value later
  | failed fault later =>
      have hsame : action' state = .failed fault later := by
        rw [haction (by rw [hfirst]; simp), hfirst]
      rw [bind_of_failed hfirst, bind_of_failed hsame]
      exact Outcome.staysAs_refl _
  | outOfFuel =>
      rw [bind_of_outOfFuel hfirst]
      exact Outcome.outOfFuel_staysAs _

theorem finally_staysAs {action action' : Action α} {update : State → State} {state : State}
    (haction : (action state).StaysAs (action' state)) :
    (action.finally_ update state).StaysAs (action'.finally_ update state) := by
  unfold finally_
  cases hfirst : action state with
  | outOfFuel => exact Outcome.outOfFuel_staysAs _
  | done value later | failed fault later =>
      rw [haction (by rw [hfirst]; simp), hfirst]
      exact Outcome.staysAs_refl _

/-- From some amount of fuel on, an action that depends on the fuel does in a state what another
does. -/
def Settles (action : Nat → Action α) (limit : Action α) (state : State) : Prop :=
  ∃ fuel, ∀ larger, fuel ≤ larger → action larger state = limit state

theorem Settles.bind {action : Nat → Action α} {limit : Action α} {next : Nat → α → Action β}
    {nextLimit : α → Action β} {state : State} (haction : Settles action limit state)
    (hnext : ∀ value later, Settles (next · value) (nextLimit value) later) :
    Settles (fun fuel => action fuel >>= next fuel) (limit >>= nextLimit) state := by
  obtain ⟨enough, hsame⟩ := haction
  cases hlimit : limit state with
  | done value later =>
      obtain ⟨fuel, hrest⟩ := hnext value later
      refine ⟨max enough fuel, fun larger hle => ?_⟩
      calc (action larger >>= next larger) state
        _ = next larger value later := bind_of_done ((hsame larger (by omega)).trans hlimit)
        _ = nextLimit value later := hrest larger (by omega)
        _ = (limit >>= nextLimit) state := (bind_of_done hlimit).symm
  | failed fault later =>
      refine ⟨enough, fun larger hle => ?_⟩
      exact (bind_of_failed ((hsame larger hle).trans hlimit)).trans (bind_of_failed hlimit).symm
  | outOfFuel =>
      refine ⟨enough, fun larger hle => ?_⟩
      exact (bind_of_outOfFuel ((hsame larger hle).trans hlimit)).trans
        (bind_of_outOfFuel hlimit).symm

theorem Settles.finally_ {action : Nat → Action α} {limit : Action α} {state : State}
    (haction : Settles action limit state) (update : State → State) :
    Settles (fun fuel => (action fuel).finally_ update) (limit.finally_ update) state := by
  obtain ⟨enough, hsame⟩ := haction
  refine ⟨enough, fun larger hle => ?_⟩
  change (action larger).finally_ update state = limit.finally_ update state
  unfold Action.finally_
  rw [hsame larger hle]

end Action

/-- A plan that is carried out by runs that know more ends as before, if it ended. -/
theorem Plan.carryOut_staysAs {run run' : {β : Type} → Task β → Action β}
    (hrun : ∀ {β : Type} (task : Task β) (state : State),
      (run task state).StaysAs (run' task state))
    (plan : Plan α) (state : State) :
    (plan.carryOut run state).StaysAs (plan.carryOut run' state) := by
  induction plan generalizing state with
  | give value => exact Outcome.staysAs_refl _
  | perform action next ih => exact Action.bind_staysAs (Outcome.staysAs_refl _) ih
  | request task next ih => exact Action.bind_staysAs (hrun task state) ih
  | within inner leave next ihInner ih =>
      exact Action.bind_staysAs (Action.finally_staysAs (ihInner state)) ih

namespace Task

/-- **A run that ends ends in the same way with more fuel.** -/
theorem run_staysAs {fuel larger : Nat} (hle : fuel ≤ larger) (task : Task α) (state : State) :
    (task.run fuel state).StaysAs (task.run larger state) := by
  induction fuel generalizing α larger state with
  | zero =>
      rw [run_zero]
      exact Outcome.outOfFuel_staysAs _
  | succ fuel ih =>
      obtain ⟨more, rfl⟩ : ∃ more, larger = more + 1 := ⟨larger - 1, by omega⟩
      rw [run_succ, run_succ]
      refine Plan.carryOut_staysAs ?_ task.plan state
      intro β part inner
      exact ih (by omega) part inner

/-! ## The outcome of a task -/

/-- From a state the work on a task ends, with a value or with a fault. -/
def Ends (task : Task α) (state : State) : Prop := ∃ fuel, task.run fuel state ≠ .outOfFuel

open Classical in
/-- What the work on a task ends with, if it ends. -/
noncomputable def outcome (task : Task α) : Action α := fun state =>
  if hends : task.Ends state then task.run hends.choose state else .outOfFuel

/-- From some amount of fuel on, a run has the outcome of its task. -/
theorem run_settles (task : Task α) (state : State) :
    Action.Settles (fun fuel => task.run fuel) task.outcome state := by
  by_cases hends : task.Ends state
  · have houtcome : task.outcome state = task.run hends.choose state := dif_pos hends
    refine ⟨hends.choose, fun larger hle => ?_⟩
    rw [houtcome]
    exact run_staysAs hle task state hends.choose_spec
  · have houtcome : task.outcome state = .outOfFuel := dif_neg hends
    refine ⟨0, fun larger _ => ?_⟩
    rw [houtcome]
    exact Classical.byContradiction fun hrun => hends ⟨larger, hrun⟩

theorem run_staysAs_outcome (fuel : Nat) (task : Task α) (state : State) :
    (task.run fuel state).StaysAs (task.outcome state) := by
  intro hends
  obtain ⟨enough, hsame⟩ := run_settles task state
  rw [← hsame (max fuel enough) (Nat.le_max_right _ _)]
  exact run_staysAs (Nat.le_max_left _ _) task state hends

theorem outcome_ne_outOfFuel_iff {task : Task α} {state : State} :
    task.outcome state ≠ .outOfFuel ↔ task.Ends state := by
  constructor
  · intro hknown
    obtain ⟨fuel, hsame⟩ := run_settles task state
    have hrun : task.run fuel state = task.outcome state := hsame fuel (Nat.le_refl _)
    exact ⟨fuel, hrun ▸ hknown⟩
  · rintro ⟨fuel, hends⟩
    rwa [run_staysAs_outcome fuel task state hends]

/-- A run that ends with a value shows the outcome. -/
theorem outcome_of_run (fuel : Nat) {task : Task α} {state later : State} {value : α}
    (hends : task.run fuel state = .done value later) : task.outcome state = .done value later := by
  have hstays := run_staysAs_outcome fuel task state
  rw [hends] at hstays
  exact hstays (by simp)

/-- What holds after each run that ends with a value holds after the outcome. -/
theorem exists_run_of_outcome {task : Task α} {state later : State} {value : α}
    (hends : task.outcome state = .done value later) :
    ∃ fuel, task.run fuel state = .done value later := by
  obtain ⟨fuel, hsame⟩ := run_settles task state
  exact ⟨fuel, (hsame fuel (Nat.le_refl _)).trans hends⟩

/-- An outcome keeps what all runs keep. -/
theorem outcome_keeps {task : Task α} {relation : State → State → Prop} {state later : State}
    {value : α} (hends : task.outcome state = .done value later)
    (hkeeps : ∀ fuel, (task.run fuel).Keeps relation) : relation state later := by
  obtain ⟨fuel, hrun⟩ := exists_run_of_outcome hends
  exact hkeeps fuel state later (congrArg Outcome.state? hrun)

end Task

/-- From some amount of fuel on, a plan is carried out as by the outcomes of what it requests. -/
theorem Plan.carryOut_settles (plan : Plan α) (state : State) :
    Action.Settles (fun fuel => plan.carryOut (Task.run fuel)) (plan.carryOut Task.outcome)
      state := by
  induction plan generalizing state with
  | give value => exact ⟨0, fun _ _ => rfl⟩
  | perform action next ih =>
      have haction : Action.Settles (fun _ => action) action state := ⟨0, fun _ _ => rfl⟩
      exact haction.bind ih
  | request task next ih => exact (task.run_settles state).bind ih
  | within inner leave next ihInner ih => exact ((ihInner state).finally_ leave).bind ih

/-- **The outcome of a task is its plan carried out**, each request being the outcome of the task
that is requested. -/
theorem Task.outcome_eq (task : Task α) : task.outcome = task.plan.carryOut Task.outcome := by
  funext state
  obtain ⟨enough, htask⟩ := run_settles task state
  obtain ⟨fuel, hplan⟩ := Plan.carryOut_settles task.plan state
  calc task.outcome state
    _ = task.run (max enough fuel + 1) state := (htask _ (by omega)).symm
    _ = task.plan.carryOut (run (max enough fuel)) state := by rw [run_succ]
    _ = task.plan.carryOut Task.outcome state := hplan _ (by omega)

/-! ## Ending -/

/-- A single action leaves a state, whether it ends with a value or with a fault. -/
theorem Action.Single.exists_state? {action : Action α} (haction : action.Single) (state : State) :
    ∃ later, (action state).state? = some later := by
  cases haction with
  | pure value => exact ⟨state, state?_pure value state⟩
  | fail position cause => exact ⟨state, state?_fail position cause state⟩
  | readVariable position name keys => exact ⟨state, state?_readVariable position name keys state⟩
  | findFunction position name => exact ⟨state, state?_findFunction position name state⟩
  | newTable => exact ⟨_, rfl⟩
  | allocate table => exact ⟨_, rfl⟩
  | readLine position format => exact ⟨_, state?_readLine position format state⟩
  | print position line => exact ⟨_, state?_print position line state⟩
  | declare name value | define function => exact ⟨_, rfl⟩
  | assign position name keys value =>
      rw [Action.attempt]
      split
      · exact ⟨_, rfl⟩
      · exact ⟨_, rfl⟩

theorem Action.Single.ne_outOfFuel {action : Action α} (haction : action.Single) (state : State) :
    action state ≠ .outOfFuel := by
  intro hends
  obtain ⟨later, hlater⟩ := haction.exists_state? state
  rw [hends] at hlater
  cases hlater

theorem Action.bind_ne_outOfFuel {action : Action α} {next : α → Action β} {state : State}
    (haction : action state ≠ .outOfFuel)
    (hnext : ∀ value later, action state = .done value later → next value later ≠ .outOfFuel) :
    (action >>= next) state ≠ .outOfFuel := by
  cases hends : action state with
  | done value later =>
      rw [bind_of_done hends]
      exact hnext value later hends
  | failed fault later =>
      rw [bind_of_failed hends]
      simp
  | outOfFuel => exact absurd hends haction

theorem Action.finally_ne_outOfFuel {action : Action α} {update : State → State} {state : State}
    (haction : action state ≠ .outOfFuel) : action.finally_ update state ≠ .outOfFuel := by
  unfold finally_
  cases hends : action state with
  | done value later => simp
  | failed fault later => simp
  | outOfFuel => exact absurd hends haction

/-- A regular plan takes no fuel but for what it requests. -/
theorem Plan.Regular.carryOut_ne_outOfFuel {run : {β : Type} → Task β → Action β}
    {plan : Plan α} (hplan : plan.Regular) {state : State}
    (hrequests : plan.Requests run (fun part inner => run part inner ≠ .outOfFuel) state) :
    plan.carryOut run state ≠ .outOfFuel := by
  -- calls and loops enter in different ways but leave alike
  have hwithin {α β : Type} {inner : Plan β} {leave : State → State} {next : β → Plan α}
      {state : State}
      (hinner : inner.Requests run (fun part inner => run part inner ≠ .outOfFuel) state →
        inner.carryOut run state ≠ .outOfFuel)
      (hnext : ∀ value (later : State),
        (next value).Requests run (fun part inner => run part inner ≠ .outOfFuel) later →
        (next value).carryOut run later ≠ .outOfFuel)
      (hrequests : (Plan.within inner leave next).Requests run
        (fun part inner => run part inner ≠ .outOfFuel) state) :
      (Plan.within inner leave next).carryOut run state ≠ .outOfFuel := by
    refine Action.bind_ne_outOfFuel (Action.finally_ne_outOfFuel (hinner hrequests.1)) ?_
    intro value later hends
    obtain ⟨middle, hmiddle, rfl⟩ := Action.finally_eq_done.mp hends
    exact hnext value _ (hrequests.2 value middle hmiddle)
  -- regular plans only: any other action could itself run out of fuel
  induction hplan generalizing state with
  | give value => exact (Action.Single.pure value).ne_outOfFuel state
  | perform haction _ ih =>
      refine Action.bind_ne_outOfFuel (haction.ne_outOfFuel state) fun value later hends => ?_
      exact ih value (hrequests value later hends)
  | request task _ ih =>
      refine Action.bind_ne_outOfFuel hrequests.1 fun value later hends => ?_
      exact ih value (hrequests.2 value later hends)
  | call position function arguments _ _ ihInner ih =>
      refine Action.bind_ne_outOfFuel ?_ fun _ later hends => ?_
      · -- a call that is refused is a fault, and takes no fuel
        rw [Action.attempt]
        split <;> simp
      · exact hwithin ihInner (fun value later => ih value) (hrequests () later hends)
  | loop keyword _ _ ihInner ih =>
      refine Action.bind_ne_outOfFuel (by simp [Action.change]) fun _ later hends => ?_
      exact hwithin ihInner (fun value later => ih value) (hrequests () later hends)

/-- **A task ends if all tasks that are requested for it end.** -/
theorem Task.ends_of_requests {task : Task α} {state : State}
    (hrequests : task.plan.Requests Task.outcome (fun part inner => part.Ends inner) state) :
    task.Ends state := by
  rw [← outcome_ne_outOfFuel_iff, outcome_eq]
  refine task.plan_regular.carryOut_ne_outOfFuel (hrequests.mono ?_)
  intro β part inner hends
  exact outcome_ne_outOfFuel_iff.mpr hends

end TableScript
