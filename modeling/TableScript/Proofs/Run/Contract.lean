import TableScript.Proofs.Run.Plan

/-!
# Contracts of tasks

A contract says of every task what has to hold before it and what holds after it if it ends with a
value.  It is *sound* if every plan keeps it: where a plan requests a task, what the task requires
holds, and from what the requested tasks ensure, what the planned task ensures follows.  That is a
matter of plans alone, one for each task, without fuel and without recursion.

For a sound contract two things follow at once: what a task ensures holds after each run of it
(`Contract.Sound.ensured`), and what tasks require holds at every moment of a run
(`Contract.Sound.throughout`).
-/

namespace TableScript

/-- What has to hold before a task, and what holds after it if it ends with a value. -/
structure Contract where
  Requires : {α : Type} → Task α → State → Prop
  Ensures : {α : Type} → Task α → State → α → State → Prop

namespace Plan

variable {α β : Type} (contract : Contract)

/-- From a state a plan requests tasks only where they may be, and ends with what `after` says, as
far as the contract tells. -/
def Secures : {α : Type} → Plan α → (α → State → Prop) → State → Prop
  | _, .give value, after, state => after value state
  | _, .perform action next, after, state =>
    ∀ value later, action state = .done value later → (next value).Secures after later
  | _, .request task next, after, state =>
    contract.Requires task state ∧
      ∀ value later, contract.Ensures task state value later → (next value).Secures after later
  | _, .within inner leave next, after, state =>
    inner.Secures (fun value later => (next value).Secures after (leave later)) state

variable {contract}

@[simp] theorem secures_pure (value : α) (after : α → State → Prop) (state : State) :
    (pure value : Plan α).Secures contract after state ↔ after value state := Iff.rfl

@[simp] theorem secures_bind (plan : Plan α) (further : α → Plan β) (after : β → State → Prop)
    (state : State) :
    (plan >>= further).Secures contract after state ↔
      plan.Secures contract (fun value later => (further value).Secures contract after later)
        state := by
  change (plan.bind further).Secures contract after state ↔ _
  induction plan generalizing state with
  | give value => exact Iff.rfl
  | perform action next ih => simp only [Plan.bind, Secures, ih]
  | request task next ih => simp only [Plan.bind, Secures, ih]
  | within inner leave next _ ih => simp only [Plan.bind, Secures, ih]

@[simp] theorem secures_act (action : Action α) (after : α → State → Prop) (state : State) :
    (act action).Secures contract after state ↔
      ∀ value later, action state = .done value later → after value later := Iff.rfl

@[simp] theorem secures_work (task : Task α) (after : α → State → Prop) (state : State) :
    (work task).Secures contract after state ↔
      contract.Requires task state ∧
        ∀ value later, contract.Ensures task state value later → after value later := Iff.rfl

@[simp] theorem secures_finally (inner : Plan α) (leave : State → State)
    (after : α → State → Prop) (state : State) :
    (inner.finally_ leave).Secures contract after state ↔
      inner.Secures contract (fun value later => after value (leave later)) state := Iff.rfl

@[simp] theorem secures_inLoopFrame (keyword : LoopKeyword) (inner : Plan α)
    (after : α → State → Prop) (state : State) :
    (inLoopFrame keyword inner).Secures contract after state ↔
      inner.Secures contract (fun value later => after value later.leaveLoop)
        (state.enterLoop keyword) := by
  rw [inLoopFrame, secures_bind, secures_act]
  constructor
  · intro hentered
    exact hentered () (state.enterLoop keyword) rfl
  · intro hinner value later hends
    cases hends
    exact hinner

/-- What a plan secures is so when it is carried out by runs that keep the contract. -/
theorem Secures.carryOut {run : {α : Type} → Task α → Action α}
    (hrun : ∀ {β : Type} (task : Task β) (state : State) (value : β) (later : State),
      contract.Requires task state → run task state = .done value later →
      contract.Ensures task state value later)
    {plan : Plan α} {after : α → State → Prop} {state : State}
    (hplan : plan.Secures contract after state) {value : α} {later : State}
    (hends : plan.carryOut run state = .done value later) : after value later := by
  -- what one step of the plan secures is what the next one starts from
  induction plan generalizing state later with
  | give given =>
      cases hends
      exact hplan
  | perform action next ih =>
      obtain ⟨first, middle, hfirst, hnext⟩ := Action.bind_eq_done.mp hends
      exact ih first (hplan first middle hfirst) hnext
  | request task next ih =>
      obtain ⟨first, middle, hfirst, hnext⟩ := Action.bind_eq_done.mp hends
      exact ih first (hplan.2 first middle (hrun task state first middle hplan.1 hfirst)) hnext
  | within inner leave next ihInner ih =>
      obtain ⟨first, middle, hfirst, hnext⟩ := Action.bind_eq_done.mp hends
      obtain ⟨inside, hinside, rfl⟩ := Action.finally_eq_done.mp hfirst
      exact ih first (ihInner hplan hinside) hnext

/-- The requests of a plan that is carried out by runs that keep the contract are as required, and
as whatever holds wherever they are. -/
theorem Secures.requests {run : {α : Type} → Task α → Action α}
    (hrun : ∀ {β : Type} (task : Task β) (state : State) (value : β) (later : State),
      contract.Requires task state → run task state = .done value later →
      contract.Ensures task state value later)
    {holds : {β : Type} → Task β → State → Prop}
    (hholds : ∀ {β : Type} (task : Task β) (state : State), contract.Requires task state →
      holds task state)
    {plan : Plan α} {after : α → State → Prop} {state : State}
    (hplan : plan.Secures contract after state) : plan.Requests run holds state := by
  induction plan generalizing state with
  | give value => trivial
  | perform action next ih =>
      intro value later hends
      exact ih value (hplan value later hends)
  | request task next ih =>
      refine ⟨hholds task state hplan.1, fun value later hends => ?_⟩
      exact ih value (hplan.2 value later (hrun task state value later hplan.1 hends))
  -- the next request is made behind the inner plan, in the state that leaving makes of its last one
  | within inner leave next ihInner ih =>
      have hinner : inner.Secures contract
          (fun value later => (next value).Secures contract after (leave later)) state := hplan
      refine ⟨ihInner hinner, fun value later hends => ?_⟩
      exact ih value (hinner.carryOut hrun hends)

end Plan

/-- After the block of a loop a plan secures what the block left, if it does where the loop goes
on. -/
theorem Task.afterRound_secures {contract : Contract} {again : Plan Flow} {later : State}
    {after : Flow → State → Prop} (hafter : ∀ flow, after flow later)
    (hagain : again.Secures contract after later) (flow : Flow) :
    (Task.afterRound again flow).Secures contract after later := by
  cases flow with
  | normal => exact hagain
  | broken => exact hafter .normal
  | returned value => exact hafter (.returned value)

namespace Contract

variable {α : Type} {contract : Contract}

/-- Every plan keeps the contract. -/
structure Sound (contract : Contract) : Prop where
  secures : ∀ {α : Type} (task : Task α) (state : State), contract.Requires task state →
    task.plan.Secures contract (contract.Ensures task state) state

/-- What a task ensures holds after each run of it that ends with a value, if for every task that is
known of its runs anyway or follows from its plan.  The induction is on the fuel. -/
theorem ensured_of (hsecures : ∀ {α : Type} (task : Task α) (state : State),
      contract.Requires task state →
      (∀ fuel value later, task.run fuel state = .done value later →
        contract.Ensures task state value later) ∨
      task.plan.Secures contract (contract.Ensures task state) state)
    {fuel : Nat} {task : Task α} {state later : State} {value : α}
    (hrequires : contract.Requires task state)
    (hends : task.run fuel state = .done value later) :
    contract.Ensures task state value later := by
  -- a task asks for others with less fuel, so the contract is known of all it requests
  induction fuel generalizing α state later with
  | zero =>
      rw [Task.run_zero] at hends
      cases hends
  | succ fuel ih =>
      rcases hsecures task state hrequires with hknown | hplan
      · exact hknown (fuel + 1) value later hends
      · rw [Task.run_succ] at hends
        exact hplan.carryOut (fun part inner value later => ih) hends

/-- **After each run** of a task that ends with a value, what the task ensures holds. -/
theorem Sound.ensured (hsound : contract.Sound) {fuel : Nat} {task : Task α} {state later : State}
    {value : α} (hrequires : contract.Requires task state)
    (hends : task.run fuel state = .done value later) :
    contract.Ensures task state value later :=
  ensured_of (fun part inner hpart => .inr (hsound.secures part inner hpart)) hrequires hends

/-- **At every moment** of a run what is required holds. -/
theorem Sound.throughout (hsound : contract.Sound) (fuel : Nat) {task : Task α} {state : State}
    (hrequires : contract.Requires task state) :
    task.Throughout (fun _ _ part inner => contract.Requires part inner) fuel state := by
  induction fuel generalizing α state with
  | zero => exact hrequires
  | succ fuel ih =>
      refine ⟨hrequires, (hsound.secures task state hrequires).requests ?_ ?_⟩
      · intro β part inner value later
        exact hsound.ensured
      · intro β part inner hpart _
        exact ih hpart

end Contract

end TableScript
