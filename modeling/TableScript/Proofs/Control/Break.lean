import TableScript.Proofs.Control.BreakPlaces

/-!
# What a break ends

A `break` is passed on by choices and by blocks with a frame of their own, and taken by loops.  So
a block ends with it only if it has a `break` that belongs to nothing in the block, and by the
places where the readers accept one no program and no function of a program does.

The second half follows a `break` to its loop.  From the moment at which it is executed, through
all that shares it up to the nearest loop, nothing else is done: the loop ends normally, in the
state of that moment less the frames entered since.
-/

namespace TableScript

/-! ## Blocks that do not end with a break -/

/-- What a task may give: only blocks and statements with an unbound `break` end with it, and loops
never do. -/
def Task.MayGive : {α : Type} → Task α → α → Prop
  | _, .block body, flow => flow = .broken → HasUnbound body.breaks
  | _, .statements body, flow => flow = .broken → HasUnbound (Statement.breaksOfEach body)
  | _, .statement tree, flow => flow = .broken → HasUnbound tree.breaks
  | _, .branches options otherwise, flow =>
    flow = .broken → HasUnbound (Branch.breaksOfEach options ++ Block.breaksOfOption otherwise)
  | _, .whileLoop _ _, flow => flow ≠ .broken
  | _, .repeatLoop _ _, flow => flow ≠ .broken
  | _, .forLoop _ _ _ _ _ _, flow => flow ≠ .broken
  | _, .expression _, _ | _, .expressions _, _ | _, .condition _ _, _ | _, .tableFields _ _ _, _
  | _, .invoke _, _ | _, .call _ _ _, _ | _, .bound _ _, _ | _, .stepBound _, _ => True

/-- A `break` comes only from where one is written. -/
def breaksWritten : Contract where
  Requires _ _ := True
  Ensures task _ value _ := task.MayGive value

section BreaksWritten

variable {α : Type} {state : State}

@[simp] theorem breaksWritten_requires {task : Task α} : breaksWritten.Requires task state :=
  trivial

@[simp] theorem breaksWritten_ensures {task : Task α} {value : α} {later : State} :
    breaksWritten.Ensures task state value later ↔ task.MayGive value := Iff.rfl

/-- A plan about whose results nothing has to be said. -/
theorem secures_trivial {plan : Plan α} {after : α → State → Prop}
    (hafter : ∀ value later, after value later) : plan.Secures breaksWritten after state := by
  induction plan generalizing state with
  | give value => exact hafter value state
  | perform action next ih => exact fun value later _ => ih value hafter
  | request task next ih => exact ⟨trivial, fun value later _ => ih value hafter⟩
  | within inner leave next ihInner ih => exact ihInner fun value later => ih value hafter

theorem ofStatement_breaksWritten (tree : Statement) :
    (Task.ofStatement tree).Secures breaksWritten
      (fun flow _ => flow = .broken → HasUnbound tree.breaks) state := by
  cases tree with
  | break_ position => exact fun _ => ⟨[], by simp [Statement.breaks], by simp [Unbound]⟩
  -- a choice and a plain block pass a `break` on, with themselves around it
  | choose options otherwise position =>
      refine ⟨trivial, fun flow later hflow hbroken => ?_⟩
      exact (hflow hbroken).map_append (.inl rfl)
  | do_ body position =>
      simp only [Task.ofStatement, Plan.secures_inLoopFrame, Plan.secures_work]
      refine ⟨trivial, fun flow later hflow hbroken => ?_⟩
      exact (hflow hbroken).map_append (.inr rfl)
  -- a loop does not end with one, so there is nothing to show of what is written in it
  | while_ guard body position =>
      simp only [Task.ofStatement, Plan.secures_inLoopFrame, Plan.secures_work]
      exact ⟨trivial, fun flow later hflow hbroken => absurd hbroken hflow⟩
  | repeat_ body guard position =>
      simp only [Task.ofStatement, Plan.secures_inLoopFrame, Plan.secures_work]
      exact ⟨trivial, fun flow later hflow hbroken => absurd hbroken hflow⟩
  | for_ name start limit step body position =>
      simp only [Task.ofStatement, Plan.secures_bind]
      refine secures_trivial fun first _ => secures_trivial fun last _ =>
        secures_trivial fun increment _ => ?_
      cases Eval.ascending? increment with
      | none => simp
      | some ascending =>
          simp only [Plan.secures_inLoopFrame, Plan.secures_bind]
          refine secures_trivial fun _ _ => ?_
          exact ⟨trivial, fun flow later hflow hbroken => absurd hbroken hflow⟩
  | empty position | declare name namePosition value position | assign name path value position
  | define name parameters body position | invoke invocation =>
      simp [Task.ofStatement]

theorem ofBranches_breaksWritten (options : List Branch) (otherwise : Option Block) :
    (Task.ofBranches options otherwise).Secures breaksWritten
      (fun flow _ => flow = .broken →
        HasUnbound (Branch.breaksOfEach options ++ Block.breaksOfOption otherwise)) state := by
  cases options with
  | nil =>
      cases otherwise with
      | none => simp [Task.ofBranches]
      | some body => exact ⟨trivial, fun flow later hflow => hflow⟩
  | cons first rest =>
      obtain ⟨guard, body⟩ := first
      simp only [Task.ofBranches, Plan.secures_bind]
      refine secures_trivial fun verdict _ => ?_
      rw [Branch.breaksOfEach, List.append_assoc]
      split
      · exact ⟨trivial, fun flow later hflow hbroken => (hflow hbroken).append_left⟩
      · exact ⟨trivial, fun flow later hflow hbroken => (hflow hbroken).append_right⟩

/-- Whatever the block of a loop ends with, the loop does not end with a `break`. -/
theorem afterRound_breaksWritten {again : Plan Flow}
    (hagain : again.Secures breaksWritten (fun flow _ => flow ≠ .broken) state) (flow : Flow) :
    (Task.afterRound again flow).Secures breaksWritten (fun flow _ => flow ≠ .broken) state := by
  cases flow with
  | normal => exact hagain
  | broken => simp [Task.afterRound]
  | returned value => simp [Task.afterRound]

theorem work_breaksWritten {task : Task Flow}
    (htask : ∀ flow, task.MayGive flow → flow ≠ .broken) :
    (Plan.work task).Secures breaksWritten (fun flow _ => flow ≠ .broken) state :=
  ⟨trivial, fun flow _ hflow => htask flow hflow⟩

theorem breaksWritten_sound : breaksWritten.Sound := by
  constructor
  intro α task state _
  cases task with
  | block body =>
      obtain ⟨body, result⟩ := body
      simp only [Task.plan, Plan.secures_bind, Plan.secures_work]
      refine ⟨trivial, fun flow later hflow => ?_⟩
      cases flow with
      | normal =>
          cases result with
          | none => simp [Task.MayGive]
          | some last =>
              simp only [Plan.secures_bind]
              exact secures_trivial fun values _ => by simp [Task.MayGive]
      -- the statements ended with a `break`, and it is written among them
      | broken => exact fun _ => hflow rfl
      | returned value => simp [Task.MayGive]
  | statements body =>
      cases body with
      | nil => simp [Task.plan, Task.MayGive]
      | cons first rest =>
          simp only [Task.plan, Plan.secures_bind, Plan.secures_work]
          refine ⟨trivial, fun flow later hflow => ?_⟩
          cases flow with
          | normal => exact ⟨trivial, fun flow _ hrest hbroken => (hrest hbroken).append_right⟩
          | broken => exact fun _ => (hflow rfl).append_left
          | returned value => simp [Task.MayGive]
  | statement tree => exact ofStatement_breaksWritten tree
  | branches options otherwise => exact ofBranches_breaksWritten options otherwise
  | whileLoop guard body =>
      simp only [Task.plan, Plan.secures_bind]
      refine secures_trivial fun verdict _ => ?_
      split
      · rw [Plan.secures_bind]
        refine secures_trivial fun flow _ => ?_
        refine afterRound_breaksWritten ?_ flow
        exact work_breaksWritten fun _ hflow => hflow
      · simp [Task.MayGive]
  | repeatLoop body guard =>
      simp only [Task.plan, Plan.secures_bind]
      refine secures_trivial fun flow _ => afterRound_breaksWritten ?_ flow
      rw [Plan.secures_bind]
      refine secures_trivial fun verdict _ => ?_
      split
      · simp
      · exact work_breaksWritten fun _ hflow => hflow
  | forLoop position name ascending limit step body =>
      simp only [Task.plan, Plan.secures_bind]
      refine secures_trivial fun counter _ => ?_
      split
      · simp [Task.MayGive]
      · rw [Plan.secures_bind]
        refine secures_trivial fun flow _ => afterRound_breaksWritten ?_ flow
        simp only [Plan.secures_bind]
        refine secures_trivial fun current _ => secures_trivial fun next _ => ?_
        cases next with
        | none => simp
        | some value =>
            simp only [Plan.secures_bind]
            exact secures_trivial fun _ _ => work_breaksWritten fun _ hflow => hflow
  -- what is no task of statements gives no flow
  | _ => exact secures_trivial fun _ _ => trivial

/-- **A block ends with a break only if it has one that belongs to nothing in it**, from whatever
state it is run. -/
theorem block_ne_broken {body : Block} (hbound : ¬ HasUnbound body.breaks) (fuel : Nat)
    (state later : State) : Eval.block fuel body state ≠ .done .broken later := by
  intro hends
  have hrun : (Task.block body).run fuel state = .done .broken later := hends
  exact hbound (breaksWritten_sound.ensured trivial hrun rfl)

end BreaksWritten

/-! ## The loop that a break ends -/

/-- Whether a statement is a loop of one of the three kinds. -/
def Statement.isLoop : Statement → Bool
  | .while_ _ _ _ | .repeat_ _ _ _ | .for_ _ _ _ _ _ _ => true
  | _ => false

theorem Statement.not_hasUnbound_loop {tree : Statement} (hloop : tree.isLoop = true) :
    ¬ HasUnbound tree.breaks := by
  rintro ⟨around, haround, hunbound⟩
  have hmember : .loop ∈ around := by
    cases tree with
    | while_ guard body position | repeat_ body guard position
    | for_ name start limit step body position =>
        obtain ⟨inner, -, rfl⟩ := List.mem_map.mp haround
        simp
    | _ => cases hloop
  rcases hunbound .loop hmember with hplace | hplace <;> cases hplace

/-- **A loop never ends with a break**, whatever is in it. -/
theorem loop_ne_broken {tree : Statement} (hloop : tree.isLoop = true) (fuel : Nat)
    (state later : State) : Eval.statement fuel tree state ≠ .done .broken later := by
  intro hends
  have hrun : (Task.statement tree).run fuel state = .done .broken later := hends
  exact Statement.not_hasUnbound_loop hloop (breaksWritten_sound.ensured trivial hrun rfl)

/-- The state with the innermost frames gone. -/
def State.withoutFrames (state : State) (count : Nat) : State :=
  { state with scope := { state.scope with frames := state.scope.frames.drop count } }

@[simp] theorem State.leaveLoop_withoutFrames (state : State) (count : Nat) :
    (state.withoutFrames count).leaveLoop = state.withoutFrames (count + 1) := by
  simp [State.leaveLoop, Scope.leaveLoop, State.withoutFrames, List.tail_drop]

namespace Task

/-- The tasks with which a `break` is shared: blocks, branches and statements that are no loop, and
the rounds of a loop. -/
def SharesBreaks : {α : Type} → Task α → Prop
  | _, .block _ | _, .statements _ | _, .branches _ _ | _, .whileLoop _ _ | _, .repeatLoop _ _
  | _, .forLoop _ _ _ _ _ _ => True
  | _, .statement tree => tree.isLoop = false
  | _, _ => False

/-- The task is to execute a `break`. -/
def IsBreak : {α : Type} → Task α → Prop
  | _, .statement (.break_ _) => True
  | _, _ => False

/-- The flow that a task of statements ends with. -/
def flow? : {α : Type} → Task α → α → Option Flow
  | _, .block _, flow => some flow
  | _, .statements _, flow => some flow
  | _, .statement _, flow => some flow
  | _, .branches _ _, flow => some flow
  | _, .whileLoop _ _, flow => some flow
  | _, .repeatLoop _ _, flow => some flow
  | _, .forLoop _ _ _ _ _ _, flow => some flow
  | _, _, _ => none

/-- The task is one of statements. -/
def GivesFlow {α : Type} (task : Task α) : Prop := ∃ value flow, task.flow? value = some flow

theorem SharesBreaks.givesFlow {α : Type} {task : Task α} (hshares : task.SharesBreaks) :
    task.GivesFlow := by
  cases task with
  | block _ | statements _ | statement _ | branches _ _ | whileLoop _ _ | repeatLoop _ _
  | forLoop _ _ _ _ _ _ => exact ⟨.normal, .normal, rfl⟩
  | _ => exact hshares.elim

/-- How a task ends when a `break` is executed that it shares or is the loop of. -/
def onBreak : {α : Type} → Task α → Flow
  | _, .whileLoop _ _ | _, .repeatLoop _ _ | _, .forLoop _ _ _ _ _ _ => .normal
  | _, .statement tree => if tree.isLoop then .normal else .broken
  | _, _ => .broken

variable {α β : Type}

/-- From a state the task ends at the moment of a `break`: nothing is done after it but to leave the
frames entered since. -/
def EndsAt (task : Task α) (fuel : Nat) (state moment : State) : Prop :=
  ∃ value count, task.run fuel state = .done value (moment.withoutFrames count) ∧
    task.flow? value = some task.onBreak

/-- Wherever a `break` is executed that is shared with the task, its moment is as `ending` says. -/
abbrev EachBreak (ending : State → Prop) (fuel : Nat) (task : Task α) (state : State) : Prop :=
  task.Along SharesBreaks
    (fun remaining _ part moment => part.IsBreak → 0 < remaining → ending moment) fuel state

theorem EachBreak.imp {before after : State → Prop} {fuel : Nat} {task : Task α} {state : State}
    (heach : task.EachBreak before fuel state)
    (himplies : ∀ moment, before moment → after moment) : task.EachBreak after fuel state := by
  refine heach.mono ?_
  intro _ _ _ moment hends hbreak hremaining
  exact himplies moment (hends hbreak hremaining)

end Task

/-! ### Plans that stop at a break -/

/-- After a part that ends with a shared `break` the plan gives `ending` and requests nothing
more. -/
def Plan.StopsWith : {α : Type} → Plan α → α → Prop
  | _, .give _, _ => True
  | _, .perform _ next, ending => ∀ value, (next value).StopsWith ending
  | _, .request task next, ending =>
    (task.SharesBreaks → ∀ value, task.flow? value = some task.onBreak →
      next value = .give ending) ∧
      ∀ value, (next value).StopsWith ending
  | _, .within inner leave next, ending =>
    leave = State.leaveLoop ∧
      (∃ innerEnding, inner.StopsWith innerEnding ∧ next innerEnding = .give ending) ∧
      ∀ value, (next value).StopsWith ending

namespace Plan

variable {α β : Type}

@[simp] theorem stopsWith_pure (value ending : α) : (pure value : Plan α).StopsWith ending :=
  trivial

@[simp] theorem stopsWith_act_bind (action : Action β) (further : β → Plan α) (ending : α) :
    (act action >>= further).StopsWith ending ↔ ∀ value, (further value).StopsWith ending := Iff.rfl

@[simp] theorem stopsWith_act (action : Action α) (ending : α) : (act action).StopsWith ending :=
  fun _ => trivial

@[simp] theorem stopsWith_work_bind (task : Task β) (further : β → Plan α) (ending : α) :
    (work task >>= further).StopsWith ending ↔
      (task.SharesBreaks → ∀ value, task.flow? value = some task.onBreak →
        further value = pure ending) ∧
        ∀ value, (further value).StopsWith ending := Iff.rfl

@[simp] theorem stopsWith_work (task : Task α) (ending : α) :
    (work task).StopsWith ending ↔
      (task.SharesBreaks → ∀ value, task.flow? value = some task.onBreak → value = ending) := by
  constructor
  · intro hstops hshares value hflow
    exact Plan.give.inj (hstops.1 hshares value hflow)
  · intro hstops
    refine ⟨fun hshares value hflow => ?_, fun _ => trivial⟩
    rw [hstops hshares value hflow]

theorem stopsWith_inLoopFrame {keyword : LoopKeyword} {inner : Plan α} {ending : α}
    (hinner : inner.StopsWith ending) : (inLoopFrame keyword inner).StopsWith ending :=
  fun _ => ⟨rfl, ⟨ending, hinner, rfl⟩, fun _ => trivial⟩

/-- Every shared `break` that is executed when such a plan is carried out ends it there. -/
theorem StopsWith.requests {fuel : Nat}
    (hparts : ∀ {β : Type} (part : Task β) (inner : State), part.SharesBreaks →
      part.EachBreak (part.EndsAt fuel inner) fuel inner)
    {plan : Plan α} {ending : α} (hstops : plan.StopsWith ending) (state : State) :
    plan.Requests (Task.run fuel)
      (fun part inner => part.SharesBreaks → part.EachBreak (fun moment => ∃ count,
        plan.carryOut (Task.run fuel) state = .done ending (moment.withoutFrames count)) fuel inner)
      state := by
  -- along the plan what follows a shared `break` is nothing but its ending, so the whole ends as
  -- the part did
  induction plan generalizing state with
  | give value => trivial
  | perform action next ih =>
      intro value later hends
      refine (ih value (hstops value) later).mono ?_
      intro β part inner hpart hshares
      refine (hpart hshares).imp fun moment hmoment => ?_
      obtain ⟨count, hnext⟩ := hmoment
      exact ⟨count, Action.bind_eq_done.mpr ⟨value, later, hends, hnext⟩⟩
  | request task next ih =>
      refine ⟨fun hshares => ?_, fun value later hends => ?_⟩
      · refine (hparts task state hshares).imp fun moment hmoment => ?_
        obtain ⟨value, count, hends, hflow⟩ := hmoment
        refine ⟨count, Action.bind_eq_done.mpr ⟨value, _, hends, ?_⟩⟩
        rw [hstops.1 hshares value hflow]
        rfl
      · refine (ih value (hstops.2 value) later).mono ?_
        intro β part inner hpart hshares
        refine (hpart hshares).imp fun moment hmoment => ?_
        obtain ⟨count, hnext⟩ := hmoment
        exact ⟨count, Action.bind_eq_done.mpr ⟨value, later, hends, hnext⟩⟩
  -- leaving the loop takes one more frame off the state in which the `break` was met
  | within inner leave next ihInner ih =>
      obtain ⟨rfl, ⟨innerEnding, hinner, hnext⟩, hstopsNext⟩ := hstops
      refine ⟨(ihInner hinner state).mono ?_, fun value later hends => ?_⟩
      · intro β part between hpart hshares
        refine (hpart hshares).imp fun moment hmoment => ?_
        obtain ⟨count, hends⟩ := hmoment
        refine ⟨count + 1, Action.bind_eq_done.mpr ⟨innerEnding, moment.withoutFrames (count + 1),
          Action.finally_eq_done.mpr ⟨_, hends, by simp⟩, ?_⟩⟩
        rw [hnext]
        rfl
      · refine (ih value (hstopsNext value) later.leaveLoop).mono ?_
        intro β part between hpart hshares
        refine (hpart hshares).imp fun moment hmoment => ?_
        obtain ⟨count, hrest⟩ := hmoment
        exact ⟨count, Action.bind_eq_done.mpr ⟨value, later.leaveLoop,
          Action.finally_eq_done.mpr ⟨later, hends, rfl⟩, hrest⟩⟩

end Plan

namespace Task

/-- A statement shares its `break` with what it is made of, and a loop takes it. -/
theorem ofStatement_stopsWith (tree : Statement) :
    (ofStatement tree).StopsWith (Task.statement tree).onBreak := by
  cases tree with
  | while_ guard body position | repeat_ body guard position | do_ body position =>
      apply Plan.stopsWith_inLoopFrame
      simp [flow?, onBreak, Statement.isLoop]
  | for_ name start limit step body position =>
      simp only [ofStatement, Plan.stopsWith_work_bind, SharesBreaks, false_implies, true_and]
      intro first last increment
      -- a step that does not move is a fault, and no round is begun
      cases Eval.ascending? increment with
      | none => simp
      | some ascending =>
          apply Plan.stopsWith_inLoopFrame
          simp [flow?, onBreak, Statement.isLoop]
  | _ => simp [ofStatement, SharesBreaks, flow?, onBreak, Statement.isLoop]

theorem ofBranches_stopsWith (options : List Branch) (otherwise : Option Block) :
    (ofBranches options otherwise).StopsWith .broken := by
  cases options with
  | nil => cases otherwise <;> simp [ofBranches, flow?, onBreak]
  | cons first rest =>
      obtain ⟨guard, body⟩ := first
      simp only [ofBranches, Plan.stopsWith_work_bind, SharesBreaks, false_implies, true_and]
      intro verdict
      split <;> simp [flow?, onBreak]

/-- A round of a loop that ends with a `break` is the last. -/
theorem round_stopsWith {body : Block} {again : Plan Flow} (hagain : again.StopsWith .normal) :
    (Plan.work (.block body) >>= afterRound again).StopsWith .normal := by
  rw [Plan.stopsWith_work_bind]
  refine ⟨fun _ flow hflow => ?_, fun flow => ?_⟩
  · cases hflow
    rfl
  · cases flow with
    | normal => exact hagain
    | broken | returned value => exact Plan.stopsWith_pure _ _

/-- Whatever shares a `break`, or is the loop of one, stops there. -/
theorem plan_stopsWith {α : Type} {task : Task α} (hflow : task.GivesFlow) :
    ∃ ending, task.flow? ending = some task.onBreak ∧ task.plan.StopsWith ending := by
  cases task with
  | block body =>
      obtain ⟨body, result⟩ := body
      refine ⟨.broken, rfl, ?_⟩
      simp only [plan, Plan.stopsWith_work_bind]
      refine ⟨fun _ flow hflow => ?_, fun flow => ?_⟩
      · cases hflow
        rfl
      · cases flow with
        | normal => cases result <;> simp [SharesBreaks]
        | broken | returned value => exact Plan.stopsWith_pure _ _
  | statements body =>
      refine ⟨.broken, rfl, ?_⟩
      cases body with
      | nil => exact Plan.stopsWith_pure _ _
      | cons first rest =>
          simp only [plan, Plan.stopsWith_work_bind]
          refine ⟨fun hshares flow hflow => ?_, fun flow => ?_⟩
          · -- the first statement shares its `break`, so it is no loop and ends as `broken`
            have hbroken : flow = .broken := by
              simpa [flow?, onBreak, show first.isLoop = false from hshares] using hflow
            rw [hbroken]
          · cases flow with
            | normal => simp [flow?, onBreak]
            | broken | returned value => exact Plan.stopsWith_pure _ _
  | statement tree => exact ⟨_, rfl, ofStatement_stopsWith tree⟩
  | branches options otherwise => exact ⟨_, rfl, ofBranches_stopsWith options otherwise⟩
  -- the guard is an expression and shares none; the `break` comes from the block of a round
  | whileLoop guard body =>
      refine ⟨.normal, rfl, ?_⟩
      simp only [plan, Plan.stopsWith_work_bind, SharesBreaks, false_implies, true_and]
      intro verdict
      split
      · refine round_stopsWith ?_
        simp [flow?, onBreak]
      · simp
  | repeatLoop body guard =>
      refine ⟨.normal, rfl, round_stopsWith ?_⟩
      simp only [Plan.stopsWith_work_bind, SharesBreaks, false_implies, true_and]
      intro verdict
      split <;> simp [flow?, onBreak]
  | forLoop position name ascending limit step body =>
      refine ⟨.normal, rfl, ?_⟩
      simp only [plan, Plan.stopsWith_act_bind]
      intro counter
      split
      · simp
      · refine round_stopsWith ?_
        simp only [Plan.stopsWith_act_bind]
        intro current next
        cases next <;> simp [flow?, onBreak]
  | _ => simp [GivesFlow, flow?] at hflow

theorem IsBreak.endsAt {α : Type} {task : Task α} (hbreak : task.IsBreak) (fuel : Nat)
    (state : State) : task.EndsAt (fuel + 1) state state := by
  cases task with
  | statement tree =>
      cases tree with
      | break_ position => exact ⟨.broken, 0, rfl, rfl⟩
      | _ => exact hbreak.elim
  | _ => exact hbreak.elim

/-- Every task of statements is ended by a shared `break`, in the state of that moment less the
frames entered since. -/
theorem eachBreak {α : Type} {task : Task α} (hflow : task.GivesFlow) (fuel : Nat) (state : State) :
    task.EachBreak (task.EndsAt fuel state) fuel state := by
  induction fuel generalizing α state with
  | zero => exact fun _ hfuel => absurd hfuel (Nat.lt_irrefl 0)
  | succ fuel ih =>
      -- a `break` is either this task itself, or one in a part that the plan stops with
      obtain ⟨ending, hending, hstops⟩ := plan_stopsWith hflow
      refine ⟨fun hbreak _ => hbreak.endsAt fuel state, ?_⟩
      have hparts := hstops.requests (fun part inner hshares => ih hshares.givesFlow inner) state
      refine hparts.mono ?_
      intro β part inner hpart hshares
      refine (hpart hshares).imp fun moment hmoment => ?_
      obtain ⟨count, hends⟩ := hmoment
      exact ⟨ending, count, by rw [run_succ, hends], hending⟩

/-- **A break ends its loop.**  At every `break` that is executed in a loop, and in no loop further
in, the loop ends normally: in the state of that moment, less the frames entered since. -/
theorem eachBreak_loop {tree : Statement} (hloop : tree.isLoop = true) (fuel : Nat)
    (state : State) :
    (Task.statement tree).EachBreak (fun moment => ∃ count,
      Eval.statement fuel tree state = .done .normal (moment.withoutFrames count)) fuel state := by
  have hgives : (Task.statement tree).GivesFlow := ⟨.normal, .normal, rfl⟩
  refine (eachBreak hgives fuel state).imp fun moment hmoment => ?_
  obtain ⟨flow, count, hends, hflow⟩ := hmoment
  obtain rfl : flow = .normal := by simpa [flow?, onBreak, hloop] using hflow
  exact ⟨count, hends⟩

/-- The function that is called. -/
def callee? : {α : Type} → Task α → Option Function
  | _, .call _ function _ => some function
  | _, _ => none

theorem definitions_of_callee? {α : Type} {task : Task α} {function : Function}
    (hcallee : task.callee? = some function) : task.definitions = [function] := by
  cases task with
  | call position called arguments =>
      cases hcallee
      rfl
  | _ => cases hcallee

end Task

/-! ## Programs -/

theorem parse_of_compile {source : String} {program : Block}
    (hcompile : compile source = .ok program) : ∃ tokens, parse tokens = .ok program := by
  unfold compile at hcompile
  split at hcompile
  · next tokens _ => exact ⟨tokens, hcompile⟩
  · cases hcompile

/-- **A break goes no further than its loop.**  In every program that is compiled each `break` has a
loop around it in its own function.  So neither the program nor a function of it ends with a
`break`, and these functions are all that is ever called; no loop ends with one either, and a
`break` that is executed ends the innermost loop around it, normally and at once. -/
theorem break_contained {source : String} {program : Block}
    (hcompile : compile source = .ok program) :
    (∀ around ∈ program.breaks, InOwnLoop around) ∧
    (∀ fuel state later, Eval.block fuel program state ≠ .done .broken later) ∧
    (∀ function ∈ program.definitions, ∀ fuel state later,
      Eval.block fuel function.body state ≠ .done .broken later) ∧
    (∀ fuel (state : State), (Task.block program).Throughout (fun _ _ task _ =>
      ∀ function ∈ task.callee?, function ∈ program.definitions) fuel state.restart) ∧
    ∀ tree : Statement, tree.isLoop = true → ∀ fuel state,
      (∀ later, Eval.statement fuel tree state ≠ .done .broken later) ∧
      (Task.statement tree).EachBreak (fun moment => ∃ count,
        Eval.statement fuel tree state = .done .normal (moment.withoutFrames count))
        fuel state := by
  obtain ⟨tokens, hparse⟩ := parse_of_compile hcompile
  have hbound := inOwnLoop_of_parse hparse
  -- that every `break` has its loop is what the parser checks; the rest follows from it for all
  -- runs
  refine ⟨hbound, block_ne_broken (not_hasUnbound_program hbound), ?_, ?_, ?_⟩
  · intro function hfunction
    exact block_ne_broken (not_hasUnbound_function hbound hfunction)
  · intro fuel state
    refine (called_mem_definitions program fuel state).mono ?_
    intro _ _ task _ hdefinitions function hcallee
    rw [Task.definitions_of_callee? hcallee] at hdefinitions
    exact hdefinitions (List.mem_singleton_self function)
  · intro tree hloop fuel state
    exact ⟨loop_ne_broken hloop fuel state, Task.eachBreak_loop hloop fuel state⟩

/-- A loop in a function, left by a `break` inside a choice and a block of its own. -/
def leavingLoop : String := "function f() while true do do if true then break end end end end f()"

/-- It is compiled, so every `break` in it has its loop, and it never ends with one. -/
theorem break_contained_leavingLoop :
    ∃ program, compile leavingLoop = .ok program ∧
      program.breaks = [[.branch, .block, .loop, .function]] ∧
      (∀ around ∈ program.breaks, InOwnLoop around) ∧
      ∀ fuel state later, Eval.block fuel program state ≠ .done .broken later := by
  have hread : (compile leavingLoop).toOption.map Block.breaks =
      some [[.branch, .block, .loop, .function]] := by decide +kernel
  obtain ⟨program, hsome, hbreaks⟩ := Option.map_eq_some_iff.mp hread
  have hcompile : compile leavingLoop = .ok program := by
    cases hresult : compile leavingLoop with
    | ok compiled =>
        rw [hresult] at hsome
        rw [Option.some.inj hsome]
    | error diagnostics =>
        rw [hresult] at hsome
        cases hsome
  obtain ⟨hloops, hends, -⟩ := break_contained hcompile
  exact ⟨program, hcompile, hbreaks, hloops, hends⟩

end TableScript
