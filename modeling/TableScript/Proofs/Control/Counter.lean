import TableScript.Proofs.Control.Progression
import TableScript.Proofs.Values.Order
import TableScript.Proofs.Values.Scalars

/-!
# The counter of a loop

A counting loop has its counter in a variable that its block can set to anything, and it reads the
variable anew before each test of the limit.  Still what it tests is a number.  The loop stores the
counter itself just before it tests it, and what it stores is a bound of its head or the result of
an addition.  A block that leaves something else in the variable is found out by the addition, which
fails.

The moments at which the limit is tested are those of `CountingLoop.Tests`: each follows from the
one before by a run of the block and a step.  That these are all, and that the loop does come to
them, is part of the result, `counter_stays_numeric`.
-/

namespace TableScript

/-! ## What can be counted on from -/

/-- Whether arithmetic takes a value: a number, or a text that is a decimal numeral. -/
def Value.isNumeric : Value → Bool
  | .string text => (Number.parseFloat? text).isSome
  | value => value.isNumber

/-- Arithmetic says of a value that it does not take that its type or its form is wrong. -/
theorem Operator.toFloat_of_not_isNumeric {operand : Value} (hoperand : operand.isNumeric = false)
    (operator : BinaryOperator) :
    ∃ cause, toFloat operator operand = .error cause ∧
      (cause.kind = .type ∨ cause.kind = .format) := by
  cases operand with
  | integer | float => cases hoperand
  | string text =>
      have hnone : Number.parseFloat? text = none := by simpa [Value.isNumeric] using hoperand
      refine ⟨.notDecimal operator text, ?_, .inr rfl⟩
      rw [toFloat, hnone]
  | nil | boolean | table | list => exact ⟨_, rfl, .inl rfl⟩

namespace Eval

theorem advance_of_not_isNumeric {counter : Value} (hcounter : counter.isNumeric = false)
    (step : Value) :
    ∃ cause, advance counter step = .error cause ∧
      (cause.kind = .type ∨ cause.kind = .format) := by
  obtain ⟨cause, hfails, hkind⟩ := Operator.toFloat_of_not_isNumeric hcounter .add
  refine ⟨cause, ?_, hkind⟩
  cases counter with
  | integer value => cases hcounter
  | _ =>
      simp only [advance, Operator.arithmetic, hfails]
      rfl

end Eval

/-! ## The tests of a limit -/

/-- A block leaves the frames that it finds. -/
theorem localChange_of_block {body : Block} {state later : State} {flow : Flow}
    (hends : (Task.block body).outcome state = .done flow later) : LocalChange state later :=
  Task.outcome_keeps hends fun fuel => (balance.kept fuel).block body

/-- To read a variable as a whole is to look it up. -/
theorem Action.readVariable_whole (position : Position) (name : String) (state : State) :
    readVariable position name [] state = .done (state.scope.lookup name) state := rfl

theorem State.lookup_declare_self (state : State) (name : String) (value : Value) :
    (state.declare name value).scope.lookup name = value := by
  unfold State.declare Scope.declare Scope.lookup
  cases state.scope.frames with
  | nil => simp [Frames.find?, Bindings.find?_insert]
  | cons frame rest => simp [Frames.find?, Bindings.find?_insert]

/-- A counting loop whose head has been evaluated. -/
structure CountingLoop where
  position : Position
  name : String
  ascending : Bool
  limit : Value
  step : Value
  body : Block

/-- The loop that a task goes on with, beginning with a test of its limit. -/
def Task.loop? : {α : Type} → Task α → Option CountingLoop
  | _, .forLoop position name ascending limit step body =>
    some ⟨position, name, ascending, limit, step, body⟩
  | _, _ => none

namespace CountingLoop

/-- To go on with a loop, beginning with a test of its limit. -/
def task (loop : CountingLoop) : Task Flow :=
  .forLoop loop.position loop.name loop.ascending loop.limit loop.step loop.body

/-- The tests of its limit that a loop comes to: what it stored in its variable before, and the
state in which it reads the variable.  The first is made when the first number is stored in the
frame of the loop.  Another follows if the limit was not passed, the block ended normally, and a
step led on from what it left in the variable. -/
inductive Tests (loop : CountingLoop) (first : Value) (ready : State) : Value → State → Prop
  | start : Tests loop first ready first ((ready.enterLoop .for_).declare loop.name first)
  | again {counter next : Value} {moment later : State}
      (htest : Tests loop first ready counter moment)
      (hgoesOn : Eval.hasPassed loop.ascending (moment.scope.lookup loop.name) loop.limit = false)
      (hround : (Task.block loop.body).outcome moment = .done .normal later)
      (hadvance : Eval.advance (later.scope.lookup loop.name) loop.step = .ok (some next)) :
      Tests loop first ready next (later.declare loop.name next)

variable {loop : CountingLoop} {first counter : Value} {ready moment later : State}

/-- A round that ends normally leaves the loop where it adds its step. -/
theorem outcome_of_round
    (hgoesOn : Eval.hasPassed loop.ascending (moment.scope.lookup loop.name) loop.limit = false)
    (hround : (Task.block loop.body).outcome moment = .done .normal later) :
    loop.task.outcome moment =
      Counting.nextRound loop.position loop.name loop.ascending loop.limit loop.step loop.body
        later := by
  rw [task, Counting.outcome_forLoop, Action.bind_of_done (Action.readVariable_whole _ _ _),
    hgoesOn]
  exact Action.bind_of_done hround

/-- If a step leads on, the loop comes to its next test. -/
theorem nextRound_eq {next : Value}
    (hadvance : Eval.advance (later.scope.lookup loop.name) loop.step = .ok (some next)) :
    Counting.nextRound loop.position loop.name loop.ascending loop.limit loop.step loop.body later =
      loop.task.outcome (later.declare loop.name next) := by
  rw [Counting.nextRound, Action.bind_of_done (Action.readVariable_whole _ _ _), hadvance]
  rfl

/-- If the addition fails, so does the loop, where it is written. -/
theorem nextRound_of_error {cause : Cause}
    (hadvance : Eval.advance (later.scope.lookup loop.name) loop.step = .error cause) :
    Counting.nextRound loop.position loop.name loop.ascending loop.limit loop.step loop.body later =
      .failed ⟨cause, loop.position⟩ later := by
  rw [Counting.nextRound, Action.bind_of_done (Action.readVariable_whole _ _ _), hadvance]
  rfl

namespace Tests

/-- What is read is what was stored. -/
theorem lookup_eq (htest : loop.Tests first ready counter moment) :
    moment.scope.lookup loop.name = counter := by
  cases htest with
  | start => exact State.lookup_declare_self _ _ _
  | again => exact State.lookup_declare_self _ _ _

theorem isNumber (hfirst : first.isNumber = true) (htest : loop.Tests first ready counter moment) :
    counter.isNumber = true := by
  cases htest with
  | start => exact hfirst
  | again _ _ _ hadvance => exact Eval.advance_isNumber hadvance

/-- The frame of the loop is the innermost one, whatever the block did. -/
theorem localChange (htest : loop.Tests first ready counter moment) :
    LocalChange (ready.enterLoop .for_) moment := by
  induction htest with
  | start => exact localChange_declare _ _ _
  | again _ _ hround _ ih =>
      exact (ih.trans (localChange_of_block hround)).trans (localChange_declare _ _ _)

/-- From every test on, the loop ends as it does from the first one. -/
theorem outcome_eq (htest : loop.Tests first ready counter moment) :
    loop.task.outcome ((ready.enterLoop .for_).declare loop.name first) =
      loop.task.outcome moment := by
  induction htest with
  | start => rfl
  | again _ hgoesOn hround hadvance ih =>
      exact ih.trans ((outcome_of_round hgoesOn hround).trans (nextRound_eq hadvance))

end Tests

/-! ### All tests -/

/-- At the moments at which a run goes on with a loop, it is this loop, and its limit is tested. -/
abbrev OnlyTests (loop : CountingLoop) (first : Value) (ready : State) (_ : Nat) {α : Type}
    (part : Task α) (moment : State) : Prop :=
  ∀ found ∈ part.loop?, found = loop ∧ ∃ counter, loop.Tests first ready counter moment

/-- Other tasks do not go on with a loop. -/
theorem not_goesOn {α : Type} {part : Task α} (hother : part.loop? = none) {goal : Prop}
    (hgoesOn : part.loop?.isSome = true) : goal := by
  rw [hother] at hgoesOn
  cases hgoesOn

theorem onlyTests_other {α : Type} {part : Task α} (hother : part.loop? = none) (fuel : Nat) :
    loop.OnlyTests first ready fuel part moment := by
  intro found hfound
  rw [hother] at hfound
  cases hfound

theorem onlyTests_task (htest : loop.Tests first ready counter moment) (fuel : Nat) :
    loop.OnlyTests first ready fuel loop.task moment := by
  rintro found hfound
  cases hfound
  exact ⟨rfl, counter, htest⟩

/-- A run that goes on with the loop from one of its tests comes to nothing but tests.  The
induction is on the fuel. -/
theorem along_tests (fuel : Nat) (htest : loop.Tests first ready counter moment) :
    loop.task.Along (fun part => part.loop?.isSome) (loop.OnlyTests first ready) fuel moment := by
  induction fuel generalizing counter moment with
  | zero => exact onlyTests_task htest 0
  | succ fuel ih =>
      refine ⟨onlyTests_task htest _, ?_⟩
      simp only [task, Task.plan, Plan.requests_bind, Plan.requests_act, Plan.carryOut_act,
        Action.readVariable_eq_done, true_and]
      -- what is read is the counter of this test, since reading changes nothing
      rintro found _ ⟨hfound, rfl⟩
      cases hfound
      split
      · trivial
      · next hgoesOn =>
        simp only [Plan.requests_bind, Plan.requests_work, Plan.carryOut_work]
        -- no task in the block goes on with this loop, whatever loops it has of its own
        refine ⟨not_goesOn rfl, fun flow later hends => ?_⟩
        cases flow with
        | broken | returned value => trivial
        | normal =>
            simp only [Task.afterRound, Plan.requests_bind, Plan.requests_act, Plan.carryOut_act,
              Action.readVariable_eq_done, Action.check_eq_done, true_and]
            rintro current _ ⟨hcurrent, rfl⟩ next _ ⟨hnext, rfl⟩
            cases hcurrent
            cases next with
            | none => trivial
            | some value =>
                simp only [Plan.requests_bind, Plan.requests_act, Plan.requests_work,
                  Plan.carryOut_act, Action.change_eq_done, true_and]
                rintro _ _ rfl -
                have hround := Task.outcome_of_run fuel hends
                -- the next test is one from which the run goes on, and it has less fuel
                exact ih (htest.again (by simpa using hgoesOn) hround hnext)

/-! ### The statement -/

/-- The statement of a loop with a head. -/
def statement (loop : CountingLoop) (start stop : Expression) (increment : Option Expression) :
    Statement :=
  .for_ loop.name start stop increment loop.body loop.position

section Statement

variable {start stop : Expression} {increment : Option Expression}
  {state afterFirst afterLimit : State}
  (hfirst : (Task.bound .start start).outcome state = .done first afterFirst)
  (hlimit : (Task.bound .limit stop).outcome afterFirst = .done loop.limit afterLimit)
  (hincrement : (Task.stepBound increment).outcome afterLimit = .done loop.step ready)

include hfirst hlimit hincrement

/-- The head leaves the stack alone. -/
theorem sameStack_ready : SameStack state ready := by
  have hstart : SameStack state afterFirst :=
    Task.outcome_keeps hfirst fun fuel => (balance.kept fuel).bound .start start
  have hstop : SameStack afterFirst afterLimit :=
    Task.outcome_keeps hlimit fun fuel => (balance.kept fuel).bound .limit stop
  have hstep : SameStack afterLimit ready :=
    Task.outcome_keeps hincrement fun fuel => (balance.kept fuel).stepBound increment
  exact ⟨hstep.frames.trans (hstop.frames.trans hstart.frames),
    hstep.callDepth.trans (hstop.callDepth.trans hstart.callDepth)⟩

variable (hascending : Eval.ascending? loop.step = some loop.ascending)

include hascending

/-- The statement comes to no moments of its loop but the tests. -/
theorem along_statement (fuel : Nat) :
    (Task.statement (loop.statement start stop increment)).Along (fun part => part.loop?.isSome)
      (loop.OnlyTests first ready) fuel state := by
  cases fuel with
  | zero => exact onlyTests_other rfl 0
  | succ fuel =>
      refine ⟨onlyTests_other rfl _, ?_⟩
      simp only [statement, Task.plan, Task.ofStatement, Plan.requests_bind, Plan.requests_work,
        Plan.carryOut_work]
      refine ⟨not_goesOn rfl, fun _ _ hends => ?_⟩
      cases (Task.outcome_of_run fuel hends).symm.trans hfirst
      refine ⟨not_goesOn rfl, fun _ _ hends => ?_⟩
      cases (Task.outcome_of_run fuel hends).symm.trans hlimit
      refine ⟨not_goesOn rfl, fun _ _ hends => ?_⟩
      cases (Task.outcome_of_run fuel hends).symm.trans hincrement
      rw [hascending]
      simp only [Plan.requests_inLoopFrame, Plan.requests_bind, Plan.requests_act,
        Plan.requests_work, Plan.carryOut_act, Action.change_eq_done, true_and]
      rintro _ _ rfl -
      exact along_tests fuel .start

/-- From every test on, the statement ends as its loop does, and leaves the frame. -/
theorem outcome_statement (htest : loop.Tests first ready counter moment) :
    (Task.statement (loop.statement start stop increment)).outcome state =
      loop.task.outcome.finally_ State.leaveLoop moment := by
  rw [Task.outcome_eq]
  simp only [statement, Task.plan, Task.ofStatement, Plan.carryOut_bind, Plan.carryOut_work]
  rw [Action.bind_of_done hfirst, Action.bind_of_done hlimit, Action.bind_of_done hincrement,
    hascending]
  simp only [Plan.carryOut_inLoopFrame, Plan.carryOut_bind, Plan.carryOut_act, Plan.carryOut_work]
  exact Action.finally_congr htest.outcome_eq State.leaveLoop

/-- A block that leaves in the variable what cannot be counted on from makes the statement fail.  No
round follows, and the frame is left. -/
theorem failed_of_not_isNumeric (htest : loop.Tests first ready counter moment)
    (hgoesOn : Eval.hasPassed loop.ascending (moment.scope.lookup loop.name) loop.limit = false)
    (hround : (Task.block loop.body).outcome moment = .done .normal later)
    (hleft : (later.scope.lookup loop.name).isNumeric = false) :
    ∃ cause, (cause.kind = .type ∨ cause.kind = .format) ∧
      (Task.statement (loop.statement start stop increment)).outcome state =
        .failed ⟨cause, loop.position⟩ later.leaveLoop ∧
      LocalChange state later.leaveLoop := by
  obtain ⟨cause, hadvance, hkind⟩ := Eval.advance_of_not_isNumeric hleft loop.step
  refine ⟨cause, hkind, ?_, ?_⟩
  · have hfails : loop.task.outcome moment = .failed ⟨cause, loop.position⟩ later :=
      (outcome_of_round hgoesOn hround).trans (nextRound_of_error hadvance)
    rw [outcome_statement hfirst hlimit hincrement hascending htest, Action.finally_, hfails]
  · have hloop : LocalChange (ready.enterLoop .for_) later :=
      htest.localChange.trans (localChange_of_block hround)
    have hhead := sameStack_ready hfirst hlimit hincrement
    exact (LocalChange.of_sameStack hhead).trans (localChange_leaveLoop hloop)

end Statement

end CountingLoop

/-! ## The result -/

/-- **What a counting loop tests is a number, whatever its block does.**  Let the head of a loop
evaluate to valid bounds.  A run of the statement goes on with the loop at its tests only, and each
of these is a moment of the run, from which the statement ends as the loop does.  At each of them

* the frame of the loop is the innermost one, behind it the frames there were;
* what is read from the variable is what the loop stored in it: the first number, or what a step led
  on to;
* it is a number, as the limit is, so that the two are compared by magnitude;
* if the limit is not passed and the block ends normally and leaves in the variable neither a number
  nor the text of one, the statement fails where it is written, for a type or a form that is wrong.
  The state is that in which the block ended, without the frame of the loop. -/
theorem counter_stays_numeric {loop : CountingLoop} {start stop : Expression}
    {increment : Option Expression} {first : Value} {state afterFirst afterLimit ready : State}
    (hfirst : (Task.bound .start start).outcome state = .done first afterFirst)
    (hlimit : (Task.bound .limit stop).outcome afterFirst = .done loop.limit afterLimit)
    (hincrement : (Task.stepBound increment).outcome afterLimit = .done loop.step ready)
    (hascending : Eval.ascending? loop.step = some loop.ascending) :
    (∀ fuel, (Task.statement (loop.statement start stop increment)).Along
      (fun part => part.loop?.isSome) (loop.OnlyTests first ready) fuel state) ∧
    ∀ counter moment, loop.Tests first ready counter moment →
      (Task.statement (loop.statement start stop increment)).outcome state =
        loop.task.outcome.finally_ State.leaveLoop moment ∧
      moment.scope.frames.map Frame.kind =
        .loop .for_ :: state.scope.frames.map Frame.kind ∧
      moment.read loop.name [] = .ok counter ∧
      counter.isNumber = true ∧
      loop.limit.isNumber = true ∧
      counter.compare loop.limit = counter.compareMagnitudes loop.limit ∧
      (Eval.hasPassed loop.ascending counter loop.limit = false →
        ∀ later, (Task.block loop.body).outcome moment = .done .normal later →
          (later.scope.lookup loop.name).isNumeric = false →
          ∃ cause, (cause.kind = .type ∨ cause.kind = .format) ∧
            (Task.statement (loop.statement start stop increment)).outcome state =
              .failed ⟨cause, loop.position⟩ later.leaveLoop ∧
            later.leaveLoop.scope.frames.map Frame.kind = state.scope.frames.map Frame.kind) := by
  obtain ⟨_, -, -, hnumber⟩ := given_of_bound hfirst
  obtain ⟨_, -, -, hbounded⟩ := given_of_bound hlimit
  refine ⟨CountingLoop.along_statement hfirst hlimit hincrement hascending, ?_⟩
  -- each part is read off what a test knows of its moment
  intro counter moment htest
  have hread : moment.scope.lookup loop.name = counter := htest.lookup_eq
  have hcounter : counter.isNumber = true := htest.isNumber hnumber
  refine ⟨CountingLoop.outcome_statement hfirst hlimit hincrement hascending htest, ?_, ?_,
    hcounter, hbounded, Value.compare_of_isNumber hcounter hbounded, ?_⟩
  · -- the bounds leave the stack alone, and so do the rounds, up to what is bound in the frame
    have hhead := CountingLoop.sameStack_ready hfirst hlimit hincrement
    rw [htest.localChange.kinds, ← hhead.frames]
    rfl
  · rw [← hread]
    rfl
  · intro hgoesOn later hround hleft
    obtain ⟨cause, hkind, hfails, hstack⟩ := CountingLoop.failed_of_not_isNumeric hfirst hlimit
      hincrement hascending htest (hread ▸ hgoesOn) hround hleft
    exact ⟨cause, hkind, hfails, hstack.kinds⟩

/-- A loop from one to three whose block sets the counter to a text that is no numeral. -/
def CountingLoop.spoiled : CountingLoop where
  position := Position.start
  name := "i"
  ascending := true
  limit := .integer 3
  step := .integer 1
  body := .mk [.assign "i" [] (.string "two" .start) .start] none

/-- After its first round the loop fails, for the form of the text. -/
theorem counter_stays_numeric_unlessText :
    ∃ cause later, (Task.statement (CountingLoop.spoiled.statement (.number .integer "1" .start)
        (.number .integer "3" .start) none)).outcome (.start .plain 5 [] (.kept "")) =
          .failed ⟨cause, CountingLoop.spoiled.position⟩ later ∧
      later.scope.frames.map Frame.kind = [] := by
  have hfirst : (Task.bound .start (.number .integer "1" .start)).outcome
      (.start .plain 5 [] (.kept "")) = .done (.integer 1) (.start .plain 5 [] (.kept "")) :=
    Task.outcome_of_run 3 rfl
  have hlimit : (Task.bound .limit (.number .integer "3" .start)).outcome
      (.start .plain 5 [] (.kept "")) =
        .done CountingLoop.spoiled.limit (.start .plain 5 [] (.kept "")) :=
    Task.outcome_of_run 3 rfl
  have hincrement : (Task.stepBound none).outcome (.start .plain 5 [] (.kept "")) =
      .done CountingLoop.spoiled.step (.start .plain 5 [] (.kept "")) := Task.outcome_of_run 3 rfl
  obtain ⟨-, htests⟩ := counter_stays_numeric hfirst hlimit hincrement rfl
  obtain ⟨-, -, -, -, -, -, hfails⟩ := htests _ _ .start
  obtain ⟨cause, -, hends, hkinds⟩ := hfails rfl _ (Task.outcome_of_run 9 rfl) rfl
  exact ⟨cause, _, hends, hkinds⟩

end TableScript
