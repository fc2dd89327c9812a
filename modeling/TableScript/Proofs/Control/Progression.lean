import Mathlib.Tactic.Ring
import TableScript.Proofs.Control.Counting
import TableScript.Proofs.Run.Changes

/-!
# Counting by integers

A counting loop adds its step to what it finds in its variable, stops before the sum would leave the
range of integers, and tests the limit each time.  If all bounds are integers and the block leaves
the variable as it found it, all this comes to something simpler: the block is run once for each
number of a finite progression (`Counting.finally_forLoop`).  The progression is one of unbounded
integers, and its length is known beforehand.
-/

namespace TableScript

/-! ## Progressions -/

/-- A number is not beyond a limit, in the direction of a step. -/
def WithinLimit (limit step number : Int) : Prop :=
  if 0 < step then number ≤ limit else limit ≤ number

/-- The numbers from a first one on, a step apart, up to a limit. -/
def progression (first limit step : Int) : List Int :=
  (List.range ((limit - first).fdiv step + 1).toNat).map fun index : Nat => first + index * step

section Progression

variable {first limit step : Int}

/-- The floored quotient says how often a step fits. -/
theorem le_fdiv_iff (hstep : step ≠ 0) (count distance : Int) :
    count ≤ distance.fdiv step ↔
      if 0 < step then count * step ≤ distance else distance ≤ count * step := by
  by_cases hup : 0 < step
  · rw [if_pos hup, Int.fdiv_eq_ediv_of_nonneg distance hup.le]
    exact Int.le_ediv_iff_mul_le hup
  · have hdown : 0 < -step := by omega
    calc count ≤ distance.fdiv step
      _ ↔ count ≤ (-distance).fdiv (-step) := by rw [Int.neg_fdiv_neg]
      _ ↔ count ≤ -distance / -step := by rw [Int.fdiv_eq_ediv_of_nonneg _ hdown.le]
      _ ↔ count * -step ≤ -distance := Int.le_ediv_iff_mul_le hdown
      _ ↔ distance ≤ count * step := by rw [Int.mul_neg, Int.neg_le_neg_iff]
      _ ↔ _ := by rw [if_neg hup]

/-- The numbers of a progression are those before its limit. -/
theorem index_lt_count_iff (hstep : step ≠ 0) (index : Nat) :
    index < ((limit - first).fdiv step + 1).toNat ↔
      WithinLimit limit step (first + index * step) := by
  have hcount : index < ((limit - first).fdiv step + 1).toNat ↔
      (index : Int) ≤ (limit - first).fdiv step := by omega
  rw [hcount, le_fdiv_iff hstep, WithinLimit]
  split
  · omega
  · omega

theorem length_progression :
    ((progression first limit step).length : Int) = max 0 ((limit - first).fdiv step + 1) := by
  rw [progression, List.length_map, List.length_range]
  omega

theorem mem_progression (hstep : step ≠ 0) {number : Int} :
    number ∈ progression first limit step ↔
      ∃ index : Nat, number = first + index * step ∧ WithinLimit limit step number := by
  simp only [progression, List.mem_map, List.mem_range, index_lt_count_iff hstep]
  constructor
  · rintro ⟨index, hwithin, rfl⟩
    exact ⟨index, rfl, hwithin⟩
  · rintro ⟨index, rfl, hwithin⟩
    exact ⟨index, hwithin, rfl⟩

theorem getElem?_progression {index : Nat}
    (hindex : index < (progression first limit step).length) :
    (progression first limit step)[index]? = some (first + index * step) := by
  rw [progression, List.length_map, List.length_range] at hindex
  rw [progression, List.getElem?_map, List.getElem?_range hindex, Option.map_some]

/-- Beyond the limit there is no number. -/
theorem progression_of_beyond (hstep : step ≠ 0) (hbeyond : ¬ WithinLimit limit step first) :
    progression first limit step = [] := by
  have hnone : ¬ 0 < ((limit - first).fdiv step + 1).toNat := by
    rw [index_lt_count_iff hstep]
    simpa using hbeyond
  rw [progression, Nat.eq_zero_of_not_pos hnone]
  rfl

/-- Before the limit there is the first number, and the others begin a step further. -/
theorem progression_of_within (hstep : step ≠ 0) (hwithin : WithinLimit limit step first) :
    progression first limit step = first :: progression (first + step) limit step := by
  have hsome : 0 < ((limit - first).fdiv step + 1).toNat := by
    rw [index_lt_count_iff hstep]
    simpa using hwithin
  have hless : (limit - (first + step)).fdiv step = (limit - first).fdiv step - 1 := by
    calc (limit - (first + step)).fdiv step
      _ = (limit - first - 1 * step).fdiv step := by ring_nf
      _ = (limit - first).fdiv step - 1 := Int.sub_mul_fdiv_right _ 1 hstep
  have hcount : ((limit - first).fdiv step + 1).toNat =
      ((limit - (first + step)).fdiv step + 1).toNat + 1 := by omega
  rw [progression, hcount, List.range_succ_eq_map, List.map_cons, List.map_map, progression]
  congr 1
  · simp
  · refine List.map_congr_left fun index _ => ?_
    simp only [Function.comp_apply, Nat.cast_succ]
    ring

end Progression

/-- Between integers of the language a progression has only such integers. -/
theorem toInt_ofInt_of_mem_progression {first limit step : Int64} (hstep : step.toInt ≠ 0)
    {number : Int} (hnumber : number ∈ progression first.toInt limit.toInt step.toInt) :
    (Int64.ofInt number).toInt = number := by
  obtain ⟨index, hindex, hwithin⟩ := (mem_progression hstep).mp hnumber
  have hfirst := And.intro first.le_toInt first.toInt_lt
  have hlimit := And.intro limit.le_toInt limit.toInt_lt
  unfold WithinLimit at hwithin
  split at hwithin
  · next hup =>
      have hmoved : 0 ≤ (index : Int) * step.toInt := Int.mul_nonneg (by omega) hup.le
      exact Int64.toInt_ofInt_of_le (by omega) (by omega)
  · next hnot =>
      have hmoved : (index : Int) * step.toInt ≤ 0 :=
        Int.mul_nonpos_of_nonneg_of_nonpos (by omega) (by omega)
      exact Int64.toInt_ofInt_of_le (by omega) (by omega)

/-! ## A block for each number -/

/-- The state in which a round with a number begins. -/
def State.startRound (state : State) (name : String) (number : Int) : State :=
  state.declare name (.integer (.ofInt number))

/-- A round: something is done and, if it ends normally, what comes after it.  To break off is to
end normally. -/
def Action.round (body again : Action Flow) : Action Flow := do
  match ← body with
  | .normal => again
  | .broken => pure .normal
  | .returned value => pure (.returned value)

/-- Does something once for each of some numbers in order, with a name bound to the number, up to
the first time that it breaks off, returns or fails. -/
def Action.forEach (name : String) (body : Action Flow) : List Int → Action Flow
  | [] => pure .normal
  | number :: rest => do
    .change (·.startRound name number)
    .round body (forEach name body rest)

namespace Counting

variable {name : String} {body : Action Flow}

/-- Each round that ends normally leaves the name bound, in the innermost frame, as it was at the
start of the round. -/
def KeepsCounter (name : String) (body : Action Flow) : List Int → State → Prop
  | [], _ => True
  | number :: rest, state =>
    ∀ later, body (state.startRound name number) = .done .normal later →
      (later.bindingsOf name).head? = ((state.startRound name number).bindingsOf name).head? ∧
        KeepsCounter name body rest later

/-- All rounds end normally, one after the other. -/
inductive Rounds (name : String) (body : Action Flow) : List Int → State → State → Prop
  | none (state : State) : Rounds name body [] state state
  | next {number : Int} {rest : List Int} {state middle last : State}
      (hround : body (state.startRound name number) = .done .normal middle)
      (hrest : Rounds name body rest middle last) : Rounds name body (number :: rest) state last

theorem forEach_of_rounds {numbers : List Int} {state last : State}
    (hrounds : Rounds name body numbers state last) :
    Action.forEach name body numbers state = .done .normal last := by
  induction hrounds with
  | none state => rfl
  | @next number rest state middle last hround hrest ih =>
      rw [Action.forEach]
      refine (Action.bind_of_done rfl).trans ?_
      exact (Action.bind_of_done hround).trans ih

/-- What leaves the name alone in every execution does so in these. -/
theorem KeepsCounter.of_forall
    (hbody : ∀ state later, body state = .done .normal later →
      (later.bindingsOf name).head? = (state.bindingsOf name).head?)
    (numbers : List Int) (state : State) : KeepsCounter name body numbers state := by
  induction numbers generalizing state with
  | nil => trivial
  | cons number rest ih => exact fun later hends => ⟨hbody _ later hends, ih later⟩

end Counting

/-! ## The loop -/

/-- What is declared in a frame is gone when the frame is left. -/
theorem State.leaveLoop_declare {state : State} (hframes : state.scope.frames ≠ []) (name : String)
    (value : Value) : (state.declare name value).leaveLoop = state.leaveLoop := by
  unfold declare
  rcases state.scope.declare_cases name value with
    ⟨hnone, -⟩ | ⟨frame, rest, hcons, hdeclared⟩
  · exact absurd hnone hframes
  · rw [hdeclared, leaveLoop, leaveLoop, Scope.leaveLoop, Scope.leaveLoop, hcons]
    rfl

theorem Action.finally_congr {α : Type} {action other : Action α} {state start : State}
    (hsame : action state = other start) (update : State → State) :
    action.finally_ update state = other.finally_ update start := by
  unfold finally_
  rw [hsame]

/-- Two rounds that do the same end alike where a frame is left, if what comes after them does. -/
theorem Action.finally_round {body again other : Action Flow} {update : State → State}
    {state : State}
    (hagain : ∀ later, body state = .done .normal later →
      again.finally_ update later = other.finally_ update later) :
    (round body again).finally_ update state = (round body other).finally_ update state := by
  cases hround : body state with
  | done flow later =>
      have hthen (next : Action Flow) : round body next state = _ := bind_of_done hround
      cases flow with
      | normal =>
          calc (round body again).finally_ update state
            _ = again.finally_ update later := finally_congr (hthen again) update
            _ = other.finally_ update later := hagain later hround
            _ = (round body other).finally_ update state :=
                (finally_congr (hthen other) update).symm
      | broken | returned value =>
          exact finally_congr ((hthen again).trans (hthen other).symm) update
  | failed fault later =>
      exact finally_congr ((bind_of_failed hround).trans (bind_of_failed hround).symm) update
  | outOfFuel =>
      exact finally_congr ((bind_of_outOfFuel hround).trans (bind_of_outOfFuel hround).symm) update

namespace Counting

variable {name : String} {body : Block} {position : Position} {ascending : Bool}
  {limit step counter : Int64} {state : State}

theorem hasPassed_eq_false_iff_withinLimit
    (hascending : Eval.ascending? (.integer step) = some ascending) :
    Eval.hasPassed ascending (.integer counter) (.integer limit) = false ↔
      WithinLimit limit.toInt step.toInt counter.toInt := by
  rw [Eval.hasPassed_eq_false_iff, WithinLimit]
  rcases Eval.sign_of_ascending? hascending with ⟨hup, rfl⟩ | ⟨hdown, rfl⟩
  · rw [if_pos rfl, if_pos hup]
  · rw [if_neg Bool.false_ne_true, if_neg (by omega)]

/-- In the innermost frame a round begins with the name bound to its number. -/
theorem head?_bindingsOf_startRound (name : String) (counter : Int64)
    (hframes : state.scope.frames ≠ []) :
    ((state.startRound name counter.toInt).bindingsOf name).head? =
      some (some (.integer counter)) := by
  obtain ⟨frame, rest, hcons⟩ := List.exists_cons_of_ne_nil hframes
  have hbound : state.bindingsOf name =
      frame.bindings.find? name :: rest.map (·.bindings.find? name) := by
    rw [State.bindingsOf, hcons, List.map_cons]
  rw [State.startRound, Int64.ofInt_toInt, bindingsOf_declare_self hbound, List.head?_cons]

theorem frames_ne_nil_of_head? {bound : Option Value}
    (hhead : (state.bindingsOf name).head? = some bound) : state.scope.frames ≠ [] := by
  intro hnone
  rw [State.bindingsOf, hnone] at hhead
  cases hhead

/-- What a loop does after a round that ended normally. -/
noncomputable def nextRound (position : Position) (name : String) (ascending : Bool)
    (limit step : Value) (body : Block) : Action Flow := do
  let current ← .readVariable position name []
  match ← .check position (Eval.advance current step) with
  | none => pure .normal
  | some next =>
    .change (·.declare name next)
    (Task.forLoop position name ascending limit step body).outcome

/-- A loop tests its limit and begins a round. -/
theorem outcome_forLoop (position : Position) (name : String) (ascending : Bool)
    (limit step : Value) (body : Block) :
    (Task.forLoop position name ascending limit step body).outcome = (do
      let found ← .readVariable position name []
      if Eval.hasPassed ascending found limit then pure .normal
      else
        .round (Task.block body).outcome (nextRound position name ascending limit step body)) := by
  rw [Task.outcome_eq]
  simp only [Task.plan, Plan.carryOut_bind, Plan.carryOut_act]
  congr 1
  funext found
  split
  · rfl
  · simp only [Plan.carryOut_bind, Plan.carryOut_work]
    rw [Action.round]
    congr 1
    funext flow
    -- only a round that ends normally makes a step
    cases flow with
    | normal =>
        simp only [Task.afterRound, Plan.carryOut_bind, Plan.carryOut_act, nextRound]
        congr 1
        funext current
        congr 1
        funext next
        cases next with
        | none => rfl
        | some value => simp only [Plan.carryOut_bind, Plan.carryOut_act, Plan.carryOut_work]
    | broken | returned value => rfl

section Steps

variable (hhead : (state.bindingsOf name).head? = some (some (.integer counter)))

include hhead

theorem readVariable_counter :
    Action.readVariable position name [] state = .done (.integer counter) state := by
  obtain ⟨outer, hbound⟩ := List.head?_eq_some_iff.mp hhead
  exact Action.readVariable_eq_done.mpr ⟨read_of_bindingsOf hbound, rfl⟩

/-- Beyond its limit a loop ends. -/
theorem outcome_of_beyond (hascending : Eval.ascending? (.integer step) = some ascending)
    (hbeyond : ¬ WithinLimit limit.toInt step.toInt counter.toInt) :
    (Task.forLoop position name ascending (.integer limit) (.integer step) body).outcome state =
      .done .normal state := by
  rw [← hasPassed_eq_false_iff_withinLimit hascending, Bool.not_eq_false] at hbeyond
  rw [outcome_forLoop, Action.bind_of_done (readVariable_counter hhead), if_pos hbeyond]
  rfl

/-- Before its limit a loop begins a round. -/
theorem outcome_of_within (hascending : Eval.ascending? (.integer step) = some ascending)
    (hwithin : WithinLimit limit.toInt step.toInt counter.toInt) :
    (Task.forLoop position name ascending (.integer limit) (.integer step) body).outcome state =
      Action.round (Task.block body).outcome
        (nextRound position name ascending (.integer limit) (.integer step) body) state := by
  rw [← hasPassed_eq_false_iff_withinLimit hascending] at hwithin
  rw [outcome_forLoop, Action.bind_of_done (readVariable_counter hhead), hwithin]
  rfl

/-- After a round the counter is moved on by the step, and the loop goes on from there. -/
theorem nextRound_of_advance {next : Int64}
    (hadvance : Eval.advance (.integer counter) (.integer step) = .ok (some (.integer next))) :
    nextRound position name ascending (.integer limit) (.integer step) body state =
      (Task.forLoop position name ascending (.integer limit) (.integer step) body).outcome
        (state.startRound name next.toInt) := by
  rw [nextRound, Action.bind_of_done (readVariable_counter hhead), hadvance, State.startRound,
    Int64.ofInt_toInt]
  rfl

/-- The loop ends where a step would leave the range of integers. -/
theorem nextRound_of_not_advance
    (hadvance : Eval.advance (.integer counter) (.integer step) = .ok none) :
    nextRound position name ascending (.integer limit) (.integer step) body state =
      .done .normal state := by
  rw [nextRound, Action.bind_of_done (readVariable_counter hhead), hadvance]
  rfl

end Steps

/-- What a step would bring out of the range of integers is beyond the limit. -/
theorem not_withinLimit_of_advance
    (hout : ¬ (Int64.minValue.toInt ≤ counter.toInt + step.toInt ∧
      counter.toInt + step.toInt ≤ Int64.maxValue.toInt)) :
    ¬ WithinLimit limit.toInt step.toInt (counter.toInt + step.toInt) := by
  rw [Int64.toInt_minValue, Int64.toInt_maxValue] at hout
  have hcounter := And.intro counter.le_toInt counter.toInt_lt
  have hlimit := And.intro limit.le_toInt limit.toInt_lt
  unfold WithinLimit
  split
  · omega
  · omega

/-- **A loop is left as if its block had been run for each number**, if the block leaves the counter
alone.  The induction is on the numbers that are left. -/
theorem finally_forLoop (position : Position)
    (hascending : Eval.ascending? (.integer step) = some ascending) {numbers : List Int}
    (hnumbers : progression counter.toInt limit.toInt step.toInt = numbers)
    (hframes : state.scope.frames ≠ [])
    (hkeeps : KeepsCounter name (Task.block body).outcome numbers state) :
    (Task.forLoop position name ascending (.integer limit) (.integer step) body).outcome.finally_
        State.leaveLoop (state.startRound name counter.toInt) =
      (Action.forEach name (Task.block body).outcome numbers).finally_ State.leaveLoop state := by
  have hstep : step.toInt ≠ 0 := by
    rcases Eval.sign_of_ascending? hascending with ⟨hup, -⟩ | ⟨hdown, -⟩
    · omega
    · omega
  induction numbers generalizing counter state with
  | nil =>
      have hbeyond : ¬ WithinLimit limit.toInt step.toInt counter.toInt := by
        intro hwithin
        rw [progression_of_within hstep hwithin] at hnumbers
        cases hnumbers
      have hstart := head?_bindingsOf_startRound name counter hframes
      -- the counter is declared even if no round follows, but in a frame that is left
      unfold Action.finally_
      rw [outcome_of_beyond hstart hascending hbeyond, Action.forEach]
      exact congrArg _ (State.leaveLoop_declare hframes name _)
  | cons number rest ih =>
      have hwithin : WithinLimit limit.toInt step.toInt counter.toInt := by
        by_contra hbeyond
        rw [progression_of_beyond hstep hbeyond] at hnumbers
        cases hnumbers
      rw [progression_of_within hstep hwithin] at hnumbers
      obtain ⟨rfl, hrest⟩ := List.cons.inj hnumbers
      have hstart := head?_bindingsOf_startRound name counter hframes
      refine (Action.finally_congr (outcome_of_within hstart hascending hwithin) _).trans ?_
      -- the loop and the progression begin the same round; it remains what comes after it
      refine Action.finally_round fun later hround => ?_
      obtain ⟨hsame, hkeepsRest⟩ := hkeeps later hround
      have hhead : (later.bindingsOf name).head? = some (some (.integer counter)) :=
        hsame.trans hstart
      obtain ⟨next, hadvance, hnext⟩ | ⟨hadvance, hout⟩ := Eval.advance_cases counter step
      · refine (Action.finally_congr (nextRound_of_advance hhead hadvance) _).trans ?_
        exact ih (hnext ▸ hrest) (frames_ne_nil_of_head? hhead) hkeepsRest
      · -- the loop stops at the end of the range, and no number is left there
        obtain rfl : rest = [] :=
          hrest.symm.trans (progression_of_beyond hstep (not_withinLimit_of_advance hout))
        exact Action.finally_congr (nextRound_of_not_advance hhead hadvance) _

/-- So does the statement, once its bounds are evaluated. -/
theorem outcome_for (hstep : step ≠ 0) {start stop : Expression} {increment : Option Expression}
    {first : Int64} {afterFirst afterLimit ready : State}
    (hfirst : (Task.bound .start start).outcome state = .done (.integer first) afterFirst)
    (hlimit : (Task.bound .limit stop).outcome afterFirst = .done (.integer limit) afterLimit)
    (hincrement : (Task.stepBound increment).outcome afterLimit = .done (.integer step) ready)
    (hkeeps : KeepsCounter name (Task.block body).outcome
      (progression first.toInt limit.toInt step.toInt) (ready.enterLoop .for_)) :
    (Task.statement (.for_ name start stop increment body position)).outcome state =
      Action.inLoopFrame .for_ (.forEach name (Task.block body).outcome
        (progression first.toInt limit.toInt step.toInt)) ready := by
  obtain ⟨ascending, hascending⟩ : ∃ ascending, Eval.ascending? (.integer step) = some ascending :=
    ⟨_, if_neg hstep⟩
  have hframes : (ready.enterLoop .for_).scope.frames ≠ [] := List.cons_ne_nil _ _
  rw [Task.outcome_eq]
  simp only [Task.plan, Task.ofStatement, Plan.carryOut_bind, Plan.carryOut_work]
  rw [Action.bind_of_done hfirst, Action.bind_of_done hlimit, Action.bind_of_done hincrement,
    hascending]
  simp only [Plan.carryOut_inLoopFrame, Plan.carryOut_bind, Plan.carryOut_act, Plan.carryOut_work]
  -- the head declares the counter before the first test, which is how a round of the progression
  -- starts
  refine Eq.trans ?_ (finally_forLoop position hascending rfl hframes hkeeps)
  refine Action.finally_congr ?_ _
  rw [State.startRound, Int64.ofInt_toInt]
  rfl

/-- A block that does not rebind the counter leaves it alone. -/
theorem keepsCounter_of_not_rebinds (hrebinds : body.rebinds name = false) (numbers : List Int)
    (state : State) : KeepsCounter name (Task.block body).outcome numbers state := by
  refine .of_forall (fun before later hends => ?_) numbers state
  obtain ⟨fuel, hrun⟩ := Task.exists_run_of_outcome hends
  have hleft : (Task.block body).LeavesBinding name before .normal later :=
    leavesBinding_ensured hrebinds hrun
  exact congrArg List.head? hleft

end Counting

/-! ## The result -/

open Counting

/-- **Counting by integers is exact.**  Let the bounds of a loop be integers and its step not zero,
and let its block leave the counter as it was at the start of each round that ends normally.  Then
the loop does what its block does when it is run once for each number of the progression, in order,
in the frame of the loop, up to the first round that breaks off, returns or fails.  The progression
is that of the unbounded integers; its numbers are integers of the language all the same.  If all
rounds end normally, there are as many as the floored quotient says, and the loop ends normally. -/
theorem forLoop_exact {first limit step : Int64} (hstep : step ≠ 0) {name : String}
    {start stop : Expression} {increment : Option Expression} {body : Block} {position : Position}
    {state afterFirst afterLimit ready : State}
    (hfirst : (Task.bound .start start).outcome state = .done (.integer first) afterFirst)
    (hlimit : (Task.bound .limit stop).outcome afterFirst = .done (.integer limit) afterLimit)
    (hincrement : (Task.stepBound increment).outcome afterLimit = .done (.integer step) ready)
    {numbers : List Int} (hnumbers : numbers = progression first.toInt limit.toInt step.toInt)
    (hkeeps : KeepsCounter name (Task.block body).outcome numbers (ready.enterLoop .for_)) :
    (Task.statement (.for_ name start stop increment body position)).outcome state =
      Action.inLoopFrame .for_ (.forEach name (Task.block body).outcome numbers) ready ∧
    (∀ number, number ∈ numbers ↔ ∃ index : Nat, number = first.toInt + index * step.toInt ∧
      if 0 < step.toInt then number ≤ limit.toInt else limit.toInt ≤ number) ∧
    (∀ index < numbers.length, numbers[index]? = some (first.toInt + index * step.toInt)) ∧
    (∀ number ∈ numbers, (Int64.ofInt number).toInt = number) ∧
    (numbers.length : Int) = max 0 ((limit.toInt - first.toInt).fdiv step.toInt + 1) ∧
    ∀ last, Rounds name (Task.block body).outcome numbers (ready.enterLoop .for_) last →
      (Task.statement (.for_ name start stop increment body position)).outcome state =
        .done .normal last.leaveLoop := by
  -- the numbers are counted without bounds, so the step must not be zero there either
  have hmoves : step.toInt ≠ 0 := fun hzero => hstep (Int64.toInt_inj.mp hzero)
  subst hnumbers
  have hloop : (Task.statement (.for_ name start stop increment body position)).outcome state = _ :=
    outcome_for hstep hfirst hlimit hincrement hkeeps
  refine ⟨hloop, ?_, ?_, ?_, length_progression, ?_⟩
  · intro number
    exact mem_progression hmoves
  · intro index hindex
    exact getElem?_progression hindex
  · intro number hnumber
    exact toInt_ofInt_of_mem_progression hmoves hnumber
  · intro last hrounds
    rw [hloop, Action.inLoopFrame, Action.finally_, forEach_of_rounds hrounds]

/-- A block that prints the counter. -/
def printCounter : Block := .mk [.invoke (.print [.variable "i" [] .start] .start)] none

/-- A loop that prints the two largest integers. -/
def lastIntegers : Statement :=
  .for_ "i" (.number .integer "9223372036854775806" .start)
    (.number .integer "9223372036854775807" .start) none printCounter .start

/-- No step leads on from the largest integer, and the loop ends after its two rounds. -/
theorem forLoop_exact_lastIntegers :
    ∃ last, (Task.statement lastIntegers).outcome (.start .plain 5 [] (.kept "")) =
        .done .normal last ∧
      last.output = .kept "9223372036854775806\n9223372036854775807\n" := by
  have hfirst : (Task.bound .start (.number .integer "9223372036854775806" .start)).outcome
      (.start .plain 5 [] (.kept "")) = .done (.integer 9223372036854775806) _ :=
    Task.outcome_of_run 3 rfl
  have hlimit : (Task.bound .limit (.number .integer "9223372036854775807" .start)).outcome
      (.start .plain 5 [] (.kept "")) = .done (.integer 9223372036854775807) _ :=
    Task.outcome_of_run 3 rfl
  have hincrement : (Task.stepBound none).outcome (.start .plain 5 [] (.kept "")) =
      .done (.integer 1) (.start .plain 5 [] (.kept "")) := Task.outcome_of_run 3 rfl
  have hnumbers : [9223372036854775806, 9223372036854775807] =
      progression (9223372036854775806 : Int64).toInt (9223372036854775807 : Int64).toInt
        (1 : Int64).toInt := by decide +kernel
  have hkeeps : KeepsCounter "i" (Task.block printCounter).outcome
      [9223372036854775806, 9223372036854775807]
      ((State.start .plain 5 [] (.kept "")).enterLoop .for_) := keepsCounter_of_not_rebinds rfl _ _
  obtain ⟨-, -, -, -, -, hends⟩ :=
    forLoop_exact (by decide) hfirst hlimit hincrement hnumbers hkeeps
  have hrounds : Rounds "i" (Task.block printCounter).outcome
      [9223372036854775806, 9223372036854775807]
      ((State.start .plain 5 [] (.kept "")).enterLoop .for_) _ :=
    .next (Task.outcome_of_run 9 rfl) (.next (Task.outcome_of_run 9 rfl) (.none _))
  exact ⟨_, hends _ hrounds, by decide +kernel⟩

end TableScript
