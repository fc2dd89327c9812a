import TableScript.Proofs.Syntax.Marks
import TableScript.Proofs.Values.OperatorFaults

/-!
# The causes of faults

Two causes stand for mistakes of the evaluator itself: an operator that decides whether its operands
are evaluated was given both, or arithmetic was given an operator that is not arithmetic.  Two more
are about number literals.  `Cause.Expected` says that a cause is none of the first two, and that
one of the others names a literal that is there and cannot be read.  Every operation that a run
performs fails for expected causes only.  A fault is expected if its cause is and its place is there
too.
-/

namespace TableScript

/-- Why a run may fail, where its program has the given marks. -/
def Cause.Expected (marks : List Mark) : Cause → Prop
  | .lazyOperator _ | .notArithmetic _ => False
  | .integerLiteral text =>
    .number ⟨.integer, text⟩ ∈ marks ∧ Number.readIntegerLiteral? text = none
  | .floatLiteral text => .number ⟨.float, text⟩ ∈ marks ∧ Number.readFloatLiteral? text = none
  | _ => True

/-- How a run may fail, where its program has the given marks. -/
structure Fault.Expected (marks : List Mark) (fault : Fault) : Prop where
  place : .place fault.position ∈ marks
  cause : fault.cause.Expected marks

variable {marks : List Mark} {cause : Cause}

/-! ## Numbers -/

namespace Reading

theorem expected_of_ofLiteral {form : NumberForm} {text : String}
    (hliteral : .number ⟨form, text⟩ ∈ marks) (hfails : ofLiteral form text = .error cause) :
    cause.Expected marks := by
  unfold ofLiteral at hfails
  cases form with
  | integer =>
      cases hread : Number.readIntegerLiteral? text with
      | some value => simp [hread] at hfails
      | none =>
          simp only [hread, Except.error.injEq] at hfails
          subst hfails
          exact ⟨hliteral, hread⟩
  | float =>
      cases hread : Number.readFloatLiteral? text with
      | some value => simp [hread] at hfails
      | none =>
          simp only [hread, Except.error.injEq] at hfails
          subst hfails
          exact ⟨hliteral, hread⟩

theorem expected_of_ofLine {line : String} (hfails : ofLine line = .error cause) :
    cause.Expected marks := by
  unfold ofLine at hfails
  dsimp only at hfails
  split at hfails
  · split at hfails <;> cases hfails
    trivial
  · split at hfails <;> cases hfails
    trivial

end Reading

/-! ## Operators -/

namespace Operator

variable {operator : BinaryOperator} {left right : Value}

/-- A computation in two steps fails in the first or in the second. -/
theorem bind_eq_error {α β : Type} {first : Except Cause α} {second : α → Except Cause β} :
    (first >>= second) = .error cause ↔
      first = .error cause ∨ ∃ value, first = .ok value ∧ second value = .error cause := by
  cases first with
  | ok value =>
      change second value = .error cause ↔ _
      simp
  | error earlier =>
      change Except.error earlier = .error cause ↔ _
      simp

theorem map_eq_error {α β : Type} {computed : Except Cause α} {change : α → β} :
    computed.map change = .error cause ↔ computed = .error cause := by
  cases computed <;> simp [Except.map]

theorem expected_of_toFloat {operand : Value} (hfails : toFloat operator operand = .error cause) :
    cause.Expected marks := by
  unfold toFloat at hfails
  split at hfails
  · cases hfails
  · cases hfails
  · split at hfails <;> cases hfails
    trivial
  · cases hfails
    trivial

theorem expected_of_integerArithmetic {left right : Int64}
    (harithmetic : operator.isArithmetic = true)
    (hfails : integerArithmetic operator left right = .error cause) : cause.Expected marks := by
  cases operator with
  | add | subtract | multiply => cases hfails
  | divide | modulo =>
      simp only [integerArithmetic] at hfails
      split at hfails <;> cases hfails
      trivial
  | _ => cases harithmetic

theorem expected_of_arithmetic (harithmetic : operator.isArithmetic = true)
    (hfails : arithmetic operator left right = .error cause) : cause.Expected marks := by
  unfold arithmetic at hfails
  split at hfails
  · exact expected_of_integerArithmetic harithmetic (map_eq_error.mp hfails)
  · simp only [bind_eq_error] at hfails
    rcases hfails with hleft | ⟨leftFloat, -, hright | ⟨rightFloat, -, hresult⟩⟩
    · exact expected_of_toFloat hleft
    · exact expected_of_toFloat hright
    rcases hresult with hresult | ⟨result, -, hnone⟩
    · obtain ⟨result, hok⟩ := floatArithmetic_eq_ok harithmetic leftFloat rightFloat
      cases hok.symm.trans hresult
    · cases hnone

theorem expected_of_power (hfails : power left right = .error cause) : cause.Expected marks := by
  unfold power at hfails
  simp only [bind_eq_error] at hfails
  rcases hfails with hbase | ⟨base, -, hexponent | ⟨exponent, -, hfraction⟩⟩
  · exact expected_of_toFloat hbase
  · exact expected_of_toFloat hexponent
  · split at hfraction <;> cases hfraction
    trivial

theorem expected_of_binary (hevaluated : operator.decisive? = none)
    (hfails : binary operator left right = .error cause) : cause.Expected marks := by
  cases operator with
  | add | subtract | multiply | divide | modulo => exact expected_of_arithmetic rfl hfails
  | power => exact expected_of_power hfails
  | concat | equal | notEqual | less | lessEqual | greater | greaterEqual => cases hfails
  | and | or => cases hevaluated

theorem expected_of_unary {operator : UnaryOperator} {operand : Value}
    (hfails : unary operator operand = .error cause) : cause.Expected marks := by
  unfold unary at hfails
  split at hfails <;> cases hfails <;> trivial

end Operator

/-! ## States -/

namespace State

theorem expected_of_follow {heap : Heap} {name : String} {visited : List Value} {current : Value}
    {keys : List Value} (hfails : follow heap name visited current keys = .error cause) :
    cause.Expected marks := by
  fun_induction follow heap name visited current keys with
  | case1 | case3 => cases hfails
  | case2 visited key rest identity ih => exact ih hfails
  | case4 => cases hfails; trivial

theorem expected_of_reach {heap : Heap} {name : String} {visited : List Value} {current : Value}
    {keys : List Value} (hfails : reach heap name visited current keys = .error cause) :
    cause.Expected marks := by
  fun_induction reach heap name visited current keys with
  | case1 => cases hfails
  | case2 | case4 => cases hfails; trivial
  | case3 visited key rest identity ih => exact ih hfails

theorem expected_of_read {state : State} {name : String} {keys : List Value}
    (hfails : state.read name keys = .error cause) : cause.Expected marks :=
  expected_of_follow hfails

theorem expected_of_assign {state : State} {name : String} {keys : List Value} {value : Value}
    (hfails : state.assign name keys value = .error cause) : cause.Expected marks := by
  unfold assign at hfails
  split at hfails
  · cases hfails
  · split at hfails
    · unfold setEntry at hfails
      split at hfails <;> cases hfails
      trivial
    · next hreach =>
        cases hfails
        exact expected_of_reach hreach

theorem expected_of_enterCall {state : State} {function : Function} {arguments : List Value}
    (hfails : state.enterCall function arguments = .error cause) : cause.Expected marks := by
  unfold enterCall Scope.enterCall at hfails
  split at hfails <;> cases hfails
  trivial

end State

theorem Table.expected_of_set {table : Table} {key value : Value}
    (hfails : (table.set key value).mapError .invalidKey = .error cause) :
    cause.Expected marks := by
  cases hset : table.set key value with
  | ok later =>
      rw [hset] at hfails
      cases hfails
  | error problem =>
      rw [hset] at hfails
      cases hfails
      trivial

theorem Eval.expected_of_advance {counter step : Value}
    (hfails : advance counter step = .error cause) : cause.Expected marks := by
  unfold advance at hfails
  split at hfails
  · dsimp only at hfails
    split at hfails <;> cases hfails
  · exact Operator.expected_of_arithmetic rfl (Operator.map_eq_error.mp hfails)

end TableScript
