import TableScript.Eval
import TableScript.Proofs.Values.Decimals
import TableScript.Proofs.Values.WholeNumbers

/-!
# When operators fail

Which operands make an operator fail, and with which kind of fault, is described here by cases
(`Fails`), without looking at how operands are turned into numbers.  Comparisons and the joining of
texts never fail.  Arithmetic fails as described, and otherwise gives an integer for two integers
and a floating-point number for anything else (`arithmetic_asDescribed`).

A power is described as one whose exponent has to be an integer, or a floating-point number that
stands for one.  It turns the exponent into a number as it does the base, so that it takes a text
for its exponent: `Overlooked` says of which operands this makes a difference, `power_overlooked`
which one, and `power_asDescribed` that it makes none of others.
-/

namespace TableScript

open Number Text

/-! ## The description -/

/-- The operators that give an integer for two integers. -/
def BinaryOperator.isArithmetic : BinaryOperator → Bool
  | add | subtract | multiply | divide | modulo => true
  | _ => false

/-- An operand that cannot be turned into a number, and the kind of fault that it causes. -/
inductive Value.Unusable : Value → FaultKind → Prop where
  | nil : Unusable .nil .type
  | boolean (value : Bool) : Unusable (.boolean value) .type
  | table (identity : TableId) : Unusable (.table identity) .type
  | list (items : List Value) : Unusable (.list items) .type
  | string {text : String} (htext : ¬ IsDecimal (trim text.toList)) :
    Unusable (.string text) .format

/-- An operand that can be turned into a number. -/
def Value.Usable (value : Value) : Prop := ∀ kind, ¬ value.Unusable kind

/-- What the exponent of a power has to be: an integer, or a floating-point number that stands for
one. -/
inductive Value.IsExponent : Value → Prop where
  | integer (value : Int64) : IsExponent (.integer value)
  | float {number : Float} (hintegral : Integral number) : IsExponent (.float number)

namespace Operator

/-- The operands that make an operator fail, and the kind of the fault.  Where both operands of
arithmetic cannot be used, the fault is that of the left one. -/
inductive Fails : BinaryOperator → Value → Value → FaultKind → Prop where
  | divide (left : Int64) : Fails .divide (.integer left) (.integer 0) .arithmetic
  | modulo (left : Int64) : Fails .modulo (.integer left) (.integer 0) .arithmetic
  | left {operator : BinaryOperator} {left right : Value} {kind : FaultKind}
    (harithmetic : operator.isArithmetic = true) (hleft : left.Unusable kind) :
    Fails operator left right kind
  | right {operator : BinaryOperator} {left right : Value} {kind : FaultKind}
    (harithmetic : operator.isArithmetic = true) (hleft : left.Usable)
    (hright : right.Unusable kind) : Fails operator left right kind
  | base {left right : Value} {kind : FaultKind} (hleft : left.Unusable kind) :
    Fails .power left right kind
  | exponent {left right : Value} (hleft : left.Usable) (hright : ¬ right.IsExponent) :
    Fails .power left right .type

/-- What an operator gives where it does not fail. -/
inductive Yields : BinaryOperator → Value → Value → Value → Prop where
  | integer {operator : BinaryOperator} (harithmetic : operator.isArithmetic = true)
    (left right result : Int64) : Yields operator (.integer left) (.integer right) (.integer result)
  | float {operator : BinaryOperator} {left right : Value}
    (harithmetic : operator.isArithmetic = true)
    (hmixed : ∀ leftInteger rightInteger,
      ¬ (left = .integer leftInteger ∧ right = .integer rightInteger))
    (result : Float) : Yields operator left right (.float result)
  | power (left right : Value) (result : Float) : Yields .power left right (.float result)
  | concat (left right : Value) (result : String) : Yields .concat left right (.string result)
  | boolean {operator : BinaryOperator} (left right : Value)
    (hcomparison : operator ∈ [.equal, .notEqual, .less, .lessEqual, .greater, .greaterEqual])
    (result : Bool) : Yields operator left right (.boolean result)

/-- An operator fails with a fault of a kind. -/
def FailsWith (operator : BinaryOperator) (left right : Value) (kind : FaultKind) : Prop :=
  ∃ cause, binary operator left right = .error cause ∧ cause.kind = kind

variable {operator : BinaryOperator} {left right value : Value} {kind kind' : FaultKind}

/-! ## Operands -/

theorem unusable_unique (hfirst : value.Unusable kind) (hsecond : value.Unusable kind') :
    kind = kind' := by
  cases hfirst <;> cases hsecond <;> rfl

theorem usable_integer (integer : Int64) : (Value.integer integer).Usable := nofun

theorem toFloat_of_decimal {text : String} {number : Float} (operator : BinaryOperator)
    (hnumber : parseFloat? text = some number) :
    toFloat operator (.string text) = .ok number := by
  simp [toFloat, hnumber]

theorem toFloat_of_not_decimal {text : String} (operator : BinaryOperator)
    (htext : ¬ IsDecimal (trim text.toList)) :
    toFloat operator (.string text) = .error (.notDecimal operator text) := by
  simp [toFloat, parseFloat?_eq_none_iff.mpr htext]

/-- An operand is turned into a number exactly if it can be. -/
theorem toFloat_spec (operator : BinaryOperator) (operand : Value) :
    (operand.Usable ∧ ∃ number, toFloat operator operand = .ok number) ∨
      ∃ cause, toFloat operator operand = .error cause ∧ operand.Unusable cause.kind := by
  cases operand with
  | integer value => exact .inl ⟨usable_integer value, _, rfl⟩
  | float number => exact .inl ⟨nofun, _, rfl⟩
  | string text =>
      by_cases hdecimal : IsDecimal (trim text.toList)
      · obtain ⟨number, hnumber⟩ := exists_parseFloat? hdecimal
        refine .inl ⟨?_, number, toFloat_of_decimal operator hnumber⟩
        rintro kind (_ | _ | _ | _ | hnone)
        exact hnone hdecimal
      · exact .inr ⟨_, toFloat_of_not_decimal operator hdecimal, .string hdecimal⟩
  | nil => exact .inr ⟨_, rfl, .nil⟩
  | boolean value => exact .inr ⟨_, rfl, .boolean value⟩
  | table identity => exact .inr ⟨_, rfl, .table identity⟩
  | list items => exact .inr ⟨_, rfl, .list items⟩

/-! ## Outcomes -/

/-- Operands make an operator fail with one kind of fault only. -/
theorem Fails.kind_unique (hfirst : Fails operator left right kind)
    (hsecond : Fails operator left right kind') : kind = kind' := by
  -- a zero divisor is between integers, and these are usable; else the left operand comes first
  cases hfirst with
  | divide | modulo =>
      cases hsecond with
      | left _ hleft => cases hleft
      | right _ _ hright => cases hright
      | _ => rfl
  | left _ hleft =>
      cases hsecond with
      | divide | modulo => cases hleft
      | left _ hleft' | base hleft' => exact unusable_unique hleft hleft'
      | right _ husable _ | exponent husable _ => exact absurd hleft (husable _)
  | right harithmetic husable hright =>
      cases hsecond with
      | divide | modulo => cases hright
      | left _ hleft | base hleft => exact absurd hleft (husable _)
      | right _ _ hright' => exact unusable_unique hright hright'
      | exponent => cases harithmetic
  | base hleft =>
      cases hsecond with
      | left _ hleft' | base hleft' => exact unusable_unique hleft hleft'
      | right _ husable _ | exponent husable _ => exact absurd hleft (husable _)
  | exponent husable hexponent =>
      cases hsecond with
      | left _ hleft | base hleft => exact absurd hleft (husable _)
      | right harithmetic _ _ => cases harithmetic
      | exponent => rfl

/-- What is said of the operands is what happens: they make the operator fail and it does so, or
they do not and it gives a value. -/
def AsDescribed (operator : BinaryOperator) (left right : Value) : Prop :=
  (∃ kind, Fails operator left right kind ∧ FailsWith operator left right kind) ∨
    (∀ kind, ¬ Fails operator left right kind) ∧
      ∃ value, binary operator left right = .ok value ∧ Yields operator left right value

theorem AsDescribed.failsWith_iff (hdescribed : AsDescribed operator left right) :
    FailsWith operator left right kind ↔ Fails operator left right kind := by
  rcases hdescribed with ⟨kind', hfails, cause, hcause, hkind⟩ | ⟨hnever, value, hvalue, -⟩
  · constructor
    · rintro ⟨cause', hcause', rfl⟩
      obtain rfl : cause = cause' := Except.error.inj (hcause.symm.trans hcause')
      exact hkind ▸ hfails
    · intro hfails'
      exact ⟨cause, hcause, hkind.trans (hfails.kind_unique hfails')⟩
  · constructor
    · rintro ⟨cause, hcause, -⟩
      cases hvalue.symm.trans hcause
    · exact fun hfails => absurd hfails (hnever kind)

theorem AsDescribed.gives (hdescribed : AsDescribed operator left right)
    (hnever : ∀ kind, ¬ Fails operator left right kind) :
    ∃ value, binary operator left right = .ok value ∧ Yields operator left right value := by
  rcases hdescribed with ⟨kind, hfails, -⟩ | ⟨-, hgives⟩
  · exact absurd hfails (hnever kind)
  · exact hgives

/-! ## Arithmetic -/

theorem integerArithmetic_asDescribed (harithmetic : operator.isArithmetic = true)
    (left right : Int64) : AsDescribed operator (.integer left) (.integer right) := by
  have hnever (hzero : ¬ (right = 0 ∧ (operator = .divide ∨ operator = .modulo))) :
      ∀ kind, ¬ Fails operator (.integer left) (.integer right) kind := by
    intro kind hfails
    cases hfails with
    | divide | modulo => simp at hzero
    | left _ hleft | base hleft => cases hleft
    | right _ _ hright => cases hright
    | exponent => cases harithmetic
  -- between integers only a zero divisor is a fault
  have hgives (result : Int64)
      (hresult : binary operator (.integer left) (.integer right) = .ok (.integer result))
      (hzero : ¬ (right = 0 ∧ (operator = .divide ∨ operator = .modulo))) :
      AsDescribed operator (.integer left) (.integer right) :=
    .inr ⟨hnever hzero, _, hresult, .integer harithmetic left right result⟩
  cases operator with
  | add | subtract | multiply => exact hgives _ rfl (by simp)
  | divide =>
      by_cases hzero : right = 0
      · subst hzero
        exact .inl ⟨.arithmetic, .divide left, .divisionByZero, rfl, rfl⟩
      · refine hgives (left / right) ?_ (by simp [hzero])
        simp [binary, arithmetic, integerArithmetic, hzero, Except.map]
  | modulo =>
      by_cases hzero : right = 0
      · subst hzero
        exact .inl ⟨.arithmetic, .modulo left, .remainderByZero, rfl, rfl⟩
      · refine hgives (flooredRemainder left right) ?_ (by simp [hzero])
        simp [binary, arithmetic, integerArithmetic, hzero, Except.map]
  | _ => cases harithmetic

theorem floatArithmetic_eq_ok (harithmetic : operator.isArithmetic = true) (left right : Float) :
    ∃ result, floatArithmetic operator left right = .ok result := by
  cases operator with
  | add | subtract | multiply | divide | modulo => exact ⟨_, rfl⟩
  | _ => cases harithmetic

theorem binary_mixed (harithmetic : operator.isArithmetic = true)
    (hmixed : ∀ leftInteger rightInteger,
      ¬ (left = .integer leftInteger ∧ right = .integer rightInteger)) :
    binary operator left right = (do
      let leftFloat ← toFloat operator left
      let rightFloat ← toFloat operator right
      let result ← floatArithmetic operator leftFloat rightFloat
      return .float result) := by
  have hbinary : binary operator left right = arithmetic operator left right := by
    cases operator with
    | add | subtract | multiply | divide | modulo => rfl
    | _ => cases harithmetic
  rw [hbinary]
  unfold arithmetic
  split
  · next leftInteger rightInteger => exact absurd ⟨rfl, rfl⟩ (hmixed leftInteger rightInteger)
  · rfl

/-- Any two operands that are not both integers are turned into numbers, the left one first. -/
theorem mixed_asDescribed (harithmetic : operator.isArithmetic = true)
    (hmixed : ∀ leftInteger rightInteger,
      ¬ (left = .integer leftInteger ∧ right = .integer rightInteger)) :
    AsDescribed operator left right := by
  have hbinary := binary_mixed harithmetic hmixed
  -- the left operand is looked at first: if it cannot be used, the right one does not matter
  rcases toFloat_spec operator left with ⟨hleft, number, hnumber⟩ | ⟨cause, hcause, hleft⟩
  · rcases toFloat_spec operator right with ⟨hright, number', hnumber'⟩ | ⟨cause, hcause, hright⟩
    · obtain ⟨result, hresult⟩ := floatArithmetic_eq_ok harithmetic number number'
      refine .inr ⟨?_, .float result, ?_, .float harithmetic hmixed result⟩
      · intro kind hfails
        cases hfails with
        | divide left | modulo left => exact hmixed left 0 ⟨rfl, rfl⟩
        | left _ hunusable => exact hleft kind hunusable
        | right _ _ hunusable => exact hright kind hunusable
        | base | exponent => cases harithmetic
      · rw [hbinary, hnumber, hnumber']
        change (floatArithmetic operator number number' >>= fun result =>
          Except.ok (Value.float result)) = _
        rw [hresult]
        rfl
    · refine .inl ⟨cause.kind, .right harithmetic hleft hright, cause, ?_, rfl⟩
      rw [hbinary, hnumber, hcause]
      rfl
  · refine .inl ⟨cause.kind, .left harithmetic hleft, cause, ?_, rfl⟩
    rw [hbinary, hcause]
    rfl

theorem arithmetic_asDescribed (harithmetic : operator.isArithmetic = true) (left right : Value) :
    AsDescribed operator left right := by
  by_cases hintegers : ∃ leftInteger rightInteger,
      left = .integer leftInteger ∧ right = .integer rightInteger
  · obtain ⟨leftInteger, rightInteger, rfl, rfl⟩ := hintegers
    exact integerArithmetic_asDescribed harithmetic leftInteger rightInteger
  · refine mixed_asDescribed harithmetic fun leftInteger rightInteger hboth => ?_
    exact hintegers ⟨leftInteger, rightInteger, hboth⟩

/-! ## Powers -/

/-- What a power does with its operands. -/
theorem binary_power (left right : Value) :
    binary .power left right = (do
      let base ← toFloat .power left
      let exponent ← toFloat .power right
      if isWhole exponent then return .float (base.pow exponent)
      else throw (.fractionalExponent right)) := rfl

/-- The operands of a power that are taken otherwise than described: the exponent is a text, and
either no numeral at all or the numeral of a whole number. -/
structure Overlooked (left right : Value) : Prop where
  base : left.Usable
  text : ∃ text, right = .string text ∧
    ∀ number, parseFloat? text = some number → Integral number

/-- A power whose base cannot be used fails as its base does. -/
theorem power_of_base {kind : FaultKind} (hleft : left.Unusable kind) :
    FailsWith .power left right kind := by
  rcases toFloat_spec .power left with ⟨husable, -⟩ | ⟨cause, hcause, hleft'⟩
  · exact absurd hleft (husable kind)
  · refine ⟨cause, ?_, unusable_unique hleft' hleft⟩
    rw [binary_power, hcause]
    rfl

/-- A power whose base can be used has the outcome of its exponent. -/
theorem binary_power_of_usable (hleft : left.Usable) (right : Value) :
    ∃ base : Float, binary .power left right = (do
      let exponent ← toFloat .power right
      if isWhole exponent then return .float (base.pow exponent)
      else throw (.fractionalExponent right)) := by
  rcases toFloat_spec .power left with ⟨-, base, hbase⟩ | ⟨cause, -, hunusable⟩
  · refine ⟨base, ?_⟩
    rw [binary_power, hbase]
    rfl
  · exact absurd hunusable (hleft cause.kind)

theorem power_of_whole {exponent : Float} (hleft : left.Usable)
    (hexponent : toFloat .power right = .ok exponent) (hwhole : Integral exponent) :
    ∃ result, binary .power left right = .ok (.float result) := by
  obtain ⟨base, hbinary⟩ := binary_power_of_usable hleft right
  refine ⟨base.pow exponent, ?_⟩
  rw [hbinary, hexponent]
  exact if_pos (isWhole_iff_integral.mpr hwhole)

theorem power_of_fraction {exponent : Float} (hleft : left.Usable)
    (hexponent : toFloat .power right = .ok exponent) (hfraction : ¬ Integral exponent) :
    FailsWith .power left right .type := by
  obtain ⟨base, hbinary⟩ := binary_power_of_usable hleft right
  refine ⟨.fractionalExponent right, ?_, rfl⟩
  rw [hbinary, hexponent]
  exact if_neg (mt isWhole_iff_integral.mp hfraction)

theorem power_of_exponent {cause : Cause} (hleft : left.Usable)
    (hexponent : toFloat .power right = .error cause) :
    binary .power left right = .error cause := by
  obtain ⟨base, hbinary⟩ := binary_power_of_usable hleft right
  rw [hbinary, hexponent]
  rfl

/-- Where the base can be used, the exponent decides: an integer or a number that stands for one is
used, and anything else is a fault of type, unless it is overlooked. -/
theorem exponent_asDescribed (hleft : left.Usable) (hnoticed : ¬ Overlooked left right) :
    AsDescribed .power left right := by
  have hfails (hexponent : ¬ right.IsExponent)
      (hfailsWith : FailsWith .power left right .type) : AsDescribed .power left right :=
    .inl ⟨.type, .exponent hleft hexponent, hfailsWith⟩
  -- a usable base and an exponent leave nothing to fail
  have hgives (hexponent : right.IsExponent)
      (hresult : ∃ result, binary .power left right = .ok (.float result)) :
      AsDescribed .power left right := by
    obtain ⟨result, hresult⟩ := hresult
    refine .inr ⟨?_, .float result, hresult, .power left right result⟩
    intro kind hfails
    cases hfails with
    | base hunusable => exact hleft kind hunusable
    | exponent _ hother => exact hother hexponent
    | left harithmetic _ | right harithmetic _ _ => cases harithmetic
  cases right with
  | integer exponent =>
      have hwhole := isWhole_iff_integral.mp (isWhole_ofInteger exponent)
      exact hgives (.integer exponent) (power_of_whole hleft rfl hwhole)
  | float exponent =>
      by_cases hwhole : Integral exponent
      · exact hgives (.float hwhole) (power_of_whole hleft rfl hwhole)
      · refine hfails ?_ (power_of_fraction hleft rfl hwhole)
        rintro (_ | hintegral)
        exact hwhole hintegral
  | string text =>
      -- a text is no exponent; the only one that causes a fault of type is that of a fraction
      obtain ⟨exponent, hexponent, hfraction⟩ :
          ∃ exponent, parseFloat? text = some exponent ∧ ¬ Integral exponent := by
        by_contra hnone
        refine hnoticed ⟨hleft, text, rfl, fun exponent hexponent => ?_⟩
        by_contra hfraction
        exact hnone ⟨exponent, hexponent, hfraction⟩
      have hfloat := toFloat_of_decimal .power hexponent
      exact hfails nofun (power_of_fraction hleft hfloat hfraction)
  | nil | boolean | table | list => exact hfails nofun ⟨_, power_of_exponent hleft rfl, rfl⟩

theorem power_asDescribed (hnoticed : ¬ Overlooked left right) :
    AsDescribed .power left right := by
  by_cases hbase : ∃ kind, left.Unusable kind
  · obtain ⟨kind, hleft⟩ := hbase
    exact .inl ⟨kind, .base hleft, power_of_base hleft⟩
  · exact exponent_asDescribed (not_exists.mp hbase) hnoticed

/-- **What a power does with a text for its exponent** that it takes otherwise than described: the
numeral of a whole number is used, and what is no numeral is a fault of format. -/
theorem power_overlooked (hoverlooked : Overlooked left right) :
    Fails .power left right .type ∧
      ∃ text, right = .string text ∧
        (IsDecimal (trim text.toList) →
          ∃ result, binary .power left right = .ok (.float result)) ∧
        (¬ IsDecimal (trim text.toList) → FailsWith .power left right .format) := by
  obtain ⟨hleft, text, rfl, hwhole⟩ := hoverlooked
  refine ⟨.exponent hleft nofun, text, rfl, fun hdecimal => ?_, fun hdecimal => ?_⟩
  · obtain ⟨exponent, hexponent⟩ := exists_parseFloat? hdecimal
    exact power_of_whole hleft (toFloat_of_decimal .power hexponent) (hwhole exponent hexponent)
  · exact ⟨_, power_of_exponent hleft (toFloat_of_not_decimal .power hdecimal), rfl⟩

/-- Operands that are taken otherwise than described do not cause the faults described. -/
theorem not_overlooked_of_failsWith_iff
    (hexact : ∀ kind, FailsWith .power left right kind ↔ Fails .power left right kind) :
    ¬ Overlooked left right := by
  intro hoverlooked
  obtain ⟨hfails, text, rfl, hnumeral, hother⟩ := power_overlooked hoverlooked
  -- a numeral gives a value where a fault is described, and another text a fault of another kind
  by_cases hdecimal : IsDecimal (trim text.toList)
  · obtain ⟨result, hresult⟩ := hnumeral hdecimal
    obtain ⟨cause, hcause, -⟩ := (hexact .type).mpr hfails
    cases hresult.symm.trans hcause
  · have hformat := (hexact .format).mp (hother hdecimal)
    cases hfails.kind_unique hformat

/-! ## All operators -/

/-- Comparisons and the joining of texts are described never to fail. -/
theorem plain_never (hplain : operator ∈
      [.concat, .equal, .notEqual, .less, .lessEqual, .greater, .greaterEqual]) :
    ∀ kind, ¬ Fails operator left right kind := by
  intro kind hfails
  cases hfails with
  | left harithmetic _ | right harithmetic _ _ =>
      cases operator with
      | add | subtract | multiply | divide | modulo => simp at hplain
      | _ => cases harithmetic
  | _ => simp at hplain

/-- Comparisons and the joining of texts never fail. -/
theorem plain_asDescribed (left right : Value) (hplain : operator ∈
      [.concat, .equal, .notEqual, .less, .lessEqual, .greater, .greaterEqual]) :
    AsDescribed operator left right := by
  refine .inr ⟨plain_never hplain, ?_⟩
  cases operator with
  | concat => exact ⟨_, rfl, .concat left right _⟩
  | equal | notEqual | less | lessEqual | greater | greaterEqual =>
      exact ⟨_, rfl, .boolean left right (by decide) _⟩
  | _ => simp at hplain

/-- Every operator whose operands are both evaluated fails as described, but for the powers whose
exponents are texts. -/
theorem asDescribed (hevaluated : operator.decisive? = none)
    (hnoticed : operator = .power → ¬ Overlooked left right) :
    AsDescribed operator left right := by
  cases operator with
  | add | subtract | multiply | divide | modulo => exact arithmetic_asDescribed rfl left right
  | power => exact power_asDescribed (hnoticed rfl)
  | concat | equal | notEqual | less | lessEqual | greater | greaterEqual =>
      exact plain_asDescribed left right (by decide)
  | and | or => cases hevaluated

/-- The kinds of faults are those described exactly where no text is taken for an exponent. -/
theorem failsWith_iff_iff_not_overlooked (hevaluated : operator.decisive? = none) :
    (∀ kind, FailsWith operator left right kind ↔ Fails operator left right kind) ↔
      (operator = .power → ¬ Overlooked left right) := by
  constructor
  · rintro hexact rfl
    exact not_overlooked_of_failsWith_iff hexact
  · intro hnoticed kind
    exact (asDescribed hevaluated hnoticed).failsWith_iff

/-- Whatever is not described to fail gives a value. -/
theorem gives_of_not_fails (hevaluated : operator.decisive? = none)
    (hnever : ∀ kind, ¬ Fails operator left right kind) :
    ∃ value, binary operator left right = .ok value ∧ Yields operator left right value := by
  refine (asDescribed hevaluated ?_).gives hnever
  rintro rfl hoverlooked
  exact hnever .type (power_overlooked hoverlooked).1

end Operator

end TableScript
