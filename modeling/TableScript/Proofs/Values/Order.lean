import TableScript.Operator
import TableScript.Proofs.Values.Equality

/-!
# The order of values

Two numbers are ordered by magnitude, and any other two values by their texts.  Equality goes
another way: an integer and a floating-point number are equal by their texts, and so are lists,
while booleans and tables are equal as what they are.  All the same, equal values are in no order
but the one of equals (`Value.compare_of_equals`), because no floating-point number is written as an
integer is (`Number.floatText_ne_integerText`).

The order can be turned round (`Value.compare_swap`), and only what is not a number, compared with a
number, is without one (`Value.compare_eq_none_iff`).  What the operators say follows from these
three facts; this is `order_respects_equality`.
-/

namespace TableScript

/-! ## The order of floating-point numbers -/

namespace Number

section Unpacked

open Float.Model

variable {left right : UnpackedFloat}

theorem compare_unpacked_swap (left right : UnpackedFloat) :
    right.compare left = (left.compare right).map Ordering.swap := by
  fun_cases UnpackedFloat.compare left right with
  | case1 => cases right <;> rfl
  | case2 => cases left <;> rfl
  | case3 sign sign' => cases sign <;> cases sign' <;> rfl
  | _ => simp_all [UnpackedFloat.compare, Ordering.swap_then, Int.compare_swap, Nat.compare_swap]

theorem compare_unpacked_eq_none_iff :
    left.compare right = none ↔ left.isNaN = true ∨ right.isNaN = true := by
  fun_cases UnpackedFloat.compare left right <;> simp_all [UnpackedFloat.isNaN]

/-- What is rounded is a number. -/
theorem normalize_ne_notANumber (spec : Format) (mantissa exponent : Int)
    (zero : UnpackedFloat.Sign) :
    UnpackedFloat.normalize spec mantissa exponent zero ≠ .notANumber := by
  unfold UnpackedFloat.normalize UnpackedFloat.round UnpackedFloat.roundWithAccuracy
  dsimp only
  split
  · split <;> simp
  · simp
  · split <;> simp

theorem neg_ne_notANumber {unpacked : UnpackedFloat} (hnumber : unpacked ≠ .notANumber) :
    unpacked.neg ≠ .notANumber := by
  cases unpacked <;> simp_all [UnpackedFloat.neg]

/-- A number is not stored as the bit pattern of what is none. -/
theorem pack_ne_packedNaN {unpacked : UnpackedFloat} (hnumber : unpacked ≠ .notANumber) :
    UnpackedFloat.pack .binary64 unpacked ≠ UnpackedFloat.packedNaN .binary64 := by
  intro hsame
  have hbits : UnpackedFloat.isNaNBits (UnpackedFloat.pack .binary64 unpacked) = true :=
    hsame ▸ UnpackedFloat.isNaNBits_packedNaN
  simp only [UnpackedFloat.isNaNBits, decide_eq_true_eq] at hbits
  obtain ⟨hexponent, hmantissa⟩ := hbits
  revert hexponent hmantissa
  fun_cases UnpackedFloat.pack with
  | case1 => exact absurd rfl hnumber
  | case2 | case4 => simp [UnpackedFloat.packedInfinity]
  | case3 => simp [UnpackedFloat.packedZero]
  | case5 sign mantissa exponent hpos bits biased hsmall hnormal =>
      intro hmost
      have hfits : biased + 1 < 2 ^ 11 := Nat.lt_of_not_le hsmall
      rw [UnpackedFloat.unpackExponent_packComponents] at hmost
      have hvalue : biased % 2 ^ 11 = 2047 := congrArg BitVec.toNat hmost
      omega
  | case6 => simp

theorem isNaN_pack {unpacked : UnpackedFloat} (hnumber : unpacked ≠ .notANumber) :
    (Float.ofModel (.pack unpacked)).isNaN = false := by
  have hbits : ¬ (UnpackedFloat.unpack .binary64
      (UnpackedFloat.pack .binary64 unpacked)).isNaN = true := by
    rw [UnpackedFloat.isNaN_unpack_iff_of_valid UnpackedFloat.valid_pack]
    exact pack_ne_packedNaN hnumber
  exact Bool.eq_false_iff.mpr hbits

end Unpacked

variable {left right : Float}

theorem lt_iff_compare : left < right ↔ left.toModel.compare right.toModel = some .lt := by
  change decide (left.toModel < right.toModel) = true ↔ _
  rw [decide_eq_true_iff]
  change (left.toModel.compare right.toModel == some .lt) = true ↔ _
  exact beq_iff_eq

theorem beq_iff_compare :
    (left == right) = true ↔ left.toModel.compare right.toModel = some .eq := by
  change (left.toModel.compare right.toModel == some .eq) = true ↔ _
  exact beq_iff_eq

/-- The three tests find the one order that there is. -/
theorem compareFloats_eq (left right : Float) :
    compareFloats left right = left.toModel.compare right.toModel := by
  have hswap : right.toModel.compare left.toModel =
      (left.toModel.compare right.toModel).map Ordering.swap := compare_unpacked_swap _ _
  unfold compareFloats
  simp only [lt_iff_compare, beq_iff_compare, hswap]
  rcases left.toModel.compare right.toModel with _ | _ | _ | _ <;> simp

theorem compareFloats_swap (left right : Float) :
    compareFloats right left = (compareFloats left right).map Ordering.swap := by
  rw [compareFloats_eq, compareFloats_eq]
  exact compare_unpacked_swap _ _

/-- Only with what is not a number there is no order. -/
theorem compareFloats_eq_none_iff :
    compareFloats left right = none ↔ left.isNaN = true ∨ right.isNaN = true := by
  rw [compareFloats_eq]
  exact compare_unpacked_eq_none_iff

theorem compareFloats_of_beq (hequal : (left == right) = true) :
    compareFloats left right = some .eq := by
  rw [compareFloats_eq]
  exact beq_iff_compare.mp hequal

/-- The nearest number to an integer is a number. -/
theorem isNaN_ofInteger (integer : Int64) : (ofInteger integer).isNaN = false := by
  have hmagnitude (magnitude : UInt64) : magnitude.toFloat.isNaN = false :=
    isNaN_pack (normalize_ne_notANumber _ _ _ _)
  unfold ofInteger
  dsimp only
  split
  · exact isNaN_pack (neg_ne_notANumber fun hnan => by
      have hnumber := hmagnitude integer.toInt.natAbs.toUInt64
      rw [Float.isNaN, Float.Model.isNaN, hnan] at hnumber
      cases hnumber)
  · exact hmagnitude _

end Number

/-! ## The order of values -/

namespace Value

/-- A number in floating point: itself, or the number nearest to an integer. -/
def magnitude? : Value → Option Float
  | .integer value => some (Number.ofInteger value)
  | .float value => some value
  | _ => none

/-- The order of two numbers by magnitude: exact between integers, and otherwise that of the numbers
in floating point. -/
def compareMagnitudes : Value → Value → Option Ordering
  | .integer left, .integer right => some (Ord.compare left.toInt right.toInt)
  | left, right => do Number.compareFloats (← left.magnitude?) (← right.magnitude?)

variable {left right : Value}

/-- Two numbers are ordered by magnitude, never by their texts. -/
theorem compare_of_isNumber (hleft : left.isNumber = true) (hright : right.isNumber = true) :
    left.compare right = left.compareMagnitudes right := by
  cases left with
  | integer | float =>
      cases right with
      | integer | float => rfl
      | _ => cases hright
  | _ => cases hleft

/-- Any other two values are ordered by their texts. -/
theorem compare_of_not_isNumber (hothers : ¬ (left.isNumber = true ∧ right.isNumber = true)) :
    left.compare right = some (Ord.compare left.text right.text) := by
  cases left with
  | integer | float =>
      cases right with
      | integer | float => exact absurd ⟨rfl, rfl⟩ hothers
      | _ => rfl
  | _ => rfl

theorem compareMagnitudes_swap (hleft : left.isNumber = true) (hright : right.isNumber = true) :
    right.compareMagnitudes left = (left.compareMagnitudes right).map Ordering.swap := by
  cases left with
  | integer value =>
      cases right with
      | integer value' => exact congrArg some (Int.compare_swap _ _).symm
      | float number => exact Number.compareFloats_swap _ _
      | _ => cases hright
  | float number =>
      cases right with
      | integer | float => exact Number.compareFloats_swap _ _
      | _ => cases hright
  | _ => cases hleft

/-- The order can be turned round. -/
theorem compare_swap (left right : Value) :
    right.compare left = (left.compare right).map Ordering.swap := by
  by_cases hnumbers : left.isNumber = true ∧ right.isNumber = true
  · rw [compare_of_isNumber hnumbers.1 hnumbers.2, compare_of_isNumber hnumbers.2 hnumbers.1]
    exact compareMagnitudes_swap hnumbers.1 hnumbers.2
  · rw [compare_of_not_isNumber hnumbers, compare_of_not_isNumber (mt And.symm hnumbers)]
    exact congrArg some Std.OrientedCmp.eq_swap

theorem compareMagnitudes_eq_none_iff (hleft : left.isNumber = true)
    (hright : right.isNumber = true) :
    left.compareMagnitudes right = none ↔ left.isNaN = true ∨ right.isNaN = true := by
  cases left with
  | integer value =>
      cases right with
      | integer value' => simp [compareMagnitudes, isNaN]
      | float number =>
          refine Number.compareFloats_eq_none_iff.trans ?_
          rw [Number.isNaN_ofInteger]
          rfl
      | _ => cases hright
  | float number =>
      cases right with
      | integer value =>
          refine Number.compareFloats_eq_none_iff.trans ?_
          rw [Number.isNaN_ofInteger]
          rfl
      | float number' => exact Number.compareFloats_eq_none_iff
      | _ => cases hright
  | _ => cases hleft

/-- Only two numbers can be without an order, and are if one of them is not a number. -/
theorem compare_eq_none_iff :
    left.compare right = none ↔
      (left.isNumber = true ∧ right.isNumber = true) ∧
        (left.isNaN = true ∨ right.isNaN = true) := by
  by_cases hnumbers : left.isNumber = true ∧ right.isNumber = true
  · rw [compare_of_isNumber hnumbers.1 hnumbers.2,
      compareMagnitudes_eq_none_iff hnumbers.1 hnumbers.2]
    exact (and_iff_right hnumbers).symm
  · rw [compare_of_not_isNumber hnumbers]
    exact ⟨nofun, fun hboth => absurd hboth.1 hnumbers⟩

/-- Equal values have the same text, unless they are two zeros. -/
theorem text_of_equals_of_not_isNumber (hequal : left.equals right = true)
    (hothers : ¬ (left.isNumber = true ∧ right.isNumber = true)) : left.text = right.text := by
  by_cases hnil : left = .nil
  · subst hnil
    cases right with
    | nil => rfl
    | _ => cases hequal
  · have hnil' : right ≠ .nil := by
      rintro rfl
      rw [equals_nil hnil] at hequal
      cases hequal
    refine (equals_iff_text hnil hnil' ?_).mp hequal
    rintro number number' rfl rfl
    exact absurd ⟨rfl, rfl⟩ hothers

/-- **Equal values are in the order of equals.**  No floating-point number is written as an integer
is, so that numbers are equal only where their magnitudes are. -/
theorem compare_of_equals (hequal : left.equals right = true) :
    left.compare right = some .eq := by
  by_cases hnumbers : left.isNumber = true ∧ right.isNumber = true
  · obtain ⟨hleft, hright⟩ := hnumbers
    cases left with
    | integer value =>
        cases right with
        | integer value' =>
            obtain rfl : value = value' := beq_iff_eq.mp hequal
            exact congrArg some Std.ReflCmp.compare_self
        | float number =>
            exact absurd (beq_iff_eq.mp hequal).symm (Number.floatText_ne_integerText _ _)
        | _ => cases hright
    | float number =>
        cases right with
        | integer value => exact absurd (beq_iff_eq.mp hequal) (Number.floatText_ne_integerText _ _)
        | float number' => exact Number.compareFloats_of_beq hequal
        | _ => cases hright
    | _ => cases hleft
  · rw [compare_of_not_isNumber hnumbers, text_of_equals_of_not_isNumber hequal hnumbers]
    exact congrArg some Std.ReflCmp.compare_self

end Value

/-! ## What the operators say -/

namespace Operator

/-- That an operator says yes of two values. -/
def Holds (operator : BinaryOperator) (left right : Value) : Prop :=
  binary operator left right = .ok (.boolean true)

variable {left right : Value}

theorem holds_equal_iff : Holds .equal left right ↔ left.equals right = true := by
  simp [Holds, binary]

theorem holds_less_iff : Holds .less left right ↔ left.compare right = some .lt := by
  simp only [Holds, binary, ordered, Except.ok.injEq, Value.boolean.injEq]
  rcases left.compare right with _ | _ | _ | _ <;> decide

theorem holds_greater_iff : Holds .greater left right ↔ left.compare right = some .gt := by
  simp only [Holds, binary, ordered, Except.ok.injEq, Value.boolean.injEq]
  rcases left.compare right with _ | _ | _ | _ <;> decide

theorem holds_lessEqual_iff :
    Holds .lessEqual left right ↔
      left.compare right = some .lt ∨ left.compare right = some .eq := by
  simp only [Holds, binary, ordered, Except.ok.injEq, Value.boolean.injEq]
  rcases left.compare right with _ | _ | _ | _ <;> decide

theorem holds_greaterEqual_iff :
    Holds .greaterEqual left right ↔
      left.compare right = some .gt ∨ left.compare right = some .eq := by
  simp only [Holds, binary, ordered, Except.ok.injEq, Value.boolean.injEq]
  rcases left.compare right with _ | _ | _ | _ <;> decide

theorem holds_less_swap : Holds .less left right ↔ Holds .greater right left := by
  rw [holds_less_iff, holds_greater_iff, Value.compare_swap left right]
  rcases left.compare right with _ | _ | _ | _ <;> decide

theorem holds_lessEqual_swap : Holds .lessEqual left right ↔ Holds .greaterEqual right left := by
  rw [holds_lessEqual_iff, holds_greaterEqual_iff, Value.compare_swap left right]
  rcases left.compare right with _ | _ | _ | _ <;> decide

/-- Where there is an order, it is one of three, and the operators say which. -/
theorem holds_exactly_one (hordered : left.compare right ≠ none) :
    (Holds .less left right ∧ ¬ Holds .greater left right ∧
        ¬ (Holds .lessEqual left right ∧ Holds .greaterEqual left right)) ∨
      (¬ Holds .less left right ∧ Holds .greater left right ∧
        ¬ (Holds .lessEqual left right ∧ Holds .greaterEqual left right)) ∨
      (¬ Holds .less left right ∧ ¬ Holds .greater left right ∧
        Holds .lessEqual left right ∧ Holds .greaterEqual left right) := by
  rw [holds_less_iff, holds_greater_iff, holds_lessEqual_iff, holds_greaterEqual_iff]
  obtain ⟨ordering, hordering⟩ := Option.ne_none_iff_exists'.mp hordered
  rw [hordering]
  cases ordering <;> decide

end Operator

open Operator in
/-- **The order of values is antisymmetric and respects equality.**  Of any two values: the order
from right to left is the reverse of the order from left to right; there is none exactly when both
are numbers and one of them is not a number; and equal values are in the order of equals, so that
each is at most and at least the other.  The operators can be turned round, and where there is an
order exactly one of three holds: less, greater, or both at most and at least. -/
theorem order_respects_equality (left right : Value) :
    right.compare left = (left.compare right).map Ordering.swap ∧
    (left.compare right = none ↔
      (left.isNumber = true ∧ right.isNumber = true) ∧
        (left.isNaN = true ∨ right.isNaN = true)) ∧
    (left.equals right = true → left.compare right = some .eq) ∧
    (Holds .equal left right → Holds .lessEqual left right ∧ Holds .greaterEqual left right) ∧
    (Holds .less left right ↔ Holds .greater right left) ∧
    (Holds .lessEqual left right ↔ Holds .greaterEqual right left) ∧
    (left.compare right ≠ none →
      (Holds .less left right ∧ ¬ Holds .greater left right ∧
          ¬ (Holds .lessEqual left right ∧ Holds .greaterEqual left right)) ∨
        (¬ Holds .less left right ∧ Holds .greater left right ∧
          ¬ (Holds .lessEqual left right ∧ Holds .greaterEqual left right)) ∨
        (¬ Holds .less left right ∧ ¬ Holds .greater left right ∧
          Holds .lessEqual left right ∧ Holds .greaterEqual left right)) := by
  refine ⟨Value.compare_swap left right, Value.compare_eq_none_iff, Value.compare_of_equals,
    fun hequal => ?_, holds_less_swap, holds_lessEqual_swap, holds_exactly_one⟩
  have hsame := Value.compare_of_equals (holds_equal_iff.mp hequal)
  exact ⟨holds_lessEqual_iff.mpr (.inr hsame), holds_greaterEqual_iff.mpr (.inr hsame)⟩

open Operator in
/-- The two zeros are each at most the other.  What is not a number has an order with the text that
it is written as, but none with a number. -/
theorem order_respects_equality_atTheEdge :
    (Holds .lessEqual (.float 0) (.float (-0)) ∧ Holds .greaterEqual (.float 0) (.float (-0))) ∧
      (Value.float .nan).compare (.string "nan") = some .eq ∧
      (Value.float .nan).compare (.integer 0) = none := by
  obtain ⟨-, -, -, hzeros, -⟩ := order_respects_equality (.float 0) (.float (-0))
  obtain ⟨-, -, hequal, -⟩ := order_respects_equality (.float .nan) (.string "nan")
  obtain ⟨-, hnone, -⟩ := order_respects_equality (.float .nan) (.integer 0)
  refine ⟨hzeros (holds_equal_iff.mpr ?_), hequal ?_, hnone.mpr ⟨⟨rfl, rfl⟩, .inl ?_⟩⟩
  · decide +kernel
  · decide +kernel
  · decide +kernel

end TableScript
