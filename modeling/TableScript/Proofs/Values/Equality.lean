import TableScript.Proofs.Values.FloatText
import TableScript.Table

/-!
# Equality and texts

Values of one kind are compared as what they are, and values of different kinds by their texts.  The
two ways agree, since the text of an integer, of a number and of a table says which one it is.  Only
the two zeros, which are equal and written differently, and what is not a number, which does not
equal itself, stand apart.
-/

namespace TableScript

/-! ## Texts that say what they are the text of -/

namespace Number

theorem digitChar_injective : ∀ left < 16, ∀ right < 16,
    Nat.digitChar left = Nat.digitChar right → left = right := by
  decide

/-- A hexadecimal number ends in the digit of its units. -/
theorem hexadecimal_eq (number : Nat) :
    Nat.toDigits 16 number =
      (if number < 16 then [] else Nat.toDigits 16 (number / 16)) ++ [(number % 16).digitChar] := by
  rw [Nat.toDigits_eq_if (by decide)]
  split_ifs with hsmall
  · rw [Nat.mod_eq_of_lt hsmall, List.nil_append]
  · rfl

/-- Hexadecimal digits say which number they are of. -/
theorem hexadecimal_injective {left right : Nat}
    (hsame : Nat.toDigits 16 left = Nat.toDigits 16 right) : left = right := by
  induction left using Nat.strongRecOn generalizing right with
  | ind left ih =>
      rw [hexadecimal_eq left, hexadecimal_eq right] at hsame
      obtain ⟨hrest, hlast⟩ := List.append_inj' hsame rfl
      have hunits : left % 16 = right % 16 :=
        digitChar_injective _ (Nat.mod_lt _ (by decide)) _ (Nat.mod_lt _ (by decide))
          (List.singleton_inj.mp hlast)
      split_ifs at hrest with hleft hright hright
      · omega
      · exact absurd hrest.symm Nat.toDigits_ne_nil
      · exact absurd hrest Nat.toDigits_ne_nil
      · have hsixteens := ih (left / 16) (by omega) hrest
        omega

theorem integerText_injective {left right : Int} (hsame : integerText left = integerText right) :
    left = right := by
  have hsign : ∀ (number : Nat) rest, digitsOf number ≠ '-' :: rest := by
    intro number rest hdigits
    have hminus : '-' ∈ digitsOf number := by simp [hdigits]
    exact absurd (isDigit_of_mem_digitsOf hminus) (by decide)
  unfold integerText at hsame
  split_ifs at hsame with hleft hright hright
  · have habs := digitsOf_injective (List.cons.inj hsame).2
    omega
  · exact absurd hsame.symm (hsign _ _)
  · exact absurd hsame (hsign _ _)
  · have habs := digitsOf_injective hsame
    omega

theorem beq_zero_iff {number : Float} : (number == 0) = true ↔ number = 0 ∨ number = -0 := by
  have hzeros : (0 : Float) ≠ .nan ∧ (-0 : Float) ≠ .nan := by decide +kernel
  rw [Float.beq_iff_ne_nan_and_eq]
  constructor
  · rintro ⟨-, -, hsame | ⟨hzero, -⟩ | ⟨hzero, -⟩⟩
    · exact .inl hsame
    · exact .inl hzero
    · exact .inr hzero
  · rintro (rfl | rfl)
    · exact ⟨hzeros.1, hzeros.1, .inl rfl⟩
    · exact ⟨hzeros.2, hzeros.1, .inr (.inr ⟨rfl, rfl⟩)⟩

/-- The two zeros apart, numbers are equal if their texts are. -/
theorem beq_iff_floatText {left right : Float} (hnumber : left.isNaN = false)
    (hzeros : ¬ ((left == 0) = true ∧ (right == 0) = true)) :
    (left == right) = true ↔ floatText left = floatText right := by
  have hleft : left ≠ .nan := by
    simpa [Float.isNaN_eq_decide_eq_nan] using hnumber
  rw [beq_zero_iff, beq_zero_iff] at hzeros
  rw [Float.beq_iff_ne_nan_and_eq]
  constructor
  · rintro ⟨-, -, rfl | ⟨rfl, rfl⟩ | ⟨rfl, rfl⟩⟩
    · rfl
    · exact absurd ⟨.inl rfl, .inr rfl⟩ hzeros
    · exact absurd ⟨.inr rfl, .inl rfl⟩ hzeros
  · intro hsame
    obtain rfl := floatText_injective hnumber hsame
    exact ⟨hleft, hleft, .inl rfl⟩

end Number

theorem TableId.text_injective {left right : TableId} (hsame : left.text = right.text) :
    left = right := by
  have hdigits : Nat.toDigits 16 left.address = Nat.toDigits 16 right.address :=
    List.append_cancel_left (String.ofList_injective hsame)
  have haddress := Number.hexadecimal_injective hdigits
  cases left
  cases right
  cases haddress
  rfl

/-! ## Equality -/

namespace Value

/-- Whether a value is written as one of the zeros is. -/
def WrittenZero (value : Value) : Prop := value.text = "0.0" ∨ value.text = "-0.0"

instance (value : Value) : Decidable value.WrittenZero := inferInstanceAs (Decidable (_ ∨ _))

theorem writtenZero_of_beq_zero {number : Float} (hzero : (number == 0) = true) :
    (Value.float number).WrittenZero := by
  rcases Number.beq_zero_iff.mp hzero with rfl | rfl
  · exact .inl Number.floatText_zero
  · exact .inr Number.floatText_negZero

theorem equals_symm (left right : Value) : left.equals right = right.equals left := by
  cases left with
  | float number =>
      cases right with
      | float number' => exact BEq.comm
      | _ => simp only [equals, Bool.beq_comm]
  | _ => cases right <;> simp only [equals, Bool.beq_comm]

theorem equals_nil {value : Value} (hvalue : value ≠ .nil) : value.equals .nil = false := by
  cases value with
  | nil => exact absurd rfl hvalue
  | _ => rfl

/-- **Equality is equality of texts**, for values that are not nil: only two numbers that are zeros,
and a number that is none, are an exception. -/
theorem equals_iff_text {left right : Value} (hleft : left ≠ .nil) (hright : right ≠ .nil)
    (hnumbers : ∀ number number', left = .float number → right = .float number' →
      number.isNaN = false ∧ ¬ ((number == 0) = true ∧ (number' == 0) = true)) :
    left.equals right = true ↔ left.text = right.text := by
  -- values of one kind are compared as such, which their texts reflect; those of two kinds by their
  -- texts
  cases left with
  | nil => exact absurd rfl hleft
  | boolean value =>
      cases right with
      | boolean value' => cases value <;> cases value' <;> simp [equals, text]
      | nil => exact absurd rfl hright
      | _ => simp only [equals, beq_iff_eq]
  | integer value =>
      cases right with
      | integer value' =>
          simp only [equals, text, beq_iff_eq]
          refine ⟨fun hsame => by rw [hsame], fun hsame => ?_⟩
          exact Int64.toInt_inj.mp (Number.integerText_injective (String.ofList_injective hsame))
      | nil => exact absurd rfl hright
      | _ => simp only [equals, beq_iff_eq]
  | float number =>
      cases right with
      | float number' =>
          obtain ⟨hnumber, hzeros⟩ := hnumbers number number' rfl rfl
          simpa only [equals, text] using Number.beq_iff_floatText hnumber hzeros
      | nil => exact absurd rfl hright
      | _ => simp only [equals, beq_iff_eq]
  | string value =>
      cases right with
      | string value' => simp only [equals, text, beq_iff_eq]
      | nil => exact absurd rfl hright
      | _ => simp only [equals, beq_iff_eq]
  | table identity =>
      cases right with
      | table identity' =>
          simp only [equals, text, beq_iff_eq]
          exact ⟨fun hsame => by rw [hsame], TableId.text_injective⟩
      | nil => exact absurd rfl hright
      | _ => simp only [equals, beq_iff_eq]
  | list items =>
      cases right with
      | nil => exact absurd rfl hright
      | _ => simp only [equals, beq_iff_eq]

theorem ne_nil_of_valid {key : Value} (hvalid : key.invalidKey? = none) : key ≠ .nil := by
  rintro rfl
  cases hvalid

theorem isNaN_of_valid {number : Float} (hvalid : (Value.float number).invalidKey? = none) :
    number.isNaN = false := by
  cases hnan : number.isNaN with
  | false => rfl
  | true =>
      rw [invalidKey?, if_pos hnan] at hvalid
      cases hvalid

/-- A key is the key that its text says it is, unless zeros are compared. -/
theorem key_equals_iff_text {key query : Value} (hvalid : key.invalidKey? = none)
    (hzeros : ¬ (key.WrittenZero ∧ query.WrittenZero)) (hquery : query ≠ .nil) :
    key.equals query = true ↔ key.text = query.text := by
  refine equals_iff_text (ne_nil_of_valid hvalid) hquery ?_
  rintro number number' rfl rfl
  refine ⟨isNaN_of_valid hvalid, fun hboth => hzeros ⟨?_, ?_⟩⟩
  · exact writtenZero_of_beq_zero hboth.1
  · exact writtenZero_of_beq_zero hboth.2

/-! ## Hashing -/

theorem hashForm_congr {left right : Value} (htext : left.text = right.text) :
    left.hashForm = right.hashForm := by
  unfold hashForm
  rw [htext]

/-- **Equal keys hash alike**: the two zeros are equal and have two texts, and they are hashed by
one of them. -/
theorem hashForm_eq_of_equals {left right : Value} (hequal : left.equals right = true) :
    left.hashForm = right.hashForm := by
  by_cases hfloats : ∃ number number', left = .float number ∧ right = .float number'
  · obtain ⟨number, number', rfl, rfl⟩ := hfloats
    have hzeros : (Value.float 0).hashForm = "0.0" ∧ (Value.float (-0)).hashForm = "0.0" := by
      decide +kernel
    -- equal floating-point numbers are the same, or the two zeros
    obtain ⟨-, -, rfl | ⟨rfl, rfl⟩ | ⟨rfl, rfl⟩⟩ := Float.beq_iff_ne_nan_and_eq.mp hequal
    · rfl
    · exact hzeros.1.trans hzeros.2.symm
    · exact hzeros.2.trans hzeros.1.symm
  · by_cases hleft : left = .nil
    · subst hleft
      cases right with
      | nil => rfl
      | _ => cases hequal
    · have hright : right ≠ .nil := by
        rintro rfl
        rw [equals_nil hleft] at hequal
        cases hequal
      refine hashForm_congr ((equals_iff_text hleft hright ?_).mp hequal)
      rintro number number' rfl rfl
      exact absurd ⟨number, number', rfl, rfl⟩ hfloats

/-- So a lookup with a key can end at every entry that has an equal key. -/
theorem fits_eq_equals (held asked : Value) : held.fits asked = held.equals asked := by
  rw [Bool.eq_iff_iff, fits, Bool.and_eq_true, beq_iff_eq]
  exact ⟨And.left, fun hequal => ⟨hequal, hashForm_eq_of_equals hequal⟩⟩

/-! ## Values that are equal to themselves -/

/-- Whether a value is a floating-point number that is not a number. -/
def isNaN : Value → Bool
  | .float number => number.isNaN
  | _ => false

/-- Whether the texts of two values do not say if they are equal: where both are floating-point
numbers, and either both are zeros or one is not a number. -/
def textsMislead : Value → Value → Bool
  | .float left, .float right => left == 0 && right == 0 || left.isNaN || right.isNaN
  | _, _ => false

/-- Whether a value is neither a floating-point zero nor a floating-point number that is not a
number. -/
def isOrdinary : Value → Bool
  | .float number => !(number == 0) && !number.isNaN
  | _ => true

theorem equals_iff_text_of_not_mislead {left right : Value} (hleft : left ≠ .nil)
    (hright : right ≠ .nil) (htexts : left.textsMislead right = false) :
    left.equals right = true ↔ left.text = right.text := by
  refine equals_iff_text hleft hright ?_
  rintro number number' rfl rfl
  simp only [textsMislead, Bool.or_eq_false_iff] at htexts
  obtain ⟨⟨hzeros, hnumber⟩, -⟩ := htexts
  refine ⟨hnumber, fun hboth => ?_⟩
  rw [hboth.1, hboth.2] at hzeros
  cases hzeros

theorem equals_self_iff {value : Value} : value.equals value = true ↔ value.isNaN = false := by
  cases value with
  | float number => simp [equals, isNaN]
  | _ => simp [equals, isNaN]

theorem textsMislead_of_isOrdinary {left right : Value} (hleft : left.isOrdinary = true)
    (hright : right.isOrdinary = true) : left.textsMislead right = false := by
  cases left with
  | float number =>
      cases right with
      | float number' =>
          simp only [isOrdinary, Bool.and_eq_true, Bool.not_eq_true'] at hleft hright
          simp only [textsMislead, hleft.1, hleft.2, hright.2, Bool.false_and, Bool.or_false]
      | _ => rfl
  | _ => rfl

/-- Ordinary values are equal if both are nil, or neither is and their texts are the same. -/
theorem equals_iff_of_isOrdinary {left right : Value} (hleft : left.isOrdinary = true)
    (hright : right.isOrdinary = true) :
    left.equals right = true ↔ (left = .nil ↔ right = .nil) ∧ left.text = right.text := by
  by_cases hnil : left = .nil
  · subst hnil
    cases right <;> simp [equals]
  · by_cases hnil' : right = .nil
    · subst hnil'
      rw [equals_nil hnil]
      simp [hnil]
    · have htexts := textsMislead_of_isOrdinary hleft hright
      rw [equals_iff_text_of_not_mislead hnil hnil' htexts]
      simp [hnil, hnil']

end Value

/-- **Two values are equal if their texts are the same.**  Equality is symmetric, and every value
equals itself except what is not a number.  Nil equals nothing else.  Other values are equal if and
only if they have the same text, unless they are two floating-point numbers that are both zero or of
which one is not a number.  So among the values that are neither such a zero nor not a number, lists
of any nesting included, equality is an equivalence.  That the texts of floating-point numbers and
of tables tell these apart is `Number.floatText_injective` and `TableId.text_injective`. -/
theorem equality_by_text :
    (∀ left right : Value, left.equals right = right.equals left) ∧
    (∀ value : Value, value.equals value = true ↔ value.isNaN = false) ∧
    (∀ left right : Value, Xor (left = .nil) (right = .nil) → left.equals right = false) ∧
    (∀ left right : Value, left ≠ .nil → right ≠ .nil → left.textsMislead right = false →
      (left.equals right = true ↔ left.text = right.text)) ∧
    Equivalence fun left right : { value : Value // value.isOrdinary = true } =>
      left.val.equals right.val = true := by
  refine ⟨Value.equals_symm, fun _ => Value.equals_self_iff, ?_, ?_, ?_, ?_, ?_⟩
  · rintro left right (⟨rfl, hright⟩ | ⟨rfl, hleft⟩)
    · rw [Value.equals_symm, Value.equals_nil hright]
    · exact Value.equals_nil hleft
  · intro left right hleft hright htexts
    exact Value.equals_iff_text_of_not_mislead hleft hright htexts
  · -- among ordinary values to be equal is to be nil alike and to have the same text
    rintro ⟨value, hvalue⟩
    exact (Value.equals_iff_of_isOrdinary hvalue hvalue).mpr ⟨Iff.rfl, rfl⟩
  · rintro ⟨left, hleft⟩ ⟨right, hright⟩ hequal
    exact Value.equals_symm left right ▸ hequal
  · rintro ⟨first, hfirst⟩ ⟨second, hsecond⟩ ⟨third, hthird⟩ hequal hequal'
    obtain ⟨hnil, htext⟩ := (Value.equals_iff_of_isOrdinary hfirst hsecond).mp hequal
    obtain ⟨hnil', htext'⟩ := (Value.equals_iff_of_isOrdinary hsecond hthird).mp hequal'
    exact (Value.equals_iff_of_isOrdinary hfirst hthird).mpr
      ⟨hnil.trans hnil', htext.trans htext'⟩

/-- A list equals the text that it is written as, a zero does not equal the integer, and nil does
not equal its own text. -/
theorem equality_by_text_acrossKinds :
    (Value.list [.integer 1, .list [.nil, .boolean true]]).equals (.string "1\tnil\ttrue") = true ∧
      (Value.float 0).equals (.integer 0) = false ∧
      Value.nil.equals (.string "nil") = false := by
  obtain ⟨-, -, hnil, htexts, -⟩ := equality_by_text
  refine ⟨?_, ?_, ?_⟩
  · exact (htexts _ _ Value.noConfusion Value.noConfusion rfl).mpr (by decide +kernel)
  · rw [Bool.eq_false_iff, Ne, htexts _ _ Value.noConfusion Value.noConfusion rfl]
    decide +kernel
  · exact hnil _ _ (.inl ⟨rfl, Value.noConfusion⟩)

end TableScript
