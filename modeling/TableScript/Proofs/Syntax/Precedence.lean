import TableScript.Proofs.Syntax.Follow

/-!
# Operands and operators in a row

The rules of `Written` fix one way to group operators.  This module shows what they allow: an
expression of a tighter level stands wherever one of a looser level may, a left-associative operator
takes an expression of its own level on the left, and every row of operands with unary operators in
front and binary operators between is an expression.

For the last, a row is built from its end.  Something in front, a unary operator or an operand with
a binary operator, is admitted by a level if every expression of that level can have it in front
and stays one.  The operator's own level admits it, and each looser level does because it hands it
on to the first of its operands.
-/

namespace TableScript

variable {level : Level} {tokens before after : List Token} {place : Position}

/-! ## Looser levels -/

/-- An expression of the next tighter level is one of the level. -/
theorem Written.of_next {value : Expression} (hprimary : level ≠ .primary)
    (hvalue : Written (.expression level.next value) tokens) :
    Written (.expression level value) tokens := by
  cases hleft : level.associatesLeft with
  | true =>
      have hwhole := Written.chained hleft hvalue .continuation_end
      rwa [List.append_nil] at hwhole
  | false => exact .tighter hleft hprimary hvalue

theorem Level.rank_injective {first second : Level} (hrank : first.rank = second.rank) :
    first = second := by
  cases first <;> cases second <;> first | rfl | cases hrank

theorem Level.exists_looser {rank : Nat} (hrank : level.rank = rank + 1) :
    ∃ looser : Level, looser.next = level ∧ looser.rank = rank := by
  cases level with
  | disjunction => cases hrank
  | conjunction => exact ⟨.disjunction, rfl, Nat.succ.inj hrank⟩
  | comparison => exact ⟨.conjunction, rfl, Nat.succ.inj hrank⟩
  | concatenation => exact ⟨.comparison, rfl, Nat.succ.inj hrank⟩
  | additive => exact ⟨.concatenation, rfl, Nat.succ.inj hrank⟩
  | multiplicative => exact ⟨.additive, rfl, Nat.succ.inj hrank⟩
  | unary => exact ⟨.multiplicative, rfl, Nat.succ.inj hrank⟩
  | power => exact ⟨.unary, rfl, Nat.succ.inj hrank⟩
  | primary => exact ⟨.power, rfl, Nat.succ.inj hrank⟩

/-- An expression of a tighter level is one of every looser level. -/
theorem Written.loosen {tighter : Level} {value : Expression}
    (hvalue : Written (.expression tighter value) tokens) (hrank : level.rank ≤ tighter.rank) :
    Written (.expression level value) tokens := by
  -- induction on the number of levels between the two
  obtain ⟨distance, hdistance⟩ := Nat.exists_eq_add_of_le hrank
  induction distance generalizing level with
  | zero =>
      obtain rfl := Level.rank_injective hdistance
      exact hvalue
  | succ distance ih =>
      have hprimary : level ≠ .primary := by
        rintro rfl
        have htighter := tighter.rank_le
        have hlast : Level.primary.rank = 8 := rfl
        omega
      have hnext := Level.rank_next hprimary
      exact .of_next hprimary (ih (by omega) (by omega))

/-- Any expression stands where one of the loosest level may. -/
theorem Written.loosest {value : Expression} (hvalue : Written (.expression level value) tokens) :
    Written (.expression .disjunction value) tokens :=
  hvalue.loosen (Nat.zero_le _)

theorem Written.of_primary {value : Expression} (hvalue : Written (.primary value) tokens)
    (level : Level) : Written (.expression level value) tokens :=
  (Written.atPrimary hvalue).loosen level.rank_le

/-! ## Operators that associate to the left -/

theorem Written.expression_chained {value : Expression} (hleft : level.associatesLeft = true)
    (hwritten : Written (.expression level value) tokens) :
    ∃ first before after, tokens = before ++ after ∧ Written (.expression level.next first) before ∧
      Written (.continuation level first value) after := by
  cases hwritten with
  | chained _ hfirst hrest => exact ⟨_, _, _, rfl, hfirst, hrest⟩
  | tighter hright =>
      rw [hright] at hleft
      cases hleft
  | _ => cases hleft

/-- A continuation goes on with one operator more. -/
theorem Written.continuation_snoc {operator : BinaryOperator} {left middle right : Expression}
    (hlevel : operator.level = level) (hwritten : Written (.continuation level left middle) before)
    (hright : Written (.expression level.next right) after) :
    Written (.continuation level left (.binary operator middle right place))
      (before ++ ⟨operator.token, place⟩ :: after) := by
  generalize hphrase : Phrase.continuation level left middle = phrase at hwritten
  induction hwritten generalizing left with
  | continuation_end =>
      cases hphrase
      have hwhole : Written (.continuation level middle (.binary operator middle right place))
          (⟨operator.token, place⟩ :: (after ++ [])) :=
        .continuation_operator hlevel hright .continuation_end
      rwa [List.append_nil] at hwhole
  | continuation_operator hother hnext _ _ ih =>
      cases hphrase
      have hwhole := Written.continuation_operator hother hnext (ih rfl)
      simpa using hwhole
  | _ => cases hphrase

/-- A continuation goes on after any other left operand as well. -/
theorem Written.continuation_from {left value : Expression}
    (hwritten : Written (.continuation level left value) tokens) (other : Expression) :
    ∃ value', Written (.continuation level other value') tokens := by
  generalize hphrase : Phrase.continuation level left value = phrase at hwritten
  induction hwritten generalizing left other with
  | continuation_end =>
      cases hphrase
      exact ⟨other, .continuation_end⟩
  | continuation_operator hlevel hright _ _ ih =>
      cases hphrase
      obtain ⟨value', hrest⟩ := ih _ rfl
      exact ⟨value', .continuation_operator hlevel hright hrest⟩
  | _ => cases hphrase

/-- A left-associative operator takes an expression of its own level on the left. -/
theorem Written.binary_left {operator : BinaryOperator} {left right : Expression}
    (hassociates : operator.level.associatesLeft = true)
    (hleft : Written (.expression operator.level left) before)
    (hright : Written (.expression operator.level.next right) after) :
    Written (.expression operator.level (.binary operator left right place))
      (before ++ ⟨operator.token, place⟩ :: after) := by
  obtain ⟨first, front, rest, rfl, hfirst, hrest⟩ := hleft.expression_chained hassociates
  rw [List.append_assoc]
  exact .chained hassociates hfirst (hrest.continuation_snoc rfl hright)

/-! ## Rows -/

/-- Operands, with unary operators in front of them and binary operators between them. -/
inductive Row : List Token → Prop
  | operand {value : Expression} {tokens : List Token} (hvalue : Written (.primary value) tokens) :
      Row tokens
  | unary {operator : UnaryOperator} {place : Position} {tokens : List Token} (hrow : Row tokens) :
      Row (⟨operator.token, place⟩ :: tokens)
  | binary {value : Expression} {operator : BinaryOperator} {place : Position}
      {before after : List Token} (hvalue : Written (.primary value) before) (hrow : Row after) :
      Row (before ++ ⟨operator.token, place⟩ :: after)

/-- Two rows with a binary operator between them are a row. -/
theorem Row.append {operator : BinaryOperator} (hbefore : Row before) (hafter : Row after) :
    Row (before ++ ⟨operator.token, place⟩ :: after) := by
  induction hbefore with
  | operand hvalue => exact .binary hvalue hafter
  | unary hrow ih => exact .unary ih
  | binary hvalue hrow ih =>
      rw [List.append_assoc]
      exact .binary hvalue ih

/-- Every expression of the level can have the tokens in front. -/
def Level.Admits (level : Level) (front : List Token) : Prop :=
  ∀ (value : Expression) (tokens : List Token), Written (.expression level value) tokens →
    ∃ value', Written (.expression level value') (front ++ tokens)

namespace Level.Admits

variable {front : List Token}

/-- A looser level hands what is in front on to its first operand. -/
theorem of_next (hrank : level.rank < Level.unary.rank) (hadmits : level.next.Admits front) :
    level.Admits front := by
  intro value tokens hwritten
  cases hleft : level.associatesLeft with
  | true =>
      obtain ⟨first, before, after, rfl, hfirst, hrest⟩ := hwritten.expression_chained hleft
      -- only the first operand changes; the operators behind it go on as before, with another left
      -- operand
      obtain ⟨first', hfirst'⟩ := hadmits _ _ hfirst
      obtain ⟨value', hrest'⟩ := hrest.continuation_from first'
      rw [← List.append_assoc]
      exact ⟨value', .chained hleft hfirst' hrest'⟩
  | false =>
      obtain rfl : level = .concatenation := by
        cases level <;> first | rfl | exact absurd hrank (by decide) | cases hleft
      cases hwritten with
      | concatenation hfirst hright =>
          obtain ⟨first', hfirst'⟩ := hadmits _ _ hfirst
          rw [← List.append_assoc]
          exact ⟨_, .concatenation hfirst' hright⟩
      | tighter _ hprimary hvalue =>
          obtain ⟨value', hvalue'⟩ := hadmits _ _ hvalue
          exact ⟨value', .tighter rfl hprimary hvalue'⟩
      | chained hchained => cases hchained

/-- What a level admits, the loosest admits. -/
theorem disjunction (hadmits : level.Admits front) (hrank : level.rank ≤ Level.unary.rank) :
    Level.disjunction.Admits front := by
  -- one level looser at a time
  obtain ⟨rank, hlevel⟩ : ∃ rank, level.rank = rank := ⟨_, rfl⟩
  induction rank generalizing level with
  | zero =>
      obtain rfl : level = .disjunction := Level.rank_injective hlevel
      exact hadmits
  | succ rank ih =>
      obtain ⟨looser, rfl, hlooser⟩ := Level.exists_looser hlevel
      exact ih (of_next (by omega) hadmits) (by omega) hlooser

theorem unary_operator (operator : UnaryOperator) (place : Position) :
    Level.unary.Admits [⟨operator.token, place⟩] :=
  fun _ _ hwritten => ⟨_, .unary hwritten⟩

/-- A level admits an operand and one of its own operators. -/
theorem left_operator {operator : BinaryOperator} {operand : Expression}
    (hassociates : operator.level.associatesLeft = true)
    (hoperand : Written (.primary operand) before) (place : Position) :
    operator.level.Admits (before ++ [⟨operator.token, place⟩]) := by
  intro value tokens hwritten
  obtain ⟨first, front, rest, rfl, hfirst, hrest⟩ := hwritten.expression_chained hassociates
  obtain ⟨value', hrest'⟩ := hrest.continuation_from (.binary operator operand first place)
  refine ⟨value', ?_⟩
  simpa using Written.chained hassociates (hoperand.of_primary _)
    (.continuation_operator rfl hfirst hrest')

theorem concatenation_operator {operand : Expression} (hoperand : Written (.primary operand) before)
    (place : Position) :
    Level.concatenation.Admits (before ++ [⟨BinaryOperator.concat.token, place⟩]) := by
  intro value tokens hwritten
  rw [List.append_assoc]
  exact ⟨_, .concatenation (hoperand.of_primary _) hwritten⟩

/-- An expression of the unary level is the exponent of a power in front of it. -/
theorem power_operator {operand : Expression} (hoperand : Written (.primary operand) before)
    (place : Position) :
    Level.unary.Admits (before ++ [⟨BinaryOperator.power.token, place⟩]) := by
  intro value tokens hwritten
  rw [List.append_assoc]
  exact ⟨_, .of_next (by decide) (.power (.atPrimary hoperand) hwritten)⟩

theorem binary_operator {operand : Expression} (operator : BinaryOperator)
    (hoperand : Written (.primary operand) before) (place : Position) :
    Level.disjunction.Admits (before ++ [⟨operator.token, place⟩]) := by
  cases hassociates : operator.level.associatesLeft with
  | true =>
      refine (left_operator hassociates hoperand place).disjunction ?_
      cases operator <;> first | decide | cases hassociates
  | false =>
      cases operator with
      | concat => exact (concatenation_operator hoperand place).disjunction (by decide)
      | power => exact (power_operator hoperand place).disjunction (by decide)
      | _ => cases hassociates

end Level.Admits

/-- **Every row is an expression.** -/
theorem Row.written (hrow : Row tokens) :
    ∃ value, Written (.expression .disjunction value) tokens := by
  induction hrow with
  | operand hvalue => exact ⟨_, hvalue.of_primary _⟩
  | @unary operator place tokens hrow ih =>
      obtain ⟨value, hvalue⟩ := ih
      have hadmits := (Level.Admits.unary_operator operator place).disjunction (by decide)
      exact hadmits _ _ hvalue
  | @binary value operator place before after hvalue hrow ih =>
      obtain ⟨value, hafter⟩ := ih
      have hadmits := Level.Admits.binary_operator operator hvalue place
      simpa using hadmits _ _ hafter

end TableScript
