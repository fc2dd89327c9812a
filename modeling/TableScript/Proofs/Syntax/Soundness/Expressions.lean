import TableScript.Proofs.Syntax.Phrase

/-!
# Expressions that are read were written

A reader that ends with a result has taken tokens that write the result, and leaves the tokens after
them.  The proof is one induction on the steps allowed: each reader is opened from the left, and the
readers that it calls have one step less.  Here are the readers of expressions and their parts.
-/

namespace TableScript

/-- The tokens taken from a list write the phrase. -/
def Phrase.TakenFrom (tokens rest : List Token) (phrase : Phrase) : Prop :=
  ∃ taken, tokens = taken ++ rest ∧ Written phrase taken

theorem Written.takenFrom {phrase : Phrase} {taken : List Token} (hwritten : Written phrase taken)
    (rest : List Token) : phrase.TakenFrom (taken ++ rest) rest :=
  ⟨taken, rfl, hwritten⟩

namespace Parser

open Reader

/-- Whatever the readers give within the steps allowed was written. -/
def Sound (steps : Nat) : Prop :=
  ∀ (phrase : Phrase) {tokens rest : List Token},
    phrase.ReadBy steps tokens rest → phrase.TakenFrom tokens rest

variable {steps : Nat} {tokens rest : List Token}

/-! ## Expressions -/

theorem power_sound (hsound : Sound steps) {value : Expression}
    (hread : expressionAt (steps + 1) .power tokens = .accepted value rest) :
    (Phrase.expression .power value).TakenFrom tokens rest := by
  rw [expressionAt] at hread
  simp only [bind_eq_accepted] at hread
  obtain ⟨base, middle, readBase, found, after, hfound, hread⟩ := hread
  obtain ⟨before, rfl, hbase⟩ := hsound (.expression .primary base) readBase
  cases found with
  | none =>
      simp only [acceptMap_eq_none] at hfound
      simp only [pure_eq_accepted] at hread
      obtain ⟨rfl, rfl⟩ := hread
      exact ⟨before, by rw [hfound.1], .tighter rfl (by decide) hbase⟩
  | some found =>
      obtain ⟨operator, place⟩ := found
      simp only [acceptMap_eq_some, Level.binaryOperator?_eq_some] at hfound
      obtain ⟨_, rfl, hlevel, rfl⟩ := hfound
      simp only [bind_eq_accepted, pure_eq_accepted] at hread
      obtain ⟨exponent, _, readExponent, rfl, rfl⟩ := hread
      obtain ⟨taken, rfl, hexponent⟩ := hsound (.expression .unary exponent) readExponent
      -- the level has no other operator
      obtain rfl : operator = .power := by
        cases operator <;> first | rfl | cases hlevel
      simpa using (Written.power hbase hexponent).takenFrom _

theorem unary_sound (hsound : Sound steps) {value : Expression}
    (hread : expressionAt (steps + 1) .unary tokens = .accepted value rest) :
    (Phrase.expression .unary value).TakenFrom tokens rest := by
  rw [expressionAt] at hread
  simp only [bind_eq_accepted] at hread
  obtain ⟨found, middle, hfound, hread⟩ := hread
  cases found with
  | none =>
      simp only [acceptMap_eq_none] at hfound
      obtain ⟨taken, rfl, hvalue⟩ := hsound (.expression .power value) hread
      exact ⟨taken, hfound.1, .tighter rfl (by decide) hvalue⟩
  | some found =>
      obtain ⟨operator, place⟩ := found
      simp only [acceptMap_eq_some, unaryOperator?_eq_some] at hfound
      obtain ⟨_, rfl, rfl⟩ := hfound
      simp only [bind_eq_accepted, pure_eq_accepted] at hread
      obtain ⟨operand, _, readOperand, rfl, rfl⟩ := hread
      obtain ⟨taken, rfl, hoperand⟩ := hsound (.expression .unary operand) readOperand
      exact (Written.unary hoperand).takenFrom _

theorem concatenation_sound (hsound : Sound steps) {value : Expression}
    (hread : expressionAt (steps + 1) .concatenation tokens = .accepted value rest) :
    (Phrase.expression .concatenation value).TakenFrom tokens rest := by
  rw [expressionAt] at hread
  simp only [bind_eq_accepted] at hread
  obtain ⟨left, middle, readLeft, found, after, hfound, hread⟩ := hread
  obtain ⟨before, rfl, hleft⟩ := hsound (.expression .additive left) readLeft
  cases found with
  | none =>
      simp only [acceptMap_eq_none] at hfound
      simp only [pure_eq_accepted] at hread
      obtain ⟨rfl, rfl⟩ := hread
      exact ⟨before, by rw [hfound.1], .tighter rfl (by decide) hleft⟩
  | some found =>
      obtain ⟨operator, place⟩ := found
      simp only [acceptMap_eq_some, Level.binaryOperator?_eq_some] at hfound
      obtain ⟨_, rfl, hlevel, rfl⟩ := hfound
      simp only [bind_eq_accepted, pure_eq_accepted] at hread
      obtain ⟨right, _, readRight, rfl, rfl⟩ := hread
      obtain ⟨taken, rfl, hright⟩ := hsound (.expression .concatenation right) readRight
      -- nor has this one
      obtain rfl : operator = .concat := by
        cases operator <;> first | rfl | cases hlevel
      simpa using (Written.concatenation hleft hright).takenFrom _

theorem chained_sound (hsound : Sound steps) {level : Level} {value : Expression}
    (hleft : level.associatesLeft = true)
    (hread : expressionAt (steps + 1) level tokens = .accepted value rest) :
    (Phrase.expression level value).TakenFrom tokens rest := by
  rw [expressionAt_associatesLeft hleft] at hread
  simp only [bind_eq_accepted] at hread
  obtain ⟨first, middle, readFirst, readRest⟩ := hread
  obtain ⟨before, rfl, hfirst⟩ := hsound (.expression level.next first) readFirst
  obtain ⟨after, rfl, hrest⟩ := hsound (.continuation level first value) readRest
  simpa using (Written.chained hleft hfirst hrest).takenFrom rest

theorem expressionAt_sound (hsound : Sound steps) {level : Level} {value : Expression}
    (hread : expressionAt (steps + 1) level tokens = .accepted value rest) :
    (Phrase.expression level value).TakenFrom tokens rest := by
  cases level with
  | primary =>
      obtain ⟨taken, rfl, hvalue⟩ := hsound (.primary value) hread
      exact (Written.atPrimary hvalue).takenFrom rest
  | power => exact power_sound hsound hread
  | unary => exact unary_sound hsound hread
  | concatenation => exact concatenation_sound hsound hread
  | _ => exact chained_sound hsound rfl hread

theorem chain_sound (hsound : Sound steps) {level : Level} {left value : Expression}
    (hread : chain (steps + 1) level left tokens = .accepted value rest) :
    (Phrase.continuation level left value).TakenFrom tokens rest := by
  rw [chain] at hread
  simp only [bind_eq_accepted] at hread
  obtain ⟨found, middle, hfound, hread⟩ := hread
  -- without an operator of the level the chain is at its end
  cases found with
  | none =>
      simp only [acceptMap_eq_none] at hfound
      simp only [pure_eq_accepted] at hread
      obtain ⟨rfl, rfl⟩ := hread
      exact ⟨[], hfound.1, .continuation_end⟩
  | some found =>
      obtain ⟨operator, place⟩ := found
      simp only [acceptMap_eq_some, Level.binaryOperator?_eq_some] at hfound
      obtain ⟨_, rfl, hlevel, rfl⟩ := hfound
      simp only [bind_eq_accepted] at hread
      obtain ⟨right, _, readRight, readRest⟩ := hread
      obtain ⟨before, rfl, hright⟩ := hsound (.expression level.next right) readRight
      obtain ⟨after, rfl, hrest⟩ :=
        hsound (.continuation level (.binary operator left right place) value) readRest
      simpa using (Written.continuation_operator hlevel hright hrest).takenFrom rest

/-- A token that is neither a name nor an opening bracket is an expression by itself or none. -/
theorem primary_sound (hsound : Sound steps) {value : Expression}
    (hread : primary (steps + 1) tokens = .accepted value rest) :
    (Phrase.primary value).TakenFrom tokens rest := by
  rw [primary] at hread
  dsimp only at hread
  split at hread
  case h_7 opening after =>
      simp only [bind_eq_accepted, expect_eq_accepted, pure_eq_accepted] at hread
      obtain ⟨inner, _, readInner, closing, _, rfl, rfl, rfl⟩ := hread
      obtain ⟨taken, rfl, hinner⟩ := hsound (.expression .disjunction inner) readInner
      simpa using (Written.parenthesized hinner).takenFrom _
  case h_8 opening after =>
      simp only [bind_eq_accepted, expect_eq_accepted, pure_eq_accepted] at hread
      obtain ⟨fields, _, readFields, closing, _, rfl, rfl, rfl⟩ := hread
      obtain ⟨taken, rfl, hfields⟩ := hsound (.fields fields) readFields
      simpa using (Written.table hfields).takenFrom _
  -- the name was not taken: it is the first token of a call, or stands in front of a path
  case h_9 name place after =>
      split at hread
      · simp only [bind_eq_accepted, pure_eq_accepted] at hread
        obtain ⟨invocation, _, readInvocation, rfl, rfl⟩ := hread
        obtain ⟨taken, htaken, hinvocation⟩ := hsound (.invocation invocation) readInvocation
        exact ⟨taken, htaken, .invoke hinvocation⟩
      · simp only [bind_eq_accepted, pure_eq_accepted] at hread
        obtain ⟨path, _, readPath, rfl, rfl⟩ := hread
        obtain ⟨taken, rfl, hpath⟩ := hsound (.path path) readPath
        exact (Written.variable hpath).takenFrom _
  case h_10 => exact absurd hread refuse_ne_accepted
  -- the other tokens are literals
  all_goals
    cases hread
    exact ⟨[_], rfl, .literal rfl⟩

/-! ## The parts of expressions -/

theorem indexPath_sound (hsound : Sound steps) {keys : List Expression}
    (hread : indexPath (steps + 1) tokens = .accepted keys rest) :
    (Phrase.path keys).TakenFrom tokens rest := by
  rw [indexPath] at hread
  dsimp only at hread
  split at hread
  · simp only [bind_eq_accepted, expectName_eq_accepted, pure_eq_accepted] at hread
    obtain ⟨⟨field, place⟩, _, rfl, path, _, readPath, rfl, rfl⟩ := hread
    obtain ⟨taken, rfl, hpath⟩ := hsound (.path path) readPath
    exact (Written.path_name hpath).takenFrom _
  · simp only [bind_eq_accepted, expect_eq_accepted, pure_eq_accepted] at hread
    obtain ⟨key, _, readKey, closing, _, rfl, path, _, readPath, rfl, rfl⟩ := hread
    obtain ⟨before, rfl, hkey⟩ := hsound (.expression .disjunction key) readKey
    obtain ⟨after, rfl, hpath⟩ := hsound (.path path) readPath
    simpa using (Written.path_key hkey hpath).takenFrom _
  · cases hread
    exact Written.path_end.takenFrom _

theorem expressionList_sound (hsound : Sound steps) {values : List Expression}
    (hread : expressionList (steps + 1) tokens = .accepted values rest) :
    (Phrase.expressionList values).TakenFrom tokens rest := by
  rw [expressionList] at hread
  simp only [bind_eq_accepted] at hread
  obtain ⟨first, _, readFirst, more, _, hmore, hread⟩ := hread
  obtain ⟨before, rfl, hfirst⟩ := hsound (.expression .disjunction first) readFirst
  rcases accept_cases hmore with ⟨rfl, comma, rfl⟩ | ⟨rfl, rfl, -⟩
  · simp only [if_true, bind_eq_accepted, pure_eq_accepted] at hread
    obtain ⟨others, _, readOthers, rfl, rfl⟩ := hread
    obtain ⟨after, rfl, hothers⟩ := hsound (.expressionList others) readOthers
    simpa using (Written.expressionList_more hfirst hothers).takenFrom _
  · simp only [Bool.false_eq_true, if_false, pure_eq_accepted] at hread
    obtain ⟨rfl, rfl⟩ := hread
    exact (Written.expressionList_last hfirst).takenFrom _

theorem fieldList_sound (hsound : Sound steps) {fields : List Field}
    (hread : fieldList (steps + 1) tokens = .accepted fields rest) :
    (Phrase.fields fields).TakenFrom tokens rest := by
  rw [fieldList] at hread
  simp only [bind_eq_accepted, peek?_eq_accepted] at hread
  obtain ⟨next, _, ⟨-, rfl⟩, hread⟩ := hread
  split at hread
  · simp only [pure_eq_accepted] at hread
    obtain ⟨rfl, rfl⟩ := hread
    exact Written.fields_end.takenFrom _
  · simp only [pure_eq_accepted] at hread
    obtain ⟨rfl, rfl⟩ := hread
    exact Written.fields_end.takenFrom _
  · simp only [bind_eq_accepted] at hread
    obtain ⟨first, _, readFirst, comma, _, hcomma, hread⟩ := hread
    obtain ⟨before, rfl, hfirst⟩ := hsound (.field first) readFirst
    -- a comma, a semicolon, or neither behind the field
    rcases accept_cases hcomma with ⟨rfl, place, rfl⟩ | ⟨rfl, rfl, -⟩
    · simp only [if_true, bind_eq_accepted, pure_eq_accepted] at hread
      obtain ⟨others, _, readOthers, rfl, rfl⟩ := hread
      obtain ⟨after, rfl, hothers⟩ := hsound (.fields others) readOthers
      simpa using (Written.fields_more (.inl rfl) hfirst hothers).takenFrom _
    · simp only [Bool.false_eq_true, if_false, bind_eq_accepted] at hread
      obtain ⟨semicolon, _, hsemicolon, hread⟩ := hread
      rcases accept_cases hsemicolon with ⟨rfl, place, rfl⟩ | ⟨rfl, rfl, -⟩
      · simp only [if_true, bind_eq_accepted, pure_eq_accepted] at hread
        obtain ⟨others, _, readOthers, rfl, rfl⟩ := hread
        obtain ⟨after, rfl, hothers⟩ := hsound (.fields others) readOthers
        simpa using (Written.fields_more (.inr rfl) hfirst hothers).takenFrom _
      · simp only [Bool.false_eq_true, if_false, pure_eq_accepted] at hread
        obtain ⟨rfl, rfl⟩ := hread
        exact (Written.fields_last hfirst).takenFrom _

theorem field_sound (hsound : Sound steps) {value : Field}
    (hread : field (steps + 1) tokens = .accepted value rest) :
    (Phrase.field value).TakenFrom tokens rest := by
  rw [field] at hread
  dsimp only at hread
  split at hread
  · simp only [bind_eq_accepted, pure_eq_accepted] at hread
    obtain ⟨value, _, readValue, rfl, rfl⟩ := hread
    obtain ⟨taken, rfl, hvalue⟩ := hsound (.expression .disjunction value) readValue
    exact (Written.field_named hvalue).takenFrom _
  · simp only [bind_eq_accepted, expect_eq_accepted, pure_eq_accepted] at hread
    obtain ⟨key, _, readKey, closing, _, rfl, assign, _, rfl, value, _, readValue, rfl, rfl⟩ :=
      hread
    obtain ⟨before, rfl, hkey⟩ := hsound (.expression .disjunction key) readKey
    obtain ⟨after, rfl, hvalue⟩ := hsound (.expression .disjunction value) readValue
    simpa using (Written.field_keyed hkey hvalue).takenFrom _
  · simp only [bind_eq_accepted, pure_eq_accepted] at hread
    obtain ⟨value, _, readValue, rfl, rfl⟩ := hread
    obtain ⟨taken, rfl, hvalue⟩ := hsound (.expression .disjunction value) readValue
    exact (Written.field_positional hvalue).takenFrom _

theorem invocation_sound (hsound : Sound steps) {value : Invocation}
    (hread : invocation (steps + 1) tokens = .accepted value rest) :
    (Phrase.invocation value).TakenFrom tokens rest := by
  rw [invocation] at hread
  dsimp only at hread
  split at hread
  · next name place opening after =>
      simp only [bind_eq_accepted] at hread
      obtain ⟨values, _, readValues, hread⟩ := hread
      obtain ⟨taken, rfl, hvalues⟩ := hsound (.arguments values) readValues
      split at hread
      · next hname =>
          simp only [pure_eq_accepted] at hread
          obtain ⟨rfl, rfl⟩ := hread
          subst hname
          exact (Written.print hvalues).takenFrom _
      · next hname =>
          simp only [pure_eq_accepted] at hread
          obtain ⟨rfl, rfl⟩ := hread
          exact (Written.call hname hvalues).takenFrom _
  · -- the first name of `io.read(` is compared as a text before anything is taken
    next first place others _ =>
      split at hread
      · next after hafter =>
          simp only [bind_eq_accepted, pure_eq_accepted] at hread
          obtain ⟨format, _, readFormat, rfl, rfl⟩ := hread
          obtain ⟨taken, rfl, hformat⟩ := hsound (.format format) readFormat
          obtain ⟨_, dot, name, opening, htokens⟩ := afterReadCall?_eq_some.mp hafter
          cases htokens
          exact (Written.read hformat).takenFrom _
      · exact absurd hread refuse_ne_accepted
  · exact absurd hread refuse_ne_accepted

theorem argumentList_sound (hsound : Sound steps) {values : List Expression}
    (hread : argumentList (steps + 1) tokens = .accepted values rest) :
    (Phrase.arguments values).TakenFrom tokens rest := by
  rw [argumentList] at hread
  simp only [bind_eq_accepted] at hread
  obtain ⟨closed, _, hclosed, hread⟩ := hread
  rcases accept_cases hclosed with ⟨rfl, closing, rfl⟩ | ⟨rfl, rfl, -⟩
  · simp only [if_true, pure_eq_accepted] at hread
    obtain ⟨rfl, rfl⟩ := hread
    exact Written.arguments_none.takenFrom _
  · simp only [Bool.false_eq_true, if_false, bind_eq_accepted, expect_eq_accepted,
      pure_eq_accepted] at hread
    obtain ⟨values, _, readValues, closing, _, rfl, rfl, rfl⟩ := hread
    obtain ⟨taken, rfl, hvalues⟩ := hsound (.expressionList values) readValues
    simpa using (Written.arguments_some hvalues).takenFrom _

theorem readFormat_sound (hsound : Sound steps) {value : Option Expression}
    (hread : readFormat (steps + 1) tokens = .accepted value rest) :
    (Phrase.format value).TakenFrom tokens rest := by
  rw [readFormat] at hread
  simp only [bind_eq_accepted] at hread
  obtain ⟨closed, _, hclosed, hread⟩ := hread
  rcases accept_cases hclosed with ⟨rfl, closing, rfl⟩ | ⟨rfl, rfl, -⟩
  · simp only [if_true, pure_eq_accepted] at hread
    obtain ⟨rfl, rfl⟩ := hread
    exact Written.format_none.takenFrom _
  · simp only [Bool.false_eq_true, if_false, bind_eq_accepted, expect_eq_accepted,
      pure_eq_accepted] at hread
    obtain ⟨format, _, readValue, closing, _, rfl, rfl, rfl⟩ := hread
    obtain ⟨taken, rfl, hvalue⟩ := hsound (.expression .disjunction format) readValue
    simpa using (Written.format_some hvalue).takenFrom _

end Parser

end TableScript
