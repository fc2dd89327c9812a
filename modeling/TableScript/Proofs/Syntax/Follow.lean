import TableScript.Proofs.Syntax.Phrase

/-!
# The tokens at the two ends of a phrase

A reader decides what to do by looking at the next token, and in three places at one or three tokens
more.  That no reader swallows tokens of what comes after its phrase rests on two things.  `First`
says how a phrase can begin.  `Follow` says what may come after it: for an expression of some level,
no token that would go on with it at that level or a tighter one.
-/

namespace TableScript

/-! ## How a phrase begins -/

namespace Token

/-- Whether an operand without an operator in front can begin so. -/
def beginsPrimary : Option Kind → Bool
  | some (.integer _) | some (.float _) | some (.string _) | some (.name _) => true
  | some (.keyword word) => [Keyword.nil_, .true_, .false_].contains word
  | some (.symbol mark) => [Symbol.openParen, .openBrace].contains mark
  | none => false

/-- Whether an expression can begin so. -/
def beginsExpression (next : Option Kind) : Bool :=
  beginsPrimary next || (next.bind unaryOperator?).isSome

/-- Whether a statement can begin so. -/
def beginsStatement : Option Kind → Bool
  | some (.name _) | some (.symbol .semicolon) => true
  | some (.keyword word) =>
    [Keyword.break_, .local_, .if_, .function_, .while_, .repeat_, .for_, .do_].contains word
  | _ => false

end Token

/-- How the reader of a phrase finds it to begin. -/
def Phrase.First (next : Option Token.Kind) : Phrase → Prop
  | .primary _ | .expression .primary _ | .expression .power _ => Token.beginsPrimary next = true
  | .expression _ _ | .expressionList _ => Token.beginsExpression next = true
  | .field _ => Token.beginsExpression next = true ∨ next = some (.symbol .openBracket)
  | .invocation _ => ∃ name, next = some (.name name)
  | .result _ => next = some (.keyword .return_)
  | .statement _ _ => Token.beginsStatement next = true
  | _ => True

@[simp] theorem firstKind?_nil : firstKind? [] = none := rfl

@[simp] theorem firstKind?_cons (token : Token) (rest : List Token) :
    firstKind? (token :: rest) = some token.kind := rfl

theorem Token.beginsExpression_of_primary {next : Option Token.Kind}
    (hprimary : Token.beginsPrimary next = true) : Token.beginsExpression next = true := by
  simp [Token.beginsExpression, hprimary]

/-- An expression of a tighter level begins as one of the level does. -/
theorem Phrase.First.expression {next : Option Token.Kind} {level : Level} {value : Expression}
    (hfirst : (Phrase.expression level value).First next) :
    Token.beginsExpression next = true := by
  cases level with
  | power => exact Token.beginsExpression_of_primary hfirst
  | primary => exact Token.beginsExpression_of_primary hfirst
  | _ => exact hfirst

theorem Token.beginsPrimary_of_literal {token : Token} {value : Expression}
    (hliteral : token.literal? = some value) : Token.beginsPrimary (some token.kind) = true := by
  obtain ⟨kind, place⟩ := token
  cases kind with
  | keyword word => cases word <;> first | rfl | cases hliteral
  | symbol mark => cases hliteral
  | name text => cases hliteral
  | _ => rfl

/-- Every phrase begins as its reader expects. -/
theorem Written.first {phrase : Phrase} {tokens : List Token} (hwritten : Written phrase tokens) :
    ∀ rest : List Token, phrase.First (firstKind? (tokens ++ rest)) := by
  -- a phrase begins as its first part does, whatever the rest of it is
  induction hwritten with
  | literal hliteral =>
      intro rest
      exact Token.beginsPrimary_of_literal hliteral
  | invoke hinvocation ih =>
      intro rest
      obtain ⟨name, hname⟩ := ih rest
      simp only [Phrase.First, hname, Token.beginsPrimary]
  | atPrimary hvalue ih => exact ih
  | power hbase hexponent ihBase ihExponent =>
      intro rest
      rw [List.append_assoc]
      exact ihBase _
  | @unary operator operand tokens place hoperand ih =>
      intro rest
      cases operator <;> rfl
  | concatenation hleft hright ihLeft ihRight =>
      intro rest
      rw [List.append_assoc]
      exact ihLeft _
  | @tighter level value tokens hright hprimary hvalue ih =>
      intro rest
      cases level with
      | concatenation => exact ih rest
      | unary => exact (ih rest).expression
      | power => exact ih rest
      | _ => contradiction
  | @chained level first value before after hleft hfirst hrest ihFirst ihRest =>
      intro rest
      rw [List.append_assoc]
      -- what begins an operand begins an expression of every looser level
      have hbegins := (ihFirst (after ++ rest)).expression
      cases level <;> first | exact hbegins | cases hleft
  | expressionList_last hvalue ih => exact ih
  | expressionList_more hvalue hvalues ih =>
      intro rest
      rw [List.append_assoc]
      exact ih _
  | field_positional hvalue ih =>
      intro rest
      exact .inl (ih rest)
  | field_keyed hkey hvalue =>
      intro rest
      exact .inr rfl
  | field_named hvalue =>
      intro rest
      exact .inl rfl
  | call hname hvalues =>
      intro rest
      exact ⟨_, rfl⟩
  | print hvalues =>
      intro rest
      exact ⟨_, rfl⟩
  | read hformat =>
      intro rest
      exact ⟨_, rfl⟩
  | perform hinvocation ih =>
      intro rest
      obtain ⟨name, hname⟩ := ih rest
      simp only [Phrase.First, hname, Token.beginsStatement]
  | _ =>
      intro rest
      first | rfl | trivial

theorem Token.unaryOperator?_eq_none_of_beginsPrimary {next : Option Token.Kind}
    (hbegins : Token.beginsPrimary next = true) : next.bind unaryOperator? = none := by
  cases next with
  | none => rfl
  | some kind =>
      refine Option.eq_none_iff_forall_ne_some.mpr fun operator hoperator => ?_
      obtain rfl := unaryOperator?_eq_some.mp hoperator
      cases operator <;> cases hbegins

theorem Token.endsBlock_of_beginsExpression {next : Option Token.Kind}
    (hbegins : Token.beginsExpression next = true) : Token.endsBlock next = false := by
  match next, hbegins with
  | some (.keyword word), hbegins => cases word <;> first | rfl | cases hbegins
  | some (.integer _), _ | some (.float _), _ | some (.string _), _ | some (.name _), _
  | some (.symbol _), _ => rfl

theorem Token.endsBlock_of_beginsStatement {next : Option Token.Kind}
    (hbegins : Token.beginsStatement next = true) : Token.endsBlock next = false := by
  match next, hbegins with
  | some (.keyword word), hbegins => cases word <;> first | rfl | cases hbegins
  | some (.name _), _ => rfl
  | some (.symbol _), _ => rfl

/-- An expression takes a token at least. -/
theorem Written.length_expression_pos {level : Level} {value : Expression} {tokens : List Token}
    (hwritten : Written (.expression level value) tokens) : 0 < tokens.length := by
  cases tokens with
  | nil => cases (hwritten.first []).expression
  | cons token others => simp

/-! ## What may come after a phrase -/

/-- How tightly a level binds. -/
def Level.rank : Level → Nat
  | .disjunction => 0
  | .conjunction => 1
  | .comparison => 2
  | .concatenation => 3
  | .additive => 4
  | .multiplicative => 5
  | .unary => 6
  | .power => 7
  | .primary => 8

theorem Level.rank_next {level : Level} (hprimary : level ≠ .primary) :
    level.next.rank = level.rank + 1 := by
  cases level <;> first | rfl | contradiction

theorem Level.rank_le (level : Level) : level.rank ≤ 8 := by
  cases level <;> decide

/-- The next token does not go on with an expression of the level. -/
structure Level.Stops (level : Level) (next : Option Token.Kind) : Prop where
  dot : next ≠ some (.symbol .dot)
  openBracket : next ≠ some (.symbol .openBracket)
  openParen : next ≠ some (.symbol .openParen)
  operator : ∀ operator : BinaryOperator, level.rank ≤ operator.level.rank →
    next ≠ some operator.token

namespace Level.Stops

variable {level : Level} {next : Option Token.Kind}

theorem mono {tighter : Level} (hstops : level.Stops next) (hrank : level.rank ≤ tighter.rank) :
    tighter.Stops next where
  dot := hstops.dot
  openBracket := hstops.openBracket
  openParen := hstops.openParen
  operator operator htighter := hstops.operator operator (Nat.le_trans hrank htighter)

theorem next_level (hstops : level.Stops next) : level.next.Stops next := by
  refine hstops.mono ?_
  cases level <;> decide

/-- No operator is higher than unary and lower than power. -/
theorem unary_of_power (hstops : Level.power.Stops next) : Level.unary.Stops next where
  dot := hstops.dot
  openBracket := hstops.openBracket
  openParen := hstops.openParen
  operator operator hrank := by
    refine hstops.operator operator ?_
    cases operator <;> first | exact Nat.le_refl 7 | exact absurd hrank (by decide)

theorem binaryOperator?_eq_none (hstops : level.Stops next) :
    next.bind level.binaryOperator? = none := by
  cases next with
  | none => rfl
  | some kind =>
      refine Option.eq_none_iff_forall_ne_some.mpr fun operator hoperator => ?_
      obtain ⟨rfl, htoken⟩ := Level.binaryOperator?_eq_some.mp hoperator
      exact hstops.operator operator (Nat.le_refl _) (by rw [htoken])

end Level.Stops

theorem BinaryOperator.token_injective {first second : BinaryOperator}
    (htoken : first.token = second.token) : first = second := by
  cases first <;> cases second <;> first | rfl | cases htoken

/-- A looser operator ends the expression before it. -/
theorem BinaryOperator.stops {operator : BinaryOperator} {level : Level}
    (hrank : operator.level.rank < level.rank) : level.Stops (some operator.token) where
  dot := by cases operator <;> simp [BinaryOperator.token]
  openBracket := by cases operator <;> simp [BinaryOperator.token]
  openParen := by cases operator <;> simp [BinaryOperator.token]
  operator other hother hsame := by
    obtain rfl := BinaryOperator.token_injective (Option.some.inj hsame)
    omega

/-- After an operand come operators of its level, or what comes after the whole. -/
theorem Written.stops_next {level : Level} {left value : Expression} {tokens rest : List Token}
    (hwritten : Written (.continuation level left value) tokens) (hprimary : level ≠ .primary)
    (hstops : level.Stops (firstKind? rest)) : level.next.Stops (firstKind? (tokens ++ rest)) := by
  cases hwritten with
  | continuation_end => exact hstops.next_level
  | continuation_operator hlevel hright hrest =>
      refine BinaryOperator.stops ?_
      rw [hlevel, Level.rank_next hprimary]
      exact Nat.lt_succ_self _

/-- Whether a token can go on with some expression. -/
def Token.extendsExpression : Option Token.Kind → Bool
  | some (.symbol mark) =>
    [Symbol.dot, .openBracket, .openParen, .plus, .minus, .star, .slash, .percent, .caret, .concat,
      .equal, .notEqual, .less, .lessEqual, .greater, .greaterEqual].contains mark
  | some (.keyword word) => [Keyword.and_, .or_].contains word
  | _ => false

theorem Token.stops {next : Option Token.Kind} (hnext : Token.extendsExpression next = false)
    (level : Level) : level.Stops next where
  dot := by rintro rfl; cases hnext
  openBracket := by rintro rfl; cases hnext
  openParen := by rintro rfl; cases hnext
  operator operator _ := by
    rintro rfl
    cases operator <;> cases hnext

theorem Token.extendsExpression_of_endsBlock {next : Option Token.Kind}
    (hends : Token.endsBlock next = true) : Token.extendsExpression next = false := by
  match next, hends with
  | none, _ => rfl
  | some (.keyword word), hends => cases word <;> first | rfl | cases hends

theorem Token.extendsExpression_of_beginsStatement {next : Option Token.Kind}
    (hbegins : Token.beginsStatement next = true) : Token.extendsExpression next = false := by
  match next, hbegins with
  | some (.name _), _ => rfl
  | some (.symbol .semicolon), _ => rfl
  | some (.keyword word), hbegins => cases word <;> first | rfl | cases hbegins

/-- What may come after a phrase. -/
def Phrase.Follow (next : Option Token.Kind) : Phrase → Prop
  | .expression level _ | .continuation level _ _ => level.Stops next
  | .primary _ | .path _ => Level.primary.Stops next
  | .expressionList _ => Level.disjunction.Stops next ∧ next ≠ some (.symbol .comma)
  | .fields _ => next = some (.symbol .closeBrace)
  | .field _ => next = some (.symbol .comma) ∨ next = some (.symbol .semicolon) ∨
      next = some (.symbol .closeBrace)
  | .invocation _ | .arguments _ | .format _ => True
  | .parameters _ => next = some (.symbol .closeParen)
  | .step _ => next = some (.keyword .do_)
  | .result _ | .block _ _ => Token.endsBlock next = true
  | .statements _ _ => Token.endsBlock next = true ∨ next = some (.keyword .return_)
  | .statement _ _ => Token.extendsExpression next = false
  | .branches _ _ _ => next = some (.keyword .end_)

/-- What comes after a statement in a list of statements does not go on with it. -/
theorem Written.statements_follow {inLoop : Bool} {values : List Statement}
    {tokens rest : List Token} (hwritten : Written (.statements inLoop values) tokens)
    (hfollow : (Phrase.statements inLoop values).Follow (firstKind? rest)) :
    Token.extendsExpression (firstKind? (tokens ++ rest)) = false := by
  cases hwritten with
  | statements_end =>
      rcases hfollow with hends | hreturn
      · exact Token.extendsExpression_of_endsBlock hends
      · rw [List.nil_append, hreturn]
        rfl
  | statements_more hstatement hstatements =>
      rw [List.append_assoc]
      exact Token.extendsExpression_of_beginsStatement (hstatement.first _)

theorem Written.block_follow {inLoop : Bool} {value : Block} {tokens rest : List Token}
    (hwritten : Written (.block inLoop value) tokens)
    (hends : Token.endsBlock (firstKind? rest) = true) :
    Token.extendsExpression (firstKind? (tokens ++ rest)) = false := by
  cases hwritten with
  | block_open hstatements => exact hstatements.statements_follow (.inl hends)
  | block_result hstatements hresult =>
      rw [List.append_assoc]
      exact hstatements.statements_follow (.inr (hresult.first rest))

/-! ## Looking further ahead -/

/-- Nowhere in front of a phrase does an assignment sign follow a name, nor does it begin a
continuation or a path. -/
def Phrase.NotNamed (tokens : List Token) : Phrase → Prop
  | .expression _ _ | .primary _ | .invocation _ => ∀ name place assign others,
      tokens ≠ ⟨.name name, place⟩ :: ⟨.symbol .assign, assign⟩ :: others
  | .continuation _ _ _ | .path _ => firstKind? tokens ≠ some (.symbol .assign)
  | _ => True

theorem Written.notNamed {phrase : Phrase} {tokens : List Token}
    (hwritten : Written phrase tokens) :
    ∀ rest : List Token, firstKind? rest ≠ some (.symbol .assign) →
      phrase.NotNamed (tokens ++ rest) := by
  -- an assignment sign could only stand behind a name that is a whole expression, and what follows
  -- is none
  induction hwritten with
  | literal hliteral =>
      rintro rest - name place assign others htokens
      cases htokens
      cases hliteral
  | parenthesized hinner =>
      rintro rest - name place assign others htokens
      cases htokens
  | table hfields =>
      rintro rest - name place assign others htokens
      cases htokens
  | invoke hinvocation ih => exact ih
  -- behind the name of a variable stands its path, or what follows the expression
  | «variable» hpath ih =>
      rintro rest hrest name place assign others htokens
      rw [List.cons_append, List.cons.injEq] at htokens
      exact ih rest hrest (by rw [htokens.2]; rfl)
  | atPrimary hvalue ih => exact ih
  | power hbase hexponent ih =>
      intro rest hrest
      rw [List.append_assoc]
      exact ih _ (by simp [BinaryOperator.token])
  | @unary operator operand tokens place hoperand =>
      rintro rest - name place assign others htokens
      cases operator <;> cases htokens
  | concatenation hleft hright ih =>
      intro rest hrest
      rw [List.append_assoc]
      exact ih _ (by simp [BinaryOperator.token])
  | tighter hright hprimary hvalue ih => exact ih
  -- what follows the first operand is the continuation, which begins with no assignment sign
  | chained hleft hfirst hrest ihFirst ihRest =>
      intro rest hrest
      rw [List.append_assoc]
      exact ihFirst _ (ihRest rest hrest)
  | continuation_end => exact fun rest hrest => hrest
  | @continuation_operator level operator left right value before after place hlevel hright hrest =>
      intro rest hrest
      cases operator <;> simp [Phrase.NotNamed, BinaryOperator.token]
  | path_end => exact fun rest hrest => hrest
  | path_name hpath =>
      intro rest hrest
      simp [Phrase.NotNamed]
  | path_key hkey hpath =>
      intro rest hrest
      simp [Phrase.NotNamed]
  | call hname hvalues =>
      rintro rest - name place assign others htokens
      cases htokens
  | print hvalues =>
      rintro rest - name place assign others htokens
      cases htokens
  | read hformat =>
      rintro rest - name place assign others htokens
      cases htokens
  | _ => exact fun rest hrest => trivial

/-- An invocation is taken for one. -/
theorem Written.beginsInvocation {value : Invocation} {tokens : List Token}
    (hwritten : Written (.invocation value) tokens) (rest : List Token) :
    ∃ name place others, tokens ++ rest = ⟨.name name, place⟩ :: others ∧
      Parser.beginsInvocation (tokens ++ rest) = true := by
  cases hwritten with
  | call hname hvalues => exact ⟨_, _, _, rfl, rfl⟩
  | print hvalues => exact ⟨_, _, _, rfl, rfl⟩
  | read hformat => exact ⟨_, _, _, rfl, rfl⟩

theorem Written.path_no_call {keys : List Expression} {tokens rest : List Token}
    (hwritten : Written (.path keys) tokens) (hrest : firstKind? rest ≠ some (.symbol .openParen)) :
    firstKind? (tokens ++ rest) ≠ some (.symbol .openParen) := by
  cases hwritten with
  | path_end => exact hrest
  | path_name hpath => simp
  | path_key hkey hpath => simp

/-- A variable with its path is not taken for a call, nor for a reading of input. -/
theorem Written.beginsInvocation_eq_false {keys : List Expression} {tokens rest : List Token}
    (hwritten : Written (.path keys) tokens) (name : String) (place : Position)
    (hrest : Level.primary.Stops (firstKind? rest)) :
    Parser.beginsInvocation (⟨.name name, place⟩ :: (tokens ++ rest)) = false := by
  rw [Bool.eq_false_iff, ne_eq, Parser.beginsInvocation_eq_true]
  rintro (⟨_, _, opening, others, htokens⟩ | ⟨others, hread⟩)
  · rw [List.cons.injEq] at htokens
    exact hwritten.path_no_call hrest.openParen (by rw [htokens.2]; rfl)
  · obtain ⟨_, dot, _, opening, htokens⟩ := Parser.afterReadCall?_eq_some.mp hread
    rw [List.cons.injEq] at htokens
    cases hwritten with
    | path_end => exact hrest.dot (by rw [← List.nil_append rest, htokens.2]; rfl)
    | path_name hpath =>
        simp only [List.cons_append, List.cons.injEq] at htokens
        exact hpath.path_no_call hrest.openParen (by rw [htokens.2.2.2]; rfl)
    | path_key hkey hpath => cases htokens.2

end TableScript
