import TableScript.Proofs.Syntax.Completion.Readers
import TableScript.Proofs.Syntax.Rules

/-!
# What a rule refuses could have gone on

Every reader of the grammar completes: the tokens that it has taken when it refuses are the
beginning of something that it reads (`completing`).  What is missing is put in as simply as can be:
`nil` for an expression, nothing for a block, and the words and marks that the rule asks for.
-/

namespace TableScript.Parser

open Reader

/-! ## Something of every kind -/

theorem written_nil (level : Level) :
    Written (.expression level (.nil .start)) [⟨.keyword .nil_, .start⟩] := by
  have hprimary : Written (.primary (.nil .start)) [⟨.keyword .nil_, .start⟩] := .literal rfl
  have hpower : Written (.expression .power (.nil .start)) [⟨.keyword .nil_, .start⟩] :=
    .tighter rfl (by decide) (.atPrimary hprimary)
  have hunary : Written (.expression .unary (.nil .start)) [⟨.keyword .nil_, .start⟩] :=
    .tighter rfl (by decide) hpower
  have hchained {level : Level} (hleft : level.associatesLeft = true)
      (hnext : Written (.expression level.next (.nil .start)) [⟨.keyword .nil_, .start⟩]) :
      Written (.expression level (.nil .start)) [⟨.keyword .nil_, .start⟩] :=
    .chained hleft hnext .continuation_end
  have hadditive : Written (.expression .additive (.nil .start)) [⟨.keyword .nil_, .start⟩] :=
    hchained rfl (hchained rfl hunary)
  have hcomparison : Written (.expression .comparison (.nil .start)) [⟨.keyword .nil_, .start⟩] :=
    hchained rfl (.tighter rfl (by decide) hadditive)
  -- from the innermost level outwards, each by way of the next one
  cases level with
  | disjunction => exact hchained rfl (hchained rfl hcomparison)
  | conjunction => exact hchained rfl hcomparison
  | comparison => exact hcomparison
  | concatenation => exact .tighter rfl (by decide) hadditive
  | additive => exact hadditive
  | multiplicative => exact hchained rfl hunary
  | unary => exact hunary
  | power => exact hpower
  | primary => exact .atPrimary hprimary

theorem written_emptyBlock (inLoop : Bool) : Written (.block inLoop (.mk [] none)) [] :=
  .block_open .statements_end

/-- Every rule reads something. -/
theorem Rule.possible {α : Type} (rule : Rule α) : ∃ value tokens, rule.Writes value tokens := by
  have hnil := written_nil .disjunction
  have hclosing : Written (.arguments []) [⟨.symbol .closeParen, .start⟩] := .arguments_none
  cases rule with
  | expression level => exact ⟨_, _, written_nil level⟩
  | chain level left => exact ⟨left, [], .continuation_end⟩
  | primary => exact ⟨_, [⟨.keyword .nil_, .start⟩], .literal rfl⟩
  | indexPath => exact ⟨[], [], .path_end⟩
  | expressionList => exact ⟨_, _, .expressionList_last hnil⟩
  | fieldList => exact ⟨[], [], .fields_end⟩
  | field => exact ⟨_, _, .field_positional hnil⟩
  | invocation =>
      exact ⟨.print [] .start, ⟨.name "print", .start⟩ :: ⟨.symbol .openParen, .start⟩ :: _,
        .print hclosing⟩
  | argumentList => exact ⟨_, _, hclosing⟩
  | readFormat => exact ⟨none, [⟨.symbol .closeParen, .start⟩], .format_none⟩
  | parameterList => exact ⟨[], [], .parameters_end⟩
  | returnClause => exact ⟨⟨[], .start⟩, [⟨.keyword .return_, .start⟩], .result_none (.inl rfl)⟩
  | declaration position =>
      exact ⟨.declare "x" .start (.nil .start) position,
        ⟨.name "x", .start⟩ :: ⟨.symbol .assign, .start⟩ :: _, fun inLoop => .declare hnil⟩
  | forStep => exact ⟨none, [], .step_none⟩
  | block inLoop => exact ⟨_, _, written_emptyBlock inLoop⟩
  | statementList inLoop => exact ⟨[], [], .statements_end⟩
  | statement inLoop => exact ⟨.empty .start, [⟨.symbol .semicolon, .start⟩], .empty⟩
  | branchList inLoop =>
      have hbranch : Written (.branches inLoop [.mk (.nil .start) (.mk [] none)] none)
          ([⟨.keyword .nil_, .start⟩] ++ [⟨.keyword .then_, .start⟩]) :=
        .branches_last hnil (written_emptyBlock inLoop)
      exact ⟨(_, none), _, hbranch⟩

/-- A refusal of the first token, where something could have been read. -/
theorem Rule.refused {α : Type} (rule : Rule α) {problem problem' : Problem}
    {taken rest : List Token}
    (hread : Parsed.rejected problem (taken ++ rest) = (.rejected problem' rest : Parsed α)) :
    ∃ value more, rule.Writes value (taken ++ more) := by
  injection hread with _ hrest
  obtain rfl := List.append_left_eq_self.mp hrest
  exact rule.possible

/-- What the reader of a rule gives was written, so that it is a part of others if it completes. -/
theorem Rule.part {α : Type} (rule : Rule α) (steps : Nat)
    (hcompletes : Completes (rule.read steps) rule.Writes) :
    Part (rule.read steps) rule.Writes where
  toCompletes := hcompletes
  accepted taken rest value hread := by
    obtain ⟨written, htaken, hwrites⟩ := rule.writes_of_accepted hread
    obtain rfl : taken = written := List.append_cancel_right htaken
    exact hwrites

/-! ## All rules complete -/

/-- Within the steps allowed all readers complete. -/
def Completing (steps : Nat) : Prop :=
  ∀ {α : Type} (rule : Rule α), Completes (rule.read steps) rule.Writes

namespace Completing

variable {steps : Nat} (hcompleting : Completing steps)

include hcompleting

theorem part {α : Type} (rule : Rule α) : Part (rule.read steps) rule.Writes :=
  rule.part steps (hcompleting rule)

/-! ### Expressions -/

theorem expressionAt_succ (level : Level) :
    Completes (expressionAt (steps + 1) level) fun value => Written (.expression level value) := by
  have hexpression (level : Level) := hcompleting.part (.expression level)
  have hleft (level : Level) (hlevel : level.associatesLeft = true) : Completes
      (do let first ← expressionAt steps level.next; chain steps level first)
      (fun value => Written (.expression level value)) :=
    (hexpression level.next).completes_bind fun first before hfirst =>
      (hcompleting (.chain level first)).mono fun value after hrest => .chained hlevel hfirst hrest
  -- a level either has its operator, for the tokens to go on with an operand, or is the next level
  cases level with
  | primary => exact (hcompleting .primary).mono fun value tokens hvalue => .atPrimary hvalue
  | power =>
      rw [expressionAt]
      refine (hexpression .primary).completes_bind fun base before hbase => ?_
      refine completes_acceptMap_bind (fun operator place kind hselect => ?_) (completes_pure ?_)
      · obtain ⟨hlevel, rfl⟩ := Level.binaryOperator?_eq_some.mp hselect
        obtain rfl : operator = .power := by cases operator <;> first | rfl | cases hlevel
        exact (hexpression .unary).completes_map fun exponent after hexponent =>
          .power hbase hexponent
      · rw [List.append_nil]
        exact .tighter rfl (by decide) hbase
  | unary =>
      rw [expressionAt]
      refine completes_acceptMap_bind (fun operator place kind hselect => ?_) ?_
      · obtain rfl := unaryOperator?_eq_some.mp hselect
        exact (hexpression .unary).completes_map fun operand tokens hoperand => .unary hoperand
      · exact (hcompleting (.expression .power)).mono fun value tokens hvalue =>
          .tighter rfl (by decide) hvalue
  | concatenation =>
      rw [expressionAt]
      refine (hexpression .additive).completes_bind fun left before hleft => ?_
      refine completes_acceptMap_bind (fun operator place kind hselect => ?_) (completes_pure ?_)
      · obtain ⟨hlevel, rfl⟩ := Level.binaryOperator?_eq_some.mp hselect
        obtain rfl : operator = .concat := by cases operator <;> first | rfl | cases hlevel
        exact (hexpression .concatenation).completes_map fun right after hright =>
          .concatenation hleft hright
      · rw [List.append_nil]
        exact .tighter rfl (by decide) hleft
  | disjunction => exact hleft .disjunction rfl
  | conjunction => exact hleft .conjunction rfl
  | comparison => exact hleft .comparison rfl
  | additive => exact hleft .additive rfl
  | multiplicative => exact hleft .multiplicative rfl

theorem chain_succ (level : Level) (left : Expression) :
    Completes (chain (steps + 1) level left) fun value =>
      Written (.continuation level left value) := by
  rw [chain]
  refine completes_acceptMap_bind (fun operator place kind hselect => ?_)
    (completes_pure .continuation_end)
  obtain ⟨hlevel, rfl⟩ := Level.binaryOperator?_eq_some.mp hselect
  refine (hcompleting.part (.expression level.next)).completes_bind fun right before hright => ?_
  exact (hcompleting (.chain level (.binary operator left right place))).mono
    fun value after hrest => .continuation_operator hlevel hright hrest

theorem primary_succ :
    Completes (primary (steps + 1)) fun value => Written (.primary value) where
  trims := (expressionsTrim (steps + 1)).primary
  possible := Rule.primary.possible
  rejected taken rest problem hread := by
    -- the match looks at the tokens ahead, so each case first puts back what it has taken
    generalize htokens : taken ++ rest = tokens at hread
    rw [primary] at hread
    dsimp only at hread
    split at hread
    · cases hread
    · cases hread
    · cases hread
    · cases hread
    · cases hread
    · cases hread
    · next place tokens =>
        refine Completes.behind [⟨.symbol .openParen, place⟩] ?_ htokens hread
        refine (hcompleting.part (.expression .disjunction)).completes_bind
          fun inner before hinner => ?_
        exact completes_expect_bind fun closing => completes_pure (.parenthesized hinner)
    · next place tokens =>
        refine Completes.behind [⟨.symbol .openBrace, place⟩] ?_ htokens hread
        refine (hcompleting.part .fieldList).completes_bind fun fields before hfields => ?_
        exact completes_expect_bind fun closing => completes_pure (.table hfields)
    · next name place tokens =>
        split at hread
        · refine Completes.behind [] ?_ htokens hread
          exact (hcompleting.part .invocation).completes_map fun value tokens hvalue =>
            .invoke hvalue
        · refine Completes.behind [⟨.name name, place⟩] ?_ htokens hread
          exact (hcompleting.part .indexPath).completes_map fun path tokens hpath => .variable hpath
    · -- nothing was taken, so anything that could stand here completes it
      rw [← htokens] at hread
      exact Rule.primary.refused hread

theorem indexPath_succ : Completes (indexPath (steps + 1)) fun keys => Written (.path keys) where
  trims := (expressionsTrim (steps + 1)).indexPath
  possible := Rule.indexPath.possible
  rejected taken rest problem hread := by
    have hpath := hcompleting.part .indexPath
    generalize htokens : taken ++ rest = tokens at hread
    rw [indexPath] at hread
    dsimp only at hread
    split at hread
    · next dot tokens =>
        refine Completes.behind [⟨.symbol .dot, dot⟩] ?_ htokens hread
        refine completes_expectName_bind fun name => ?_
        exact hpath.completes_map fun path after hpath => .path_name hpath
    · next opening tokens =>
        refine Completes.behind [⟨.symbol .openBracket, opening⟩] ?_ htokens hread
        refine (hcompleting.part (.expression .disjunction)).completes_bind
          fun key before hkey => ?_
        refine completes_expect_bind fun closing => ?_
        exact hpath.completes_map fun path after hpath => .path_key hkey hpath
    · cases hread

theorem expressionList_succ : Completes (expressionList (steps + 1)) fun values =>
    Written (.expressionList values) := by
  rw [expressionList]
  refine (hcompleting.part (.expression .disjunction)).completes_bind fun first before hfirst => ?_
  refine completes_accept_bind (fun comma => ?_) (completes_pure ?_)
  · exact (hcompleting.part .expressionList).completes_map fun others after hothers =>
      .expressionList_more hfirst hothers
  · rw [List.append_nil]
    exact .expressionList_last hfirst

theorem fieldList_succ : Completes (fieldList (steps + 1)) fun fields =>
    Written (.fields fields) := by
  -- after either separator the table goes on with the fields that follow
  have hmore {first : Field} {before : List Token} (hfirst : Written (.field first) before)
      (separator : Symbol) (hseparator : separator = .comma ∨ separator = .semicolon)
      (place : Position) : Completes
        (do let others ← fieldList steps; pure (first :: others))
        (fun fields tokens =>
          Written (.fields fields) (before ++ ⟨.symbol separator, place⟩ :: tokens)) :=
    (hcompleting.part .fieldList).completes_map fun others after hothers =>
      .fields_more hseparator hfirst hothers
  rw [fieldList]
  refine completes_peek_bind fun next => ?_
  split
  · exact completes_pure .fields_end
  · exact completes_pure .fields_end
  · refine (hcompleting.part .field).completes_bind fun first before hfirst => ?_
    refine completes_accept_bind (hmore hfirst .comma (.inl rfl)) ?_
    refine completes_accept_bind (hmore hfirst .semicolon (.inr rfl)) (completes_pure ?_)
    rw [List.append_nil]
    exact .fields_last hfirst

theorem field_succ : Completes (field (steps + 1)) fun value => Written (.field value) where
  trims := (expressionsTrim (steps + 1)).field
  possible := Rule.field.possible
  rejected taken rest problem hread := by
    have hexpression := hcompleting.part (.expression .disjunction)
    generalize htokens : taken ++ rest = tokens at hread
    rw [field] at hread
    dsimp only at hread
    split at hread
    · next name place assign tokens =>
        refine Completes.behind [⟨.name name, place⟩, ⟨.symbol .assign, assign⟩] ?_ htokens hread
        exact hexpression.completes_map fun value tokens hvalue => .field_named hvalue
    · next opening tokens =>
        refine Completes.behind [⟨.symbol .openBracket, opening⟩] ?_ htokens hread
        refine hexpression.completes_bind fun key before hkey => ?_
        refine completes_expect_bind fun closing => completes_expect_bind fun assign => ?_
        exact hexpression.completes_map fun value after hvalue => .field_keyed hkey hvalue
    · refine Completes.behind [] ?_ htokens hread
      exact hexpression.completes_map fun value tokens hvalue => .field_positional hvalue

theorem invocation_succ :
    Completes (invocation (steps + 1)) fun value => Written (.invocation value) where
  trims := (expressionsTrim (steps + 1)).invocation
  possible := Rule.invocation.possible
  rejected taken rest problem hread := by
    generalize htokens : taken ++ rest = tokens at hread
    rw [invocation] at hread
    dsimp only at hread
    split at hread
    · next name place opening tokens =>
        refine Completes.behind [⟨.name name, place⟩, ⟨.symbol .openParen, opening⟩] ?_ htokens
          hread
        refine (hcompleting.part .argumentList).completes_bind fun values before hvalues => ?_
        split
        · -- the name was `print`, which is written by its own rule
          next hprint =>
            subst hprint
            refine completes_pure ?_
            rw [List.append_nil]
            exact .print hvalues
        · next hname =>
            refine completes_pure ?_
            rw [List.append_nil]
            exact .call hname hvalues
    · -- `io` is taken only with all of `.read(` behind it, and refused at once otherwise
      next text place others _ =>
      split at hread
      · next tokens hafter =>
          obtain ⟨_, dot, name, opening, hlist⟩ := afterReadCall?_eq_some.mp hafter
          cases hlist
          refine Completes.behind [⟨.name "io", place⟩, ⟨.symbol .dot, dot⟩, ⟨.name "read", name⟩,
            ⟨.symbol .openParen, opening⟩] ?_ htokens hread
          exact (hcompleting.part .readFormat).completes_map fun format tokens hformat =>
            .read hformat
      · rw [← htokens] at hread
        exact Rule.invocation.refused hread
    · rw [← htokens] at hread
      exact Rule.invocation.refused hread

theorem argumentList_succ : Completes (argumentList (steps + 1)) fun values =>
    Written (.arguments values) := by
  rw [argumentList]
  refine completes_accept_bind (fun closing => completes_pure .arguments_none) ?_
  refine (hcompleting.part .expressionList).completes_bind fun values before hvalues => ?_
  exact completes_expect_bind fun closing => completes_pure (.arguments_some hvalues)

theorem readFormat_succ : Completes (readFormat (steps + 1)) fun format =>
    Written (.format format) := by
  rw [readFormat]
  refine completes_accept_bind (fun closing => completes_pure .format_none) ?_
  refine (hcompleting.part (.expression .disjunction)).completes_bind fun value before hvalue => ?_
  exact completes_expect_bind fun closing => completes_pure (.format_some hvalue)

/-! ### Statements -/

theorem parameterList_succ : Completes (parameterList (steps + 1)) fun names =>
    Written (.parameters names) := by
  rw [parameterList]
  refine completes_peek_bind fun next => ?_
  split
  · exact completes_pure .parameters_end
  · exact completes_pure .parameters_end
  · refine completes_expectName_bind fun first => completes_accept_bind (fun comma => ?_) ?_
    · exact (hcompleting.part .parameterList).completes_map fun others tokens hothers =>
        .parameters_more hothers
    · exact completes_pure .parameters_last

theorem block_succ (inLoop : Bool) :
    Completes (block (steps + 1) inLoop) fun value => Written (.block inLoop value) := by
  rw [block]
  refine (hcompleting.part (.statementList inLoop)).completes_bind
    fun statements before hstatements => completes_peek_bind fun next => ?_
  split
  · exact (hcompleting.part .returnClause).completes_map fun result after hresult =>
      .block_result hstatements hresult
  · refine completes_pure ?_
    rw [List.append_nil]
    exact .block_open hstatements

theorem statementList_succ (inLoop : Bool) : Completes (statementList (steps + 1) inLoop)
    fun statements => Written (.statements inLoop statements) := by
  rw [statementList]
  refine completes_peek_bind fun next => ?_
  split
  · exact completes_pure .statements_end
  · refine (hcompleting.part (.statement inLoop)).completes_bind fun first before hfirst => ?_
    exact (hcompleting.part (.statementList inLoop)).completes_map fun others after hothers =>
      .statements_more hfirst hothers

theorem branchList_succ (inLoop : Bool) : Completes (branchList (steps + 1) inLoop)
    fun branches => Written (.branches inLoop branches.1 branches.2) := by
  have hblock := hcompleting.part (.block inLoop)
  rw [branchList]
  refine (hcompleting.part (.expression .disjunction)).completes_bind
    fun condition before hcondition => completes_expect_bind fun then_ => ?_
  refine hblock.completes_bind fun body middle hbody => ?_
  refine completes_accept_bind (fun elseif_ => ?_) (completes_accept_bind (fun else_ => ?_) ?_)
  · exact (hcompleting.part (.branchList inLoop)).completes_map fun branches after hbranches =>
      .branches_more hcondition hbody hbranches
  · exact hblock.completes_map fun otherwise after hotherwise =>
      .branches_else hcondition hbody hotherwise
  · refine completes_pure ?_
    rw [List.append_nil]
    exact .branches_last hcondition hbody

theorem statement_succ (inLoop : Bool) :
    Completes (statement (steps + 1) inLoop) fun value => Written (.statement inLoop value) where
  trims := (statementsTrim (steps + 1)).statement inLoop
  possible := (Rule.statement inLoop).possible
  rejected taken rest problem hread := by
    have hexpression := hcompleting.part (.expression .disjunction)
    have hblock (inside : Bool) := hcompleting.part (.block inside)
    -- the keyword decides which statement is read, and is put back in front of what completes the
    -- rest
    generalize htokens : taken ++ rest = tokens at hread
    rw [statement] at hread
    dsimp only at hread
    split at hread
    · cases hread
    · split at hread
      · cases hread
      · rw [← htokens] at hread
        exact (Rule.statement inLoop).refused hread
    · next place tokens =>
        refine Completes.behind [⟨.keyword .local_, place⟩] ?_ htokens hread
        exact (hcompleting (.declaration place)).mono fun value tokens hvalue => hvalue inLoop
    · next place tokens =>
        refine Completes.behind [⟨.keyword .if_, place⟩] ?_ htokens hread
        refine (hcompleting.part (.branchList inLoop)).completes_bind
          fun branches before hbranches => ?_
        exact completes_expect_bind fun end_ => completes_pure (.choose hbranches)
    · next place tokens =>
        refine Completes.behind [⟨.keyword .function_, place⟩] ?_ htokens hread
        refine completes_expectName_bind fun name => completes_expect_bind fun opening => ?_
        refine (hcompleting.part .parameterList).completes_bind fun names before hnames => ?_
        refine completes_expect_bind fun closing => ?_
        -- the body of a function stands in no loop
        refine (hblock false).completes_bind fun body after hbody => ?_
        exact completes_expect_bind fun end_ => completes_pure (.define hnames hbody)
    · next place tokens =>
        refine Completes.behind [⟨.keyword .while_, place⟩] ?_ htokens hread
        refine hexpression.completes_bind fun condition before hcondition => ?_
        refine completes_expect_bind fun do_ => ?_
        refine (hblock true).completes_bind fun body after hbody => ?_
        exact completes_expect_bind fun end_ => completes_pure (.while_ hcondition hbody)
    · next place tokens =>
        refine Completes.behind [⟨.keyword .repeat_, place⟩] ?_ htokens hread
        refine (hblock true).completes_bind fun body before hbody => ?_
        refine completes_expect_bind fun until_ => ?_
        exact hexpression.completes_map fun condition after hcondition =>
          .repeat_ hbody hcondition
    · next place tokens =>
        refine Completes.behind [⟨.keyword .for_, place⟩] ?_ htokens hread
        refine completes_expectName_bind fun name => completes_expect_bind fun assign => ?_
        refine hexpression.completes_bind fun start first hstart => ?_
        refine completes_expect_bind fun comma => ?_
        refine hexpression.completes_bind fun limit second hlimit => ?_
        refine (hcompleting.part .forStep).completes_bind fun step third hstep => ?_
        refine completes_expect_bind fun do_ => ?_
        refine (hblock true).completes_bind fun body last hbody => ?_
        exact completes_expect_bind fun end_ => completes_pure (.for_ hstart hlimit hstep hbody)
    · next place tokens =>
        refine Completes.behind [⟨.keyword .do_, place⟩] ?_ htokens hread
        refine (hblock inLoop).completes_bind fun body before hbody => ?_
        exact completes_expect_bind fun end_ => completes_pure (.do_ hbody)
    · next name place tokens =>
        split at hread
        · refine Completes.behind [] ?_ htokens hread
          exact (hcompleting.part .invocation).completes_map fun value tokens hvalue =>
            .perform hvalue
        · -- a name that begins no call is assigned to, so `=` and a value may follow its path
          refine Completes.behind [⟨.name name, place⟩] ?_ htokens hread
          refine (hcompleting.part .indexPath).completes_bind fun path before hpath => ?_
          refine completes_expect_bind fun assign => ?_
          exact hexpression.completes_map fun value after hvalue => .assign hpath hvalue
    · rw [← htokens] at hread
      exact (Rule.statement inLoop).refused hread

end Completing

/-! ### Readers that spend no step of their own -/

section

variable {steps : Nat}

theorem returnClause_completes
    (hlist : Part (expressionList steps) fun values => Written (.expressionList values)) :
    Completes (returnClause steps) fun result => Written (.result result) := by
  unfold returnClause
  refine completes_expect_bind fun place => completes_peek_bind fun next => ?_
  split
  · refine (part_pure []).completes_bind fun values before hnone => ?_
    obtain ⟨rfl, rfl⟩ := hnone
    refine completes_accept_bind (fun semicolon => ?_) ?_
    · exact completes_pure (.result_none (.inr ⟨semicolon, rfl⟩))
    · exact completes_pure (.result_none (.inl rfl))
  · refine hlist.completes_bind fun values before hvalues => ?_
    refine completes_accept_bind (fun semicolon => ?_) ?_
    · exact completes_pure (.result_some hvalues (.inr ⟨semicolon, rfl⟩))
    · exact completes_pure (.result_some hvalues (.inl rfl))

theorem declaration_completes (position : Position)
    (hexpression : Part (expressionAt steps .disjunction) fun value =>
      Written (.expression .disjunction value)) :
    Completes (declaration steps position) (Rule.declaration position).Writes := by
  have hvalue (name : String × Position) : Completes
      (do
        let _ ← expect (.symbol .assign)
        let value ← expressionAt steps .disjunction
        pure (.declare name.1 name.2 value position))
      (fun value tokens =>
        (Rule.declaration position).Writes value (⟨.name name.1, name.2⟩ :: tokens)) :=
    completes_expect_bind fun assign => hexpression.completes_map fun value tokens hvalue inLoop =>
      .declare hvalue
  unfold declaration
  refine completes_expectName_bind fun name => completes_peek_bind fun next => ?_
  split
  · -- a path behind the name is refused, but the declaration could have gone on without one
    exact completes_refuse (fun _ => trivial) (hvalue name).possible
  · exact hvalue name

theorem forStep_completes
    (hexpression : Part (expressionAt steps .disjunction) fun value =>
      Written (.expression .disjunction value)) :
    Completes (forStep steps) fun step => Written (.step step) := by
  unfold forStep
  refine completes_accept_bind (fun comma => ?_) (completes_pure .step_none)
  exact hexpression.completes_map fun value tokens hvalue => .step_some hvalue

end

/-- **The tokens that a reader has taken when it refuses are the beginning of something that it
reads.** -/
theorem completing : ∀ steps : Nat, Completing steps := by
  intro steps
  induction steps with
  -- without steps every reader is exhausted, up to the first tokens of those that spend none
  | zero =>
      intro α rule
      have hexhausted {α : Type} (rule : Rule α) : Completes exhausted rule.Writes :=
        completes_exhausted rule.possible
      cases rule with
      | returnClause =>
          exact returnClause_completes (Rule.expressionList.part 0 (hexhausted .expressionList))
      | declaration position =>
          exact declaration_completes position
            ((Rule.expression .disjunction).part 0 (hexhausted (.expression .disjunction)))
      | forStep =>
          exact forStep_completes
            ((Rule.expression .disjunction).part 0 (hexhausted (.expression .disjunction)))
      | _ => exact hexhausted _
  | succ steps hcompleting =>
      intro α rule
      have hexpression := (Rule.expression .disjunction).part (steps + 1)
        (hcompleting.expressionAt_succ .disjunction)
      have hlist := Rule.expressionList.part (steps + 1) hcompleting.expressionList_succ
      cases rule with
      | expression level => exact hcompleting.expressionAt_succ level
      | chain level left => exact hcompleting.chain_succ level left
      | primary => exact hcompleting.primary_succ
      | indexPath => exact hcompleting.indexPath_succ
      | expressionList => exact hcompleting.expressionList_succ
      | fieldList => exact hcompleting.fieldList_succ
      | field => exact hcompleting.field_succ
      | invocation => exact hcompleting.invocation_succ
      | argumentList => exact hcompleting.argumentList_succ
      | readFormat => exact hcompleting.readFormat_succ
      | parameterList => exact hcompleting.parameterList_succ
      | returnClause => exact returnClause_completes hlist
      | declaration position => exact declaration_completes position hexpression
      | forStep => exact forStep_completes hexpression
      | block inLoop => exact hcompleting.block_succ inLoop
      | statementList inLoop => exact hcompleting.statementList_succ inLoop
      | statement inLoop => exact hcompleting.statement_succ inLoop
      | branchList inLoop => exact hcompleting.branchList_succ inLoop

end TableScript.Parser
