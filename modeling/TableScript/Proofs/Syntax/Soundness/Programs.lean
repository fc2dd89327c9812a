import TableScript.Proofs.Syntax.Soundness.Expressions

/-!
# What is read was written

The readers of statements, and the induction that covers all readers.  At the top level the
statements are read in rounds, which go on after a problem; where no problem is found, all tokens
together write the program.
-/

namespace TableScript

namespace Parser

open Reader

variable {steps : Nat} {tokens rest : List Token}

/-! ## Statements -/

theorem parameterList_sound (hsound : Sound steps) {names : List String}
    (hread : parameterList (steps + 1) tokens = .accepted names rest) :
    (Phrase.parameters names).TakenFrom tokens rest := by
  rw [parameterList] at hread
  simp only [bind_eq_accepted, peek?_eq_accepted] at hread
  obtain ⟨next, _, ⟨-, rfl⟩, hread⟩ := hread
  split at hread
  · simp only [pure_eq_accepted] at hread
    obtain ⟨rfl, rfl⟩ := hread
    exact Written.parameters_end.takenFrom _
  · simp only [pure_eq_accepted] at hread
    obtain ⟨rfl, rfl⟩ := hread
    exact Written.parameters_end.takenFrom _
  · simp only [bind_eq_accepted, expectName_eq_accepted] at hread
    obtain ⟨⟨first, place⟩, _, rfl, more, _, hmore, hread⟩ := hread
    -- a comma may be the last token of the list, which then goes on with nothing
    rcases accept_cases hmore with ⟨rfl, comma, rfl⟩ | ⟨rfl, rfl, -⟩
    · simp only [if_true, bind_eq_accepted, pure_eq_accepted] at hread
      obtain ⟨others, _, readOthers, rfl, rfl⟩ := hread
      obtain ⟨taken, rfl, hothers⟩ := hsound (.parameters others) readOthers
      exact (Written.parameters_more hothers).takenFrom _
    · simp only [Bool.false_eq_true, if_false, pure_eq_accepted] at hread
      obtain ⟨rfl, rfl⟩ := hread
      exact Written.parameters_last.takenFrom _

/-- The semicolon after the values of a `return` is there or not. -/
theorem accept_semicolon {found : Bool}
    (hread : accept (.symbol .semicolon) tokens = .accepted found rest) :
    ∃ ending : List Token, tokens = ending ++ rest ∧
      (ending = [] ∨ ∃ semicolon, ending = [⟨.symbol .semicolon, semicolon⟩]) := by
  rcases accept_cases hread with ⟨rfl, semicolon, rfl⟩ | ⟨rfl, rfl, -⟩
  · exact ⟨[⟨.symbol .semicolon, semicolon⟩], rfl, .inr ⟨semicolon, rfl⟩⟩
  · exact ⟨[], rfl, .inl rfl⟩

theorem returnClause_sound {result : Return}
    (hlist : ∀ {values : List Expression} {tokens rest : List Token},
      expressionList steps tokens = .accepted values rest →
        (Phrase.expressionList values).TakenFrom tokens rest)
    (hread : returnClause steps tokens = .accepted result rest) :
    (Phrase.result result).TakenFrom tokens rest := by
  unfold returnClause at hread
  simp only [bind_eq_accepted, expect_eq_accepted, peek?_eq_accepted] at hread
  obtain ⟨place, _, rfl, next, _, ⟨-, rfl⟩, hread⟩ := hread
  split at hread
  · simp only [bind_eq_accepted, pure_eq_accepted] at hread
    obtain ⟨values, _, ⟨rfl, rfl⟩, found, _, readEnding, rfl, rfl⟩ := hread
    obtain ⟨ending, rfl, hending⟩ := accept_semicolon readEnding
    exact (Written.result_none hending).takenFrom _
  · simp only [bind_eq_accepted, pure_eq_accepted] at hread
    obtain ⟨values, _, readValues, found, _, readEnding, rfl, rfl⟩ := hread
    obtain ⟨ending, rfl, hending⟩ := accept_semicolon readEnding
    obtain ⟨taken, rfl, hvalues⟩ := hlist readValues
    simpa using (Written.result_some hvalues hending).takenFrom _

theorem forStep_sound {value : Option Expression}
    (hexpression : ∀ {value : Expression} {tokens rest : List Token},
      expressionAt steps .disjunction tokens = .accepted value rest →
        (Phrase.expression .disjunction value).TakenFrom tokens rest)
    (hread : forStep steps tokens = .accepted value rest) :
    (Phrase.step value).TakenFrom tokens rest := by
  unfold forStep at hread
  simp only [bind_eq_accepted] at hread
  obtain ⟨found, _, hfound, hread⟩ := hread
  rcases accept_cases hfound with ⟨rfl, comma, rfl⟩ | ⟨rfl, rfl, -⟩
  · simp only [if_true, bind_eq_accepted, pure_eq_accepted] at hread
    obtain ⟨step, _, readStep, rfl, rfl⟩ := hread
    obtain ⟨taken, rfl, hstep⟩ := hexpression readStep
    exact (Written.step_some hstep).takenFrom _
  · simp only [Bool.false_eq_true, if_false, pure_eq_accepted] at hread
    obtain ⟨rfl, rfl⟩ := hread
    exact Written.step_none.takenFrom _

theorem declaration_sound (hsound : Sound steps) {inLoop : Bool} {place : Position}
    {value : Statement} (hread : declaration steps place tokens = .accepted value rest) :
    (Phrase.statement inLoop value).TakenFrom (⟨.keyword .local_, place⟩ :: tokens) rest := by
  unfold declaration at hread
  simp only [bind_eq_accepted, expectName_eq_accepted, peek?_eq_accepted] at hread
  obtain ⟨⟨name, namePlace⟩, _, rfl, next, _, ⟨-, rfl⟩, hread⟩ := hread
  split at hread
  · exact absurd hread refuse_ne_accepted
  · simp only [bind_eq_accepted, expect_eq_accepted, pure_eq_accepted] at hread
    obtain ⟨assign, _, rfl, value, _, readValue, rfl, rfl⟩ := hread
    obtain ⟨taken, rfl, hvalue⟩ := hsound (.expression .disjunction value) readValue
    exact (Written.declare hvalue).takenFrom _

theorem block_sound (hsound : Sound steps) {inLoop : Bool} {value : Block}
    (hread : block (steps + 1) inLoop tokens = .accepted value rest) :
    (Phrase.block inLoop value).TakenFrom tokens rest := by
  rw [block] at hread
  simp only [bind_eq_accepted, peek?_eq_accepted] at hread
  obtain ⟨statements, _, readStatements, next, _, ⟨-, rfl⟩, hread⟩ := hread
  obtain ⟨before, rfl, hstatements⟩ := hsound (.statements inLoop statements) readStatements
  split at hread
  · simp only [bind_eq_accepted, pure_eq_accepted] at hread
    obtain ⟨result, _, readResult, rfl, rfl⟩ := hread
    obtain ⟨after, rfl, hresult⟩ := hsound (.result result) readResult
    simpa using (Written.block_result hstatements hresult).takenFrom _
  · simp only [pure_eq_accepted] at hread
    obtain ⟨rfl, rfl⟩ := hread
    exact (Written.block_open hstatements).takenFrom _

theorem statementList_sound (hsound : Sound steps) {inLoop : Bool} {values : List Statement}
    (hread : statementList (steps + 1) inLoop tokens = .accepted values rest) :
    (Phrase.statements inLoop values).TakenFrom tokens rest := by
  rw [statementList] at hread
  simp only [bind_eq_accepted, peek?_eq_accepted] at hread
  obtain ⟨next, _, ⟨-, rfl⟩, hread⟩ := hread
  split at hread
  · simp only [pure_eq_accepted] at hread
    obtain ⟨rfl, rfl⟩ := hread
    exact Written.statements_end.takenFrom _
  · simp only [bind_eq_accepted, pure_eq_accepted] at hread
    obtain ⟨first, _, readFirst, others, _, readOthers, rfl, rfl⟩ := hread
    obtain ⟨before, rfl, hfirst⟩ := hsound (.statement inLoop first) readFirst
    obtain ⟨after, rfl, hothers⟩ := hsound (.statements inLoop others) readOthers
    simpa using (Written.statements_more hfirst hothers).takenFrom _

theorem statement_sound (hsound : Sound steps) {inLoop : Bool} {value : Statement}
    (hread : statement (steps + 1) inLoop tokens = .accepted value rest) :
    (Phrase.statement inLoop value).TakenFrom tokens rest := by
  rw [statement] at hread
  dsimp only at hread
  split at hread
  · cases hread
    exact Written.empty.takenFrom _
  · split at hread
    · -- the reader has checked that it is in a loop, as the rule asks
      next hinLoop =>
        subst hinLoop
        cases hread
        exact Written.break_.takenFrom _
    · cases hread
  · exact declaration_sound hsound hread
  · simp only [bind_eq_accepted, expect_eq_accepted, pure_eq_accepted] at hread
    obtain ⟨⟨branches, otherwise⟩, _, readBranches, end_, _, rfl, rfl, rfl⟩ := hread
    obtain ⟨taken, rfl, hbranches⟩ := hsound (.branches inLoop branches otherwise) readBranches
    simpa using (Written.choose hbranches).takenFrom _
  · simp only [bind_eq_accepted, expectName_eq_accepted, expect_eq_accepted, pure_eq_accepted]
      at hread
    obtain ⟨⟨name, namePlace⟩, _, rfl, opening, _, rfl, parameters, _, readParameters, closing, _,
      rfl, body, _, readBody, end_, _, rfl, rfl, rfl⟩ := hread
    -- the tokens of all parts are known in front of their rests, and put together by the rule
    obtain ⟨before, rfl, hparameters⟩ := hsound (.parameters parameters) readParameters
    obtain ⟨after, rfl, hbody⟩ := hsound (.block false body) readBody
    simpa using (Written.define hparameters hbody).takenFrom _
  · simp only [bind_eq_accepted, expect_eq_accepted, pure_eq_accepted] at hread
    obtain ⟨condition, _, readCondition, do_, _, rfl, body, _, readBody, end_, _, rfl, rfl, rfl⟩ :=
      hread
    obtain ⟨before, rfl, hcondition⟩ := hsound (.expression .disjunction condition) readCondition
    obtain ⟨after, rfl, hbody⟩ := hsound (.block true body) readBody
    simpa using (Written.while_ hcondition hbody).takenFrom _
  · simp only [bind_eq_accepted, expect_eq_accepted, pure_eq_accepted] at hread
    obtain ⟨body, _, readBody, until_, _, rfl, condition, _, readCondition, rfl, rfl⟩ := hread
    obtain ⟨before, rfl, hbody⟩ := hsound (.block true body) readBody
    obtain ⟨after, rfl, hcondition⟩ := hsound (.expression .disjunction condition) readCondition
    simpa using (Written.repeat_ hbody hcondition).takenFrom _
  · simp only [bind_eq_accepted, expectName_eq_accepted, expect_eq_accepted, pure_eq_accepted]
      at hread
    obtain ⟨⟨name, namePlace⟩, _, rfl, assign, _, rfl, start, _, readStart, comma, _, rfl, limit, _,
      readLimit, step, _, readStep, do_, _, rfl, body, _, readBody, end_, _, rfl, rfl, rfl⟩ := hread
    obtain ⟨first, rfl, hstart⟩ := hsound (.expression .disjunction start) readStart
    obtain ⟨second, rfl, hlimit⟩ := hsound (.expression .disjunction limit) readLimit
    obtain ⟨third, rfl, hstep⟩ := hsound (.step step) readStep
    obtain ⟨last, rfl, hbody⟩ := hsound (.block true body) readBody
    simpa using (Written.for_ hstart hlimit hstep hbody).takenFrom _
  · simp only [bind_eq_accepted, expect_eq_accepted, pure_eq_accepted] at hread
    obtain ⟨body, _, readBody, end_, _, rfl, rfl, rfl⟩ := hread
    obtain ⟨taken, rfl, hbody⟩ := hsound (.block inLoop body) readBody
    simpa using (Written.do_ hbody).takenFrom _
  · split at hread
    · simp only [bind_eq_accepted, pure_eq_accepted] at hread
      obtain ⟨invocation, _, readInvocation, rfl, rfl⟩ := hread
      obtain ⟨taken, htaken, hinvocation⟩ := hsound (.invocation invocation) readInvocation
      exact ⟨taken, htaken, .perform hinvocation⟩
    · simp only [bind_eq_accepted, expect_eq_accepted, pure_eq_accepted] at hread
      obtain ⟨path, _, readPath, assign, _, rfl, value, _, readValue, rfl, rfl⟩ := hread
      obtain ⟨before, rfl, hpath⟩ := hsound (.path path) readPath
      obtain ⟨after, rfl, hvalue⟩ := hsound (.expression .disjunction value) readValue
      simpa using (Written.assign hpath hvalue).takenFrom _
  · exact absurd hread refuse_ne_accepted

theorem branchList_sound (hsound : Sound steps) {inLoop : Bool} {branches : List Branch}
    {otherwise : Option Block}
    (hread : branchList (steps + 1) inLoop tokens = .accepted (branches, otherwise) rest) :
    (Phrase.branches inLoop branches otherwise).TakenFrom tokens rest := by
  rw [branchList] at hread
  simp only [bind_eq_accepted, expect_eq_accepted] at hread
  obtain ⟨condition, _, readCondition, then_, _, rfl, body, _, readBody, more, _, hmore, hread⟩ :=
    hread
  obtain ⟨before, rfl, hcondition⟩ := hsound (.expression .disjunction condition) readCondition
  obtain ⟨middle, rfl, hbody⟩ := hsound (.block inLoop body) readBody
  -- `elseif`, `else` or neither: one rule each
  rcases accept_cases hmore with ⟨rfl, elseif_, rfl⟩ | ⟨rfl, rfl, -⟩
  · simp only [if_true, bind_eq_accepted, pure_eq_accepted] at hread
    obtain ⟨⟨others, final⟩, _, readOthers, hvalue, rfl⟩ := hread
    cases hvalue
    obtain ⟨after, rfl, hothers⟩ := hsound (.branches inLoop others final) readOthers
    simpa using (Written.branches_more hcondition hbody hothers).takenFrom _
  · simp only [Bool.false_eq_true, if_false, bind_eq_accepted] at hread
    obtain ⟨found, _, hfound, hread⟩ := hread
    rcases accept_cases hfound with ⟨rfl, else_, rfl⟩ | ⟨rfl, rfl, -⟩
    · simp only [if_true, bind_eq_accepted, pure_eq_accepted] at hread
      obtain ⟨final, _, readFinal, hvalue, rfl⟩ := hread
      cases hvalue
      obtain ⟨after, rfl, hfinal⟩ := hsound (.block inLoop final) readFinal
      simpa using (Written.branches_else hcondition hbody hfinal).takenFrom _
    · simp only [Bool.false_eq_true, if_false, pure_eq_accepted] at hread
      obtain ⟨hvalue, rfl⟩ := hread
      cases hvalue
      simpa using (Written.branches_last hcondition hbody).takenFrom _

/-! ## All readers, and the program -/

theorem sound : ∀ steps : Nat, Sound steps := by
  intro steps
  induction steps with
  -- only the readers that spend no step could accept without steps, and they need one that does
  | zero =>
      intro phrase tokens rest hread
      cases phrase with
      | result result =>
          refine returnClause_sound (fun hlist => ?_) hread
          exact absurd hlist exhausted_ne_accepted
      | step value =>
          refine forStep_sound (fun hexpression => ?_) hread
          exact absurd hexpression exhausted_ne_accepted
      | _ => exact absurd hread (@exhausted_ne_accepted _ _ tokens rest)
  | succ steps hsound =>
      intro phrase tokens rest hread
      cases phrase with
      | expression level value => exact expressionAt_sound hsound hread
      | continuation level left value => exact chain_sound hsound hread
      | primary value => exact primary_sound hsound hread
      | path keys => exact indexPath_sound hsound hread
      | expressionList values => exact expressionList_sound hsound hread
      | fields fields => exact fieldList_sound hsound hread
      | field field => exact field_sound hsound hread
      | invocation invocation => exact invocation_sound hsound hread
      | arguments values => exact argumentList_sound hsound hread
      | format value => exact readFormat_sound hsound hread
      | parameters names => exact parameterList_sound hsound hread
      | result result => exact returnClause_sound (expressionList_sound hsound) hread
      | step value => exact forStep_sound (expressionAt_sound hsound) hread
      | block inLoop block => exact block_sound hsound hread
      | statements inLoop statements => exact statementList_sound hsound hread
      | statement inLoop statement => exact statement_sound hsound hread
      | branches inLoop branches otherwise => exact branchList_sound hsound hread

/-- A statement takes a token at least. -/
theorem length_statement_pos {inLoop : Bool} {value : Statement} {taken : List Token}
    (hwritten : Written (.statement inLoop value) taken) : 0 < taken.length := by
  cases hwritten with
  | perform hinvocation => cases hinvocation <;> simp
  | _ => simp

/-- A statement in front of a block is the first statement of a longer block. -/
theorem written_block_cons {inLoop : Bool} {first : Statement} {others : List Statement}
    {result : Option Return} {before after : List Token}
    (hfirst : Written (.statement inLoop first) before)
    (hothers : Written (.block inLoop (.mk others result)) after) :
    Written (.block inLoop (.mk (first :: others) result)) (before ++ after) := by
  cases hothers with
  | block_open hstatements => exact .block_open (.statements_more hfirst hstatements)
  | block_result hstatements hresult =>
      rw [← List.append_assoc]
      exact .block_result (.statements_more hfirst hstatements) hresult

/-- Where the rounds find no problem, all tokens together write what was read. -/
theorem readProgram_sound {rounds : Nat} (hrounds : tokens.length ≤ rounds)
    (hproblems : (readProgram steps rounds tokens).problems = []) :
    Written (.block false
      (.mk (readProgram steps rounds tokens).statements (readProgram steps rounds tokens).result))
      tokens := by
  induction rounds generalizing tokens with
  | zero =>
      obtain rfl : tokens = [] := List.eq_nil_of_length_eq_zero (by omega)
      exact .block_open .statements_end
  | succ rounds ih =>
      cases tokens with
      | nil => exact .block_open .statements_end
      | cons token others =>
          rw [readProgram] at hproblems ⊢
          · split at hproblems
            · next hreturn =>
                rw [if_pos hreturn]
                split at hproblems
                · -- a `return` without a problem is the last thing there is
                  next result hread =>
                    obtain ⟨taken, htaken, hresult⟩ := sound steps (.result result) hread
                    rw [htaken, List.append_nil]
                    exact .block_result .statements_end hresult
                all_goals cases hproblems
            · next hreturn =>
                rw [if_neg hreturn]
                split at hproblems
                · next first rest hread =>
                    obtain ⟨taken, htaken, hfirst⟩ := sound steps (.statement false first) hread
                    -- the statement took a token, so one round less is enough for the rest
                    have htakenPos := length_statement_pos hfirst
                    have hlength : (token :: others).length = taken.length + rest.length := by
                      rw [htaken, List.length_append]
                    have hothers := ih (by omega) hproblems
                    rw [htaken]
                    exact written_block_cons hfirst hothers
                all_goals cases hproblems
          · simp
          · simp

end Parser

/-- The tokens of a program that is read write the program. -/
theorem written_of_parse {tokens : Tokens} {chunk : Block} (hparse : parse tokens = .ok chunk) :
    Written (.block false chunk) tokens.list := by
  unfold parse at hparse
  dsimp only at hparse
  split at hparse
  · next hproblems =>
      cases hparse
      exact Parser.readProgram_sound (Nat.le_refl _) hproblems
  · cases hparse

end TableScript
