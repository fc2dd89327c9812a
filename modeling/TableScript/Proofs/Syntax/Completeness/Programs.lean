import TableScript.Proofs.Syntax.Completeness.Statements

/-!
# What is written is read

The statements about the rules are the cases of one induction.  At the top level a program is read
in rounds, one for each statement, and with the steps and rounds that are allowed for its tokens no
round finds a problem.  So reading a program and writing one down are inverse to each other.
-/

namespace TableScript

open TableScript.Parser in
/-- **Whatever is written is read**, in front of anything that may come after it. -/
theorem Written.readable {phrase : Phrase} {tokens : List Token}
    (hwritten : Written phrase tokens) :
    phrase.ReadableIn tokens := by
  -- one case per rule: its reader takes the tokens of the parts one after the other
  induction hwritten with
  | literal hliteral => exact readable_literal hliteral
  | parenthesized _ hinner => exact readable_parenthesized hinner
  | table _ hfields => exact readable_table hfields
  | invoke hwritten hinvocation => exact readable_invoke hwritten hinvocation
  | «variable» hwritten hpath => exact readable_variable hwritten hpath
  | atPrimary _ hvalue => exact readable_atPrimary hvalue
  | power _ _ hbase hexponent => exact readable_power hbase hexponent
  | unary _ hoperand => exact readable_unary hoperand
  | concatenation _ _ hleft hright => exact readable_concatenation hleft hright
  | tighter hright hprimary hwritten hvalue =>
      exact readable_tighter hright hprimary hwritten hvalue
  | chained hleft hwritten hcontinuation hfirst hrest =>
      exact readable_chained hleft hwritten hcontinuation hfirst hrest
  | continuation_end => exact readable_continuation_end
  | continuation_operator hlevel _ hcontinuation hright hrest =>
      exact readable_continuation_operator hlevel hcontinuation hright hrest
  | path_end => exact readable_path_end
  | path_name _ hpath => exact readable_path_name hpath
  | path_key _ _ hkey hpath => exact readable_path_key hkey hpath
  | expressionList_last _ hvalue => exact readable_expressionList_last hvalue
  | expressionList_more _ _ hvalue hvalues => exact readable_expressionList_more hvalue hvalues
  | fields_end => exact readable_fields_end
  | fields_last hwritten hfield => exact readable_fields_last hwritten hfield
  | fields_more hseparator hwritten _ hfield hfields =>
      exact readable_fields_more hseparator hwritten hfield hfields
  | field_named _ hvalue => exact readable_field_named hvalue
  | field_keyed _ _ hkey hvalue => exact readable_field_keyed hkey hvalue
  | field_positional hwritten hvalue => exact readable_field_positional hwritten hvalue
  | call hname _ hvalues => exact readable_call hname hvalues
  | print _ hvalues => exact readable_print hvalues
  | read _ hformat => exact readable_read hformat
  | arguments_none => exact readable_arguments_none
  | arguments_some hwritten hvalues => exact readable_arguments_some hwritten hvalues
  | format_none => exact readable_format_none
  | format_some hwritten hvalue => exact readable_format_some hwritten hvalue
  | parameters_end => exact readable_parameters_end
  | parameters_last => exact readable_parameters_last
  | parameters_more _ hnames => exact readable_parameters_more hnames
  | result_none hending => exact readable_result_none hending
  | result_some hwritten hending hvalues => exact readable_result_some hending hwritten hvalues
  | step_none => exact readable_step_none
  | step_some _ hvalue => exact readable_step_some hvalue
  | block_open _ hstatements => exact readable_block_open hstatements
  | block_result _ hwritten hstatements hresult =>
      exact readable_block_result hwritten hstatements hresult
  | statements_end => exact readable_statements_end
  | statements_more hwritten hwrittenOthers hfirst hothers =>
      exact readable_statements_more hwritten hwrittenOthers hfirst hothers
  | branches_last _ _ hcondition hbody => exact readable_branches_last hcondition hbody
  | branches_else _ _ _ hcondition hbody hotherwise =>
      exact readable_branches_else hcondition hbody hotherwise
  | branches_more _ _ _ hcondition hbody hbranches =>
      exact readable_branches_more hcondition hbody hbranches
  | empty => exact readable_empty
  | break_ => exact readable_break
  | declare _ hvalue => exact readable_declare hvalue
  | assign hwritten _ hpath hvalue => exact readable_assign hwritten hpath hvalue
  | choose _ hbranches => exact readable_choose hbranches
  | define _ _ hparameters hbody => exact readable_define hparameters hbody
  | while_ _ _ hcondition hbody => exact readable_while hcondition hbody
  | repeat_ _ _ hbody hcondition => exact readable_repeat hbody hcondition
  | for_ _ _ hwritten _ hstart hlimit hstep hbody =>
      exact readable_for hwritten hstart hlimit hstep hbody
  | do_ _ hbody => exact readable_do hbody
  | perform hwritten hinvocation => exact readable_perform hwritten hinvocation

/-! ## Programs -/

/-- A block with a statement in front is the statement and then the block. -/
theorem Written.block_cons {inLoop : Bool} {first : Statement} {others : List Statement}
    {result : Option Return} {tokens : List Token}
    (hwritten : Written (.block inLoop (.mk (first :: others) result)) tokens) :
    ∃ before after, tokens = before ++ after ∧ Written (.statement inLoop first) before ∧
      Written (.block inLoop (.mk others result)) after := by
  cases hwritten with
  | block_open hstatements =>
      cases hstatements with
      | statements_more hfirst hothers => exact ⟨_, _, rfl, hfirst, .block_open hothers⟩
  | block_result hstatements hresult =>
      cases hstatements with
      | statements_more hfirst hothers =>
          exact ⟨_, _, List.append_assoc _ _ _, hfirst, .block_result hothers hresult⟩

open TableScript.Parser in
/-- A program that is written is read in as many rounds as it has tokens, without a problem. -/
theorem Written.readProgram_eq {statements : List Statement} {result : Option Return}
    {tokens : List Token} {steps rounds : Nat}
    (hwritten : Written (.block false (.mk statements result)) tokens)
    (hsteps : 16 * tokens.length + 2 ≤ steps) (hrounds : tokens.length ≤ rounds) :
    readProgram steps rounds tokens = ⟨statements, result, []⟩ := by
  -- one round for each statement, which is at least one token long, so rounds last as long as
  -- tokens
  induction statements generalizing tokens rounds with
  | nil =>
      cases hwritten with
      | block_open hstatements =>
          cases hstatements
          cases rounds <;> rfl
      | @block_result _ _ clause before after hstatements hresult =>
          cases hstatements
          -- the program ends in a return, which is read in a round of its own
          have hread : returnClause steps (after ++ []) = .accepted clause [] :=
            hresult.readable steps [] (by simp only [Phrase.allowance]; grind) rfl
          have hreturn : firstKind? (after ++ []) = some (.keyword .return_) := hresult.first []
          rw [List.append_nil] at hread hreturn
          cases after with
          | nil => cases hreturn
          | cons token others =>
              obtain ⟨rounds, rfl⟩ : ∃ fewer, rounds = fewer + 1 :=
                ⟨rounds - 1, by simp only [List.nil_append, List.length_cons] at hrounds; omega⟩
              rw [List.nil_append, readProgram, if_pos hreturn, hread]
              simp
  | cons first others ih =>
      obtain ⟨before, after, rfl, hfirst, hothers⟩ := hwritten.block_cons
      have hpos := length_statement_pos hfirst
      have hlength : (before ++ after).length = before.length + after.length := List.length_append
      have hfollow := hothers.block_follow (show Token.endsBlock (firstKind? []) = true from rfl)
      rw [List.append_nil] at hfollow
      have hread : statement steps false (before ++ after) = .accepted first after :=
        hfirst.readable steps after (by simp only [Phrase.allowance]; omega) hfollow
      have hbegins : Token.beginsStatement (firstKind? (before ++ after)) = true :=
        hfirst.first after
      -- a statement begins with no `return`, so the round reads a statement
      have hreturn : ¬ firstKind? (before ++ after) = some (.keyword .return_) := by
        intro hnext
        rw [hnext] at hbegins
        cases hbegins
      obtain ⟨rounds, rfl⟩ : ∃ fewer, rounds = fewer + 1 := ⟨rounds - 1, by omega⟩
      have hlater := ih hothers (by omega) (show after.length ≤ rounds by omega)
      cases before with
      | nil => cases hpos
      | cons token taken =>
          rw [List.cons_append] at hread hreturn ⊢
          rw [readProgram, if_neg hreturn, hread]
          · simp only [hlater]
          · simp

/-- **The tokens of a program are read as the program, and nothing else is read from them.** -/
theorem parse_eq_ok_iff {tokens : Tokens} {chunk : Block} :
    parse tokens = .ok chunk ↔ Written (.block false chunk) tokens.list := by
  constructor
  · exact written_of_parse
  · intro hwritten
    obtain ⟨statements, result⟩ := chunk
    -- the parser starts with enough steps and rounds for all the tokens
    have hreading :
        Parser.readProgram (Parser.stepsFor tokens.list) tokens.list.length tokens.list =
          ⟨statements, result, []⟩ :=
      hwritten.readProgram_eq (by unfold Parser.stepsFor; omega) (Nat.le_refl _)
    unfold parse
    rw [hreading]

end TableScript
