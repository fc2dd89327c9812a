import TableScript.Proofs.Syntax.Completeness.Expressions

/-!
# Written statements are read

The rules of `Written` for statements and blocks, one statement for each.  A block is followed by a
word that ends blocks, and a statement by such a word or by the next statement; no expression goes
on with either, so the readers stop where the phrase does.
-/

namespace TableScript

namespace Parser

open Reader Phrase.ReadableIn

variable {tokens before after : List Token}

/-! ## The parts of statements -/

theorem readable_parameters_end : (Phrase.parameters []).ReadableIn [] := by
  refine of_succ fun steps rest _ hfollow => ?_
  change parameterList (steps + 1) _ = _
  simp only [List.nil_append]
  rw [parameterList]
  simp only [bind_eq_accepted, peek?_eq_accepted]
  exact ⟨_, rest, ⟨hfollow, rfl⟩, rfl⟩

theorem readable_parameters_last {name : String} {place : Position} :
    (Phrase.parameters [name]).ReadableIn [⟨.name name, place⟩] := by
  refine of_succ fun steps rest _ hfollow => ?_
  have hcomma : firstKind? rest ≠ some (.symbol .comma) := by
    rw [hfollow]
    decide
  change parameterList (steps + 1) _ = _
  simp only [List.cons_append, List.nil_append]
  rw [parameterList]
  simp only [bind_eq_accepted, peek?_eq_accepted]
  refine ⟨_, _, ⟨rfl, rfl⟩, ?_⟩
  simp only [firstKind?_cons, bind_eq_accepted, expectName_eq_accepted]
  exact ⟨(name, place), rest, rfl, false, rest, accept_eq_false.mpr ⟨rfl, hcomma⟩, rfl⟩

theorem readable_parameters_more {name : String} {names : List String} {place comma : Position}
    (hnames : (Phrase.parameters names).ReadableIn tokens) :
    (Phrase.parameters (name :: names)).ReadableIn
      (⟨.name name, place⟩ :: ⟨.symbol .comma, comma⟩ :: tokens) := by
  refine of_succ fun steps rest hsteps hfollow => ?_
  have readNames := hnames.of_shorter hsteps rest (by grind) hfollow
  change parameterList (steps + 1) _ = _
  simp only [List.cons_append]
  rw [parameterList]
  simp only [bind_eq_accepted, peek?_eq_accepted]
  refine ⟨_, _, ⟨rfl, rfl⟩, ?_⟩
  simp only [firstKind?_cons, bind_eq_accepted, expectName_eq_accepted]
  refine ⟨(name, place), _, rfl, true, tokens ++ rest, accept_eq_true.mpr ⟨comma, rfl⟩, ?_⟩
  simp only [if_true, bind_eq_accepted, pure_eq_accepted]
  exact ⟨names, rest, readNames, rfl, rfl⟩

/-- The end of a `return`, a semicolon or nothing, is taken before the end of the block. -/
theorem accept_ending {ending rest : List Token}
    (hending : ending = [] ∨ ∃ semicolon, ending = [⟨.symbol .semicolon, semicolon⟩])
    (hends : Token.endsBlock (firstKind? rest) = true) :
    ∃ found, accept (.symbol .semicolon) (ending ++ rest) = .accepted found rest := by
  rcases hending with rfl | ⟨semicolon, rfl⟩
  · refine ⟨false, accept_eq_false.mpr ⟨rfl, ?_⟩⟩
    intro hnext
    rw [List.nil_append] at hnext
    rw [hnext] at hends
    cases hends
  · exact ⟨true, accept_eq_true.mpr ⟨semicolon, rfl⟩⟩

theorem readable_result_none {place : Position} {ending : List Token}
    (hending : ending = [] ∨ ∃ semicolon, ending = [⟨.symbol .semicolon, semicolon⟩]) :
    (Phrase.result ⟨[], place⟩).ReadableIn (⟨.keyword .return_, place⟩ :: ending) := by
  intro steps rest _ hfollow
  obtain ⟨found, haccept⟩ := accept_ending hending hfollow
  have hnext : (Token.endsBlock (firstKind? (ending ++ rest)) ||
      firstKind? (ending ++ rest) = some (.symbol .semicolon)) = true := by
    rcases hending with rfl | ⟨semicolon, rfl⟩
    · rw [List.nil_append, hfollow, Bool.true_or]
    · rfl
  change returnClause steps _ = _
  simp only [List.cons_append]
  unfold returnClause
  simp only [bind_eq_accepted, expect_eq_accepted, peek?_eq_accepted]
  refine ⟨place, ending ++ rest, rfl, _, _, ⟨rfl, rfl⟩, ?_⟩
  rw [if_pos hnext]
  simp only [bind_eq_accepted, pure_eq_accepted]
  exact ⟨[], _, ⟨rfl, rfl⟩, found, rest, haccept, rfl, rfl⟩

theorem readable_result_some {values : List Expression} {ending : List Token} {place : Position}
    (hending : ending = [] ∨ ∃ semicolon, ending = [⟨.symbol .semicolon, semicolon⟩])
    (hwritten : Written (.expressionList values) tokens)
    (hvalues : (Phrase.expressionList values).ReadableIn tokens) :
    (Phrase.result ⟨values, place⟩).ReadableIn
      (⟨.keyword .return_, place⟩ :: (tokens ++ ending)) := by
  intro steps rest hsteps hfollow
  obtain ⟨found, haccept⟩ := accept_ending hending hfollow
  -- the values stop at the semicolon, or at the end of the block if there is none
  have hlist : (Phrase.expressionList values).Follow (firstKind? (ending ++ rest)) := by
    rcases hending with rfl | ⟨semicolon, rfl⟩
    · refine ⟨Token.stops (Token.extendsExpression_of_endsBlock hfollow) _, ?_⟩
      intro hnext
      rw [List.nil_append] at hnext
      rw [Phrase.Follow, hnext] at hfollow
      cases hfollow
    · exact ⟨Token.stops rfl _, by simp⟩
  have readValues := hvalues.of_shorter hsteps (ending ++ rest) (by grind) hlist
  have hbegins : Token.beginsExpression (firstKind? (tokens ++ (ending ++ rest))) = true :=
    hwritten.first (ending ++ rest)
  -- an expression follows, so this is not the `return` without values
  have hnext : ¬ (Token.endsBlock (firstKind? (tokens ++ (ending ++ rest))) ||
      firstKind? (tokens ++ (ending ++ rest)) = some (.symbol .semicolon)) = true := by
    rw [Token.endsBlock_of_beginsExpression hbegins, Bool.false_or, decide_eq_true_eq]
    rintro hsemicolon
    rw [hsemicolon] at hbegins
    cases hbegins
  change returnClause steps _ = _
  simp only [List.cons_append, List.append_assoc]
  unfold returnClause
  simp only [bind_eq_accepted, expect_eq_accepted, peek?_eq_accepted]
  refine ⟨place, tokens ++ (ending ++ rest), rfl, _, _, ⟨rfl, rfl⟩, ?_⟩
  rw [if_neg hnext]
  simp only [bind_eq_accepted, pure_eq_accepted]
  exact ⟨values, _, readValues, found, rest, haccept, rfl, rfl⟩

theorem readable_step_none : (Phrase.step none).ReadableIn [] := by
  intro steps rest _ hfollow
  have hcomma : firstKind? rest ≠ some (.symbol .comma) := by
    rw [hfollow]
    decide
  change forStep steps _ = _
  simp only [List.nil_append]
  unfold forStep
  simp only [bind_eq_accepted]
  exact ⟨false, rest, accept_eq_false.mpr ⟨rfl, hcomma⟩, rfl⟩

theorem readable_step_some {value : Expression} {comma : Position}
    (hvalue : (Phrase.expression .disjunction value).ReadableIn tokens) :
    (Phrase.step (some value)).ReadableIn (⟨.symbol .comma, comma⟩ :: tokens) := by
  intro steps rest hsteps hfollow
  have hstops : Level.disjunction.Stops (firstKind? rest) := by
    rw [hfollow]
    exact Token.stops rfl _
  have readValue := hvalue.of_shorter hsteps rest (by grind) hstops
  change forStep steps _ = _
  simp only [List.cons_append]
  unfold forStep
  simp only [bind_eq_accepted]
  refine ⟨true, tokens ++ rest, accept_eq_true.mpr ⟨comma, rfl⟩, ?_⟩
  simp only [if_true, bind_eq_accepted, pure_eq_accepted]
  exact ⟨value, rest, readValue, rfl, rfl⟩

/-! ## Blocks -/

theorem readable_block_open {inLoop : Bool} {values : List Statement}
    (hstatements : (Phrase.statements inLoop values).ReadableIn tokens) :
    (Phrase.block inLoop (.mk values none)).ReadableIn tokens := by
  refine of_succ fun steps rest hsteps hfollow => ?_
  have readStatements := hstatements steps rest hsteps (.inl hfollow)
  have hreturn : ¬ firstKind? rest = some (.keyword .return_) := by
    intro hnext
    rw [Phrase.Follow, hnext] at hfollow
    cases hfollow
  change block (steps + 1) _ _ = _
  rw [block]
  simp only [bind_eq_accepted, peek?_eq_accepted]
  refine ⟨values, rest, readStatements, _, rest, ⟨rfl, rfl⟩, ?_⟩
  rw [if_neg hreturn]
  rfl

theorem readable_block_result {inLoop : Bool} {values : List Statement} {result : Return}
    (hwritten : Written (.result result) after)
    (hstatements : (Phrase.statements inLoop values).ReadableIn before)
    (hresult : (Phrase.result result).ReadableIn after) :
    (Phrase.block inLoop (.mk values (some result))).ReadableIn (before ++ after) := by
  refine of_succ fun steps rest hsteps hfollow => ?_
  have hreturn : firstKind? (after ++ rest) = some (.keyword .return_) := hwritten.first rest
  simp only [Phrase.allowance, List.length_append] at hsteps
  have readStatements := hstatements steps (after ++ rest)
    (by simp only [Phrase.allowance]; omega) (.inr hreturn)
  have readResult := hresult steps rest (by simp only [Phrase.allowance]; omega) hfollow
  change block (steps + 1) _ _ = _
  rw [block, List.append_assoc]
  simp only [bind_eq_accepted, peek?_eq_accepted]
  refine ⟨values, _, readStatements, _, _, ⟨rfl, rfl⟩, ?_⟩
  rw [if_pos hreturn]
  simp only [bind_eq_accepted, pure_eq_accepted]
  exact ⟨result, rest, readResult, rfl, rfl⟩

theorem readable_statements_end {inLoop : Bool} : (Phrase.statements inLoop []).ReadableIn [] := by
  refine of_succ fun steps rest _ hfollow => ?_
  have hnext : (Token.endsBlock (firstKind? rest) ||
      firstKind? rest = some (.keyword .return_)) = true := by
    rcases hfollow with hends | hreturn
    · rw [hends, Bool.true_or]
    · rw [hreturn]
      rfl
  change statementList (steps + 1) _ _ = _
  rw [statementList, List.nil_append]
  simp only [bind_eq_accepted, peek?_eq_accepted]
  refine ⟨_, rest, ⟨rfl, rfl⟩, ?_⟩
  rw [if_pos hnext]
  rfl

theorem readable_statements_more {inLoop : Bool} {first : Statement} {others : List Statement}
    (hwritten : Written (.statement inLoop first) before)
    (hwrittenOthers : Written (.statements inLoop others) after)
    (hfirst : (Phrase.statement inLoop first).ReadableIn before)
    (hothers : (Phrase.statements inLoop others).ReadableIn after) :
    (Phrase.statements inLoop (first :: others)).ReadableIn (before ++ after) := by
  refine of_succ fun steps rest hsteps hfollow => ?_
  have hbegins : Token.beginsStatement (firstKind? (before ++ (after ++ rest))) = true :=
    hwritten.first _
  -- a statement follows, so the list does not end here
  have hnext : ¬ (Token.endsBlock (firstKind? (before ++ (after ++ rest))) ||
      firstKind? (before ++ (after ++ rest)) = some (.keyword .return_)) = true := by
    rw [Token.endsBlock_of_beginsStatement hbegins, Bool.false_or, decide_eq_true_eq]
    intro hreturn
    rw [hreturn] at hbegins
    cases hbegins
  have hpos := length_statement_pos hwritten
  have readOthers := hothers.of_shorter hsteps rest (by grind) hfollow
  simp only [Phrase.allowance, List.length_append] at hsteps
  -- the first statement may be as long as the whole, so it gets its steps from its own allowance
  have readFirst := hfirst steps (after ++ rest) (by simp only [Phrase.allowance]; omega)
    (hwrittenOthers.statements_follow hfollow)
  change statementList (steps + 1) _ _ = _
  rw [statementList, List.append_assoc]
  simp only [bind_eq_accepted, peek?_eq_accepted]
  refine ⟨_, _, ⟨rfl, rfl⟩, ?_⟩
  rw [if_neg hnext]
  simp only [bind_eq_accepted, pure_eq_accepted]
  exact ⟨first, _, readFirst, others, rest, readOthers, rfl, rfl⟩

theorem readable_branches_last {inLoop : Bool} {condition : Expression} {body : Block}
    {then_ : Position} (hcondition : (Phrase.expression .disjunction condition).ReadableIn before)
    (hbody : (Phrase.block inLoop body).ReadableIn after) :
    (Phrase.branches inLoop [.mk condition body] none).ReadableIn
      (before ++ ⟨.keyword .then_, then_⟩ :: after) := by
  refine of_succ fun steps rest hsteps hfollow => ?_
  have hends : Token.endsBlock (firstKind? rest) = true := by
    rw [hfollow]
    rfl
  -- `end` follows, and so neither `elseif` nor `else`
  have helseif : firstKind? rest ≠ some (.keyword .elseif_) := by
    rw [hfollow]
    decide
  have helse : firstKind? rest ≠ some (.keyword .else_) := by
    rw [hfollow]
    decide
  have readCondition := hcondition.of_shorter hsteps (⟨.keyword .then_, then_⟩ :: (after ++ rest))
    (by grind) (Token.stops rfl _)
  have readBody := hbody.of_shorter hsteps rest (by grind) hends
  change branchList (steps + 1) _ _ = _
  rw [branchList, List.append_assoc, List.cons_append]
  simp only [bind_eq_accepted, expect_eq_accepted]
  refine ⟨condition, _, readCondition, then_, _, rfl, body, rest, readBody, false, rest,
    accept_eq_false.mpr ⟨rfl, helseif⟩, ?_⟩
  simp only [Bool.false_eq_true, if_false, bind_eq_accepted]
  exact ⟨false, rest, accept_eq_false.mpr ⟨rfl, helse⟩, rfl⟩

theorem readable_branches_else {inLoop : Bool} {condition : Expression} {body otherwise : Block}
    {middle : List Token} {then_ else_ : Position}
    (hcondition : (Phrase.expression .disjunction condition).ReadableIn before)
    (hbody : (Phrase.block inLoop body).ReadableIn middle)
    (hotherwise : (Phrase.block inLoop otherwise).ReadableIn after) :
    (Phrase.branches inLoop [.mk condition body] (some otherwise)).ReadableIn
      (before ++ ⟨.keyword .then_, then_⟩ :: (middle ++ ⟨.keyword .else_, else_⟩ :: after)) := by
  refine of_succ fun steps rest hsteps hfollow => ?_
  have hends : Token.endsBlock (firstKind? rest) = true := by
    rw [hfollow]
    rfl
  have readCondition := hcondition.of_shorter hsteps (⟨.keyword .then_, then_⟩ ::
    (middle ++ ⟨.keyword .else_, else_⟩ :: (after ++ rest))) (by grind) (Token.stops rfl _)
  have readBody := hbody.of_shorter hsteps (⟨.keyword .else_, else_⟩ :: (after ++ rest)) (by grind)
    rfl
  have readOtherwise := hotherwise.of_shorter hsteps rest (by grind) hends
  change branchList (steps + 1) _ _ = _
  simp only [List.append_assoc, List.cons_append]
  rw [branchList]
  simp only [bind_eq_accepted, expect_eq_accepted]
  refine ⟨condition, _, readCondition, then_, _, rfl, body, _, readBody, false, _,
    accept_eq_false.mpr ⟨rfl, by simp⟩, ?_⟩
  simp only [Bool.false_eq_true, if_false, bind_eq_accepted]
  refine ⟨true, _, accept_eq_true.mpr ⟨else_, rfl⟩, ?_⟩
  simp only [if_true, bind_eq_accepted, pure_eq_accepted]
  exact ⟨otherwise, rest, readOtherwise, rfl, rfl⟩

theorem readable_branches_more {inLoop : Bool} {condition : Expression} {body : Block}
    {branches : List Branch} {otherwise : Option Block} {middle : List Token}
    {then_ elseif_ : Position}
    (hcondition : (Phrase.expression .disjunction condition).ReadableIn before)
    (hbody : (Phrase.block inLoop body).ReadableIn middle)
    (hbranches : (Phrase.branches inLoop branches otherwise).ReadableIn after) :
    (Phrase.branches inLoop (.mk condition body :: branches) otherwise).ReadableIn
      (before ++ ⟨.keyword .then_, then_⟩ ::
        (middle ++ ⟨.keyword .elseif_, elseif_⟩ :: after)) := by
  refine of_succ fun steps rest hsteps hfollow => ?_
  have readCondition := hcondition.of_shorter hsteps (⟨.keyword .then_, then_⟩ ::
    (middle ++ ⟨.keyword .elseif_, elseif_⟩ :: (after ++ rest))) (by grind) (Token.stops rfl _)
  -- each part is read in front of all that is written behind it
  have readBody := hbody.of_shorter hsteps (⟨.keyword .elseif_, elseif_⟩ :: (after ++ rest))
    (by grind) rfl
  have readBranches := hbranches.of_shorter hsteps rest (by grind) hfollow
  change branchList (steps + 1) _ _ = _
  simp only [List.append_assoc, List.cons_append]
  rw [branchList]
  simp only [bind_eq_accepted, expect_eq_accepted]
  refine ⟨condition, _, readCondition, then_, _, rfl, body, _, readBody, true, _,
    accept_eq_true.mpr ⟨elseif_, rfl⟩, ?_⟩
  simp only [if_true, bind_eq_accepted, pure_eq_accepted]
  exact ⟨(branches, otherwise), rest, readBranches, rfl, rfl⟩

/-! ## Statements -/

variable {inLoop : Bool} {place : Position}

theorem readable_empty :
    (Phrase.statement inLoop (.empty place)).ReadableIn [⟨.symbol .semicolon, place⟩] :=
  of_succ fun _ _ _ _ => rfl

theorem readable_break :
    (Phrase.statement true (.break_ place)).ReadableIn [⟨.keyword .break_, place⟩] :=
  of_succ fun _ _ _ _ => rfl

theorem readable_declare {name : String} {value : Expression} {namePlace assign : Position}
    (hvalue : (Phrase.expression .disjunction value).ReadableIn tokens) :
    (Phrase.statement inLoop (.declare name namePlace value place)).ReadableIn
      (⟨.keyword .local_, place⟩ :: ⟨.name name, namePlace⟩ :: ⟨.symbol .assign, assign⟩ ::
        tokens) := by
  refine of_succ fun steps rest hsteps hfollow => ?_
  have readValue := hvalue.of_shorter hsteps rest (by grind) (Token.stops hfollow _)
  change statement (steps + 1) _ _ = _
  rw [statement]
  change declaration steps place _ = _
  unfold declaration
  simp only [bind_eq_accepted, expectName_eq_accepted, peek?_eq_accepted]
  refine ⟨(name, namePlace), _, rfl, _, _, ⟨rfl, rfl⟩, ?_⟩
  rw [if_neg (by simp)]
  simp only [bind_eq_accepted, expect_eq_accepted, pure_eq_accepted]
  exact ⟨assign, _, rfl, value, rest, readValue, rfl, rfl⟩

theorem readable_assign {name : String} {keys : List Expression} {value : Expression}
    {assign : Position} (hwritten : Written (.path keys) before)
    (hpath : (Phrase.path keys).ReadableIn before)
    (hvalue : (Phrase.expression .disjunction value).ReadableIn after) :
    (Phrase.statement inLoop (.assign name keys value place)).ReadableIn
      (⟨.name name, place⟩ :: (before ++ ⟨.symbol .assign, assign⟩ :: after)) := by
  refine of_succ fun steps rest hsteps hfollow => ?_
  have hstops : Level.primary.Stops (firstKind? (⟨.symbol .assign, assign⟩ :: (after ++ rest))) :=
    Token.stops rfl _
  have hbegins := hwritten.beginsInvocation_eq_false name place hstops
  have readPath := hpath.of_shorter hsteps (⟨.symbol .assign, assign⟩ :: (after ++ rest)) (by grind)
    hstops
  have readValue := hvalue.of_shorter hsteps rest (by grind) (Token.stops hfollow _)
  change statement (steps + 1) _ _ = _
  simp only [List.append_assoc, List.cons_append]
  rw [statement]
  simp only [hbegins, Bool.false_eq_true, if_false, bind_eq_accepted, expect_eq_accepted,
    pure_eq_accepted]
  exact ⟨keys, _, readPath, assign, _, rfl, value, rest, readValue, rfl, rfl⟩

theorem readable_choose {branches : List Branch} {otherwise : Option Block} {end_ : Position}
    (hbranches : (Phrase.branches inLoop branches otherwise).ReadableIn tokens) :
    (Phrase.statement inLoop (.choose branches otherwise place)).ReadableIn
      (⟨.keyword .if_, place⟩ :: (tokens ++ [⟨.keyword .end_, end_⟩])) := by
  refine of_succ fun steps rest hsteps hfollow => ?_
  have readBranches := hbranches.of_shorter hsteps (⟨.keyword .end_, end_⟩ :: rest) (by grind) rfl
  change statement (steps + 1) _ _ = _
  simp only [List.append_assoc, List.cons_append, List.nil_append]
  rw [statement]
  simp only [bind_eq_accepted, expect_eq_accepted, pure_eq_accepted]
  exact ⟨(branches, otherwise), _, readBranches, end_, rest, rfl, rfl, rfl⟩

theorem readable_define {name : String} {parameters : List String} {body : Block}
    {namePlace opening closing end_ : Position}
    (hparameters : (Phrase.parameters parameters).ReadableIn before)
    (hbody : (Phrase.block false body).ReadableIn after) :
    (Phrase.statement inLoop (.define name parameters body place)).ReadableIn
      (⟨.keyword .function_, place⟩ :: ⟨.name name, namePlace⟩ :: ⟨.symbol .openParen, opening⟩ ::
        (before ++ ⟨.symbol .closeParen, closing⟩ :: (after ++ [⟨.keyword .end_, end_⟩]))) := by
  refine of_succ fun steps rest hsteps hfollow => ?_
  have readParameters := hparameters.of_shorter hsteps
    (⟨.symbol .closeParen, closing⟩ :: (after ++ ⟨.keyword .end_, end_⟩ :: rest)) (by grind) rfl
  have readBody := hbody.of_shorter hsteps (⟨.keyword .end_, end_⟩ :: rest) (by grind) rfl
  change statement (steps + 1) _ _ = _
  simp only [List.append_assoc, List.cons_append, List.nil_append]
  rw [statement]
  simp only [bind_eq_accepted, expectName_eq_accepted, expect_eq_accepted, pure_eq_accepted]
  exact ⟨(name, namePlace), _, rfl, opening, _, rfl, parameters, _, readParameters, closing, _, rfl,
    body, _, readBody, end_, rest, rfl, rfl, rfl⟩

theorem readable_while {condition : Expression} {body : Block} {do_ end_ : Position}
    (hcondition : (Phrase.expression .disjunction condition).ReadableIn before)
    (hbody : (Phrase.block true body).ReadableIn after) :
    (Phrase.statement inLoop (.while_ condition body place)).ReadableIn
      (⟨.keyword .while_, place⟩ :: (before ++ ⟨.keyword .do_, do_⟩ ::
        (after ++ [⟨.keyword .end_, end_⟩]))) := by
  refine of_succ fun steps rest hsteps hfollow => ?_
  have readCondition := hcondition.of_shorter hsteps
    (⟨.keyword .do_, do_⟩ :: (after ++ ⟨.keyword .end_, end_⟩ :: rest)) (by grind)
    (Token.stops rfl _)
  have readBody := hbody.of_shorter hsteps (⟨.keyword .end_, end_⟩ :: rest) (by grind) rfl
  change statement (steps + 1) _ _ = _
  simp only [List.append_assoc, List.cons_append, List.nil_append]
  rw [statement]
  simp only [bind_eq_accepted, expect_eq_accepted, pure_eq_accepted]
  exact ⟨condition, _, readCondition, do_, _, rfl, body, _, readBody, end_, rest, rfl, rfl, rfl⟩

theorem readable_repeat {body : Block} {condition : Expression} {until_ : Position}
    (hbody : (Phrase.block true body).ReadableIn before)
    (hcondition : (Phrase.expression .disjunction condition).ReadableIn after) :
    (Phrase.statement inLoop (.repeat_ body condition place)).ReadableIn
      (⟨.keyword .repeat_, place⟩ :: (before ++ ⟨.keyword .until_, until_⟩ :: after)) := by
  refine of_succ fun steps rest hsteps hfollow => ?_
  have readBody := hbody.of_shorter hsteps (⟨.keyword .until_, until_⟩ :: (after ++ rest))
    (by grind) rfl
  have readCondition := hcondition.of_shorter hsteps rest (by grind) (Token.stops hfollow _)
  change statement (steps + 1) _ _ = _
  simp only [List.append_assoc, List.cons_append]
  rw [statement]
  simp only [bind_eq_accepted, expect_eq_accepted, pure_eq_accepted]
  exact ⟨body, _, readBody, until_, _, rfl, condition, rest, readCondition, rfl, rfl⟩

theorem step_stops {value : Option Expression} {rest : List Token} {do_ : Position}
    (hwritten : Written (.step value) tokens) :
    Level.disjunction.Stops (firstKind? (tokens ++ ⟨.keyword .do_, do_⟩ :: rest)) := by
  cases hwritten with
  | step_none => exact Token.stops rfl _
  | step_some hvalue => exact Token.stops rfl _

theorem readable_for {name : String} {start limit : Expression} {step : Option Expression}
    {body : Block} {first second third last : List Token}
    {namePlace assign comma do_ end_ : Position} (hwritten : Written (.step step) third)
    (hstart : (Phrase.expression .disjunction start).ReadableIn first)
    (hlimit : (Phrase.expression .disjunction limit).ReadableIn second)
    (hstep : (Phrase.step step).ReadableIn third)
    (hbody : (Phrase.block true body).ReadableIn last) :
    (Phrase.statement inLoop (.for_ name start limit step body place)).ReadableIn
      (⟨.keyword .for_, place⟩ :: ⟨.name name, namePlace⟩ :: ⟨.symbol .assign, assign⟩ ::
        (first ++ ⟨.symbol .comma, comma⟩ :: (second ++ (third ++ ⟨.keyword .do_, do_⟩ ::
          (last ++ [⟨.keyword .end_, end_⟩]))))) := by
  refine of_succ fun steps rest hsteps hfollow => ?_
  have readStart := hstart.of_shorter hsteps (⟨.symbol .comma, comma⟩ :: (second ++ (third ++
    ⟨.keyword .do_, do_⟩ :: (last ++ ⟨.keyword .end_, end_⟩ :: rest)))) (by grind)
    (Token.stops rfl _)
  -- the limit stops at the comma of a step, or at `do`
  have readLimit := hlimit.of_shorter hsteps
    (third ++ ⟨.keyword .do_, do_⟩ :: (last ++ ⟨.keyword .end_, end_⟩ :: rest)) (by grind)
    (step_stops hwritten)
  have readStep := hstep.of_shorter hsteps
    (⟨.keyword .do_, do_⟩ :: (last ++ ⟨.keyword .end_, end_⟩ :: rest)) (by grind) rfl
  have readBody := hbody.of_shorter hsteps (⟨.keyword .end_, end_⟩ :: rest) (by grind) rfl
  change statement (steps + 1) _ _ = _
  simp only [List.append_assoc, List.cons_append, List.nil_append]
  rw [statement]
  simp only [bind_eq_accepted, expectName_eq_accepted, expect_eq_accepted, pure_eq_accepted]
  exact ⟨(name, namePlace), _, rfl, assign, _, rfl, start, _, readStart, comma, _, rfl, limit, _,
    readLimit, step, _, readStep, do_, _, rfl, body, _, readBody, end_, rest, rfl, rfl, rfl⟩

theorem readable_do {body : Block} {end_ : Position}
    (hbody : (Phrase.block inLoop body).ReadableIn tokens) :
    (Phrase.statement inLoop (.do_ body place)).ReadableIn
      (⟨.keyword .do_, place⟩ :: (tokens ++ [⟨.keyword .end_, end_⟩])) := by
  refine of_succ fun steps rest hsteps hfollow => ?_
  have readBody := hbody.of_shorter hsteps (⟨.keyword .end_, end_⟩ :: rest) (by grind) rfl
  change statement (steps + 1) _ _ = _
  simp only [List.append_assoc, List.cons_append, List.nil_append]
  rw [statement]
  simp only [bind_eq_accepted, expect_eq_accepted, pure_eq_accepted]
  exact ⟨body, _, readBody, end_, rest, rfl, rfl, rfl⟩

theorem readable_perform {value : Invocation} (hwritten : Written (.invocation value) tokens)
    (hinvocation : (Phrase.invocation value).ReadableIn tokens) :
    (Phrase.statement inLoop (.invoke value)).ReadableIn tokens := by
  refine of_succ fun steps rest hsteps _ => ?_
  have hread := hinvocation steps rest hsteps trivial
  obtain ⟨name, place, others, htokens, hbegins⟩ := hwritten.beginsInvocation rest
  change invocation steps _ = _ at hread
  change statement (steps + 1) _ _ = _
  rw [htokens] at hread hbegins ⊢
  rw [statement]
  simp only [hbegins, if_true, bind_eq_accepted, pure_eq_accepted]
  exact ⟨value, rest, hread, rfl, rfl⟩

end Parser

end TableScript
