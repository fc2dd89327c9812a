import TableScript.Proofs.Syntax.Layout.Expressions

/-!
# Places do not matter to what is read

The readers of statements treat tokens of the same kinds alike, as those of expressions do, and so
does the reading of a program in rounds: it passes over the same tokens after a problem.  A program
is therefore read from its tokens wherever they stand.
-/

namespace TableScript

namespace Parser

open TableScript.Reader

variable {steps : Nat}

/-! ## The readers of statements -/

theorem parameterList_alike (steps : Nat) :
    Alike id (parameterList steps) (parameterList steps) := by
  induction steps with
  | zero => exact alike_exhausted
  | succ steps ih =>
      rw [parameterList]
      refine alike_peek_bind fun kind => ?_
      split
      · exact .pure rfl
      · exact .pure rfl
      · refine alike_expectName.bind ?_
        rintro ⟨first, place⟩ ⟨_, place'⟩ rfl
        refine alike_accept_bind ?_ (.pure rfl)
        refine ih.bind ?_
        rintro others _ rfl
        exact .pure rfl

theorem returnClause_alike (steps : Nat) :
    Alike Return.erase (returnClause steps) (returnClause steps) := by
  unfold returnClause
  refine (alike_expect _).bind fun place place' _ => ?_
  refine alike_peek_bind fun kind => ?_
  have hvalues {values values' : List Expression}
      (hvalues : Expression.eraseList values = Expression.eraseList values') :
      Alike Return.erase
        (do let _ ← accept (.symbol .semicolon); pure ⟨values, place⟩)
        (do let _ ← accept (.symbol .semicolon); pure ⟨values', place'⟩) := by
    refine (alike_accept _).bind fun _ _ _ => .pure ?_
    simp only [Return.erase, hvalues]
  split
  · exact (Alike.pure rfl).bind fun _ _ => hvalues
  · exact (layoutFree steps).expressionList.bind fun _ _ => hvalues

theorem declaration_alike (steps : Nat) (place place' : Position) :
    Alike Statement.erase (declaration steps place) (declaration steps place') := by
  unfold declaration
  refine alike_expectName.bind ?_
  rintro ⟨name, namePlace⟩ ⟨_, namePlace'⟩ rfl
  refine alike_peek_bind fun kind => ?_
  split
  · exact alike_refuse
  · refine (alike_expect _).bind fun _ _ _ => ?_
    refine ((layoutFree steps).expressionAt .disjunction).bind fun value value' hvalue => .pure ?_
    simp only [Statement.erase, hvalue]

theorem forStep_alike (steps : Nat) :
    Alike Expression.eraseOption (forStep steps) (forStep steps) := by
  unfold forStep
  refine alike_accept_bind ?_ (.pure rfl)
  refine ((layoutFree steps).expressionAt .disjunction).bind fun value value' hvalue => .pure ?_
  simp only [Expression.eraseOption, hvalue]

/-- What the reader of branches gives, its places forgotten. -/
def eraseBranches (branches : List Branch × Option Block) : List Branch × Option Block :=
  (Branch.eraseList branches.1, Block.eraseOption branches.2)

/-- Within the steps allowed, no reader of statements looks at places. -/
structure StatementsLayoutFree (steps : Nat) : Prop where
  block (inLoop : Bool) : Alike Block.erase (block steps inLoop) (block steps inLoop)
  statementList (inLoop : Bool) :
    Alike Statement.eraseList (statementList steps inLoop) (statementList steps inLoop)
  statement (inLoop : Bool) :
    Alike Statement.erase (statement steps inLoop) (statement steps inLoop)
  branchList (inLoop : Bool) :
    Alike eraseBranches (branchList steps inLoop) (branchList steps inLoop)

theorem block_alike (hfree : StatementsLayoutFree steps) (inLoop : Bool) :
    Alike Block.erase (block (steps + 1) inLoop) (block (steps + 1) inLoop) := by
  rw [block]
  refine (hfree.statementList inLoop).bind fun statements statements' hstatements => ?_
  refine alike_peek_bind fun kind => ?_
  split
  · refine (returnClause_alike steps).bind fun result result' hresult => .pure ?_
    simp only [Block.erase, hstatements, Option.map_some, hresult]
  · refine .pure ?_
    simp only [Block.erase, hstatements, Option.map_none]

theorem statementList_alike (hfree : StatementsLayoutFree steps) (inLoop : Bool) :
    Alike Statement.eraseList (statementList (steps + 1) inLoop)
      (statementList (steps + 1) inLoop) := by
  rw [statementList]
  refine alike_peek_bind fun kind => ?_
  split
  · exact .pure rfl
  · refine (hfree.statement inLoop).bind fun first first' hfirst => ?_
    refine (hfree.statementList inLoop).bind fun others others' hothers => .pure ?_
    simp only [Statement.eraseList, hfirst, hothers]

theorem branchList_alike (hfree : StatementsLayoutFree steps) (inLoop : Bool) :
    Alike eraseBranches (branchList (steps + 1) inLoop) (branchList (steps + 1) inLoop) := by
  rw [branchList]
  refine ((layoutFree steps).expressionAt .disjunction).bind
    fun condition condition' hcondition => ?_
  refine (alike_expect _).bind fun _ _ _ => ?_
  refine (hfree.block inLoop).bind fun body body' hbody => ?_
  refine alike_accept_bind ?_ (alike_accept_bind ?_ (.pure ?_))
  · refine (hfree.branchList inLoop).bind ?_
    rintro ⟨branches, otherwise⟩ ⟨branches', otherwise'⟩ hbranches
    simp only [eraseBranches, Prod.mk.injEq] at hbranches
    refine .pure ?_
    simp only [eraseBranches, Branch.eraseList, Branch.erase, hcondition, hbody, hbranches]
  · refine (hfree.block inLoop).bind fun otherwise otherwise' hotherwise => .pure ?_
    simp only [eraseBranches, Branch.eraseList, Branch.erase, Block.eraseOption, hcondition, hbody,
      hotherwise]
  · simp only [eraseBranches, Branch.eraseList, Branch.erase, Block.eraseOption, hcondition, hbody]

theorem statement_alike (hfree : StatementsLayoutFree steps) (inLoop : Bool) :
    Alike Statement.erase (statement (steps + 1) inLoop) (statement (steps + 1) inLoop) := by
  have hexpressions := layoutFree steps
  intro tokens tokens' htokens
  rw [statement]
  cases tokens with
  | nil =>
      obtain rfl : tokens' = [] := List.map_eq_nil_iff.mp htokens.symm
      exact .rejected rfl
  | cons token rest =>
      obtain ⟨kind, place⟩ := token
      obtain ⟨place', rest', rfl, hkinds⟩ := kindsOf_eq_cons.mp htokens.symm
      have hrest : kindsOf rest = kindsOf rest' := hkinds.symm
      -- the kind of the first token decides which statement is read, and its place goes into the
      -- tree only
      cases kind with
      | symbol mark => cases mark <;> first | exact .accepted rfl hrest | exact .rejected htokens
      | name text =>
          dsimp only
          rw [beginsInvocation_alike htokens]
          split
          · refine Alike.bind hexpressions.invocation (fun value value' hvalue => .pure ?_) _ _
              htokens
            simp only [Statement.erase, hvalue]
          · refine Alike.bind hexpressions.indexPath (fun path path' hpath => ?_) _ _ hrest
            refine (alike_expect _).bind fun _ _ _ => ?_
            refine (hexpressions.expressionAt .disjunction).bind fun value value' hvalue => .pure ?_
            simp only [Statement.erase, hpath, hvalue]
      | keyword word =>
          cases word with
          | break_ =>
              dsimp only
              split
              · exact .accepted rfl hrest
              · exact .rejected htokens
          | local_ => exact declaration_alike steps place place' rest rest' hrest
          | if_ =>
              refine Alike.bind (hfree.branchList inLoop) ?_ rest rest' hrest
              rintro ⟨branches, otherwise⟩ ⟨branches', otherwise'⟩ hbranches
              simp only [eraseBranches, Prod.mk.injEq] at hbranches
              refine (alike_expect _).bind fun _ _ _ => .pure ?_
              simp only [Statement.erase, hbranches]
          | function_ =>
              refine Alike.bind alike_expectName ?_ rest rest' hrest
              -- names are alike if they are the same name, wherever they stand
              rintro ⟨name, namePlace⟩ ⟨_, namePlace'⟩ rfl
              refine (alike_expect _).bind fun _ _ _ => ?_
              refine (parameterList_alike steps).bind fun parameters parameters' hparameters => ?_
              obtain rfl : parameters = parameters' := hparameters
              refine (alike_expect _).bind fun _ _ _ => ?_
              refine (hfree.block false).bind fun body body' hbody => ?_
              refine (alike_expect _).bind fun _ _ _ => .pure ?_
              simp only [Statement.erase, hbody]
          | while_ =>
              refine Alike.bind (hexpressions.expressionAt .disjunction)
                (fun condition condition' hcondition => ?_) rest rest' hrest
              refine (alike_expect _).bind fun _ _ _ => ?_
              refine (hfree.block true).bind fun body body' hbody => ?_
              refine (alike_expect _).bind fun _ _ _ => .pure ?_
              simp only [Statement.erase, hcondition, hbody]
          | repeat_ =>
              refine Alike.bind (hfree.block true) (fun body body' hbody => ?_) rest rest' hrest
              refine (alike_expect _).bind fun _ _ _ => ?_
              refine (hexpressions.expressionAt .disjunction).bind
                fun condition condition' hcondition => .pure ?_
              simp only [Statement.erase, hbody, hcondition]
          | for_ =>
              refine Alike.bind alike_expectName ?_ rest rest' hrest
              rintro ⟨name, namePlace⟩ ⟨_, namePlace'⟩ rfl
              refine (alike_expect _).bind fun _ _ _ => ?_
              refine (hexpressions.expressionAt .disjunction).bind fun start start' hstart => ?_
              refine (alike_expect _).bind fun _ _ _ => ?_
              refine (hexpressions.expressionAt .disjunction).bind fun limit limit' hlimit => ?_
              refine (forStep_alike steps).bind fun step step' hstep => ?_
              refine (alike_expect _).bind fun _ _ _ => ?_
              refine (hfree.block true).bind fun body body' hbody => ?_
              refine (alike_expect _).bind fun _ _ _ => .pure ?_
              simp only [Statement.erase, hstart, hlimit, hstep, hbody]
          | do_ =>
              refine Alike.bind (hfree.block inLoop) (fun body body' hbody => ?_) rest rest' hrest
              refine (alike_expect _).bind fun _ _ _ => .pure ?_
              simp only [Statement.erase, hbody]
          | _ => exact .rejected htokens
      | _ => exact .rejected htokens

theorem statementsLayoutFree : ∀ steps : Nat, StatementsLayoutFree steps := by
  intro steps
  induction steps with
  | zero =>
      exact ⟨fun _ => alike_exhausted, fun _ => alike_exhausted, fun _ => alike_exhausted,
        fun _ => alike_exhausted⟩
  | succ steps hfree =>
      exact ⟨block_alike hfree, statementList_alike hfree, statement_alike hfree,
        branchList_alike hfree⟩

/-! ## Programs -/

/-- A reading with all its places forgotten. -/
def Reading.erase (reading : Reading) :
    List Statement × Option Return × List (Problem × List Token.Kind) :=
  (Statement.eraseList reading.statements, reading.result.map Return.erase,
    reading.problems.map fun (problem, rest) => (problem, kindsOf rest))

theorem kindsOf_recover (tokens : List Token) :
    kindsOf (recover tokens) =
      (kindsOf tokens).tail.dropWhile fun kind => !kind.startsStatement := by
  unfold recover kindsOf
  rw [← List.map_tail, List.dropWhile_map]
  rfl

/-- The rounds find the same statements and the same problems, in front of the same tokens. -/
theorem readProgram_alike {rounds : Nat} {tokens tokens' : List Token}
    (htokens : kindsOf tokens = kindsOf tokens') :
    (readProgram steps rounds tokens).erase = (readProgram steps rounds tokens').erase := by
  induction rounds generalizing tokens tokens' with
  | zero => rfl
  | succ rounds ih =>
      cases tokens with
      | nil =>
          obtain rfl : tokens' = [] := List.map_eq_nil_iff.mp htokens.symm
          rfl
      | cons token others =>
          obtain ⟨place', others', rfl, -⟩ := kindsOf_eq_cons.mp htokens.symm
          have hfirst :
              firstKind? (⟨token.kind, place'⟩ :: others') = firstKind? (token :: others) := rfl
          -- after a problem both recover at tokens of the same kinds, and the induction goes on
          -- from there
          have hproblem {problem : Problem} {rest rest' : List Token}
              (hrest : kindsOf rest = kindsOf rest') :
              Reading.erase { readProgram steps rounds (recover rest) with
                problems :=
                  (problem, rest) :: (readProgram steps rounds (recover rest)).problems } =
              Reading.erase { readProgram steps rounds (recover rest') with
                problems :=
                  (problem, rest') :: (readProgram steps rounds (recover rest')).problems } := by
            have hrecover : kindsOf (recover rest) = kindsOf (recover rest') := by
              rw [kindsOf_recover, kindsOf_recover, hrest]
            have hlater := ih hrecover
            simp only [Reading.erase, Prod.mk.injEq] at hlater ⊢
            simp only [List.map_cons, hlater, hrest, and_self]
          rw [readProgram, readProgram, hfirst]
          split
          · have halike := returnClause_alike steps _ _ htokens
            revert halike
            -- the readings are alike; what each of them is does not matter
            generalize returnClause steps (token :: others) = outcome
            generalize returnClause steps (⟨token.kind, place'⟩ :: others') = outcome'
            intro halike
            cases halike with
            | @accepted result result' rest rest' hresult hrest =>
                cases rest with
                | nil =>
                    obtain rfl : rest' = [] := List.map_eq_nil_iff.mp hrest.symm
                    simp only [Reading.erase, Option.map_some, hresult]
                | cons next after =>
                    obtain ⟨_, _, rfl, -⟩ := kindsOf_eq_cons.mp hrest.symm
                    exact hproblem hrest
            | rejected hrest => exact hproblem hrest
            | exhausted => simp only [Reading.erase, List.map_cons, htokens]
          · have halike := (statementsLayoutFree steps).statement false _ _ htokens
            revert halike
            generalize statement steps false (token :: others) = outcome
            generalize statement steps false (⟨token.kind, place'⟩ :: others') = outcome'
            intro halike
            cases halike with
            | accepted hvalue hrest =>
                have hlater := ih hrest
                simp only [Reading.erase, Prod.mk.injEq] at hlater ⊢
                simp only [Statement.eraseList, hvalue, hlater, and_self]
            | rejected hrest => exact hproblem hrest
            | exhausted => simp only [Reading.erase, List.map_cons, htokens]
          all_goals simp

end Parser

/-- From tokens of the same kinds the same is read, its places apart. -/
theorem parse_reading_alike {tokens tokens' : List Token}
    (htokens : kindsOf tokens = kindsOf tokens') :
    (Parser.readProgram (Parser.stepsFor tokens) tokens.length tokens).erase =
      (Parser.readProgram (Parser.stepsFor tokens') tokens'.length tokens').erase := by
  have hlength : tokens'.length = tokens.length := by
    simpa [kindsOf] using congrArg List.length htokens.symm
  -- lists of the same kinds are of the same length, so they are allowed the same steps
  have hsteps : Parser.stepsFor tokens' = Parser.stepsFor tokens := by
    unfold Parser.stepsFor
    rw [hlength]
  rw [hsteps, hlength]
  exact Parser.readProgram_alike htokens

/-- Tokens of the same kinds are read as the same program, its places apart. -/
theorem parse_alike {tokens tokens' : Tokens} (htokens : kindsOf tokens.list = kindsOf tokens'.list)
    {chunk : Block} (hparse : parse tokens = .ok chunk) :
    ∃ chunk', parse tokens' = .ok chunk' ∧ chunk'.erase = chunk.erase := by
  have halike := parse_reading_alike htokens
  unfold parse at hparse ⊢
  dsimp only at hparse ⊢
  split at hparse
  · next hproblems =>
      cases hparse
      simp only [Parser.Reading.erase, Prod.mk.injEq, hproblems] at halike
      obtain ⟨hstatements, hresult, hnone⟩ := halike
      rw [List.map_nil] at hnone
      rw [List.map_eq_nil_iff.mp hnone.symm]
      refine ⟨_, rfl, ?_⟩
      simp only [Block.erase, hstatements, hresult]
  · cases hparse

end TableScript
