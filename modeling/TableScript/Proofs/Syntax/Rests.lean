import TableScript.Proofs.Syntax.Reader

/-!
# What readers leave

A reader takes tokens from the front and never gives any back: whether it accepts or rejects, the
tokens that it leaves are the end of those it was given.  So a problem, which lies at the first
token left, lies at a token of the text, and how many tokens are left says at which.  It is a
problem of how the tokens are arranged, and none of the pieces that the text was cut into.

`Reader.Trims` is kept by each way to build readers from readers.  As in the comparison of two
readings, one induction on the steps allowed covers all readers of expressions, another one those of
statements, and a third one the rounds in which a program is read.
-/

namespace TableScript

/-- A problem of how tokens are arranged. -/
def Problem.OfArrangement : Problem → Prop
  | noStatement _ | noExpression _ | returnNotLast | missingToken _ _ | missingName _
  | breakOutsideLoop | indexedLocal _ => True
  | strayCharacter _ | loneTilde | openString | unknownEscape _ | openComment => False

/-- The tokens that an outcome leaves are the end of those given, and a problem is one of their
arrangement. -/
def Parsed.Within {α : Type} (tokens : List Token) : Parsed α → Prop
  | .accepted _ rest => rest <:+ tokens
  | .rejected problem rest => rest <:+ tokens ∧ problem.OfArrangement
  | .exhausted => True

theorem Parsed.Within.mono {α : Type} {outcome : Parsed α} {tokens longer : List Token}
    (hwithin : outcome.Within tokens) (hsuffix : tokens <:+ longer) : outcome.Within longer := by
  cases outcome with
  | accepted value rest => exact hwithin.trans hsuffix
  | rejected problem rest => exact ⟨hwithin.1.trans hsuffix, hwithin.2⟩
  | exhausted => trivial

namespace Reader

variable {α β : Type}

/-- Whatever tokens a reader is given, it leaves the end of them. -/
def Trims (reader : Reader α) : Prop := ∀ tokens, (reader tokens).Within tokens

theorem trims_pure (value : α) : Trims (pure value : Reader α) := fun _ => List.suffix_refl _

theorem Trims.bind {reader : Reader α} {next : α → Reader β} (hreader : Trims reader)
    (hnext : ∀ value, Trims (next value)) : Trims (reader >>= next) := by
  intro tokens
  change (Reader.bind reader next tokens).Within tokens
  unfold Reader.bind
  have hwithin := hreader tokens
  cases hread : reader tokens with
  | accepted value rest =>
      rw [hread] at hwithin
      exact (hnext value rest).mono hwithin
  | rejected problem rest =>
      rw [hread] at hwithin
      exact hwithin
  | exhausted => trivial

/-- A reader that goes on with the end of its tokens leaves the end of them. -/
theorem Trims.after {reader : Reader α} (hreader : Trims reader) {tokens rest : List Token}
    (hsuffix : rest <:+ tokens) : (reader rest).Within tokens :=
  (hreader rest).mono hsuffix

theorem Trims.of_accepted {reader : Reader α} (hreader : Trims reader) {tokens rest : List Token}
    {value : α} (hread : reader tokens = .accepted value rest) : rest <:+ tokens := by
  have hwithin := hreader tokens
  rw [hread] at hwithin
  exact hwithin

theorem Trims.of_rejected {reader : Reader α} (hreader : Trims reader) {tokens rest : List Token}
    {problem : Problem} (hread : reader tokens = .rejected problem rest) : rest <:+ tokens := by
  have hwithin := hreader tokens
  rw [hread] at hwithin
  exact hwithin.1

theorem Trims.arrangement {reader : Reader α} (hreader : Trims reader) {tokens rest : List Token}
    {problem : Problem} (hread : reader tokens = .rejected problem rest) :
    problem.OfArrangement := by
  have hwithin := hreader tokens
  rw [hread] at hwithin
  exact hwithin.2

theorem trims_exhausted : Trims (exhausted : Reader α) := fun _ => trivial

theorem trims_refuse {problem : Option Token.Kind → Problem}
    (hproblem : ∀ found, (problem found).OfArrangement) : Trims (refuse problem : Reader α) :=
  fun _ => ⟨List.suffix_refl _, hproblem _⟩

theorem trims_peek : Trims peek? := fun _ => List.suffix_refl _

theorem trims_accept (kind : Token.Kind) : Trims (accept kind) := by
  intro tokens
  cases tokens with
  | nil => exact List.suffix_refl _
  | cons token rest =>
      rw [accept]
      split
      · exact List.suffix_cons token rest
      · exact List.suffix_refl _

theorem trims_expect (kind : Token.Kind) : Trims (expect kind) := by
  intro tokens
  cases tokens with
  | nil => exact ⟨List.suffix_refl _, trivial⟩
  | cons token rest =>
      rw [expect]
      split
      · exact List.suffix_cons token rest
      · exact ⟨List.suffix_refl _, trivial⟩

theorem trims_expectName : Trims expectName := by
  intro tokens
  unfold expectName
  split
  · exact List.suffix_cons _ _
  · exact ⟨List.suffix_refl _, trivial⟩

theorem trims_acceptMap (select : Token.Kind → Option α) : Trims (acceptMap select) := by
  intro tokens
  cases tokens with
  | nil => exact List.suffix_refl _
  | cons token rest =>
      rw [acceptMap]
      split
      · exact List.suffix_cons token rest
      · exact List.suffix_refl _

end Reader

open TableScript.Parser

namespace Parser

open TableScript.Reader

variable {steps : Nat}

/-! ## Expressions -/

/-- Within the steps allowed, all readers of expressions leave the end of their tokens. -/
structure ExpressionsTrim (steps : Nat) : Prop where
  expressionAt (level : Level) : Trims (expressionAt steps level)
  chain (level : Level) (left : Expression) : Trims (chain steps level left)
  primary : Trims (primary steps)
  indexPath : Trims (indexPath steps)
  expressionList : Trims (expressionList steps)
  fieldList : Trims (fieldList steps)
  field : Trims (field steps)
  invocation : Trims (invocation steps)
  argumentList : Trims (argumentList steps)
  readFormat : Trims (readFormat steps)

theorem expressionAt_trims (htrim : ExpressionsTrim steps) (level : Level) :
    Trims (expressionAt (steps + 1) level) := by
  have hleft (level : Level) :
      Trims (do let first ← expressionAt steps level.next; chain steps level first) :=
    (htrim.expressionAt level.next).bind (htrim.chain level)
  -- every branch is a sequence of readers that trim, so it trims
  cases level with
  | primary => exact htrim.primary
  | power =>
      rw [expressionAt]
      refine (htrim.expressionAt .primary).bind fun base => (trims_acceptMap _).bind fun found => ?_
      split
      · exact (htrim.expressionAt .unary).bind fun exponent => trims_pure _
      · exact trims_pure _
  | unary =>
      rw [expressionAt]
      refine (trims_acceptMap _).bind fun found => ?_
      split
      · exact (htrim.expressionAt .unary).bind fun operand => trims_pure _
      · exact htrim.expressionAt .power
  | concatenation =>
      rw [expressionAt]
      refine (htrim.expressionAt .additive).bind fun left => ?_
      refine (trims_acceptMap _).bind fun found => ?_
      split
      · exact (htrim.expressionAt .concatenation).bind fun right => trims_pure _
      · exact trims_pure _
  | disjunction => exact hleft .disjunction
  | conjunction => exact hleft .conjunction
  | comparison => exact hleft .comparison
  | additive => exact hleft .additive
  | multiplicative => exact hleft .multiplicative

theorem chain_trims (htrim : ExpressionsTrim steps) (level : Level) (left : Expression) :
    Trims (chain (steps + 1) level left) := by
  rw [chain]
  refine (trims_acceptMap _).bind fun found => ?_
  split
  · exact (htrim.expressionAt level.next).bind fun right => htrim.chain level _
  · exact trims_pure _

theorem afterReadCall?_suffix {tokens rest : List Token}
    (hafter : afterReadCall? tokens = some rest) : rest <:+ tokens := by
  obtain ⟨place, dot, name, opening, rfl⟩ := afterReadCall?_eq_some.mp hafter
  exact ⟨[_, _, _, _], rfl⟩

theorem primary_trims (htrim : ExpressionsTrim steps) : Trims (primary (steps + 1)) := by
  intro tokens
  rw [primary]
  dsimp only
  split
  -- literals are one token each
  · exact List.suffix_cons _ _
  · exact List.suffix_cons _ _
  · exact List.suffix_cons _ _
  · exact List.suffix_cons _ _
  · exact List.suffix_cons _ _
  · exact List.suffix_cons _ _
  · refine Trims.after ?_ (List.suffix_cons _ _)
    refine (htrim.expressionAt .disjunction).bind fun inner => ?_
    exact (trims_expect _).bind fun _ => trims_pure _
  · refine Trims.after ?_ (List.suffix_cons _ _)
    exact htrim.fieldList.bind fun fields => (trims_expect _).bind fun _ => trims_pure _
  -- a call reads its name again, a variable goes on behind it
  · split
    · exact (htrim.invocation.bind fun value => trims_pure _) _
    · refine Trims.after ?_ (List.suffix_cons _ _)
      exact htrim.indexPath.bind fun path => trims_pure _
  · exact trims_refuse (fun _ => by trivial) _

theorem indexPath_trims (htrim : ExpressionsTrim steps) : Trims (indexPath (steps + 1)) := by
  intro tokens
  rw [indexPath]
  dsimp only
  split
  · refine Trims.after ?_ (List.suffix_cons _ _)
    exact trims_expectName.bind fun name => htrim.indexPath.bind fun path => trims_pure _
  · refine Trims.after ?_ (List.suffix_cons _ _)
    refine (htrim.expressionAt .disjunction).bind fun key => (trims_expect _).bind fun _ => ?_
    exact htrim.indexPath.bind fun path => trims_pure _
  · exact List.suffix_refl _

theorem expressionList_trims (htrim : ExpressionsTrim steps) :
    Trims (expressionList (steps + 1)) := by
  rw [expressionList]
  refine (htrim.expressionAt .disjunction).bind fun first => (trims_accept _).bind fun found => ?_
  split
  · exact htrim.expressionList.bind fun others => trims_pure _
  · exact trims_pure _

theorem fieldList_trims (htrim : ExpressionsTrim steps) : Trims (fieldList (steps + 1)) := by
  rw [fieldList]
  refine trims_peek.bind fun kind => ?_
  have hmore (first : Field) :
      Trims (do let others ← fieldList steps; pure (first :: others)) :=
    htrim.fieldList.bind fun others => trims_pure _
  split
  · exact trims_pure _
  · exact trims_pure _
  · refine htrim.field.bind fun first => (trims_accept _).bind fun comma => ?_
    split
    · exact hmore first
    · refine (trims_accept _).bind fun semicolon => ?_
      split
      · exact hmore first
      · exact trims_pure _

theorem field_trims (htrim : ExpressionsTrim steps) : Trims (field (steps + 1)) := by
  have hvalue (build : Expression → Field) :
      Trims (do let value ← expressionAt steps .disjunction; pure (build value)) :=
    (htrim.expressionAt .disjunction).bind fun value => trims_pure _
  intro tokens
  rw [field]
  dsimp only
  split
  · exact (hvalue _).after ⟨[_, _], rfl⟩
  · refine Trims.after ?_ (List.suffix_cons _ _)
    refine (htrim.expressionAt .disjunction).bind fun key => ?_
    exact (trims_expect _).bind fun _ => (trims_expect _).bind fun _ => hvalue _
  · exact hvalue _ _

theorem invocation_trims (htrim : ExpressionsTrim steps) : Trims (invocation (steps + 1)) := by
  intro tokens
  rw [invocation]
  dsimp only
  split
  · refine Trims.after (htrim.argumentList.bind fun values => ?_) ⟨[_, _], rfl⟩
    split
    · exact trims_pure _
    · exact trims_pure _
  · split
    · next rest hafter =>
        refine Trims.after ?_ (afterReadCall?_suffix hafter)
        exact htrim.readFormat.bind fun format => trims_pure _
    · exact trims_refuse (fun _ => by trivial) _
  · exact trims_refuse (fun _ => by trivial) _

theorem argumentList_trims (htrim : ExpressionsTrim steps) : Trims (argumentList (steps + 1)) := by
  rw [argumentList]
  refine (trims_accept _).bind fun found => ?_
  split
  · exact trims_pure _
  · exact htrim.expressionList.bind fun values => (trims_expect _).bind fun _ => trims_pure _

theorem readFormat_trims (htrim : ExpressionsTrim steps) : Trims (readFormat (steps + 1)) := by
  rw [readFormat]
  refine (trims_accept _).bind fun found => ?_
  split
  · exact trims_pure _
  · refine (htrim.expressionAt .disjunction).bind fun format => ?_
    exact (trims_expect _).bind fun _ => trims_pure _

theorem expressionsTrim : ∀ steps : Nat, ExpressionsTrim steps := by
  intro steps
  induction steps with
  | zero => constructor <;> intros <;> exact trims_exhausted
  | succ steps htrim =>
      exact
        { expressionAt := expressionAt_trims htrim
          chain := chain_trims htrim
          primary := primary_trims htrim
          indexPath := indexPath_trims htrim
          expressionList := expressionList_trims htrim
          fieldList := fieldList_trims htrim
          field := field_trims htrim
          invocation := invocation_trims htrim
          argumentList := argumentList_trims htrim
          readFormat := readFormat_trims htrim }

/-! ## Statements -/

theorem parameterList_trims (steps : Nat) : Trims (parameterList steps) := by
  induction steps with
  | zero => exact trims_exhausted
  | succ steps ih =>
      rw [parameterList]
      refine trims_peek.bind fun kind => ?_
      split
      · exact trims_pure _
      · exact trims_pure _
      · refine trims_expectName.bind fun first => (trims_accept _).bind fun found => ?_
        split
        · exact ih.bind fun others => trims_pure _
        · exact trims_pure _

theorem returnClause_trims (steps : Nat) : Trims (returnClause steps) := by
  have hvalues (values : Reader (List Expression)) (hvalues : Trims values) (position : Position) :
      Trims (do
        let values ← values
        let _ ← accept (.symbol .semicolon)
        pure (⟨values, position⟩ : Return)) :=
    hvalues.bind fun _ => (trims_accept _).bind fun _ => trims_pure _
  unfold returnClause
  refine (trims_expect _).bind fun position => trims_peek.bind fun next => ?_
  split
  · exact hvalues _ (trims_pure _) position
  · exact hvalues _ (expressionsTrim steps).expressionList position

theorem declaration_trims (steps : Nat) (position : Position) :
    Trims (declaration steps position) := by
  unfold declaration
  refine trims_expectName.bind fun name => trims_peek.bind fun next => ?_
  split
  · exact trims_refuse fun _ => trivial
  · refine (trims_expect _).bind fun _ => ?_
    exact ((expressionsTrim steps).expressionAt .disjunction).bind fun value => trims_pure _

theorem forStep_trims (steps : Nat) : Trims (forStep steps) := by
  unfold forStep
  refine (trims_accept _).bind fun found => ?_
  split
  · exact ((expressionsTrim steps).expressionAt .disjunction).bind fun step => trims_pure _
  · exact trims_pure _

/-- Within the steps allowed, all readers of statements leave the end of their tokens. -/
structure StatementsTrim (steps : Nat) : Prop where
  block (inLoop : Bool) : Trims (block steps inLoop)
  statementList (inLoop : Bool) : Trims (statementList steps inLoop)
  statement (inLoop : Bool) : Trims (statement steps inLoop)
  branchList (inLoop : Bool) : Trims (branchList steps inLoop)

theorem block_trims (htrim : StatementsTrim steps) (inLoop : Bool) :
    Trims (block (steps + 1) inLoop) := by
  rw [block]
  refine (htrim.statementList inLoop).bind fun statements => trims_peek.bind fun next => ?_
  split
  · exact (returnClause_trims steps).bind fun result => trims_pure _
  · exact trims_pure _

theorem statementList_trims (htrim : StatementsTrim steps) (inLoop : Bool) :
    Trims (statementList (steps + 1) inLoop) := by
  rw [statementList]
  refine trims_peek.bind fun next => ?_
  split
  · exact trims_pure _
  · refine (htrim.statement inLoop).bind fun first => ?_
    exact (htrim.statementList inLoop).bind fun others => trims_pure _

theorem branchList_trims (htrim : StatementsTrim steps) (inLoop : Bool) :
    Trims (branchList (steps + 1) inLoop) := by
  rw [branchList]
  refine ((expressionsTrim steps).expressionAt .disjunction).bind fun condition => ?_
  refine (trims_expect _).bind fun _ => (htrim.block inLoop).bind fun body => ?_
  refine (trims_accept _).bind fun further => ?_
  split
  · exact (htrim.branchList inLoop).bind fun branches => trims_pure _
  · refine (trims_accept _).bind fun last => ?_
    split
    · exact (htrim.block inLoop).bind fun otherwise => trims_pure _
    · exact trims_pure _

theorem statement_trims (htrim : StatementsTrim steps) (inLoop : Bool) :
    Trims (statement (steps + 1) inLoop) := by
  have hexpression := (expressionsTrim steps).expressionAt .disjunction
  have hclosed (body : Bool) (build : Block → Statement) : Trims (do
      let body ← block steps body
      let _ ← expect (.keyword .end_)
      pure (build body)) :=
    (htrim.block body).bind fun _ => (trims_expect _).bind fun _ => trims_pure _
  intro tokens
  rw [statement]
  dsimp only
  split
  · exact List.suffix_cons _ _
  -- a break outside loops is refused where it stands
  · split
    · exact List.suffix_cons _ _
    · exact ⟨List.suffix_refl _, trivial⟩
  · exact (declaration_trims steps _).after (List.suffix_cons _ _)
  · refine Trims.after ?_ (List.suffix_cons _ _)
    exact (htrim.branchList inLoop).bind fun branches => (trims_expect _).bind fun _ => trims_pure _
  · refine Trims.after ?_ (List.suffix_cons _ _)
    refine trims_expectName.bind fun name => (trims_expect _).bind fun _ => ?_
    exact (parameterList_trims steps).bind fun _ => (trims_expect _).bind fun _ => hclosed false _
  · refine Trims.after ?_ (List.suffix_cons _ _)
    exact hexpression.bind fun condition => (trims_expect _).bind fun _ => hclosed true _
  · refine Trims.after ?_ (List.suffix_cons _ _)
    refine (htrim.block true).bind fun body => (trims_expect _).bind fun _ => ?_
    exact hexpression.bind fun condition => trims_pure _
  · refine Trims.after ?_ (List.suffix_cons _ _)
    refine trims_expectName.bind fun name => (trims_expect _).bind fun _ => ?_
    refine hexpression.bind fun start => (trims_expect _).bind fun _ => ?_
    refine hexpression.bind fun limit => (forStep_trims steps).bind fun step => ?_
    exact (trims_expect _).bind fun _ => hclosed true _
  · exact (hclosed inLoop _).after (List.suffix_cons _ _)
  -- a call reads its name again, an assignment goes on behind it
  · split
    · exact ((expressionsTrim steps).invocation.bind fun value => trims_pure _) _
    · refine Trims.after ?_ (List.suffix_cons _ _)
      refine (expressionsTrim steps).indexPath.bind fun path => (trims_expect _).bind fun _ => ?_
      exact hexpression.bind fun value => trims_pure _
  · exact trims_refuse (fun _ => by trivial) _

theorem statementsTrim : ∀ steps : Nat, StatementsTrim steps := by
  intro steps
  induction steps with
  | zero => constructor <;> intros <;> exact trims_exhausted
  | succ steps htrim =>
      exact
        { block := block_trims htrim
          statementList := statementList_trims htrim
          statement := statement_trims htrim
          branchList := branchList_trims htrim }

/-! ## Programs -/

/-- Reading starts afresh behind a token, unless none is left. -/
theorem recover_suffix_tail (tokens : List Token) : recover tokens <:+ tokens.tail :=
  List.dropWhile_suffix _

theorem recover_suffix (tokens : List Token) : recover tokens <:+ tokens :=
  (recover_suffix_tail tokens).trans (List.tail_suffix tokens)

/-- Problems found in some tokens: each lies at one of them or at their end, and each that comes
later lies behind the token at which the one before lies. -/
structure ProblemsIn (tokens : List Token) (problems : List (Problem × List Token)) : Prop where
  suffix : ∀ problem ∈ problems, problem.2 <:+ tokens
  arrangement : ∀ problem ∈ problems, problem.1.OfArrangement
  apart : problems.Pairwise fun earlier later =>
    earlier.2 ≠ [] ∧ later.2 <:+ earlier.2.tail

section ProblemsIn

variable {tokens rest : List Token} {problems : List (Problem × List Token)}

theorem ProblemsIn.none (tokens : List Token) : ProblemsIn tokens [] := ⟨by simp, by simp, .nil⟩

theorem ProblemsIn.mono (hproblems : ProblemsIn rest problems) (hrest : rest <:+ tokens) :
    ProblemsIn tokens problems where
  suffix problem hproblem := (hproblems.suffix problem hproblem).trans hrest
  arrangement := hproblems.arrangement
  apart := hproblems.apart

theorem ProblemsIn.cons {problem : Problem} (hproblems : ProblemsIn (recover rest) problems)
    (hnone : recover rest = [] → problems = []) (hrest : rest <:+ tokens)
    (hproblem : problem.OfArrangement) : ProblemsIn tokens ((problem, rest) :: problems) where
  suffix := by
    refine List.forall_mem_cons.mpr ⟨hrest, fun other hother => ?_⟩
    exact (hproblems.suffix other hother).trans ((recover_suffix rest).trans hrest)
  arrangement := List.forall_mem_cons.mpr ⟨hproblem, hproblems.arrangement⟩
  apart := by
    refine hproblems.apart.cons fun other hother => ⟨?_, ?_⟩
    · rintro rfl
      rw [hnone rfl] at hother
      cases hother
    · exact (hproblems.suffix other hother).trans (recover_suffix_tail rest)

end ProblemsIn

/-- **Every problem of a program lies at a token of it or at its end**, and no two at the same. -/
theorem readProgram_problems (steps rounds : Nat) (tokens : List Token) :
    ProblemsIn tokens (readProgram steps rounds tokens).problems := by
  induction rounds generalizing tokens with
  | zero => exact .none tokens
  | succ rounds ih =>
      cases tokens with
      | nil => exact .none []
      | cons token others =>
          -- reading goes on after a problem in what the problem left
          have hproblem {problem : Problem} {rest : List Token} (hrest : rest <:+ token :: others)
              (harrangement : problem.OfArrangement) :
              ProblemsIn (token :: others)
                ((problem, rest) :: (readProgram steps rounds (recover rest)).problems) := by
            refine (ih (recover rest)).cons (fun hnone => ?_) hrest harrangement
            rw [hnone]
            cases rounds <;> rfl
          -- without steps the round gives up, and so does the whole: the problem is the only one
          have hlast {problem : Problem} (harrangement : problem.OfArrangement) :
              ProblemsIn (token :: others) [(problem, token :: others)] :=
            ⟨by simp, by simpa using harrangement, List.pairwise_singleton _ _⟩
          have hreturn := returnClause_trims steps
          have hstatement := (statementsTrim steps).statement false
          rw [readProgram]
          · split
            · split
              · exact .none _
              · next hread => exact hproblem (hreturn.of_accepted hread) trivial
              · next hread => exact hproblem (hreturn.of_rejected hread) (hreturn.arrangement hread)
              · exact hlast trivial
            · split
              · next hread => exact (ih _).mono (hstatement.of_accepted hread)
              · next hread =>
                  exact hproblem (hstatement.of_rejected hread) (hstatement.arrangement hread)
              · exact hlast trivial
          · simp

end Parser

/-- Tokens that are no program have the problems found in them, at the places where these lie. -/
theorem parse_eq_error {tokens : Tokens} {diagnostics : List Diagnostic}
    (hparse : parse tokens = .error diagnostics) :
    ∃ problems, (readProgram (stepsFor tokens.list) tokens.list.length tokens.list).problems =
        problems ∧ problems ≠ [] ∧
      diagnostics = problems.map fun (problem, rest) => ⟨problem, placeOf tokens.finish rest⟩ := by
  unfold parse at hparse
  dsimp only at hparse
  split at hparse
  · cases hparse
  · next hsome =>
      cases hparse
      exact ⟨_, rfl, hsome, rfl⟩

end TableScript
