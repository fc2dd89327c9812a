import TableScript.Proofs.Syntax.Rules
import TableScript.Proofs.Syntax.Follow

/-!
# Enough steps

Readers recurse on a number of steps, and what they make of tokens must not hang on it.  Sixteen
steps for each token, and a few more for the rule, are never used up (`Rule.ends`), whatever the
tokens are.  A reader that calls another without having taken a token calls one that needs fewer of
the few steps; one that has taken a token has sixteen to spend on the next call.  The loops of the
grammar turn only after a token was taken, a statement being the one case where that has to be shown
(`takes_statement`).
-/

namespace TableScript

namespace Reader

variable {α β : Type} {bound : Nat}

/-- A reader does not use up its steps on lists of tokens that are short enough for the bound. -/
def Ends (bound : Nat) (reader : Reader α) : Prop :=
  ∀ tokens : List Token, 16 * tokens.length ≤ bound → reader tokens ≠ .exhausted

/-- A reader that ends with a result has taken a token. -/
def Takes (reader : Reader α) : Prop :=
  ∀ ⦃tokens rest : List Token⦄ ⦃value : α⦄,
    reader tokens = .accepted value rest → rest.length < tokens.length

/-! ## Readers that take a token -/

theorem takes_expect (kind : Token.Kind) : Takes (expect kind) := by
  intro tokens rest position hread
  simp only [expect_eq_accepted] at hread
  simp [hread]

theorem takes_expectName : Takes expectName := by
  intro tokens rest name hread
  simp only [expectName_eq_accepted] at hread
  simp [hread]

/-! ## Readers that end -/

theorem Ends.mono {reader : Reader α} {less : Nat} (hreader : Ends bound reader)
    (hless : less ≤ bound) : Ends less reader :=
  fun tokens htokens => hreader tokens (Nat.le_trans htokens hless)

theorem ends_of_accepts {reader : Reader α}
    (haccepts : ∀ tokens, ∃ value rest, reader tokens = .accepted value rest) :
    Ends bound reader := by
  intro tokens _ hexhausted
  obtain ⟨value, rest, hread⟩ := haccepts tokens
  rw [hexhausted] at hread
  cases hread

theorem ends_pure (value : α) : Ends bound (pure value : Reader α) :=
  ends_of_accepts fun tokens => ⟨value, tokens, rfl⟩

theorem ends_refuse (problem : Option Token.Kind → Problem) :
    Ends bound (refuse problem : Reader α) := by
  intro tokens _ hexhausted
  cases hexhausted

theorem ends_peek : Ends bound peek? := ends_of_accepts fun tokens => ⟨_, tokens, rfl⟩

theorem ends_accept (kind : Token.Kind) : Ends bound (accept kind) := by
  refine ends_of_accepts fun tokens => ?_
  cases tokens with
  | nil => exact ⟨false, [], rfl⟩
  | cons token rest =>
      rw [accept]
      split <;> exact ⟨_, _, rfl⟩

theorem ends_acceptMap (select : Token.Kind → Option α) : Ends bound (acceptMap select) := by
  refine ends_of_accepts fun tokens => ?_
  cases tokens with
  | nil => exact ⟨none, [], rfl⟩
  | cons token rest =>
      rw [acceptMap]
      split <;> exact ⟨_, _, rfl⟩

theorem ends_expect (kind : Token.Kind) : Ends bound (expect kind) := by
  intro tokens _
  cases tokens with
  | nil => simp [expect]
  | cons token rest =>
      rw [expect]
      split <;> simp

theorem ends_expectName : Ends bound expectName := by
  intro tokens _
  unfold expectName
  split <;> simp

/-- One reader after another ends if the first does and the next does on what it leaves. -/
theorem ends_bind_of {reader : Reader α} {next : α → Reader β} (hreader : Ends bound reader)
    (hnext : ∀ tokens value rest, 16 * tokens.length ≤ bound →
      reader tokens = .accepted value rest → next value rest ≠ .exhausted) :
    Ends bound (reader >>= next) := by
  intro tokens htokens
  change Reader.bind reader next tokens ≠ .exhausted
  unfold Reader.bind
  cases hread : reader tokens with
  | accepted value rest => exact hnext tokens value rest htokens hread
  | rejected problem rest => simp
  | exhausted => exact absurd hread (hreader tokens htokens)

theorem Ends.bind {reader : Reader α} {next : α → Reader β} (hreader : Ends bound reader)
    (htrims : Trims reader) (hnext : ∀ value, Ends bound (next value)) :
    Ends bound (reader >>= next) := by
  refine ends_bind_of hreader fun tokens value rest htokens hread => hnext value rest ?_
  have hlength := (htrims.of_accepted hread).length_le
  omega

/-- Behind a reader that has taken a token, the next one has sixteen steps more. -/
theorem Ends.bind_takes {reader : Reader α} {next : α → Reader β} (hreader : Ends bound reader)
    (htakes : Takes reader) (hnext : ∀ value less, less + 16 ≤ bound → Ends less (next value)) :
    Ends bound (reader >>= next) := by
  refine ends_bind_of hreader fun tokens value rest htokens hread => ?_
  have hlength := htakes hread
  exact hnext value (16 * rest.length) (by omega) rest (Nat.le_refl _)

theorem ends_expect_bind {kind : Token.Kind} {next : Position → Reader β}
    (hnext : ∀ position less, less + 16 ≤ bound → Ends less (next position)) :
    Ends bound (expect kind >>= next) :=
  (ends_expect kind).bind_takes (takes_expect kind) hnext

theorem ends_expectName_bind {next : String × Position → Reader β}
    (hnext : ∀ name less, less + 16 ≤ bound → Ends less (next name)) :
    Ends bound (expectName >>= next) :=
  ends_expectName.bind_takes takes_expectName hnext

theorem ends_accept_bind {kind : Token.Kind} {next : Bool → Reader β}
    (hfound : ∀ less, less + 16 ≤ bound → Ends less (next true))
    (hother : Ends bound (next false)) : Ends bound (accept kind >>= next) := by
  refine ends_bind_of (ends_accept kind) fun tokens found rest htokens hread => ?_
  rcases accept_cases hread with ⟨rfl, place, rfl⟩ | ⟨rfl, rfl, -⟩
  · rw [List.length_cons] at htokens
    exact hfound (16 * rest.length) (by omega) rest (Nat.le_refl _)
  · exact hother tokens htokens

theorem ends_acceptMap_bind {select : Token.Kind → Option α}
    {next : Option (α × Position) → Reader β}
    (hfound : ∀ value less, less + 16 ≤ bound → Ends less (next (some value)))
    (hother : Ends bound (next none)) : Ends bound (acceptMap select >>= next) := by
  refine ends_bind_of (ends_acceptMap select) fun tokens found rest htokens hread => ?_
  cases found with
  | some value =>
      obtain ⟨kind, rfl, -⟩ := acceptMap_eq_some.mp hread
      rw [List.length_cons] at htokens
      exact hfound value (16 * rest.length) (by omega) rest (Nat.le_refl _)
  | none =>
      obtain ⟨rfl, -⟩ := acceptMap_eq_none.mp hread
      exact hother tokens htokens

/-- A reader that goes on behind the first token. -/
theorem Ends.after_token {reader : Reader α} {token : Token} {rest : List Token}
    (hreader : ∀ less, less + 16 ≤ bound → Ends less reader)
    (htokens : 16 * (token :: rest).length ≤ bound) : reader rest ≠ .exhausted := by
  rw [List.length_cons] at htokens
  exact hreader (16 * rest.length) (by omega) rest (Nat.le_refl _)

end Reader

namespace Parser

open Reader

/-- A statement that is read has taken a token. -/
theorem takes_statement (steps : Nat) (inLoop : Bool) : Takes (statement steps inLoop) := by
  intro tokens rest value hread
  obtain ⟨taken, rfl, hwritten⟩ := sound steps (.statement inLoop value) hread
  have hlength := length_statement_pos hwritten
  rw [List.length_append]
  omega

theorem takes_returnClause (steps : Nat) : Takes (returnClause steps) := by
  intro tokens rest value hread
  obtain ⟨taken, rfl, hwritten⟩ := sound steps (.result value) hread
  have hlength : 0 < taken.length := by
    cases hwritten <;> simp
  rw [List.length_append]
  omega

/-- The steps that a reader needs beyond sixteen for each token. -/
@[simp] def Rule.allowance : {α : Type} → Rule α → Nat
  | _, .expression level => 11 - level.rank
  | _, .primary => 2
  | _, .expressionList | _, .field | _, .readFormat | _, .branchList _ => 12
  | _, .fieldList | _, .argumentList => 13
  | _, .statement _ => 2
  | _, .statementList _ => 3
  | _, .block _ => 4
  | _, _ => 1

theorem Rule.allowance_le {α : Type} (rule : Rule α) :
    0 < rule.allowance ∧ rule.allowance ≤ 13 := by
  cases rule with
  | expression level =>
      have hrank := level.rank_le
      simp only [allowance]
      omega
  | _ => simp [allowance]

/-- With so many steps every reader ends on tokens for which they are enough. -/
def EndWithin (steps : Nat) : Prop :=
  ∀ {α : Type} (rule : Rule α) (bound : Nat), bound + rule.allowance ≤ steps →
    Ends bound (rule.read steps)

namespace EndWithin

variable {steps bound less : Nat} (hends : EndWithin steps)

include hends

/-- Behind a token the steps are enough for any rule. -/
theorem after {α : Type} (rule : Rule α) (hless : less + 16 ≤ bound) (hbound : bound ≤ steps) :
    Ends less (rule.read steps) :=
  hends rule less (by have hallowance := rule.allowance_le; omega)

/-! ## Expressions -/

theorem expressionAt_succ (level : Level)
    (hbound : bound + (Rule.expression level).allowance ≤ steps + 1) :
    Ends bound (expressionAt (steps + 1) level) := by
  have hrank := level.rank_le
  have hsteps : bound ≤ steps := by
    simp only [Rule.allowance] at hbound
    omega
  -- the next tighter level needs a step less
  have hnext (hprimary : level ≠ .primary) : Ends bound (expressionAt steps level.next) := by
    refine hends (.expression level.next) bound ?_
    have hlower := Level.rank_next hprimary
    simp only [Rule.allowance] at hbound ⊢
    omega
  -- the continuation has taken nothing yet, so it needs the bound of the whole
  have hleft (hprimary : level ≠ .primary) : Ends bound (do
      let first ← expressionAt steps level.next
      chain steps level first) := by
    refine (hnext hprimary).bind (Rule.trims (.expression level.next)) fun first => ?_
    refine hends (.chain level first) bound ?_
    have hlower := level.next.rank_le
    rw [Level.rank_next hprimary] at hlower
    simp only [Rule.allowance] at hbound ⊢
    omega
  cases level with
  | primary => exact hends .primary bound (by simp only [Rule.allowance] at hbound ⊢; omega)
  | power =>
      rw [expressionAt]
      refine (hnext (by decide)).bind (Rule.trims (.expression .primary)) fun base => ?_
      refine ends_acceptMap_bind (fun operator less hless => ?_) (ends_pure _)
      refine (hends.after (.expression .unary) hless hsteps).bind (Rule.trims _) fun exponent => ?_
      exact ends_pure _
  | unary =>
      rw [expressionAt]
      refine ends_acceptMap_bind (fun operator less hless => ?_) (hnext (by decide))
      refine (hends.after (.expression .unary) hless hsteps).bind (Rule.trims _) fun operand => ?_
      exact ends_pure _
  | concatenation =>
      rw [expressionAt]
      refine (hnext (by decide)).bind (Rule.trims (.expression .additive)) fun left => ?_
      refine ends_acceptMap_bind (fun operator less hless => ?_) (ends_pure _)
      refine (hends.after (.expression .concatenation) hless hsteps).bind (Rule.trims _)
        fun right => ?_
      exact ends_pure _
  | disjunction | conjunction | comparison | additive | multiplicative => exact hleft (by decide)

theorem chain_succ (level : Level) (left : Expression)
    (hbound : bound + (Rule.chain level left).allowance ≤ steps + 1) :
    Ends bound (chain (steps + 1) level left) := by
  have hsteps : bound ≤ steps := by simpa [Rule.allowance] using hbound
  rw [chain]
  refine ends_acceptMap_bind (fun operator less hless => ?_) (ends_pure _)
  refine (hends.after (.expression level.next) hless hsteps).bind (Rule.trims _) fun right => ?_
  exact hends.after (.chain level (.binary operator.1 left right operator.2)) hless hsteps

theorem primary_succ (hbound : bound + (Rule.primary).allowance ≤ steps + 1) :
    Ends bound (primary (steps + 1)) := by
  have hsteps : bound + 1 ≤ steps := by
    simp only [Rule.allowance] at hbound
    omega
  -- behind a token there are sixteen steps to spare, more than any rule is allowed for nothing
  intro tokens htokens
  rw [primary]
  dsimp only
  split
  · simp
  · simp
  · simp
  · simp
  · simp
  · simp
  · refine Ends.after_token (fun less hless => ?_) htokens
    refine (hends.after (.expression .disjunction) hless (by omega)).bind (Rule.trims _) fun _ => ?_
    exact (ends_expect _).bind (trims_expect _) fun _ => ends_pure _
  · refine Ends.after_token (fun less hless => ?_) htokens
    refine (hends.after .fieldList hless (by omega)).bind (Rule.trims _) fun _ => ?_
    exact (ends_expect _).bind (trims_expect _) fun _ => ends_pure _
  -- a call reads its name again, with a step less
  · split
    · refine ((hends .invocation bound hsteps).bind (Rule.trims _) fun _ => ends_pure _) _ htokens
    · refine Ends.after_token (fun less hless => ?_) htokens
      exact (hends.after .indexPath hless (by omega)).bind (Rule.trims _) fun _ => ends_pure _
  · exact ends_refuse _ _ htokens

theorem indexPath_succ (hbound : bound + (Rule.indexPath).allowance ≤ steps + 1) :
    Ends bound (indexPath (steps + 1)) := by
  have hsteps : bound ≤ steps := by simpa [Rule.allowance] using hbound
  intro tokens htokens
  rw [indexPath]
  dsimp only
  split
  · refine Ends.after_token (fun less hless => ?_) htokens
    refine (ends_expectName).bind trims_expectName fun name => ?_
    exact (hends.after .indexPath hless hsteps).bind (Rule.trims _) fun _ => ends_pure _
  · refine Ends.after_token (fun less hless => ?_) htokens
    refine (hends.after (.expression .disjunction) hless hsteps).bind (Rule.trims _) fun _ => ?_
    refine (ends_expect _).bind (trims_expect _) fun _ => ?_
    exact (hends.after .indexPath hless hsteps).bind (Rule.trims _) fun _ => ends_pure _
  · simp

theorem expressionList_succ (hbound : bound + (Rule.expressionList).allowance ≤ steps + 1) :
    Ends bound (expressionList (steps + 1)) := by
  have hfirst : bound + 11 ≤ steps := by simpa [Rule.allowance] using hbound
  rw [expressionList]
  refine (hends (.expression .disjunction) bound hfirst).bind (Rule.trims _) fun first => ?_
  refine ends_accept_bind (fun less hless => ?_) (ends_pure _)
  exact (hends.after .expressionList hless (by omega)).bind (Rule.trims _) fun _ => ends_pure _

theorem fieldList_succ (hbound : bound + (Rule.fieldList).allowance ≤ steps + 1) :
    Ends bound (fieldList (steps + 1)) := by
  have hfirst : bound + 12 ≤ steps := by simpa [Rule.allowance] using hbound
  have hmore (first : Field) (less : Nat) (hless : less + 16 ≤ bound) : Ends less (do
      let others ← fieldList steps
      pure (first :: others)) :=
    (hends.after .fieldList hless (by omega)).bind (Rule.trims _) fun _ => ends_pure _
  rw [fieldList]
  refine ends_peek.bind trims_peek fun next => ?_
  split
  · exact ends_pure _
  · exact ends_pure _
  · refine (hends .field bound hfirst).bind (Rule.trims _) fun first => ?_
    refine ends_accept_bind (hmore first) ?_
    exact ends_accept_bind (hmore first) (ends_pure _)

theorem field_succ (hbound : bound + (Rule.field).allowance ≤ steps + 1) :
    Ends bound (field (steps + 1)) := by
  have hfirst : bound + 11 ≤ steps := by simpa [Rule.allowance] using hbound
  have hvalue (build : Expression → Field) : Ends bound (do
      let value ← expressionAt steps .disjunction
      pure (build value)) :=
    (hends (.expression .disjunction) bound hfirst).bind (Rule.trims _) fun _ => ends_pure _
  intro tokens htokens
  rw [field]
  dsimp only
  split
  · exact hvalue _ _ (by simp only [List.length_cons] at htokens; omega)
  · refine Ends.after_token (fun less hless => ?_) htokens
    refine (hends.after (.expression .disjunction) hless (by omega)).bind (Rule.trims _) fun _ => ?_
    refine (ends_expect _).bind (trims_expect _) fun _ => ?_
    refine (ends_expect _).bind (trims_expect _) fun _ => ?_
    exact (hvalue _).mono (by omega)
  · exact hvalue _ _ htokens

theorem invocation_succ (hbound : bound + (Rule.invocation).allowance ≤ steps + 1) :
    Ends bound (invocation (steps + 1)) := by
  have hsteps : bound ≤ steps := by simpa [Rule.allowance] using hbound
  intro tokens htokens
  rw [invocation]
  dsimp only
  split
  · next name position opening rest =>
      simp only [List.length_cons] at htokens
      have hvalues := hends.after .argumentList (show 16 * rest.length + 16 ≤ bound by omega) hsteps
      refine (hvalues.bind (Rule.trims _) fun values => ?_) rest (Nat.le_refl _)
      split
      · exact ends_pure _
      · exact ends_pure _
  · split
    · -- four tokens were taken at once, and the steps count for the last of them
      next rest hafter =>
        obtain ⟨_, _, _, _, hlist⟩ := afterReadCall?_eq_some.mp hafter
        rw [hlist] at htokens
        simp only [List.length_cons] at htokens
        have hformat := hends.after .readFormat (show 16 * rest.length + 16 ≤ bound by omega) hsteps
        exact (hformat.bind (Rule.trims _) fun _ => ends_pure _) rest (Nat.le_refl _)
    · exact ends_refuse _ _ htokens
  · exact ends_refuse _ _ htokens

theorem argumentList_succ (hbound : bound + (Rule.argumentList).allowance ≤ steps + 1) :
    Ends bound (argumentList (steps + 1)) := by
  have hfirst : bound + 12 ≤ steps := by simpa [Rule.allowance] using hbound
  rw [argumentList]
  refine ends_accept_bind (fun less _ => ends_pure _) ?_
  refine (hends .expressionList bound hfirst).bind (Rule.trims _) fun _ => ?_
  exact (ends_expect _).bind (trims_expect _) fun _ => ends_pure _

theorem readFormat_succ (hbound : bound + (Rule.readFormat).allowance ≤ steps + 1) :
    Ends bound (readFormat (steps + 1)) := by
  have hfirst : bound + 11 ≤ steps := by simpa [Rule.allowance] using hbound
  rw [readFormat]
  refine ends_accept_bind (fun less _ => ends_pure _) ?_
  refine (hends (.expression .disjunction) bound hfirst).bind (Rule.trims _) fun _ => ?_
  exact (ends_expect _).bind (trims_expect _) fun _ => ends_pure _

/-! ## Statements -/

theorem parameterList_succ (hbound : bound + (Rule.parameterList).allowance ≤ steps + 1) :
    Ends bound (parameterList (steps + 1)) := by
  have hsteps : bound ≤ steps := by simpa [Rule.allowance] using hbound
  rw [parameterList]
  refine ends_peek.bind trims_peek fun next => ?_
  split
  · exact ends_pure _
  · exact ends_pure _
  · refine ends_expectName.bind trims_expectName fun first => ?_
    refine ends_accept_bind (fun less hless => ?_) (ends_pure _)
    exact (hends.after .parameterList hless hsteps).bind (Rule.trims _) fun _ => ends_pure _

theorem block_succ (inLoop : Bool) (hbound : bound + (Rule.block inLoop).allowance ≤ steps + 1) :
    Ends bound (block (steps + 1) inLoop) := by
  have hfirst : bound + 3 ≤ steps := by simpa [Rule.allowance] using hbound
  rw [block]
  refine (hends (.statementList inLoop) bound hfirst).bind (Rule.trims _) fun statements => ?_
  refine ends_peek.bind trims_peek fun next => ?_
  split
  · have hresult := hends .returnClause bound (show bound + 1 ≤ steps by omega)
    exact hresult.bind (Rule.trims _) fun _ => ends_pure _
  · exact ends_pure _

theorem statementList_succ (inLoop : Bool)
    (hbound : bound + (Rule.statementList inLoop).allowance ≤ steps + 1) :
    Ends bound (statementList (steps + 1) inLoop) := by
  have hfirst : bound + 2 ≤ steps := by simpa [Rule.allowance] using hbound
  rw [statementList]
  refine ends_peek.bind trims_peek fun next => ?_
  split
  · exact ends_pure _
  · refine (hends (.statement inLoop) bound hfirst).bind_takes (takes_statement steps inLoop) ?_
    intro first less hless
    exact (hends.after (.statementList inLoop) hless (by omega)).bind (Rule.trims _)
      fun _ => ends_pure _

theorem branchList_succ (inLoop : Bool)
    (hbound : bound + (Rule.branchList inLoop).allowance ≤ steps + 1) :
    Ends bound (branchList (steps + 1) inLoop) := by
  have hfirst : bound + 11 ≤ steps := by simpa [Rule.allowance] using hbound
  rw [branchList]
  refine (hends (.expression .disjunction) bound hfirst).bind (Rule.trims _) fun condition => ?_
  refine ends_expect_bind fun _ less hless => ?_
  refine (hends.after (.block inLoop) hless (by omega)).bind (Rule.trims _) fun body => ?_
  refine ends_accept_bind (fun fewer hfewer => ?_) (ends_accept_bind (fun fewer hfewer => ?_) ?_)
  · exact (hends.after (.branchList inLoop) hfewer (by omega)).bind (Rule.trims _)
      fun _ => ends_pure _
  · exact (hends.after (.block inLoop) hfewer (by omega)).bind (Rule.trims _) fun _ => ends_pure _
  · exact ends_pure _

theorem statement_succ (inLoop : Bool)
    (hbound : bound + (Rule.statement inLoop).allowance ≤ steps + 1) :
    Ends bound (statement (steps + 1) inLoop) := by
  have hsteps : bound + 1 ≤ steps := by
    simp only [Rule.allowance] at hbound
    omega
  -- all parts come behind the first token, so the steps are enough for any of them
  have hexpression {less : Nat} (hless : less + 16 ≤ bound) :
      Ends less (expressionAt steps .disjunction) :=
    hends.after (.expression .disjunction) hless (by omega)
  have hclosed {less : Nat} (hless : less + 16 ≤ bound) (body : Bool) (build : Block → Statement) :
      Ends less (do
        let body ← block steps body
        let _ ← expect (.keyword .end_)
        pure (build body)) := by
    refine (hends.after (.block body) hless (by omega)).bind (Rule.trims _) fun _ => ?_
    exact (ends_expect _).bind (trims_expect _) fun _ => ends_pure _
  intro tokens htokens
  rw [statement]
  dsimp only
  split
  · simp
  · split <;> simp
  · next position rest =>
      refine Ends.after_token (fun less hless => ?_) htokens
      exact hends.after (.declaration position) hless (by omega)
  · refine Ends.after_token (fun less hless => ?_) htokens
    refine (hends.after (.branchList inLoop) hless (by omega)).bind (Rule.trims _) fun _ => ?_
    exact (ends_expect _).bind (trims_expect _) fun _ => ends_pure _
  · refine Ends.after_token (fun less hless => ?_) htokens
    refine ends_expectName.bind trims_expectName fun name => ?_
    refine (ends_expect _).bind (trims_expect _) fun _ => ?_
    refine (hends.after .parameterList hless (by omega)).bind (Rule.trims _) fun _ => ?_
    exact (ends_expect _).bind (trims_expect _) fun _ => hclosed hless false _
  · refine Ends.after_token (fun less hless => ?_) htokens
    refine (hexpression hless).bind (Rule.trims (.expression .disjunction)) fun condition => ?_
    exact (ends_expect _).bind (trims_expect _) fun _ => hclosed hless true _
  · refine Ends.after_token (fun less hless => ?_) htokens
    refine (hends.after (.block true) hless (by omega)).bind (Rule.trims _) fun body => ?_
    refine (ends_expect _).bind (trims_expect _) fun _ => ?_
    exact (hexpression hless).bind (Rule.trims (.expression .disjunction)) fun _ => ends_pure _
  · refine Ends.after_token (fun less hless => ?_) htokens
    refine ends_expectName.bind trims_expectName fun name => ?_
    refine (ends_expect _).bind (trims_expect _) fun _ => ?_
    refine (hexpression hless).bind (Rule.trims (.expression .disjunction)) fun start => ?_
    refine (ends_expect _).bind (trims_expect _) fun _ => ?_
    refine (hexpression hless).bind (Rule.trims (.expression .disjunction)) fun limit => ?_
    refine (hends.after .forStep hless (by omega)).bind (Rule.trims _) fun step => ?_
    exact (ends_expect _).bind (trims_expect _) fun _ => hclosed hless true _
  · refine Ends.after_token (fun less hless => ?_) htokens
    exact hclosed hless inLoop _
  -- a call reads its name again, with a step less
  · split
    · exact ((hends .invocation bound hsteps).bind (Rule.trims _) fun _ => ends_pure _) _ htokens
    · refine Ends.after_token (fun less hless => ?_) htokens
      refine (hends.after .indexPath hless (by omega)).bind (Rule.trims _) fun path => ?_
      refine (ends_expect _).bind (trims_expect _) fun _ => ?_
      exact (hexpression hless).bind (Rule.trims (.expression .disjunction)) fun _ => ends_pure _
  · exact ends_refuse _ _ htokens

end EndWithin

/-! ### Readers that spend no step of their own -/

section

variable {steps bound : Nat}

theorem returnClause_ends
    (hlist : ∀ less, less + (Rule.expressionList).allowance ≤ steps →
      Ends less (expressionList steps))
    (hbound : bound ≤ steps) : Ends bound (returnClause steps) := by
  unfold returnClause
  refine ends_expect_bind fun position less hless => ?_
  have hlist : Ends less (expressionList steps) := hlist less (by simp only [Rule.allowance]; omega)
  refine ends_peek.bind trims_peek fun next => ?_
  have hend (values : List Expression) : Ends less (do
      let _ ← accept (.symbol .semicolon)
      pure (⟨values, position⟩ : Return)) :=
    (ends_accept _).bind (trims_accept _) fun _ => ends_pure _
  split
  · exact (ends_pure _).bind (trims_pure _) hend
  · exact hlist.bind (Rule.trims .expressionList) hend

theorem declaration_ends (position : Position)
    (hexpression : ∀ less, less + (Rule.expression .disjunction).allowance ≤ steps →
      Ends less (expressionAt steps .disjunction))
    (hbound : bound ≤ steps) : Ends bound (declaration steps position) := by
  unfold declaration
  refine ends_expectName_bind fun name less hless => ?_
  have hvalue : Ends less (expressionAt steps .disjunction) :=
    hexpression less (by simp only [Rule.allowance]; omega)
  refine ends_peek.bind trims_peek fun next => ?_
  split
  · exact ends_refuse _
  · refine (ends_expect _).bind (trims_expect _) fun _ => ?_
    exact hvalue.bind (Rule.trims (.expression .disjunction)) fun _ => ends_pure _

theorem forStep_ends
    (hexpression : ∀ less, less + (Rule.expression .disjunction).allowance ≤ steps →
      Ends less (expressionAt steps .disjunction))
    (hbound : bound ≤ steps) : Ends bound (forStep steps) := by
  unfold forStep
  refine ends_accept_bind (fun less hless => ?_) (ends_pure _)
  have hstep : Ends less (expressionAt steps .disjunction) :=
    hexpression less (by simp only [Rule.allowance]; omega)
  exact hstep.bind (Rule.trims (.expression .disjunction)) fun _ => ends_pure _

end

/-! ### All rules -/

theorem endWithin : ∀ steps : Nat, EndWithin steps := by
  intro steps
  induction steps with
  -- every rule is allowed a step at least, so without steps there is nothing to show
  | zero =>
      intro α rule bound hbound
      have hallowance := rule.allowance_le
      omega
  | succ steps hends =>
      intro α rule bound hbound
      cases rule with
      | expression level => exact hends.expressionAt_succ level hbound
      | chain level left => exact hends.chain_succ level left hbound
      | primary => exact hends.primary_succ hbound
      | indexPath => exact hends.indexPath_succ hbound
      | expressionList => exact hends.expressionList_succ hbound
      | fieldList => exact hends.fieldList_succ hbound
      | field => exact hends.field_succ hbound
      | invocation => exact hends.invocation_succ hbound
      | argumentList => exact hends.argumentList_succ hbound
      | readFormat => exact hends.readFormat_succ hbound
      | parameterList => exact hends.parameterList_succ hbound
      | returnClause =>
          exact returnClause_ends (fun _ => hends.expressionList_succ) (by omega)
      | declaration position =>
          exact declaration_ends position (fun _ => hends.expressionAt_succ .disjunction) (by omega)
      | forStep => exact forStep_ends (fun _ => hends.expressionAt_succ .disjunction) (by omega)
      | block inLoop => exact hends.block_succ inLoop hbound
      | statementList inLoop => exact hends.statementList_succ inLoop hbound
      | statement inLoop => exact hends.statement_succ inLoop hbound
      | branchList inLoop => exact hends.branchList_succ inLoop hbound

/-- **As many steps as are allowed for tokens are enough for every rule.** -/
theorem Rule.ends {α : Type} (rule : Rule α) {steps : Nat} {tokens : List Token}
    (hsteps : stepsFor tokens ≤ steps) : rule.read steps tokens ≠ .exhausted := by
  have hallowance := rule.allowance_le
  unfold stepsFor at hsteps
  exact endWithin steps rule (16 * tokens.length) (by omega) tokens (Nat.le_refl _)

end Parser

end TableScript
