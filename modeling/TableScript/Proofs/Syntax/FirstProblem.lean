import TableScript.Proofs.Layout
import TableScript.Proofs.Lexis.Order
import TableScript.Proofs.Syntax.Completeness.Programs
import TableScript.Proofs.Syntax.Completion.Rules
import TableScript.Proofs.Syntax.Progress

/-!
# The first problem is at the first impossible token

A text that is no program is reported at the first token that cannot stand where it stands: what
comes before that token is the beginning of a program, and no program begins with the same tokens up
to and including it (`parse_reports_first_impossible`).

## Strategy

`Parser.BreaksAt taken rest` says this of tokens that are split where the problem lies.  The program
is read in rounds, and so there are two things to show.

* **The round with the problem.**  The reader of a statement or of a `return` has refused the first
  token of `rest`.  The tokens that it took can be completed (`Completing`), and since it decides by
  these and the next one (`Reader.Decides`), it refuses that token whatever comes behind it.
* **The rounds before.**  Each of them has read a statement, and would have read the same one in any
  list that goes on alike; so a split can be moved back over it (`BreaksAt.behind`).

What is said of tokens then becomes a statement about their kinds, because no reader looks at places
(`parse_alike`), and about the reported place, because no two tokens have the same one
(`Tokens.Ordered.placeAt_lt`).
-/

namespace TableScript

namespace Parser

open Reader TableScript.Parsed

/-- Tokens are split where they go wrong: those taken are the beginning of a program, and no list
that goes on behind them with the first of the tokens left is read without a problem. -/
structure BreaksAt (taken rest : List Token) : Prop where
  possible : ∃ chunk more, Written (.block false chunk) (taken ++ more)
  impossible : ∀ (steps rounds : Nat) (other : List Token), rest.head? = other.head? →
    (taken ++ other).length ≤ rounds → (readProgram steps rounds (taken ++ other)).problems ≠ []

section Rounds

variable {steps rounds : Nat} {tokens taken rest : List Token}

/-! ## One round -/

theorem length_pos_of_firstKind? {kind : Token.Kind} (hfirst : firstKind? tokens = some kind) :
    0 < tokens.length := by
  cases tokens with
  | nil => cases hfirst
  | cons token others => exact Nat.succ_pos _

/-- A `return` that is not read up to the end of the tokens is a problem. -/
theorem problems_of_return (hnext : firstKind? tokens = some (.keyword .return_))
    (hrounds : tokens.length ≤ rounds)
    (hread : ∀ result, returnClause steps tokens ≠ .accepted result []) :
    (readProgram steps rounds tokens).problems ≠ [] := by
  have hpos := length_pos_of_firstKind? hnext
  obtain ⟨rounds, rfl⟩ : ∃ fewer, rounds = fewer + 1 := ⟨rounds - 1, by omega⟩
  rw [readProgram, if_pos hnext]
  · cases hclause : returnClause steps tokens with
    | accepted result rest =>
        cases rest with
        | nil => exact absurd hclause (hread result)
        | cons token others => exact List.cons_ne_nil _ _
    | rejected problem rest => exact List.cons_ne_nil _ _
    | exhausted => exact List.cons_ne_nil _ _
  · exact List.length_pos_iff.mp hpos

/-- Tokens that begin with no statement, or have a problem behind one, have a problem. -/
theorem problems_of_statement (hsome : tokens ≠ [])
    (hnext : firstKind? tokens ≠ some (.keyword .return_)) (hrounds : tokens.length ≤ rounds)
    (hread : ∀ first rest, statement steps false tokens = .accepted first rest →
      ∀ fewer, rest.length ≤ fewer → (readProgram steps fewer rest).problems ≠ []) :
    (readProgram steps rounds tokens).problems ≠ [] := by
  have hpos := List.length_pos_iff.mpr hsome
  obtain ⟨rounds, rfl⟩ : ∃ fewer, rounds = fewer + 1 := ⟨rounds - 1, by omega⟩
  rw [readProgram, if_neg hnext]
  · cases hstatement : statement steps false tokens with
    | accepted first rest =>
        have hless := takes_statement steps false hstatement
        exact hread first rest hstatement rounds (by omega)
    | rejected problem rest => exact List.cons_ne_nil _ _
    | exhausted => exact List.cons_ne_nil _ _
  · exact hsome

/-- A list that goes on alike is accepted only if the first one is, and with the same result. -/
theorem Rule.accepted_alike {α : Type} (rule : Rule α) (hrule : rule.isInvocation = false)
    {steps' : Nat} {other after : List Token} {value : α} (hhead : rest.head? = other.head?)
    (hrest : (rule.read steps (taken ++ rest)).rest? = some rest)
    (hother : rule.read steps' (taken ++ other) = .accepted value after) :
    rule.read steps (taken ++ rest) = .accepted value rest ∧ after = other := by
  have hcarried := (rule.decides hrule steps steps').carried taken rest other hhead hrest
  rw [hother] at hcarried
  cases hread : rule.read steps (taken ++ rest) with
  | accepted first left =>
      rw [hread] at hcarried
      cases hcarried
      exact ⟨rfl, rfl⟩
  | rejected problem left | exhausted =>
      rw [hread] at hcarried
      cases hcarried

/-- A problem of a `return`: something behind it, or a token in it that is refused. -/
theorem breaksAt_of_return {chunk : Block} {more : List Token}
    (hnext : firstKind? (taken ++ rest) = some (.keyword .return_))
    (hrest : (returnClause steps (taken ++ rest)).rest? = some rest)
    (hbreaks : ∀ result, returnClause steps (taken ++ rest) ≠ .accepted result [])
    (hpossible : Written (.block false chunk) (taken ++ more)) : BreaksAt taken rest where
  possible := ⟨chunk, more, hpossible⟩
  impossible steps' rounds other hhead hrounds := by
    refine problems_of_return ?_ hrounds fun result hread' => ?_
    · rw [firstKind?, ← head?_append hhead]
      exact hnext
    · obtain ⟨hread, hnone⟩ := Rule.returnClause.accepted_alike rfl hhead hrest hread'
      subst hnone
      obtain rfl : rest = [] := List.head?_eq_none_iff.mp hhead
      exact hbreaks result hread

theorem written_block_return {result : Return} {tokens : List Token}
    (hresult : Written (.result result) tokens) :
    Written (.block false (.mk [] (some result))) tokens := by
  rw [← List.nil_append tokens]
  exact .block_result .statements_end hresult

theorem breaksAt_of_return_accepted {result : Return}
    (hnext : firstKind? (taken ++ rest) = some (.keyword .return_)) (hsome : rest ≠ [])
    (hread : returnClause steps (taken ++ rest) = .accepted result rest) : BreaksAt taken rest := by
  obtain ⟨clause, htaken, hclause⟩ := Rule.returnClause.writes_of_accepted hread
  obtain rfl : taken = clause := List.append_cancel_right htaken
  refine breaksAt_of_return hnext (by rw [hread]; rfl) (fun result' hread' => ?_)
    (by rw [List.append_nil]; exact written_block_return hclause)
  rw [hread] at hread'
  cases hread'
  exact hsome rfl

theorem breaksAt_of_return_rejected {problem : Problem}
    (hnext : firstKind? (taken ++ rest) = some (.keyword .return_))
    (hread : returnClause steps (taken ++ rest) = .rejected problem rest) :
    BreaksAt taken rest := by
  obtain ⟨result, more, hresult⟩ := (completing steps Rule.returnClause).rejected hread
  refine breaksAt_of_return hnext (by rw [hread]; rfl) (fun result' hread' => ?_)
    (written_block_return hresult)
  rw [hread] at hread'
  cases hread'

/-- A statement that is refused. -/
theorem breaksAt_of_statement_rejected {problem : Problem} (hsome : taken ++ rest ≠ [])
    (hnext : firstKind? (taken ++ rest) ≠ some (.keyword .return_))
    (hread : statement steps false (taken ++ rest) = .rejected problem rest) :
    BreaksAt taken rest where
  possible := by
    obtain ⟨first, more, hfirst⟩ := (completing steps (Rule.statement false)).rejected hread
    have hstatements := hfirst.statements_more .statements_end
    rw [List.append_nil] at hstatements
    exact ⟨.mk [first] none, more, .block_open hstatements⟩
  impossible steps' rounds other hhead hrounds := by
    refine problems_of_statement ?_ ?_ hrounds fun first after hread' => ?_
    · rw [Ne, ← List.head?_eq_none_iff, ← head?_append hhead, List.head?_eq_none_iff]
      exact hsome
    · rw [firstKind?, ← head?_append hhead]
      exact hnext
    · have hrest : (statement steps false (taken ++ rest)).rest? = some rest := by
        rw [hread]
        rfl
      -- the refusal is decided by the tokens taken and the next one, which the other list has too
      obtain ⟨haccepted, -⟩ := (Rule.statement false).accepted_alike rfl hhead hrest hread'
      change statement steps false (taken ++ rest) = _ at haccepted
      rw [hread] at haccepted
      cases haccepted

/-- Tokens that go wrong go wrong at the same place behind a statement. -/
theorem BreaksAt.behind {before : List Token} {first : Statement} (hbreaks : BreaksAt taken rest)
    (hnext : firstKind? (before ++ (taken ++ rest)) ≠ some (.keyword .return_))
    (hread : statement steps false (before ++ (taken ++ rest)) = .accepted first (taken ++ rest)) :
    BreaksAt (before ++ taken) rest := by
  -- a statement takes a token, so there is something in front
  have hless := takes_statement steps false hread
  have hsome : before ≠ [] := by
    rintro rfl
    exact Nat.lt_irrefl _ hless
  obtain ⟨written, hbefore, hfirst⟩ := (Rule.statement false).writes_of_accepted hread
  obtain rfl : before = written := List.append_cancel_right hbefore
  obtain ⟨⟨others, result⟩, more, hothers⟩ := hbreaks.possible
  constructor
  · refine ⟨.mk (first :: others) result, more, ?_⟩
    rw [List.append_assoc]
    exact written_block_cons hfirst hothers
  · intro steps' rounds other hhead hrounds
    have hheads := head?_append hhead taken
    rw [List.append_assoc] at hrounds ⊢
    refine problems_of_statement (by simp [hsome]) ?_ hrounds fun first' after hread' => ?_
    · rw [firstKind?, ← head?_append hheads]
      exact hnext
    · -- the same statement is read, and the rest goes wrong as before
      have hrest : (statement steps false (before ++ (taken ++ rest))).rest? =
          some (taken ++ rest) := by
        rw [hread]
        rfl
      obtain ⟨-, rfl⟩ := (Rule.statement false).accepted_alike rfl hheads hrest hread'
      exact fun fewer hfewer => hbreaks.impossible steps' fewer other hhead hfewer

/-! ## All rounds -/

/-- **The first problem that is found lies where the tokens go wrong.** -/
theorem breaksAt_of_problems {problem : Problem} {others : List (Problem × List Token)}
    (hsteps : stepsFor tokens ≤ steps)
    (hproblems : (readProgram steps rounds tokens).problems = (problem, rest) :: others) :
    ∃ taken, tokens = taken ++ rest ∧ BreaksAt taken rest := by
  induction rounds generalizing tokens with
  | zero => cases hproblems
  | succ rounds ih =>
      -- a round reads a `return` or a statement; it goes wrong itself, or a later one does
      by_cases hempty : tokens = []
      · subst hempty
        cases hproblems
      · rw [readProgram] at hproblems
        · by_cases hnext : firstKind? tokens = some (.keyword .return_)
          · rw [if_pos hnext] at hproblems
            cases hread : returnClause steps tokens with
            | accepted result left =>
                rw [hread] at hproblems
                cases left with
                | nil => cases hproblems
                -- the `return` was read, but a program must end behind it
                | cons token after =>
                    cases hproblems
                    obtain ⟨taken, rfl⟩ := (returnClause_trims steps).of_accepted hread
                    exact ⟨taken, rfl,
                      breaksAt_of_return_accepted hnext (List.cons_ne_nil _ _) hread⟩
            | rejected cause left =>
                rw [hread] at hproblems
                cases hproblems
                obtain ⟨taken, rfl⟩ := (returnClause_trims steps).of_rejected hread
                exact ⟨taken, rfl, breaksAt_of_return_rejected hnext hread⟩
            -- the steps are enough, so no reader is exhausted
            | exhausted => exact absurd hread (Rule.returnClause.ends hsteps)
          · rw [if_neg hnext] at hproblems
            cases hread : statement steps false tokens with
            | accepted first left =>
                rw [hread] at hproblems
                have hleft := ((statementsTrim steps).statement false).of_accepted hread
                have hfewer := Nat.le_trans (stepsFor_mono hleft) hsteps
                obtain ⟨taken, rfl, hbreaks⟩ := ih hfewer hproblems
                obtain ⟨before, rfl⟩ := hleft
                exact ⟨before ++ taken, (List.append_assoc _ _ _).symm, hbreaks.behind hnext hread⟩
            | rejected cause left =>
                rw [hread] at hproblems
                cases hproblems
                obtain ⟨taken, rfl⟩ := ((statementsTrim steps).statement false).of_rejected hread
                exact ⟨taken, rfl, breaksAt_of_statement_rejected hempty hnext hread⟩
            | exhausted => exact absurd hread ((Rule.statement false).ends hsteps)
        · exact hempty

end Rounds

end Parser

/-! ## Programs -/

namespace Tokens

theorem placeAt_eq_placeOf (tokens : Tokens) (index : Nat) :
    tokens.placeAt index = Parser.placeOf tokens.finish (tokens.list.drop index) := by
  unfold placeAt Parser.placeOf
  rw [List.head?_drop]

theorem Ordered.placeAt_lt {tokens : Tokens} (hordered : tokens.Ordered) {index later : Nat}
    (hless : index < later) (hlater : later ≤ tokens.list.length) :
    tokens.placeAt index < tokens.placeAt later := by
  rw [placeAt_eq_placeOf, placeAt_eq_placeOf]
  refine hordered.placeOf_lt (List.drop_suffix _ _) ?_ ?_
  · rw [Ne, List.drop_eq_nil_iff]
    omega
  · rw [List.tail_drop]
    exact List.drop_suffix_drop_left _ hless

/-- A place is that of one token only. -/
theorem Ordered.placeAt_inj {tokens : Tokens} (hordered : tokens.Ordered) {index other : Nat}
    (hindex : index ≤ tokens.list.length) (hother : other ≤ tokens.list.length) :
    tokens.placeAt other = tokens.placeAt index ↔ other = index := by
  constructor
  · intro hplace
    rcases Nat.lt_trichotomy other index with hless | hequal | hless
    · exact absurd hplace (hordered.placeAt_lt hless hindex).ne
    · exact hequal
    · exact absurd hplace (hordered.placeAt_lt hless hother).ne'
  · rintro rfl
    rfl

end Tokens

/-- Tokens that begin with the kinds of other ones, up to and including the first behind `taken`,
are of the kinds of a list that goes on behind `taken` with that very token. -/
theorem exists_kindsOf_append {taken rest sharing : List Token}
    (hsharing : ∀ number ≤ taken.length,
      sharing[number]?.map Token.kind = (taken ++ rest)[number]?.map Token.kind) :
    ∃ other, rest.head? = other.head? ∧ kindsOf sharing = kindsOf (taken ++ other) := by
  induction taken generalizing sharing with
  | nil =>
      have hfirst := hsharing 0 (Nat.le_refl 0)
      cases rest with
      | nil =>
          -- the end of the tokens is shared as well
          obtain rfl : sharing = [] := by simpa using hfirst
          exact ⟨[], rfl, rfl⟩
      | cons token after =>
          cases sharing with
          | nil => simp at hfirst
          | cons first more =>
              have hkind : first.kind = token.kind := by simpa using hfirst
              exact ⟨token :: more, rfl, by simp [kindsOf, hkind]⟩
  | cons token taken ih =>
      have hfirst := hsharing 0 (Nat.zero_le _)
      cases sharing with
      | nil => simp at hfirst
      | cons first more =>
          have hkind : first.kind = token.kind := by simpa using hfirst
          have hmore : ∀ number ≤ taken.length,
              more[number]?.map Token.kind = (taken ++ rest)[number]?.map Token.kind := by
            intro number hnumber
            simpa using hsharing (number + 1) (Nat.succ_le_succ hnumber)
          obtain ⟨other, hhead, hkinds⟩ := ih hmore
          refine ⟨other, hhead, ?_⟩
          rw [List.cons_append, kindsOf, List.map_cons, hkind]
          exact congrArg (token.kind :: ·) hkinds

/-- **The first problem is at the first impossible token.**  Where the tokens of a text are no
program, the first error has the place of one token, or of the end of the text, and of no other.
There is a program that has the same tokens before that one.  No list of tokens is a program that
has tokens of the same kinds up to and including that one; the end of a text counts as a token of
its own, after the last. -/
theorem parse_reports_first_impossible {source : String} {tokens : Tokens}
    {diagnostics : List Diagnostic} (htokens : tokenize source = .ok tokens)
    (hparse : parse tokens = .error diagnostics) :
    ∃ first others index, diagnostics = first :: others ∧ index ≤ tokens.list.length ∧
      (∀ number ≤ tokens.list.length, tokens.placeAt number = first.position ↔ number = index) ∧
      (∃ sharing chunk, (∀ number < index, sharing.list[number]? = tokens.list[number]?) ∧
        parse sharing = .ok chunk) ∧
      ∀ sharing : Tokens,
        (∀ number ≤ index,
          sharing.list[number]?.map Token.kind = tokens.list[number]?.map Token.kind) →
        ∀ chunk, parse sharing ≠ .ok chunk := by
  obtain ⟨problems, hproblems, hsome, rfl⟩ := parse_eq_error hparse
  obtain ⟨⟨cause, rest⟩, others, rfl⟩ := List.exists_cons_of_ne_nil hsome
  obtain ⟨taken, hsplit, hbreaks⟩ := Parser.breaksAt_of_problems (Nat.le_refl _) hproblems
  have hrest : tokens.list.drop taken.length = rest := by
    rw [hsplit, List.drop_left]
  have hindex : taken.length ≤ tokens.list.length := by
    rw [hsplit, List.length_append]
    exact Nat.le_add_right _ _
  -- the place of the first problem is that of the token behind those taken
  have hplace : tokens.placeAt taken.length = Parser.placeOf tokens.finish rest := by
    rw [Tokens.placeAt_eq_placeOf, hrest]
  refine ⟨_, _, taken.length, List.map_cons, hindex, ?_, ?_, ?_⟩
  · intro number hnumber
    change tokens.placeAt number = Parser.placeOf tokens.finish rest ↔ _
    rw [← hplace]
    exact (Tokens.ordered_of_tokenize htokens).placeAt_inj hindex hnumber
  · obtain ⟨chunk, more, hwritten⟩ := hbreaks.possible
    refine ⟨⟨taken ++ more, .start⟩, chunk, fun number hnumber => ?_, parse_eq_ok_iff.mpr hwritten⟩
    rw [hsplit, List.getElem?_append_left hnumber, List.getElem?_append_left hnumber]
  · intro sharing hsharing chunk haccepted
    rw [hsplit] at hsharing
    obtain ⟨other, hhead, hkinds⟩ := exists_kindsOf_append hsharing
    -- no reader looks at places, so the very tokens taken can stand for those of the same kinds
    obtain ⟨⟨statements, result⟩, hother, -⟩ :=
      parse_alike (show kindsOf sharing.list = kindsOf (Tokens.mk (taken ++ other) .start).list from
        hkinds) haccepted
    have hclean := (parse_eq_ok_iff.mp hother).readProgram_eq
      (Nat.le_refl _) (Nat.le_refl (taken ++ other).length)
    exact hbreaks.impossible _ _ other hhead (Nat.le_refl _)
      (congrArg Parser.Reading.problems hclean)

/-- The tokens of `f(1, 2 3)`. -/
def missingComma : Tokens where
  list := [⟨.name "f", ⟨1, 1⟩⟩, ⟨.symbol .openParen, ⟨1, 2⟩⟩, ⟨.integer "1", ⟨1, 3⟩⟩,
    ⟨.symbol .comma, ⟨1, 4⟩⟩, ⟨.integer "2", ⟨1, 6⟩⟩, ⟨.integer "3", ⟨1, 8⟩⟩,
    ⟨.symbol .closeParen, ⟨1, 9⟩⟩]
  finish := ⟨1, 10⟩

/-- The second of two numbers without a comma between them is reported.  There is a program that
goes on otherwise behind the first number, and none that has a number there again. -/
theorem parse_reports_first_impossible_missingComma :
    (∃ sharing chunk, (∀ number < 5, sharing.list[number]? = missingComma.list[number]?) ∧
      parse sharing = .ok chunk) ∧
    ∀ sharing : Tokens,
      (∀ number ≤ 5,
        sharing.list[number]?.map Token.kind = missingComma.list[number]?.map Token.kind) →
      ∀ chunk, parse sharing ≠ .ok chunk := by
  have htokens : tokenize "f(1, 2 3)" = .ok missingComma := by cbv
  have hparse : parse missingComma = .error [⟨.missingToken (.symbol .closeParen)
      (some (.integer "3")), ⟨1, 8⟩⟩] := by cbv
  obtain ⟨first, others, index, hfirst, -, hindex, hpossible, himpossible⟩ :=
    parse_reports_first_impossible htokens hparse
  cases hfirst
  obtain rfl : 5 = index := (hindex 5 (by decide)).mp rfl
  exact ⟨hpossible, himpossible⟩

end TableScript
