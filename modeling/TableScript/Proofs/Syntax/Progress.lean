import TableScript.Proofs.Syntax.Decisions.Rules
import TableScript.Proofs.Syntax.LoopDepth

/-!
# Reading comes to an end

Whatever the tokens are, reading them ends, and it moves from their beginning to their end.  The
steps and the rounds that `parse` allows are enough, and with more of them the same is read
(`readProgram_eq`).  So a problem that is reported is one of the text, and never that reading was
broken off.
-/

namespace TableScript.Parser

open Reader

theorem stepsFor_mono {tokens rest : List Token} (hrest : rest <:+ tokens) :
    stepsFor rest ≤ stepsFor tokens := by
  have hlength := hrest.length_le
  unfold stepsFor
  omega

/-- With steps enough a reader makes of tokens what it makes of them with any other number of steps
that is enough. -/
theorem Rule.read_enough {α : Type} (rule : Rule α) {steps steps' : Nat} {tokens : List Token}
    (hsteps : stepsFor tokens ≤ steps) (hsteps' : stepsFor tokens ≤ steps') :
    rule.read steps tokens = rule.read steps' tokens :=
  rule.read_eq (rule.ends hsteps') (rule.ends hsteps)

/-- **As many steps and rounds as are allowed are enough**: with others that are enough too, the
same is read. -/
theorem readProgram_eq {steps steps' rounds rounds' : Nat} {tokens : List Token}
    (hsteps : stepsFor tokens ≤ steps) (hsteps' : stepsFor tokens ≤ steps')
    (hrounds : tokens.length ≤ rounds) (hrounds' : tokens.length ≤ rounds') :
    readProgram steps rounds tokens = readProgram steps' rounds' tokens := by
  induction rounds generalizing tokens rounds' with
  | zero =>
      obtain rfl : tokens = [] := List.eq_nil_of_length_eq_zero (by omega)
      cases rounds' <;> rfl
  | succ rounds ih =>
      by_cases hempty : tokens = []
      · subst hempty
        cases rounds' <;> rfl
      · obtain ⟨rounds', rfl⟩ : ∃ fewer, rounds' = fewer + 1 := by
          have hpos := List.length_pos_iff.mpr hempty
          exact ⟨rounds' - 1, by omega⟩
        -- what is left is shorter, so fewer steps and rounds are enough for it
        have hlater {rest : List Token} (hrest : rest <:+ tokens)
            (hshorter : rest.length < tokens.length) :
            readProgram steps rounds rest = readProgram steps' rounds' rest := by
          have hfewer := stepsFor_mono hrest
          exact ih (by omega) (by omega) (by omega) (by omega)
        have hproblem {rest : List Token} (hrest : rest <:+ tokens) :=
          hlater ((recover_suffix rest).trans hrest) (recover_shorter hempty hrest)
        -- each reader makes the same of the tokens with either number of steps
        have hreturn : returnClause steps tokens = returnClause steps' tokens :=
          Rule.returnClause.read_enough hsteps hsteps'
        have hstatement : statement steps false tokens = statement steps' false tokens :=
          (Rule.statement false).read_enough hsteps hsteps'
        rw [readProgram, readProgram]
        · by_cases hnext : firstKind? tokens = some (.keyword .return_)
          · rw [if_pos hnext, if_pos hnext, ← hreturn]
            cases hread : returnClause steps tokens with
            | accepted result rest =>
                cases rest with
                | nil => rfl
                | cons token others =>
                    simp only [hproblem ((returnClause_trims steps).of_accepted hread)]
            | rejected problem rest =>
                simp only [hproblem ((returnClause_trims steps).of_rejected hread)]
            | exhausted => rfl
          · rw [if_neg hnext, if_neg hnext, ← hstatement]
            have htrims := (statementsTrim steps).statement false
            cases hread : statement steps false tokens with
            | accepted first rest =>
                simp only [hlater (htrims.of_accepted hread) (takes_statement steps false hread)]
            | rejected problem rest => simp only [hproblem (htrims.of_rejected hread)]
            | exhausted => rfl
        all_goals exact hempty

/-- **Reading ends and moves on.**  For every list of tokens:
the steps allowed are not used up by any reader, at any place of the list, and neither more steps
nor more rounds change what is read; each reader leaves the end of its tokens, whether it accepts or
refuses; a statement and a `return` that are read have taken a token at least; the count of the
loops around a statement is left as it was by every reader, whether it accepts or refuses, is never
taken below zero, and is zero when a round begins; every round begins with fewer tokens than the one
before, and after a problem it begins behind a token that was left, unless none is left. -/
theorem reading_progresses (tokens : List Token) :
    (∀ rest : List Token, rest <:+ tokens → ∀ {α : Type} (rule : Rule α) (steps : Nat),
      stepsFor tokens ≤ steps →
        rule.read steps rest ≠ .exhausted ∧
          rule.read steps rest = rule.read (stepsFor tokens) rest) ∧
    (∀ steps rounds, stepsFor tokens ≤ steps → tokens.length ≤ rounds →
      readProgram steps rounds tokens = readProgram (stepsFor tokens) tokens.length tokens) ∧
    (∀ {α : Type} (rule : Rule α) (steps : Nat) (rest : List Token),
      (rule.read steps rest).Within rest) ∧
    (∀ steps, Takes (returnClause steps) ∧ ∀ inLoop, Takes (statement steps inLoop)) ∧
    (∀ steps, LoopsCounted steps) ∧
    (∀ steps rounds, ∃ starts,
      countingProgram steps rounds 0 tokens = some (readProgram steps rounds tokens, starts) ∧
        RoundsOf tokens starts) ∧
    ∀ rest, recover rest <:+ rest.tail := by
  -- each part is a theorem about one reader or one round, here for all at once
  refine ⟨?_, ?_, ?_, ?_, loopsCounted, ?_, recover_suffix_tail⟩
  · intro rest hrest α rule steps hsteps
    have hfewer := stepsFor_mono hrest
    have hsteps := Nat.le_trans hfewer hsteps
    exact ⟨rule.ends hsteps, rule.read_enough hsteps hfewer⟩
  · exact fun steps rounds hsteps hrounds =>
      readProgram_eq hsteps (Nat.le_refl _) hrounds (Nat.le_refl _)
  · exact fun rule steps => rule.trims
  · exact fun steps => ⟨takes_returnClause steps, takes_statement steps⟩
  · exact fun steps rounds => countingProgram_eq steps rounds tokens

/-- A loop with a `break` in it that is not closed. -/
def openLoop : List Token :=
  [⟨.keyword .while_, .start⟩, ⟨.keyword .true_, .start⟩, ⟨.keyword .do_, .start⟩,
    ⟨.keyword .break_, .start⟩]

/-- The reading ends at the end of the tokens with the problem that `end` is missing, and the count
is back at what it was before the loop. -/
theorem reading_progresses_openLoop :
    countingStatement (stepsFor openLoop) 3 openLoop =
      some (.rejected (.missingToken (.keyword .end_) none) [], 3) := by
  obtain ⟨-, -, -, -, hcounted, -, -⟩ := reading_progresses openLoop
  exact (hcounted (stepsFor openLoop)).statement 3 openLoop

end TableScript.Parser
