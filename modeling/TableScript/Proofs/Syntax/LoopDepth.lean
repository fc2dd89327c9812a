import TableScript.Proofs.Syntax.Enough

/-!
# Counting the loops around a statement

A `break` may stand inside a loop of the same function.  The readers are told so by a flag that is
passed down.  Another way to know it is a count that the whole parser keeps: it goes up before the
block of a loop and down after it, is put aside while the body of a function is read, and starts
afresh after a problem.  A count can go wrong where a flag cannot: if a problem inside a block left
it too high, or a way out of a block took it down twice.

Here are the readers of statements with such a count.  They read what the readers with the flag
read, and leave the count as they found it, whether they accept or refuse (`loopsCounted`); and no
round of the program begins with a count other than zero (`countingProgram_eq`).
-/

namespace TableScript

/-! ## Readers with a count -/

/-- A reader that keeps a count; `none` where it would take the count below zero. -/
def CountingReader (α : Type) : Type := Nat → List Token → Option (Parsed α × Nat)

namespace CountingReader

variable {α β : Type}

/-- Takes nothing and gives a value. -/
protected def pure (value : α) : CountingReader α := fun count tokens =>
  some (.accepted value tokens, count)

/-- Reads with one reader and goes on with the next, unless the first refuses. -/
protected def bind (reader : CountingReader α) (next : α → CountingReader β) : CountingReader β :=
  fun count tokens =>
    match reader count tokens with
    | some (.accepted value rest, later) => next value later rest
    | some (.rejected problem rest, later) => some (.rejected problem rest, later)
    | some (.exhausted, later) => some (.exhausted, later)
    | none => none

instance : Monad CountingReader where
  pure := CountingReader.pure
  bind := CountingReader.bind

/-- A reader that has nothing to do with the count. -/
def plain (reader : Reader α) : CountingReader α := fun count tokens => some (reader tokens, count)

/-- Reads with the count one up and takes it down again, however the reading ends. -/
def insideLoop (reader : CountingReader α) : CountingReader α := fun count tokens =>
  match reader (count + 1) tokens with
  | some (outcome, later + 1) => some (outcome, later)
  | _ => none

/-- Reads with the count at zero and puts the old one back, however the reading ends. -/
def insideFunction (reader : CountingReader α) : CountingReader α := fun count tokens =>
  (reader 0 tokens).map fun ended => (ended.1, count)

/-- From a count on, a counting reader reads what a reader does, and leaves the count as it was. -/
def Counts (count : Nat) (counting : CountingReader α) (reader : Reader α) : Prop :=
  ∀ tokens : List Token, counting count tokens = some (reader tokens, count)

variable {count : Nat}

theorem counts_plain (reader : Reader α) : Counts count (plain reader) reader := fun _ => rfl

theorem counts_pure (value : α) : Counts count (pure value) (pure value) := fun _ => rfl

theorem Counts.bind {counting : CountingReader α} {reader : Reader α}
    {countingNext : α → CountingReader β} {next : α → Reader β}
    (hreader : Counts count counting reader)
    (hnext : ∀ value, Counts count (countingNext value) (next value)) :
    Counts count (counting >>= countingNext) (reader >>= next) := by
  intro tokens
  change CountingReader.bind counting countingNext count tokens =
    some (Reader.bind reader next tokens, count)
  unfold CountingReader.bind Reader.bind
  rw [hreader tokens]
  cases reader tokens with
  | accepted value rest => exact hnext value rest
  | rejected problem rest => rfl
  | exhausted => rfl

theorem Counts.insideLoop {counting : CountingReader α} {reader : Reader α}
    (hreader : Counts (count + 1) counting reader) : Counts count (insideLoop counting) reader := by
  intro tokens
  unfold CountingReader.insideLoop
  rw [hreader tokens]

theorem Counts.insideFunction {counting : CountingReader α} {reader : Reader α}
    (hreader : Counts 0 counting reader) : Counts count (insideFunction counting) reader := by
  intro tokens
  unfold CountingReader.insideFunction
  rw [hreader tokens]
  rfl

end CountingReader

namespace Parser

open Reader CountingReader

/-! ## The readers of statements with a count -/

mutual

/-- Reads a block as `block` does. -/
def countingBlock : Nat → CountingReader Block
  | 0 => plain exhausted
  | steps + 1 => do
    let statements ← countingStatementList steps
    if (← plain peek?) = some (.keyword .return_) then
      let result ← plain (returnClause steps)
      pure (.mk statements (some result))
    else pure (.mk statements none)

/-- Reads statements as `statementList` does. -/
def countingStatementList : Nat → CountingReader (List Statement)
  | 0 => plain exhausted
  | steps + 1 => do
    let next ← plain peek?
    if Token.endsBlock next || next = some (.keyword .return_) then pure []
    else
      let first ← countingStatement steps
      let rest ← countingStatementList steps
      pure (first :: rest)

/-- Reads a statement as `statement` does.  A statement that is no `break` and has no block in it
has nothing to do with the count. -/
def countingStatement : Nat → CountingReader Statement
  | 0 => plain exhausted
  | steps + 1 => fun count tokens =>
    match tokens with
    | ⟨.keyword .break_, position⟩ :: rest =>
      if count = 0 then some (.rejected .breakOutsideLoop tokens, count)
      else some (.accepted (.break_ position) rest, count)
    | ⟨.keyword .if_, position⟩ :: rest =>
      (do
        let (branches, otherwise) ← countingBranchList steps
        let _ ← plain (expect (.keyword .end_))
        pure (.choose branches otherwise position) : CountingReader Statement) count rest
    | ⟨.keyword .function_, position⟩ :: rest =>
      (do
        let (name, _) ← plain expectName
        let _ ← plain (expect (.symbol .openParen))
        let parameters ← plain (parameterList steps)
        let _ ← plain (expect (.symbol .closeParen))
        let body ← insideFunction (countingBlock steps)
        let _ ← plain (expect (.keyword .end_))
        pure (.define name parameters body position) : CountingReader Statement) count rest
    | ⟨.keyword .while_, position⟩ :: rest =>
      (do
        let condition ← plain (expressionAt steps .disjunction)
        let _ ← plain (expect (.keyword .do_))
        let body ← insideLoop (countingBlock steps)
        let _ ← plain (expect (.keyword .end_))
        pure (.while_ condition body position) : CountingReader Statement) count rest
    | ⟨.keyword .repeat_, position⟩ :: rest =>
      (do
        let body ← insideLoop (countingBlock steps)
        let _ ← plain (expect (.keyword .until_))
        let condition ← plain (expressionAt steps .disjunction)
        pure (.repeat_ body condition position) : CountingReader Statement) count rest
    | ⟨.keyword .for_, position⟩ :: rest =>
      (do
        let (name, _) ← plain expectName
        let _ ← plain (expect (.symbol .assign))
        let start ← plain (expressionAt steps .disjunction)
        let _ ← plain (expect (.symbol .comma))
        let limit ← plain (expressionAt steps .disjunction)
        let step ← plain (forStep steps)
        let _ ← plain (expect (.keyword .do_))
        let body ← insideLoop (countingBlock steps)
        let _ ← plain (expect (.keyword .end_))
        pure (.for_ name start limit step body position) : CountingReader Statement) count rest
    | ⟨.keyword .do_, position⟩ :: rest =>
      (do
        let body ← countingBlock steps
        let _ ← plain (expect (.keyword .end_))
        pure (.do_ body position) : CountingReader Statement) count rest
    | _ => plain (statement (steps + 1) false) count tokens

/-- Reads branches as `branchList` does. -/
def countingBranchList : Nat → CountingReader (List Branch × Option Block)
  | 0 => plain exhausted
  | steps + 1 => do
    let condition ← plain (expressionAt steps .disjunction)
    let _ ← plain (expect (.keyword .then_))
    let body ← countingBlock steps
    if ← plain (accept (.keyword .elseif_)) then
      let (branches, otherwise) ← countingBranchList steps
      pure (.mk condition body :: branches, otherwise)
    else if ← plain (accept (.keyword .else_)) then
      let otherwise ← countingBlock steps
      pure ([.mk condition body], some otherwise)
    else pure ([.mk condition body], none)

end

/-- Within the steps allowed, the readers with a count read what those with the flag read, the flag
saying whether the count is above zero, and leave the count as it was. -/
structure LoopsCounted (steps : Nat) : Prop where
  block (count : Nat) : Counts count (countingBlock steps) (block steps (decide (0 < count)))
  statementList (count : Nat) :
    Counts count (countingStatementList steps) (statementList steps (decide (0 < count)))
  statement (count : Nat) :
    Counts count (countingStatement steps) (statement steps (decide (0 < count)))
  branchList (count : Nat) :
    Counts count (countingBranchList steps) (branchList steps (decide (0 < count)))

namespace LoopsCounted

variable {steps : Nat} (hcounted : LoopsCounted steps) (count : Nat)

include hcounted

theorem block_succ : Counts count (countingBlock (steps + 1))
    (Parser.block (steps + 1) (decide (0 < count))) := by
  rw [countingBlock, Parser.block]
  refine (hcounted.statementList count).bind fun statements => (counts_plain _).bind fun next => ?_
  split
  · exact (counts_plain _).bind fun result => counts_pure _
  · exact counts_pure _

theorem statementList_succ : Counts count (countingStatementList (steps + 1))
    (Parser.statementList (steps + 1) (decide (0 < count))) := by
  rw [countingStatementList, Parser.statementList]
  refine (counts_plain _).bind fun next => ?_
  split
  · exact counts_pure _
  · refine (hcounted.statement count).bind fun first => ?_
    exact (hcounted.statementList count).bind fun others => counts_pure _

theorem branchList_succ : Counts count (countingBranchList (steps + 1))
    (Parser.branchList (steps + 1) (decide (0 < count))) := by
  rw [countingBranchList, Parser.branchList]
  refine (counts_plain _).bind fun condition => (counts_plain _).bind fun _ => ?_
  refine (hcounted.block count).bind fun body => (counts_plain _).bind fun further => ?_
  split
  · exact (hcounted.branchList count).bind fun branches => counts_pure _
  · refine (counts_plain _).bind fun last => ?_
    split
    · exact (hcounted.block count).bind fun otherwise => counts_pure _
    · exact counts_pure _

/-- The block of a loop is inside a loop, whatever is around it. -/
theorem loopBlock : Counts count (insideLoop (countingBlock steps)) (Parser.block steps true) := by
  have hinside := hcounted.block (count + 1)
  rw [decide_eq_true (Nat.succ_pos count)] at hinside
  exact hinside.insideLoop

/-- The body of a function is inside no loop of it. -/
theorem functionBlock :
    Counts count (insideFunction (countingBlock steps)) (Parser.block steps false) :=
  (hcounted.block 0).insideFunction

theorem statement_succ : Counts count (countingStatement (steps + 1))
    (Parser.statement (steps + 1) (decide (0 < count))) := by
  intro tokens
  cases tokens with
  | nil => rfl
  | cons token rest =>
      obtain ⟨kind, place⟩ := token
      -- only loops and functions change the count, and both set it back; all other parts keep it
      cases kind with
      | keyword word =>
          cases word with
          | break_ => cases count <;> rfl
          | if_ =>
              refine Counts.bind (hcounted.branchList count) (fun branches => ?_) rest
              exact (counts_plain _).bind fun _ => counts_pure _
          | function_ =>
              refine Counts.bind (counts_plain _) (fun name => ?_) rest
              refine (counts_plain _).bind fun _ => (counts_plain _).bind fun parameters => ?_
              refine (counts_plain _).bind fun _ => ?_
              refine (hcounted.functionBlock count).bind fun body => ?_
              exact (counts_plain _).bind fun _ => counts_pure _
          | while_ =>
              refine Counts.bind (counts_plain _) (fun condition => ?_) rest
              refine (counts_plain _).bind fun _ => (hcounted.loopBlock count).bind fun body => ?_
              exact (counts_plain _).bind fun _ => counts_pure _
          | repeat_ =>
              refine Counts.bind (hcounted.loopBlock count) (fun body => ?_) rest
              refine (counts_plain _).bind fun _ => (counts_plain _).bind fun condition => ?_
              exact counts_pure _
          | for_ =>
              refine Counts.bind (counts_plain _) (fun name => ?_) rest
              refine (counts_plain _).bind fun _ => (counts_plain _).bind fun start => ?_
              refine (counts_plain _).bind fun _ => (counts_plain _).bind fun limit => ?_
              refine (counts_plain _).bind fun step => (counts_plain _).bind fun _ => ?_
              refine (hcounted.loopBlock count).bind fun body => ?_
              exact (counts_plain _).bind fun _ => counts_pure _
          | do_ =>
              refine Counts.bind (hcounted.block count) (fun body => ?_) rest
              exact (counts_plain _).bind fun _ => counts_pure _
          | _ => rfl
      | symbol mark => cases mark <;> rfl
      | _ => rfl

end LoopsCounted

/-- **The count and the flag agree**, and every reader leaves the count as it was. -/
theorem loopsCounted : ∀ steps : Nat, LoopsCounted steps := by
  intro steps
  induction steps with
  | zero => constructor <;> exact fun _ _ => rfl
  | succ steps hcounted =>
      exact
        { block := hcounted.block_succ
          statementList := hcounted.statementList_succ
          statement := hcounted.statement_succ
          branchList := hcounted.branchList_succ }

/-! ## The rounds of a program -/

/-- Reads a program as `readProgram` does, by the readers with a count, which starts afresh after a
problem.  Besides what was read it gives the count and the tokens that each round begins with. -/
def countingProgram (steps : Nat) :
    Nat → Nat → List Token → Option (Reading × List (Nat × List Token))
  | 0, _, _ => some (⟨[], none, []⟩, [])
  | _ + 1, _, [] => some (⟨[], none, []⟩, [])
  | rounds + 1, count, tokens =>
    let lastRound (reading : Reading) := some (reading, [(count, tokens)])
    let problemAt (problem : Problem) (rest : List Token) := do
      let (later, rounds) ← countingProgram steps rounds 0 (recover rest)
      some ({ later with problems := (problem, rest) :: later.problems }, (count, tokens) :: rounds)
    if firstKind? tokens = some (.keyword .return_) then
      match returnClause steps tokens with
      | .accepted result [] => lastRound ⟨[], some result, []⟩
      | .accepted _ rest => problemAt .returnNotLast rest
      | .rejected problem rest => problemAt problem rest
      | .exhausted => lastRound ⟨[], none, [(.noStatement (firstKind? tokens), tokens)]⟩
    else
      match countingStatement steps count tokens with
      | some (.accepted statement rest, left) => do
        let (later, rounds) ← countingProgram steps rounds left rest
        some ({ later with statements := statement :: later.statements }, (count, tokens) :: rounds)
      | some (.rejected problem rest, _) => problemAt problem rest
      | some (.exhausted, _) =>
        lastRound ⟨[], none, [(.noStatement (firstKind? tokens), tokens)]⟩
      | none => none

/-- What is known of the rounds of a program: each begins with a count of zero, and with the end of
the tokens of the one before, which has taken a token at least. -/
structure RoundsOf (tokens : List Token) (rounds : List (Nat × List Token)) : Prop where
  count : ∀ round ∈ rounds, round.1 = 0
  within : ∀ round ∈ rounds, round.2 <:+ tokens
  shorter : rounds.Pairwise fun earlier later => later.2.length < earlier.2.length

theorem RoundsOf.none (tokens : List Token) : RoundsOf tokens [] :=
  ⟨by simp, by simp, List.Pairwise.nil⟩

/-- A round goes before those that begin behind a token of it. -/
theorem RoundsOf.cons {tokens rest : List Token} {rounds : List (Nat × List Token)}
    (hrounds : RoundsOf rest rounds) (hsuffix : rest <:+ tokens)
    (hshorter : rest.length < tokens.length) : RoundsOf tokens ((0, tokens) :: rounds) where
  count := List.forall_mem_cons.mpr ⟨rfl, hrounds.count⟩
  within := List.forall_mem_cons.mpr
    ⟨List.suffix_refl tokens, fun round hround => (hrounds.within round hround).trans hsuffix⟩
  shorter := by
    refine List.pairwise_cons.mpr ⟨fun round hround => ?_, hrounds.shorter⟩
    exact Nat.lt_of_le_of_lt (hrounds.within round hround).length_le hshorter

/-- After a problem in some tokens there are fewer of them. -/
theorem recover_shorter {tokens rest : List Token} (htokens : tokens ≠ [])
    (hrest : rest <:+ tokens) : (recover rest).length < tokens.length := by
  have hrecover := (recover_suffix_tail rest).length_le
  have hlength := hrest.length_le
  have hpos := List.length_pos_iff.mpr htokens
  rw [List.length_tail] at hrecover
  omega

/-- **No round begins inside a loop.**  The count starts at zero and is zero at the start of every
round, and what is read is what the readers with the flag read. -/
theorem countingProgram_eq (steps rounds : Nat) (tokens : List Token) :
    ∃ starts, countingProgram steps rounds 0 tokens =
        some (readProgram steps rounds tokens, starts) ∧ RoundsOf tokens starts := by
  induction rounds generalizing tokens with
  | zero => exact ⟨[], rfl, .none tokens⟩
  | succ rounds ih =>
      by_cases hempty : tokens = []
      · subst hempty
        exact ⟨[], rfl, .none []⟩
      · -- what is read after a problem begins behind a token
        have hproblem {rest : List Token} (hrest : rest <:+ tokens) :
            ∃ starts, countingProgram steps rounds 0 (recover rest) =
                some (readProgram steps rounds (recover rest), starts) ∧
              RoundsOf tokens ((0, tokens) :: starts) := by
          obtain ⟨starts, hcounting, hstarts⟩ := ih (recover rest)
          refine ⟨starts, hcounting, hstarts.cons ?_ (recover_shorter hempty hrest)⟩
          exact (recover_suffix rest).trans hrest
        have hlast : RoundsOf tokens [(0, tokens)] :=
          ⟨by simp, by simp, List.pairwise_singleton _ _⟩
        -- the count is zero where the round begins, which is what the flag says of a program
        have hcounts : countingStatement steps 0 tokens = some (statement steps false tokens, 0) :=
          (loopsCounted steps).statement 0 tokens
        rw [countingProgram, readProgram]
        · by_cases hnext : firstKind? tokens = some (.keyword .return_)
          · simp only [if_pos hnext]
            cases hread : returnClause steps tokens with
            | accepted result rest =>
                cases rest with
                | nil => exact ⟨[(0, tokens)], rfl, hlast⟩
                | cons token others =>
                    obtain ⟨starts, hcounting, hstarts⟩ :=
                      hproblem ((returnClause_trims steps).of_accepted hread)
                    exact ⟨(0, tokens) :: starts, by simp [hcounting], hstarts⟩
            | rejected problem rest =>
                obtain ⟨starts, hcounting, hstarts⟩ :=
                  hproblem ((returnClause_trims steps).of_rejected hread)
                exact ⟨(0, tokens) :: starts, by simp [hcounting], hstarts⟩
            | exhausted => exact ⟨[(0, tokens)], rfl, hlast⟩
          · simp only [if_neg hnext, hcounts]
            cases hread : statement steps false tokens with
            | accepted first rest =>
                obtain ⟨starts, hcounting, hstarts⟩ := ih rest
                refine ⟨(0, tokens) :: starts, by simp [hcounting], hstarts.cons ?_ ?_⟩
                · exact ((statementsTrim steps).statement false).of_accepted hread
                · exact takes_statement steps false hread
            | rejected problem rest =>
                obtain ⟨starts, hcounting, hstarts⟩ :=
                  hproblem (((statementsTrim steps).statement false).of_rejected hread)
                exact ⟨(0, tokens) :: starts, by simp [hcounting], hstarts⟩
            | exhausted => exact ⟨[(0, tokens)], rfl, hlast⟩
        · exact hempty
        · exact hempty

end Parser

end TableScript
