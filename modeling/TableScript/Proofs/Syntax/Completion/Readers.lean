import TableScript.Proofs.Syntax.Rests

/-!
# What is refused could have gone on

A reader refuses tokens where it gives up, and not later: the tokens that it has taken until then
are the beginning of something that is written.  To show it one has to say, for each place where a
reader can give up, how the tokens taken go on.

A reader *completes* if that is so (`Reader.Completes`).  For two readers one after the other there
are two ways to give up.  If the first one does, its tokens are completed, and then comes anything
that the second one can be written as; if the second one does, its tokens are completed behind those
of the first (`Reader.Part.completes_bind`).  So a completion is put together as the reader is.
-/

namespace TableScript.Reader

variable {α β : Type} {writes : α → List Token → Prop}

/-- The tokens that a reader has taken when it refuses are the beginning of tokens that write
something, and there is something to be written. -/
structure Completes (reader : Reader α) (writes : α → List Token → Prop) : Prop where
  trims : Trims reader
  possible : ∃ value tokens, writes value tokens
  rejected : ∀ ⦃taken rest : List Token⦄ ⦃problem : Problem⦄,
    reader (taken ++ rest) = .rejected problem rest → ∃ value more, writes value (taken ++ more)

/-- Besides, the tokens that it has taken when it accepts write what it gives. -/
structure Part (reader : Reader α) (writes : α → List Token → Prop) : Prop
    extends Completes reader writes where
  accepted : ∀ ⦃taken rest : List Token⦄ ⦃value : α⦄,
    reader (taken ++ rest) = .accepted value rest → writes value taken

/-! ## Readers that do not refuse, or at once -/

theorem part_pure (value : α) :
    Part (pure value) fun given tokens => given = value ∧ tokens = [] where
  trims := trims_pure value
  possible := ⟨value, [], rfl, rfl⟩
  rejected taken rest problem hread := by cases hread
  accepted taken rest given hread := by
    obtain ⟨hvalue, hrest⟩ := pure_eq_accepted.mp hread
    exact ⟨hvalue.symm, List.append_left_eq_self.mp hrest⟩

theorem completes_pure {value : α} (hvalue : writes value []) :
    Completes (pure value) writes where
  trims := trims_pure value
  possible := ⟨value, [], hvalue⟩
  rejected taken rest problem hread := by cases hread

theorem completes_exhausted (hpossible : ∃ value tokens, writes value tokens) :
    Completes exhausted writes where
  trims := trims_exhausted
  possible := hpossible
  rejected taken rest problem hread := by cases hread

theorem completes_refuse {problem : Option Token.Kind → Problem}
    (hproblem : ∀ found, (problem found).OfArrangement)
    (hpossible : ∃ value tokens, writes value tokens) : Completes (refuse problem) writes where
  trims := trims_refuse hproblem
  possible := hpossible
  rejected taken rest problem hread := by
    obtain rfl : taken = [] := by
      unfold refuse at hread
      injection hread with _ hrest
      exact List.append_left_eq_self.mp hrest
    exact hpossible

/-! ## Basic readers -/

theorem part_peek : Part peek? fun _ tokens => tokens = [] where
  trims := trims_peek
  possible := ⟨none, [], rfl⟩
  rejected taken rest problem hread := by cases hread
  accepted taken rest value hread := List.append_left_eq_self.mp (peek?_eq_accepted.mp hread).2

theorem part_accept (kind : Token.Kind) : Part (accept kind) fun found tokens =>
    found = true ∧ (∃ place, tokens = [⟨kind, place⟩]) ∨ found = false ∧ tokens = [] where
  trims := trims_accept kind
  possible := ⟨false, [], .inr ⟨rfl, rfl⟩⟩
  rejected taken rest problem hread := by
    cases htokens : taken ++ rest with
    | nil =>
        rw [htokens] at hread
        cases hread
    | cons token tokens =>
        rw [htokens, accept] at hread
        split at hread <;> cases hread
  accepted taken rest found hread := by
    rcases accept_cases hread with ⟨rfl, place, htokens⟩ | ⟨rfl, htokens, -⟩
    · have htaken : taken ++ rest = [⟨kind, place⟩] ++ rest := htokens
      exact .inl ⟨rfl, place, List.append_cancel_right htaken⟩
    · exact .inr ⟨rfl, List.append_left_eq_self.mp htokens⟩

theorem part_acceptMap (select : Token.Kind → Option α) :
    Part (acceptMap select) fun found tokens =>
      (∃ value kind, found = some value ∧ select kind = some value.1 ∧
        tokens = [⟨kind, value.2⟩]) ∨ found = none ∧ tokens = [] where
  trims := trims_acceptMap select
  possible := ⟨none, [], .inr ⟨rfl, rfl⟩⟩
  rejected taken rest problem hread := by
    cases htokens : taken ++ rest with
    | nil =>
        rw [htokens] at hread
        cases hread
    | cons token tokens =>
        rw [htokens, acceptMap] at hread
        split at hread <;> cases hread
  accepted taken rest found hread := by
    cases found with
    | none => exact .inr ⟨rfl, List.append_left_eq_self.mp (acceptMap_eq_none.mp hread).1⟩
    | some value =>
        obtain ⟨kind, htokens, hselect⟩ := acceptMap_eq_some.mp hread
        have htaken : taken ++ rest = [⟨kind, value.2⟩] ++ rest := htokens
        exact .inl ⟨value, kind, rfl, hselect, List.append_cancel_right htaken⟩

/-- A token that is missing can be put in. -/
theorem part_expect (kind : Token.Kind) :
    Part (expect kind) fun place tokens => tokens = [⟨kind, place⟩] where
  trims := trims_expect kind
  possible := ⟨.start, [⟨kind, .start⟩], rfl⟩
  rejected taken rest problem hread := by
    obtain rfl : taken = [] := by
      cases htokens : taken ++ rest with
      | nil => exact (List.append_eq_nil_iff.mp htokens).1
      | cons token tokens =>
          rw [htokens, expect] at hread
          split at hread
          · cases hread
          · injection hread with _ hrest
            exact List.append_left_eq_self.mp (htokens.trans hrest)
    exact ⟨.start, [⟨kind, .start⟩], rfl⟩
  accepted taken rest place hread := by
    have htaken : taken ++ rest = [⟨kind, place⟩] ++ rest := expect_eq_accepted.mp hread
    exact List.append_cancel_right htaken

theorem part_expectName :
    Part expectName fun name tokens => tokens = [⟨.name name.1, name.2⟩] where
  trims := trims_expectName
  possible := ⟨("x", .start), [⟨.name "x", .start⟩], rfl⟩
  rejected taken rest problem hread := by
    obtain rfl : taken = [] := by
      unfold expectName at hread
      split at hread
      · cases hread
      · injection hread with _ hrest
        exact List.append_left_eq_self.mp hrest
    exact ⟨("x", .start), [⟨.name "x", .start⟩], rfl⟩
  accepted taken rest name hread := by
    have htaken : taken ++ rest = [⟨.name name.1, name.2⟩] ++ rest :=
      expectName_eq_accepted.mp hread
    exact List.append_cancel_right htaken

/-! ## Readers one after the other -/

section Bind

variable {reader : Reader α} {next : α → Reader β} {result : β → List Token → Prop}

/-- **A completion is put together as the reader is.** -/
theorem Part.completes_bind (hreader : Part reader writes)
    (hnext : ∀ value before, writes value before →
      Completes (next value) fun given tokens => result given (before ++ tokens)) :
    Completes (reader >>= next) result where
  trims := by
    intro tokens
    change (Reader.bind reader next tokens).Within tokens
    unfold Reader.bind
    cases hread : reader tokens with
    | accepted value middle =>
        obtain ⟨before, rfl⟩ := hreader.trims.of_accepted hread
        exact ((hnext value before (hreader.accepted hread)).trims middle).mono
          (List.suffix_append before middle)
    | rejected problem middle =>
        exact ⟨hreader.trims.of_rejected hread, hreader.trims.arrangement hread⟩
    | exhausted => trivial
  possible := by
    obtain ⟨value, before, hvalue⟩ := hreader.possible
    obtain ⟨given, tokens, hgiven⟩ := (hnext value before hvalue).possible
    exact ⟨given, before ++ tokens, hgiven⟩
  rejected taken rest problem hread := by
    change Reader.bind reader next (taken ++ rest) = _ at hread
    unfold Reader.bind at hread
    cases hfirst : reader (taken ++ rest) with
    | accepted value middle =>
        rw [hfirst] at hread
        obtain ⟨before, hbefore⟩ := hreader.trims.of_accepted hfirst
        rw [← hbefore] at hfirst
        have hcompletes := hnext value before (hreader.accepted hfirst)
        -- refused in the second part: what completes that part completes the whole
        obtain ⟨later, rfl⟩ := hcompletes.trims.of_rejected hread
        obtain ⟨given, more, hgiven⟩ := hcompletes.rejected hread
        obtain rfl : before ++ later = taken := by
          rw [← List.append_assoc] at hbefore
          exact List.append_cancel_right hbefore
        exact ⟨given, more, by rwa [List.append_assoc]⟩
    | rejected problem' middle =>
        rw [hfirst] at hread
        cases hread
        -- refused in the first part: complete it, and go on with anything that the second one reads
        obtain ⟨value, more, hvalue⟩ := hreader.rejected hfirst
        obtain ⟨given, tokens, hgiven⟩ := (hnext value (taken ++ more) hvalue).possible
        exact ⟨given, more ++ tokens, by rwa [← List.append_assoc]⟩
    | exhausted =>
        rw [hfirst] at hread
        cases hread

/-- The last part of a reader. -/
theorem Part.completes_map {build : α → β} (hreader : Part reader writes)
    (hbuild : ∀ value tokens, writes value tokens → result (build value) tokens) :
    Completes (do let value ← reader; pure (build value)) result :=
  hreader.completes_bind fun value before hvalue =>
    completes_pure (by rw [List.append_nil]; exact hbuild value before hvalue)

theorem Completes.mono {writes' : α → List Token → Prop} (hreader : Completes reader writes)
    (hwrites : ∀ value tokens, writes value tokens → writes' value tokens) :
    Completes reader writes' where
  trims := hreader.trims
  possible := by
    obtain ⟨value, tokens, hvalue⟩ := hreader.possible
    exact ⟨value, tokens, hwrites value tokens hvalue⟩
  rejected taken rest problem hread := by
    obtain ⟨value, more, hvalue⟩ := hreader.rejected hread
    exact ⟨value, more, hwrites value _ hvalue⟩

theorem completes_expect_bind {kind : Token.Kind} {next : Position → Reader β}
    (hnext : ∀ place, Completes (next place) fun given tokens =>
      result given (⟨kind, place⟩ :: tokens)) : Completes (expect kind >>= next) result := by
  refine (part_expect kind).completes_bind fun place before hbefore => ?_
  subst hbefore
  exact hnext place

theorem completes_expectName_bind {next : String × Position → Reader β}
    (hnext : ∀ name, Completes (next name) fun given tokens =>
      result given (⟨.name name.1, name.2⟩ :: tokens)) :
    Completes (expectName >>= next) result := by
  refine part_expectName.completes_bind fun name before hbefore => ?_
  subst hbefore
  exact hnext name

theorem completes_peek_bind {next : Option Token.Kind → Reader β}
    (hnext : ∀ kind, Completes (next kind) result) : Completes (peek? >>= next) result := by
  refine part_peek.completes_bind fun kind before hbefore => ?_
  subst hbefore
  exact hnext kind

theorem completes_accept_bind {kind : Token.Kind} {next : Bool → Reader β}
    (hfound : ∀ place, Completes (next true) fun given tokens =>
      result given (⟨kind, place⟩ :: tokens))
    (hother : Completes (next false) result) : Completes (accept kind >>= next) result := by
  refine (part_accept kind).completes_bind fun found before hbefore => ?_
  rcases hbefore with ⟨rfl, place, rfl⟩ | ⟨rfl, rfl⟩
  · exact hfound place
  · exact hother

theorem completes_acceptMap_bind {select : Token.Kind → Option α}
    {next : Option (α × Position) → Reader β}
    (hfound : ∀ value place kind, select kind = some value →
      Completes (next (some (value, place))) fun given tokens =>
        result given (⟨kind, place⟩ :: tokens))
    (hother : Completes (next none) result) : Completes (acceptMap select >>= next) result := by
  refine (part_acceptMap select).completes_bind fun found before hbefore => ?_
  rcases hbefore with ⟨⟨value, place⟩, kind, rfl, hselect, rfl⟩ | ⟨rfl, rfl⟩
  · exact hfound value place kind hselect
  · exact hother

/-- A reader that has begun with some tokens and refuses behind them. -/
theorem Completes.behind (front : List Token)
    (hreader : Completes reader fun value tokens => writes value (front ++ tokens))
    {tokens taken rest : List Token} {problem : Problem} (htokens : taken ++ rest = front ++ tokens)
    (hread : reader tokens = .rejected problem rest) :
    ∃ value more, writes value (taken ++ more) := by
  obtain ⟨later, rfl⟩ := hreader.trims.of_rejected hread
  obtain ⟨value, more, hvalue⟩ := hreader.rejected hread
  obtain rfl : taken = front ++ later := by
    rw [← List.append_assoc] at htokens
    exact List.append_cancel_right htokens
  exact ⟨value, more, by rwa [List.append_assoc]⟩

end Bind

end TableScript.Reader
