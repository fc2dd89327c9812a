import TableScript.Proofs.Syntax.Rests

/-!
# What a reader decides by

A reader looks at the tokens that it takes and at the one after them, and at nothing else: whatever
it makes of a list, it makes of every list that begins with the same tokens, up to and including the
first that it leaves (`Reader.Decides`).  The steps allowed make no difference either, as long as
they are not used up.  So two lists that part behind that token are read alike up to it, and in
particular a problem in one of them is one in the other.

Here are the basic readers, which look at the next token only (`Reader.Glance`), and what is built
from readers that decide (`Reader.Decides.bind`).
-/

namespace TableScript

namespace Parsed

variable {α : Type}

/-- The tokens that an outcome leaves. -/
def rest? : Parsed α → Option (List Token)
  | .accepted _ rest => some rest
  | .rejected _ rest => some rest
  | .exhausted => none

/-- The second outcome is the first one with other tokens left, or there were too few steps for
it. -/
inductive Carried (rest other : List Token) : Parsed α → Parsed α → Prop where
  | accepted (value : α) : Carried rest other (.accepted value rest) (.accepted value other)
  | rejected (problem : Problem) :
      Carried rest other (.rejected problem rest) (.rejected problem other)
  | exhausted (outcome : Parsed α) : Carried rest other outcome .exhausted

end Parsed

namespace Reader

open TableScript.Parsed

variable {α β : Type}

/-- What the first reader makes of a list, the second one makes of all lists that begin with the
tokens taken and the one after them. -/
structure Decides (first second : Reader α) : Prop where
  trims : Trims first
  carried : ∀ taken rest other : List Token, rest.head? = other.head? →
    (first (taken ++ rest)).rest? = some rest →
      Carried rest other (first (taken ++ rest)) (second (taken ++ other))

/-! ## Tokens taken -/

theorem Trims.of_rest? {reader : Reader α} (htrims : Trims reader) {tokens rest : List Token}
    (hrest : (reader tokens).rest? = some rest) : rest <:+ tokens := by
  cases hread : reader tokens with
  | accepted value left =>
      rw [hread] at hrest
      cases hrest
      exact htrims.of_accepted hread
  | rejected problem left =>
      rw [hread] at hrest
      cases hrest
      exact htrims.of_rejected hread
  | exhausted =>
      rw [hread] at hrest
      cases hrest

/-- What is read behind some tokens has taken them. -/
theorem Trims.taken_behind {reader : Reader α} (htrims : Trims reader) (front : List Token)
    {taken rest tokens : List Token} (htokens : taken ++ rest = front ++ tokens)
    (hrest : (reader tokens).rest? = some rest) :
    ∃ later, taken = front ++ later ∧ tokens = later ++ rest := by
  obtain ⟨later, rfl⟩ := htrims.of_rest? hrest
  rw [← List.append_assoc] at htokens
  exact ⟨later, List.append_cancel_right htokens, rfl⟩

/-- What one reader after another leaves is left by the first, or by the next one behind it. -/
theorem rest?_bind {reader : Reader α} {next : α → Reader β} {tokens rest : List Token}
    (hrest : ((reader >>= next) tokens).rest? = some rest) :
    (reader tokens).rest? = some rest ∨
      ∃ value middle, reader tokens = .accepted value middle ∧
        (next value middle).rest? = some rest := by
  change (Reader.bind reader next tokens).rest? = _ at hrest
  unfold Reader.bind at hrest
  cases hread : reader tokens with
  | accepted value middle =>
      rw [hread] at hrest
      exact .inr ⟨value, middle, rfl, hrest⟩
  | rejected problem middle =>
      rw [hread] at hrest
      exact .inl hrest
  | exhausted =>
      rw [hread] at hrest
      cases hrest

theorem rest?_bind_pure (reader : Reader α) (build : α → β) (tokens : List Token) :
    ((do let value ← reader; pure (build value) : Reader β) tokens).rest? =
      (reader tokens).rest? := by
  change (Reader.bind reader (fun value => Reader.pure (build value)) tokens).rest? = _
  unfold Reader.bind
  cases reader tokens <;> rfl

theorem head?_append {rest other : List Token} (hhead : rest.head? = other.head?)
    (taken : List Token) : (taken ++ rest).head? = (taken ++ other).head? := by
  cases taken with
  | nil => exact hhead
  | cons token taken => rfl

/-- A reader that is given a name in front takes it. -/
def TakesName (reader : Reader α) : Prop :=
  ∀ ⦃name : String⦄ ⦃place : Position⦄ ⦃tokens rest : List Token⦄,
    (reader (⟨.name name, place⟩ :: tokens)).rest? = some rest → rest <:+ tokens

theorem TakesName.bind {reader : Reader α} {next : α → Reader β} (hreader : TakesName reader)
    (hnext : ∀ value, Trims (next value)) : TakesName (reader >>= next) := by
  intro name place tokens rest hrest
  rcases rest?_bind hrest with hrest | ⟨value, middle, hread, hrest⟩
  · exact hreader hrest
  · exact ((hnext value).of_rest? hrest).trans (hreader (by rw [hread]; rfl))

/-! ## Readers that decide -/

/-- Of the same tokens two readers make the same, if neither runs out of steps. -/
theorem eq_of_carried {first second : Reader α} (htrims : Trims first) {tokens : List Token}
    (hcarried : ∀ taken rest, tokens = taken ++ rest → (first tokens).rest? = some rest →
      Carried rest rest (first tokens) (second tokens))
    (hfirst : first tokens ≠ .exhausted) (hsecond : second tokens ≠ .exhausted) :
    second tokens = first tokens := by
  obtain ⟨rest, hrest⟩ : ∃ rest, (first tokens).rest? = some rest := by
    cases hread : first tokens with
    | accepted value rest => exact ⟨rest, rfl⟩
    | rejected problem rest => exact ⟨rest, rfl⟩
    | exhausted => exact absurd hread hfirst
  obtain ⟨taken, htaken⟩ := htrims.of_rest? hrest
  have hsame := hcarried taken rest htaken.symm hrest
  generalize first tokens = outcome at hsame ⊢
  generalize second tokens = outcome' at hsame hsecond ⊢
  cases hsame with
  | accepted value => rfl
  | rejected problem => rfl
  | exhausted outcome => exact absurd rfl hsecond

theorem Decides.eq {first second : Reader α} (hdecides : Decides first second)
    {tokens : List Token} (hfirst : first tokens ≠ .exhausted)
    (hsecond : second tokens ≠ .exhausted) : second tokens = first tokens := by
  refine eq_of_carried hdecides.trims (fun taken rest htokens hrest => ?_) hfirst hsecond
  rw [htokens] at hrest ⊢
  exact hdecides.carried taken rest rest rfl hrest

/-- A reader that has run out of steps decides nothing. -/
theorem decides_exhausted {first : Reader α} (htrims : Trims first) :
    Decides first (exhausted : Reader α) where
  trims := htrims
  carried taken rest _ _ _ := .exhausted (first (taken ++ rest))

theorem exhausted_decides (second : Reader α) : Decides exhausted second where
  trims := trims_exhausted
  carried _ _ _ _ hrest := by cases hrest

/-- What two readers make of two lists with the same first token, if they look no further: both take
no token, or the first, or refuse it. -/
inductive Glance (first second : Reader α) : List Token → List Token → Prop where
  | stays {tokens other : List Token} (value : α) (htokens : first tokens = .accepted value tokens)
      (hother : second other = .accepted value other) : Glance first second tokens other
  | takes {rest rest' : List Token} (value : α) (token : Token)
      (htokens : first (token :: rest) = .accepted value rest)
      (hother : second (token :: rest') = .accepted value rest') :
      Glance first second (token :: rest) (token :: rest')
  | refuses {tokens other : List Token} (problem : Problem)
      (htokens : first tokens = .rejected problem tokens)
      (hother : second other = .rejected problem other) : Glance first second tokens other

theorem Glance.carried {first second : Reader α} {taken rest other tokens others : List Token}
    (hglance : Glance first second tokens others) (htokens : taken ++ rest = tokens)
    (hothers : taken ++ other = others) (hrest : (first (taken ++ rest)).rest? = some rest) :
    Carried rest other (first (taken ++ rest)) (second (taken ++ other)) := by
  rw [htokens] at hrest
  rw [htokens, hothers]
  cases hglance with
  | stays value hread hread' =>
      rw [hread] at hrest
      cases hrest
      obtain rfl := List.append_left_eq_self.mp htokens
      obtain rfl : other = others := hothers
      rw [hread, hread']
      exact .accepted value
  -- the token that was taken stands in front of both rests
  | takes value token hread hread' =>
      rw [hread] at hrest
      cases hrest
      obtain rfl : taken = [token] :=
        List.append_cancel_right (show taken ++ rest = [token] ++ rest from htokens)
      cases hothers
      rw [hread, hread']
      exact .accepted value
  | refuses problem hread hread' =>
      rw [hread] at hrest
      cases hrest
      obtain rfl := List.append_left_eq_self.mp htokens
      obtain rfl : other = others := hothers
      rw [hread, hread']
      exact .rejected problem

/-- A reader that looks at the next token only decides by it. -/
theorem decides_of_glance {reader : Reader α} (htrims : Trims reader)
    (hglance : ∀ tokens other, tokens.head? = other.head? → Glance reader reader tokens other) :
    Decides reader reader where
  trims := htrims
  carried taken _ _ hhead hrest :=
    (hglance _ _ (head?_append hhead taken)).carried rfl rfl hrest

theorem decides_pure (value : α) : Decides (pure value : Reader α) (pure value) :=
  decides_of_glance (trims_pure value) fun _ _ _ => .stays value rfl rfl

theorem firstKind?_congr {tokens other : List Token} (hhead : tokens.head? = other.head?) :
    firstKind? tokens = firstKind? other := by
  rw [firstKind?, hhead]
  rfl

theorem decides_refuse {problem : Option Token.Kind → Problem}
    (hproblem : ∀ found, (problem found).OfArrangement) :
    Decides (refuse problem : Reader α) (refuse problem) := by
  refine decides_of_glance (trims_refuse hproblem) fun tokens other hhead => ?_
  refine .refuses (problem (firstKind? tokens)) rfl ?_
  rw [firstKind?_congr hhead]
  rfl

theorem decides_peek : Decides peek? peek? := by
  refine decides_of_glance trims_peek fun tokens other hhead => ?_
  refine .stays (firstKind? tokens) rfl ?_
  rw [firstKind?_congr hhead]
  rfl

/-- Two lists with the same first token are both empty, or have it in front. -/
theorem same_head {tokens other : List Token} (hhead : tokens.head? = other.head?) :
    (tokens = [] ∧ other = []) ∨
      ∃ token rest rest', tokens = token :: rest ∧ other = token :: rest' := by
  cases tokens with
  | nil => exact .inl ⟨rfl, List.head?_eq_none_iff.mp hhead.symm⟩
  | cons token rest =>
      obtain ⟨rest', rfl⟩ := List.head?_eq_some_iff.mp hhead.symm
      exact .inr ⟨token, rest, rest', rfl, rfl⟩

theorem decides_accept (kind : Token.Kind) : Decides (accept kind) (accept kind) := by
  refine decides_of_glance (trims_accept kind) fun tokens other hhead => ?_
  obtain ⟨rfl, rfl⟩ | ⟨token, rest, rest', rfl, rfl⟩ := same_head hhead
  · exact .stays false rfl rfl
  · by_cases hkind : token.kind = kind
    · exact .takes true token (by simp [accept, hkind]) (by simp [accept, hkind])
    · exact .stays false (by simp [accept, hkind]) (by simp [accept, hkind])

theorem decides_expect (kind : Token.Kind) : Decides (expect kind) (expect kind) := by
  refine decides_of_glance (trims_expect kind) fun tokens other hhead => ?_
  obtain ⟨rfl, rfl⟩ | ⟨token, rest, rest', rfl, rfl⟩ := same_head hhead
  · exact .refuses _ rfl rfl
  · by_cases hkind : token.kind = kind
    · exact .takes token.position token (by simp [expect, hkind]) (by simp [expect, hkind])
    · exact .refuses (.missingToken kind (some token.kind)) (by simp [expect, hkind])
        (by simp [expect, hkind])

theorem decides_expectName : Decides expectName expectName := by
  refine decides_of_glance trims_expectName fun tokens other hhead => ?_
  obtain ⟨rfl, rfl⟩ | ⟨⟨kind, place⟩, rest, rest', rfl, rfl⟩ := same_head hhead
  · exact .refuses _ rfl rfl
  · cases kind with
    | name text => exact .takes (text, place) _ rfl rfl
    | _ => exact .refuses _ rfl rfl

theorem decides_acceptMap (select : Token.Kind → Option α) :
    Decides (acceptMap select) (acceptMap select) := by
  refine decides_of_glance (trims_acceptMap select) fun tokens other hhead => ?_
  obtain ⟨rfl, rfl⟩ | ⟨token, rest, rest', rfl, rfl⟩ := same_head hhead
  · exact .stays none rfl rfl
  · cases hselect : select token.kind with
    | some value =>
        exact .takes (some (value, token.position)) token (by simp [acceptMap, hselect])
          (by simp [acceptMap, hselect])
    | none => exact .stays none (by simp [acceptMap, hselect]) (by simp [acceptMap, hselect])

/-- **What is built from readers that decide decides.** -/
theorem Decides.bind {first second : Reader α} {next next' : α → Reader β}
    (hreader : Decides first second) (hnext : ∀ value, Decides (next value) (next' value)) :
    Decides (first >>= next) (second >>= next') where
  trims := hreader.trims.bind fun value => (hnext value).trims
  carried taken rest other hhead hrest := by
    change (Reader.bind first next (taken ++ rest)).rest? = some rest at hrest
    change Carried rest other (Reader.bind first next (taken ++ rest))
      (Reader.bind second next' (taken ++ other))
    unfold Reader.bind at hrest ⊢
    cases hread : first (taken ++ rest) with
    | accepted value middle =>
        rw [hread] at hrest
        -- the tokens taken are those of the first reader and those of the next
        obtain ⟨later, rfl⟩ := (hnext value).trims.of_rest? hrest
        obtain ⟨before, hbefore⟩ := hreader.trims.of_accepted hread
        obtain rfl : taken = before ++ later := by
          rw [← List.append_assoc] at hbefore
          exact (List.append_cancel_right hbefore).symm
        rw [List.append_assoc] at hread ⊢
        have hfirst := hreader.carried before (later ++ rest) (later ++ other)
          (head?_append hhead later) (by rw [hread]; rfl)
        rw [hread] at hfirst
        -- the second list agrees with the first one up to here, so its reader has gone the same way
        -- or no way
        cases hsecond : second (before ++ (later ++ other)) with
        | accepted value' middle' =>
            rw [hsecond] at hfirst
            cases hfirst
            exact (hnext value).carried later rest other hhead hrest
        | rejected problem middle' =>
            rw [hsecond] at hfirst
            cases hfirst
        | exhausted => exact .exhausted _
    | rejected problem middle =>
        rw [hread] at hrest
        cases hrest
        have hfirst := hreader.carried taken rest other hhead (by rw [hread]; rfl)
        rw [hread] at hfirst
        cases hsecond : second (taken ++ other) with
        | accepted value middle' =>
            rw [hsecond] at hfirst
            cases hfirst
        | rejected problem' middle' =>
            rw [hsecond] at hfirst
            cases hfirst
            exact .rejected problem
        | exhausted => exact .exhausted _
    | exhausted =>
        rw [hread] at hrest
        cases hrest

theorem carried_bind_pure {first second : Reader α} (build : α → β)
    {tokens others rest other : List Token}
    (hcarried : Carried rest other (first tokens) (second others)) :
    Carried rest other ((do let value ← first; pure (build value) : Reader β) tokens)
      ((do let value ← second; pure (build value) : Reader β) others) := by
  change Carried rest other (Reader.bind first (fun value => Reader.pure (build value)) tokens)
    (Reader.bind second (fun value => Reader.pure (build value)) others)
  unfold Reader.bind
  generalize first tokens = outcome at hcarried ⊢
  generalize second others = outcome' at hcarried ⊢
  cases hcarried with
  | accepted value => exact .accepted (build value)
  | rejected problem => exact .rejected problem
  | exhausted outcome => exact .exhausted _

/-- Two readers that begin with tokens that both are given, and decide behind them. -/
theorem Decides.behind {first second : Reader α} (hdecides : Decides first second)
    {reader reader' : Reader α} (front : List Token) {tokens taken rest other : List Token}
    (htokens : taken ++ rest = front ++ tokens) (hhead : rest.head? = other.head?)
    (hreader : reader (taken ++ rest) = first tokens)
    (hreader' : ∀ tokens, reader' (front ++ tokens) = second tokens)
    (hrest : (reader (taken ++ rest)).rest? = some rest) :
    Carried rest other (reader (taken ++ rest)) (reader' (taken ++ other)) := by
  rw [hreader] at hrest ⊢
  obtain ⟨later, rfl, rfl⟩ := hdecides.trims.taken_behind front htokens hrest
  rw [List.append_assoc, hreader']
  exact hdecides.carried later rest other hhead hrest

end Reader

end TableScript
