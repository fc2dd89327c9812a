import TableScript.Proofs.Syntax.Places
import TableScript.Proofs.Syntax.Reader

/-!
# Places do not matter to the readers of expressions

Two lists of tokens of the same kinds may differ in every place.  The readers treat them alike: on
both they end with a result, and the results are equal once places are forgotten, or on both with
the same problem, and in either case as many tokens are left.

`Reader.Alike` says so for two readers, and is kept by each way to build readers from readers; one
induction on the steps allowed then covers all readers of expressions.
-/

namespace TableScript

/-! ## Readers that do not look at places -/

/-- Both end with results that look the same, or both with the same problem, and as many tokens are
left. -/
inductive Parsed.Alike {α β : Type} (view : α → β) : Parsed α → Parsed α → Prop
  | accepted {first second : α} {rest rest' : List Token} (hview : view first = view second)
      (hrest : kindsOf rest = kindsOf rest') :
      Alike view (.accepted first rest) (.accepted second rest')
  | rejected {problem : Problem} {rest rest' : List Token} (hrest : kindsOf rest = kindsOf rest') :
      Alike view (.rejected problem rest) (.rejected problem rest')
  | exhausted : Alike view .exhausted .exhausted

namespace Reader

variable {α β γ δ : Type} {view : α → γ}

/-- On tokens of the same kinds the two readers end alike. -/
def Alike (view : α → γ) (reader reader' : Reader α) : Prop :=
  ∀ tokens tokens' : List Token, kindsOf tokens = kindsOf tokens' →
    (reader tokens).Alike view (reader' tokens')

theorem Alike.pure {first second : α} (hview : view first = view second) :
    Alike view (Pure.pure first) (Pure.pure second) :=
  fun _ _ htokens => .accepted hview htokens

theorem Alike.bind {reader reader' : Reader α} {next next' : α → Reader β} {view' : β → δ}
    (hreader : Alike view reader reader')
    (hnext : ∀ first second, view first = view second → Alike view' (next first) (next' second)) :
    Alike view' (reader >>= next) (reader' >>= next') := by
  intro tokens tokens' htokens
  change (Reader.bind reader next tokens).Alike view' (Reader.bind reader' next' tokens')
  unfold Reader.bind
  have halike := hreader tokens tokens' htokens
  revert halike
  generalize reader tokens = outcome
  generalize reader' tokens' = outcome'
  intro halike
  cases halike with
  | accepted hview hrest => exact hnext _ _ hview _ _ hrest
  | rejected hrest => exact .rejected hrest
  | exhausted => exact .exhausted

theorem alike_exhausted : Alike view exhausted exhausted := fun _ _ _ => .exhausted

theorem alike_refuse {problem : Option Token.Kind → Problem} :
    Alike view (refuse problem) (refuse problem) := by
  intro tokens tokens' htokens
  unfold refuse
  rw [firstKind?_eq, firstKind?_eq, htokens]
  exact .rejected htokens

theorem alike_peek : Alike id peek? peek? := by
  intro tokens tokens' htokens
  refine .accepted ?_ htokens
  rw [firstKind?_eq, firstKind?_eq, htokens]

theorem alike_accept (kind : Token.Kind) : Alike id (accept kind) (accept kind) := by
  intro tokens tokens' htokens
  cases tokens with
  | nil =>
      obtain rfl : tokens' = [] := List.map_eq_nil_iff.mp htokens.symm
      exact .accepted rfl rfl
  | cons token rest =>
      obtain ⟨place', rest', rfl, hrest⟩ := kindsOf_eq_cons.mp htokens.symm
      unfold accept
      dsimp only
      by_cases hkind : token.kind = kind
      · rw [if_pos hkind, if_pos hkind]
        exact .accepted rfl hrest.symm
      · rw [if_neg hkind, if_neg hkind]
        exact .accepted rfl htokens

theorem alike_expect (kind : Token.Kind) : Alike (fun _ => ()) (expect kind) (expect kind) := by
  intro tokens tokens' htokens
  cases tokens with
  | nil =>
      obtain rfl : tokens' = [] := List.map_eq_nil_iff.mp htokens.symm
      exact .rejected rfl
  | cons token rest =>
      obtain ⟨place', rest', rfl, hrest⟩ := kindsOf_eq_cons.mp htokens.symm
      unfold expect
      dsimp only
      by_cases hkind : token.kind = kind
      · rw [if_pos hkind, if_pos hkind]
        exact .accepted rfl hrest.symm
      · rw [if_neg hkind, if_neg hkind]
        exact .rejected htokens

theorem alike_expectName : Alike Prod.fst expectName expectName := by
  intro tokens tokens' htokens
  cases tokens with
  | nil =>
      obtain rfl : tokens' = [] := List.map_eq_nil_iff.mp htokens.symm
      exact .rejected rfl
  | cons token rest =>
      obtain ⟨kind, place⟩ := token
      obtain ⟨place', rest', rfl, hrest⟩ := kindsOf_eq_cons.mp htokens.symm
      cases kind with
      | name text => exact .accepted rfl hrest.symm
      | _ => exact .rejected htokens

theorem alike_acceptMap {select : Token.Kind → Option α} :
    Alike (Option.map Prod.fst) (acceptMap select) (acceptMap select) := by
  intro tokens tokens' htokens
  cases tokens with
  | nil =>
      obtain rfl : tokens' = [] := List.map_eq_nil_iff.mp htokens.symm
      exact .accepted rfl rfl
  | cons token rest =>
      obtain ⟨place', rest', rfl, hrest⟩ := kindsOf_eq_cons.mp htokens.symm
      unfold acceptMap
      dsimp only
      cases hselect : select token.kind with
      | none =>
          simp only
          exact .accepted rfl htokens
      | some value =>
          simp only
          exact .accepted rfl hrest.symm

end Reader

namespace Parser

open TableScript.Reader

/-! ## The readers of expressions -/

/-- Within the steps allowed, no reader looks at places. -/
structure LayoutFree (steps : Nat) : Prop where
  expressionAt (level : Level) :
    Alike Expression.erase (expressionAt steps level) (expressionAt steps level)
  chain (level : Level) {left left' : Expression} (hleft : left.erase = left'.erase) :
    Alike Expression.erase (chain steps level left) (chain steps level left')
  primary : Alike Expression.erase (primary steps) (primary steps)
  indexPath : Alike Expression.eraseList (indexPath steps) (indexPath steps)
  expressionList : Alike Expression.eraseList (expressionList steps) (expressionList steps)
  fieldList : Alike Field.eraseList (fieldList steps) (fieldList steps)
  field : Alike Field.erase (field steps) (field steps)
  invocation : Alike Invocation.erase (invocation steps) (invocation steps)
  argumentList : Alike Expression.eraseList (argumentList steps) (argumentList steps)
  readFormat : Alike Expression.eraseOption (readFormat steps) (readFormat steps)

variable {steps : Nat}

/-- Going on after the reading of an operator, which is there on both sides or on none. -/
theorem alike_operator {α β γ : Type} {view : β → γ} {select : Token.Kind → Option α}
    {next next' : Option (α × Position) → Reader β}
    (hnext : ∀ operator place place',
      Alike view (next (some (operator, place))) (next' (some (operator, place'))))
    (hotherwise : Alike view (next none) (next' none)) :
    Alike view (acceptMap select >>= next) (acceptMap select >>= next') := by
  refine alike_acceptMap.bind ?_
  rintro (_ | ⟨operator, place⟩) (_ | ⟨operator', place'⟩) hview
  · exact hotherwise
  · cases hview
  · cases hview
  · obtain rfl : operator = operator' := Option.some.inj hview
    exact hnext operator place place'

theorem expressionAt_alike (hfree : LayoutFree steps) (level : Level) :
    Alike Expression.erase (expressionAt (steps + 1) level) (expressionAt (steps + 1) level) := by
  have hleft (level : Level) : Alike Expression.erase
      (do let first ← expressionAt steps level.next; chain steps level first)
      (do let first ← expressionAt steps level.next; chain steps level first) :=
    (hfree.expressionAt level.next).bind fun _ _ hfirst => hfree.chain level hfirst
  -- an operator is known by its kind; its place goes into the tree, where it is forgotten
  cases level with
  | primary => exact hfree.primary
  | power =>
      rw [expressionAt]
      refine (hfree.expressionAt .primary).bind fun base base' hbase => ?_
      refine alike_operator (fun operator place place' => ?_) (.pure hbase)
      refine (hfree.expressionAt .unary).bind fun exponent exponent' hexponent => .pure ?_
      simp only [Expression.erase, hbase, hexponent]
  | unary =>
      rw [expressionAt]
      refine alike_operator (fun operator place place' => ?_) (hfree.expressionAt .power)
      refine (hfree.expressionAt .unary).bind fun operand operand' hoperand => .pure ?_
      simp only [Expression.erase, hoperand]
  | concatenation =>
      rw [expressionAt]
      refine (hfree.expressionAt .additive).bind fun left left' hleft => ?_
      refine alike_operator (fun operator place place' => ?_) (.pure hleft)
      refine (hfree.expressionAt .concatenation).bind fun right right' hright => .pure ?_
      simp only [Expression.erase, hleft, hright]
  | disjunction => exact hleft .disjunction
  | conjunction => exact hleft .conjunction
  | comparison => exact hleft .comparison
  | additive => exact hleft .additive
  | multiplicative => exact hleft .multiplicative

theorem chain_alike (hfree : LayoutFree steps) (level : Level) {left left' : Expression}
    (hleft : left.erase = left'.erase) :
    Alike Expression.erase (chain (steps + 1) level left) (chain (steps + 1) level left') := by
  rw [chain, chain]
  refine alike_operator (fun operator place place' => ?_) (.pure hleft)
  refine (hfree.expressionAt level.next).bind fun right right' hright => hfree.chain level ?_
  simp only [Expression.erase, hleft, hright]

theorem afterReadCall?_alike {tokens tokens' rest : List Token}
    (htokens : kindsOf tokens = kindsOf tokens') (hafter : afterReadCall? tokens = some rest) :
    ∃ rest', afterReadCall? tokens' = some rest' ∧ kindsOf rest = kindsOf rest' := by
  obtain ⟨place, dot, name, opening, rfl⟩ := afterReadCall?_eq_some.mp hafter
  obtain ⟨place', _, rfl, hone⟩ := kindsOf_eq_cons.mp htokens.symm
  obtain ⟨dot', _, rfl, htwo⟩ := kindsOf_eq_cons.mp hone
  obtain ⟨name', _, rfl, hthree⟩ := kindsOf_eq_cons.mp htwo
  obtain ⟨opening', rest', rfl, hrest⟩ := kindsOf_eq_cons.mp hthree
  exact ⟨rest', afterReadCall?_eq_some.mpr ⟨place', dot', name', opening', rfl⟩, hrest.symm⟩

theorem beginsInvocation_alike {tokens tokens' : List Token}
    (htokens : kindsOf tokens = kindsOf tokens') :
    beginsInvocation tokens = beginsInvocation tokens' := by
  have hforward {tokens tokens' : List Token} (htokens : kindsOf tokens = kindsOf tokens')
      (hbegins : beginsInvocation tokens = true) : beginsInvocation tokens' = true := by
    rw [beginsInvocation_eq_true] at hbegins ⊢
    rcases hbegins with ⟨name, place, opening, rest, rfl⟩ | ⟨rest, hafter⟩
    · obtain ⟨place', _, rfl, hone⟩ := kindsOf_eq_cons.mp htokens.symm
      obtain ⟨opening', rest', rfl, -⟩ := kindsOf_eq_cons.mp hone
      exact .inl ⟨name, place', opening', rest', rfl⟩
    · obtain ⟨rest', hafter', -⟩ := afterReadCall?_alike htokens hafter
      exact .inr ⟨rest', hafter'⟩
  rw [Bool.eq_iff_iff]
  exact ⟨hforward htokens, hforward htokens.symm⟩

theorem primary_alike (hfree : LayoutFree steps) :
    Alike Expression.erase (primary (steps + 1)) (primary (steps + 1)) := by
  intro tokens tokens' htokens
  rw [primary]
  cases tokens with
  | nil =>
      obtain rfl : tokens' = [] := List.map_eq_nil_iff.mp htokens.symm
      exact .rejected rfl
  | cons token rest =>
      obtain ⟨kind, place⟩ := token
      -- the other list begins with the same kind, so the match takes the same branch
      obtain ⟨place', rest', rfl, hkinds⟩ := kindsOf_eq_cons.mp htokens.symm
      have hrest : kindsOf rest = kindsOf rest' := hkinds.symm
      cases kind with
      | integer text => exact .accepted rfl hrest
      | float text => exact .accepted rfl hrest
      | string contents => exact .accepted rfl hrest
      | keyword word => cases word <;> first | exact .accepted rfl hrest | exact .rejected htokens
      | symbol mark =>
          cases mark with
          | openParen =>
              refine Alike.bind (hfree.expressionAt .disjunction) (fun inner inner' hinner => ?_)
                rest rest' hrest
              refine (alike_expect _).bind fun _ _ _ => .pure ?_
              simp only [Expression.erase, hinner]
          | openBrace =>
              refine Alike.bind hfree.fieldList (fun fields fields' hfields => ?_) rest rest' hrest
              refine (alike_expect _).bind fun _ _ _ => .pure ?_
              simp only [Expression.erase, hfields]
          | _ => exact .rejected htokens
      | name text =>
          dsimp only
          -- whether a call follows is seen from kinds alone
          rw [beginsInvocation_alike htokens]
          split
          · refine Alike.bind hfree.invocation (fun value value' hvalue => .pure ?_) _ _ htokens
            simp only [Expression.erase, hvalue]
          · refine Alike.bind hfree.indexPath (fun path path' hpath => .pure ?_) _ _ hrest
            simp only [Expression.erase, hpath]

theorem indexPath_alike (hfree : LayoutFree steps) :
    Alike Expression.eraseList (indexPath (steps + 1)) (indexPath (steps + 1)) := by
  intro tokens tokens' htokens
  rw [indexPath]
  cases tokens with
  | nil =>
      obtain rfl : tokens' = [] := List.map_eq_nil_iff.mp htokens.symm
      exact .accepted rfl rfl
  | cons token rest =>
      obtain ⟨kind, place⟩ := token
      obtain ⟨place', rest', rfl, hkinds⟩ := kindsOf_eq_cons.mp htokens.symm
      have hrest : kindsOf rest = kindsOf rest' := hkinds.symm
      -- only a dot or a bracket goes on with the path
      cases kind with
      | symbol mark =>
          cases mark with
          | dot =>
              refine Alike.bind alike_expectName (fun name name' hname => ?_) rest rest' hrest
              refine hfree.indexPath.bind fun path path' hpath => .pure ?_
              simp only [Expression.eraseList, Expression.erase, hname, hpath]
          | openBracket =>
              refine Alike.bind (hfree.expressionAt .disjunction) (fun key key' hkey => ?_)
                rest rest' hrest
              refine (alike_expect _).bind fun _ _ _ => ?_
              refine hfree.indexPath.bind fun path path' hpath => .pure ?_
              simp only [Expression.eraseList, hkey, hpath]
          | _ => exact .accepted rfl htokens
      | _ => exact .accepted rfl htokens

/-- Going on after the reading of a token, which is there on both sides or on none. -/
theorem alike_accept_bind {β γ : Type} {view : β → γ} {kind : Token.Kind}
    {next next' : Bool → Reader β} (htrue : Alike view (next true) (next' true))
    (hfalse : Alike view (next false) (next' false)) :
    Alike view (accept kind >>= next) (accept kind >>= next') := by
  refine (alike_accept kind).bind ?_
  rintro found _ rfl
  cases found with
  | true => exact htrue
  | false => exact hfalse

/-- Going on according to the next token. -/
theorem alike_peek_bind {β γ : Type} {view : β → γ} {next next' : Option Token.Kind → Reader β}
    (hnext : ∀ kind, Alike view (next kind) (next' kind)) :
    Alike view (peek? >>= next) (peek? >>= next') := by
  refine alike_peek.bind ?_
  rintro kind _ rfl
  exact hnext kind

theorem expressionList_alike (hfree : LayoutFree steps) :
    Alike Expression.eraseList (expressionList (steps + 1)) (expressionList (steps + 1)) := by
  rw [expressionList]
  refine (hfree.expressionAt .disjunction).bind fun first first' hfirst => ?_
  refine alike_accept_bind ?_ (.pure ?_)
  · refine hfree.expressionList.bind fun others others' hothers => .pure ?_
    simp only [Expression.eraseList, hfirst, hothers]
  · simp only [Expression.eraseList, hfirst]

theorem fieldList_alike (hfree : LayoutFree steps) :
    Alike Field.eraseList (fieldList (steps + 1)) (fieldList (steps + 1)) := by
  rw [fieldList]
  refine alike_peek_bind fun kind => ?_
  -- the alternatives behind a field are chosen by kinds, on both sides alike
  have hfields : Alike Field.eraseList
      (do
        let first ← field steps
        if ← accept (.symbol .comma) then
          let rest ← fieldList steps
          pure (first :: rest)
        else if ← accept (.symbol .semicolon) then
          let rest ← fieldList steps
          pure (first :: rest)
        else pure [first])
      (do
        let first ← field steps
        if ← accept (.symbol .comma) then
          let rest ← fieldList steps
          pure (first :: rest)
        else if ← accept (.symbol .semicolon) then
          let rest ← fieldList steps
          pure (first :: rest)
        else pure [first]) := by
    refine hfree.field.bind fun first first' hfirst => ?_
    have hmore : Alike Field.eraseList
        (do let rest ← fieldList steps; pure (first :: rest))
        (do let rest ← fieldList steps; pure (first' :: rest)) := by
      refine hfree.fieldList.bind fun others others' hothers => .pure ?_
      simp only [Field.eraseList, hfirst, hothers]
    refine alike_accept_bind hmore (alike_accept_bind hmore (.pure ?_))
    simp only [Field.eraseList, hfirst]
  split
  · exact .pure rfl
  · exact .pure rfl
  · exact hfields

theorem field_alike (hfree : LayoutFree steps) :
    Alike Field.erase (field (steps + 1)) (field (steps + 1)) := by
  have hpositional : Alike Field.erase
      (do let value ← expressionAt steps .disjunction; pure (.positional value))
      (do let value ← expressionAt steps .disjunction; pure (.positional value)) := by
    refine (hfree.expressionAt .disjunction).bind fun value value' hvalue => .pure ?_
    simp only [Field.erase, hvalue]
  intro tokens tokens' htokens
  rw [field]
  cases tokens with
  | nil =>
      obtain rfl : tokens' = [] := List.map_eq_nil_iff.mp htokens.symm
      exact hpositional [] [] rfl
  | cons token rest =>
      obtain ⟨kind, place⟩ := token
      obtain ⟨place', rest', rfl, hkinds⟩ := kindsOf_eq_cons.mp htokens.symm
      have hrest : kindsOf rest = kindsOf rest' := hkinds.symm
      -- two tokens ahead decide whether the field has a name for a key
      cases kind with
      | name text =>
          cases rest with
          | nil =>
              obtain rfl : rest' = [] := List.map_eq_nil_iff.mp hkinds
              exact hpositional _ _ htokens
          | cons second after =>
              obtain ⟨kind, assign⟩ := second
              obtain ⟨assign', after', rfl, hafter⟩ := kindsOf_eq_cons.mp hkinds
              cases kind with
              | symbol mark =>
                  cases mark with
                  | assign =>
                      refine Alike.bind (hfree.expressionAt .disjunction)
                        (fun value value' hvalue => .pure ?_) after after' hafter.symm
                      simp only [Field.erase, Expression.erase, hvalue]
                  | _ => exact hpositional _ _ htokens
              | _ => exact hpositional _ _ htokens
      | symbol mark =>
          cases mark with
          | openBracket =>
              refine Alike.bind (hfree.expressionAt .disjunction) (fun key key' hkey => ?_)
                rest rest' hrest
              refine (alike_expect _).bind fun _ _ _ => (alike_expect _).bind fun _ _ _ => ?_
              refine (hfree.expressionAt .disjunction).bind fun value value' hvalue => .pure ?_
              simp only [Field.erase, hkey, hvalue]
          | _ => exact hpositional _ _ htokens
      | _ => exact hpositional _ _ htokens

theorem readCall_alike (hfree : LayoutFree steps) {tokens tokens' : List Token}
    (htokens : kindsOf tokens = kindsOf tokens') (place place' : Position) :
    Parsed.Alike Invocation.erase
      (match afterReadCall? tokens with
        | some rest =>
          (do
            let format ← readFormat steps
            pure (.read format place) : Reader Invocation) rest
        | none => refuse .noExpression tokens)
      (match afterReadCall? tokens' with
        | some rest =>
          (do
            let format ← readFormat steps
            pure (.read format place') : Reader Invocation) rest
        | none => refuse .noExpression tokens') := by
  cases hafter : afterReadCall? tokens with
  | none =>
      cases hafter' : afterReadCall? tokens' with
      | none => exact alike_refuse tokens tokens' htokens
      -- that one list goes on as a call of `io.read` and the other does not is impossible
      | some rest' =>
          obtain ⟨rest, hrest, -⟩ := afterReadCall?_alike htokens.symm hafter'
          rw [hafter] at hrest
          cases hrest
  | some rest =>
      obtain ⟨rest', hafter', hrest⟩ := afterReadCall?_alike htokens hafter
      rw [hafter']
      refine Alike.bind hfree.readFormat (fun format format' hformat => .pure ?_) rest rest' hrest
      simp only [Invocation.erase, hformat]

theorem invocation_alike (hfree : LayoutFree steps) :
    Alike Invocation.erase (invocation (steps + 1)) (invocation (steps + 1)) := by
  intro tokens tokens' htokens
  rw [invocation]
  cases tokens with
  | nil =>
      obtain rfl : tokens' = [] := List.map_eq_nil_iff.mp htokens.symm
      exact .rejected rfl
  | cons token rest =>
      obtain ⟨kind, place⟩ := token
      obtain ⟨place', rest', rfl, hkinds⟩ := kindsOf_eq_cons.mp htokens.symm
      cases kind with
      | name text =>
          -- the token behind the name decides, if there is one
          cases rest with
          | nil =>
              obtain rfl : rest' = [] := List.map_eq_nil_iff.mp hkinds
              exact readCall_alike hfree htokens place place'
          | cons second after =>
              obtain ⟨kind, opening⟩ := second
              obtain ⟨opening', after', rfl, hafter⟩ := kindsOf_eq_cons.mp hkinds
              cases kind with
              | symbol mark =>
                  cases mark with
                  | openParen =>
                      refine Alike.bind hfree.argumentList (fun values values' hvalues => ?_)
                        after after' hafter.symm
                      split
                      · exact .pure (by simp only [Invocation.erase, hvalues])
                      · exact .pure (by simp only [Invocation.erase, hvalues])
                  | _ => exact readCall_alike hfree htokens place place'
              | _ => exact readCall_alike hfree htokens place place'
      | _ => exact .rejected htokens

theorem argumentList_alike (hfree : LayoutFree steps) :
    Alike Expression.eraseList (argumentList (steps + 1)) (argumentList (steps + 1)) := by
  rw [argumentList]
  refine alike_accept_bind (.pure rfl) ?_
  refine hfree.expressionList.bind fun values values' hvalues => ?_
  exact (alike_expect _).bind fun _ _ _ => .pure hvalues

theorem readFormat_alike (hfree : LayoutFree steps) :
    Alike Expression.eraseOption (readFormat (steps + 1)) (readFormat (steps + 1)) := by
  rw [readFormat]
  refine alike_accept_bind (.pure rfl) ?_
  refine (hfree.expressionAt .disjunction).bind fun value value' hvalue => ?_
  refine (alike_expect _).bind fun _ _ _ => .pure ?_
  simp only [Expression.eraseOption, hvalue]

theorem layoutFree : ∀ steps : Nat, LayoutFree steps := by
  intro steps
  induction steps with
  | zero =>
      exact ⟨fun _ => alike_exhausted, fun _ _ _ _ => alike_exhausted, alike_exhausted,
        alike_exhausted, alike_exhausted, alike_exhausted, alike_exhausted, alike_exhausted,
        alike_exhausted, alike_exhausted⟩
  | succ steps hfree =>
      exact
        { expressionAt := expressionAt_alike hfree
          chain := chain_alike hfree
          primary := primary_alike hfree
          indexPath := indexPath_alike hfree
          expressionList := expressionList_alike hfree
          fieldList := fieldList_alike hfree
          field := field_alike hfree
          invocation := invocation_alike hfree
          argumentList := argumentList_alike hfree
          readFormat := readFormat_alike hfree }

end Parser

end TableScript
