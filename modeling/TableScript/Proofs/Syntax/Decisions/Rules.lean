import TableScript.Proofs.Syntax.Decisions.Readers
import TableScript.Proofs.Syntax.Rules

/-!
# The rules decide by the next token

Every reader of the grammar decides by the tokens that it takes and the one after them.  Most are
built from readers that do.  Where a name can begin a variable or an invocation, and in a table also
a field, the reader looks further ahead; there the tokens looked at are taken in the end, or they
are not what would make a difference (`invocation_front`, `beginsInvocation_of_path`, `takesName`).

The reader of invocations itself expects one, and is used only where one begins; elsewhere it would
refuse without having taken the tokens that it refuses for.
-/

namespace TableScript

namespace Parser

open TableScript.Reader TableScript.Parsed

/-! ## Looking further ahead -/

section Ahead

variable {steps : Nat} {taken tokens rest other : List Token}

theorem invocation_call (name : String) (place opening : Position) (tokens : List Token) :
    invocation (steps + 1) (⟨.name name, place⟩ :: ⟨.symbol .openParen, opening⟩ :: tokens) =
      (do
        let arguments ← argumentList steps
        if name = "print" then pure (.print arguments place)
        else pure (.call name arguments place) : Reader Invocation) tokens := rfl

theorem invocation_read (place dot name opening : Position) (tokens : List Token) :
    invocation (steps + 1) (⟨.name "io", place⟩ :: ⟨.symbol .dot, dot⟩ :: ⟨.name "read", name⟩ ::
        ⟨.symbol .openParen, opening⟩ :: tokens) =
      (do
        let format ← readFormat steps
        pure (.read format place) : Reader Invocation) tokens := by
  rw [invocation]
  simp [afterReadCall?]

/-- An invocation that is read, or not read to its end, has taken the tokens that it is known by. -/
theorem invocation_front (hbegins : beginsInvocation (taken ++ rest) = true)
    (hrest : (invocation steps (taken ++ rest)).rest? = some rest) :
    taken ≠ [] ∧ ∀ other, beginsInvocation (taken ++ other) = true := by
  cases steps with
  | zero => cases hrest
  | succ steps =>
      -- a name and a parenthesis, or the four tokens of `io.read(`: what is behind them does not
      -- matter
      obtain ⟨name, place, opening, tokens, htokens⟩ | ⟨tokens, hafter⟩ :=
        beginsInvocation_eq_true.mp hbegins
      · rw [htokens, invocation_call] at hrest
        have htrims : Trims (do
            let arguments ← argumentList steps
            if name = "print" then pure (.print arguments place)
            else pure (.call name arguments place) : Reader Invocation) := by
          refine (expressionsTrim steps).argumentList.bind fun arguments => ?_
          split
          · exact trims_pure _
          · exact trims_pure _
        obtain ⟨later, rfl, -⟩ := htrims.taken_behind
          [⟨.name name, place⟩, ⟨.symbol .openParen, opening⟩] htokens hrest
        exact ⟨by simp, fun other => rfl⟩
      · obtain ⟨place, dot, name, opening, htokens⟩ := afterReadCall?_eq_some.mp hafter
        rw [htokens, invocation_read] at hrest
        have htrims : Trims (do
            let format ← readFormat steps
            pure (.read format place) : Reader Invocation) :=
          (expressionsTrim steps).readFormat.bind fun format => trims_pure _
        obtain ⟨later, rfl, -⟩ := htrims.taken_behind
          [⟨.name "io", place⟩, ⟨.symbol .dot, dot⟩, ⟨.name "read", name⟩,
            ⟨.symbol .openParen, opening⟩] htokens hrest
        refine ⟨by simp, fun other => beginsInvocation_eq_true.mpr (.inr ⟨later ++ other, ?_⟩)⟩
        exact afterReadCall?_eq_some.mpr ⟨place, dot, name, opening, rfl⟩

/-- An index path takes a dot together with the name behind it, or there is no name behind it. -/
theorem indexPath_dot {dot : Position}
    (hrest : (indexPath steps (⟨.symbol .dot, dot⟩ :: tokens)).rest? = some rest) :
    (∃ name place later, tokens = ⟨.name name, place⟩ :: later ∧ rest <:+ later) ∨
      tokens = rest ∧ ∀ name place later, tokens ≠ ⟨.name name, place⟩ :: later := by
  cases steps with
  | zero => cases hrest
  | succ steps =>
      have hpath (name : String × Position) : Trims (do
          let path ← indexPath steps
          pure (.string name.1 name.2 :: path) : Reader (List Expression)) :=
        (expressionsTrim steps).indexPath.bind fun path => trims_pure _
      change ((expectName >>= fun name => do
        let path ← indexPath steps
        pure (.string name.1 name.2 :: path) : Reader (List Expression)) tokens).rest? = _ at hrest
      -- without a name behind the dot the path is refused there, and leaves what was behind the dot
      by_cases hname : ∃ name place later, tokens = ⟨.name name, place⟩ :: later
      · obtain ⟨name, place, later, rfl⟩ := hname
        exact .inl ⟨name, place, later, rfl, (hpath (name, place)).of_rest? hrest⟩
      · have hnone : ∀ name place later, tokens ≠ ⟨.name name, place⟩ :: later :=
          fun name place later htokens => hname ⟨name, place, later, htokens⟩
        refine .inr ⟨?_, hnone⟩
        have hrefused :
            expectName tokens = .rejected (.missingName (firstKind? tokens)) tokens := by
          unfold expectName
          split
          · exact absurd rfl (hnone _ _ _)
          · rfl
        rcases rest?_bind hrest with hrest | ⟨_, _, hread, -⟩
        · rw [hrefused] at hrest
          exact Option.some.inj hrest
        · rw [hrefused] at hread
          cases hread

/-- Where an index path is read behind a name, the tokens taken and the next one tell that no
invocation begins. -/
theorem beginsInvocation_of_path {β : Type} {next : List Expression → Reader β}
    (hnext : ∀ path, Trims (next path)) {name : String} {place : Position} {later : List Token}
    (hhead : rest.head? = other.head?)
    (hrest : ((indexPath steps >>= next) (later ++ rest)).rest? = some rest)
    (hbegins : beginsInvocation (⟨.name name, place⟩ :: (later ++ rest)) = false) :
    beginsInvocation (⟨.name name, place⟩ :: (later ++ other)) = false := by
  -- what the path leaves, which is more than what is left in the end
  obtain ⟨middle, hmiddle, hsuffix⟩ :
      ∃ middle, (indexPath steps (later ++ rest)).rest? = some middle ∧ rest <:+ middle := by
    rcases rest?_bind hrest with hpath | ⟨path, middle, hread, hrest⟩
    · exact ⟨rest, hpath, List.suffix_refl rest⟩
    · exact ⟨middle, by rw [hread]; rfl, (hnext path).of_rest? hrest⟩
  refine Bool.eq_false_iff.mpr fun hother => Bool.eq_false_iff.mp hbegins ?_
  have hboth := head?_append hhead later
  rcases beginsInvocation_eq_true.mp hother with ⟨_, _, opening, tokens, htokens⟩ | ⟨tokens, hafter⟩
  · -- a parenthesis behind the name is behind it in both lists
    rw [(List.cons.inj htokens).2, List.head?_cons] at hboth
    obtain ⟨tokens', htokens'⟩ := List.head?_eq_some_iff.mp hboth
    rw [htokens']
    rfl
  · obtain ⟨_, dot, field, opening, htokens⟩ := afterReadCall?_eq_some.mp hafter
    obtain ⟨hfirst, htokens⟩ := List.cons.inj htokens
    rw [htokens, List.head?_cons] at hboth
    obtain ⟨behind, hbehind⟩ := List.head?_eq_some_iff.mp hboth
    rw [hbehind] at hmiddle
    -- the path has taken the dot, and the name if there is one
    rcases indexPath_dot hmiddle with ⟨second, _, after, rfl, hafter⟩ | ⟨rfl, hnone⟩
    · obtain ⟨extra, rfl⟩ := hsuffix.trans hafter
      obtain rfl : later = ⟨.symbol .dot, dot⟩ :: ⟨.name second, _⟩ :: extra :=
        List.append_cancel_right (show later ++ rest = _ ++ rest from hbehind)
      obtain ⟨hsecond, htokens⟩ := List.cons.inj (List.cons.inj htokens).2
      have hopening := head?_append hhead extra
      rw [show extra ++ other = _ from htokens, List.head?_cons] at hopening
      obtain ⟨more, hmore⟩ := List.head?_eq_some_iff.mp hopening
      refine beginsInvocation_eq_true.mpr (.inr ⟨more, afterReadCall?_eq_some.mpr ?_⟩)
      exact ⟨_, dot, field, opening,
        by rw [hfirst, List.cons_append, List.cons_append, hsecond, hmore]⟩
    · obtain ⟨extra, rfl⟩ := hsuffix
      obtain rfl : later = ⟨.symbol .dot, dot⟩ :: extra :=
        List.append_cancel_right (show later ++ rest = _ ++ rest from hbehind)
      have hname := head?_append hhead extra
      rw [show extra ++ other = _ from (List.cons.inj htokens).2, List.head?_cons] at hname
      obtain ⟨more, hmore⟩ := List.head?_eq_some_iff.mp hname
      exact absurd hmore (hnone _ _ _)

/-- An expression that begins with a name takes it. -/
theorem takesName (steps : Nat) :
    TakesName (primary steps) ∧ ∀ level, TakesName (expressionAt steps level) := by
  induction steps with
  | zero =>
      constructor
      · intro name place tokens rest hrest
        cases hrest
      · intro level name place tokens rest hrest
        cases hrest
  | succ steps ih =>
      obtain ⟨hprimary, hexpression⟩ := ih
      constructor
      · intro name place tokens rest hrest
        rw [primary] at hrest
        dsimp only at hrest
        split at hrest
        · next hbegins =>
            -- a call takes more than the name, and nothing but the name is asked for
            rw [rest?_bind_pure] at hrest
            obtain ⟨taken, htaken⟩ := (expressionsTrim steps).invocation.of_rest? hrest
            rw [← htaken] at hrest hbegins
            obtain ⟨hsome, -⟩ := invocation_front hbegins hrest
            cases taken with
            | nil => exact absurd rfl hsome
            | cons token taken => exact ⟨taken, (List.cons.inj htaken).2⟩
        · exact (((expressionsTrim steps).indexPath).bind fun path => trims_pure _).of_rest? hrest
      · intro level
        have hleft (level : Level) : TakesName (do
            let first ← expressionAt steps level.next
            chain steps level first) :=
          (hexpression level.next).bind fun first => (expressionsTrim steps).chain level first
        have hoperand {level : Level} {build : Expression → Expression} : Trims (do
            let operand ← expressionAt steps level
            pure (build operand)) :=
          ((expressionsTrim steps).expressionAt level).bind fun operand => trims_pure _
        -- at every level the first operand begins with the name, down to the operands themselves
        cases level with
        | primary => exact hprimary
        | power =>
            rw [expressionAt]
            refine (hexpression .primary).bind fun base => (trims_acceptMap _).bind fun found => ?_
            split
            · exact hoperand
            · exact trims_pure _
        | unary =>
            intro name place tokens rest hrest
            exact hexpression .power hrest
        | concatenation =>
            rw [expressionAt]
            refine (hexpression .additive).bind fun left => (trims_acceptMap _).bind fun found => ?_
            split
            · exact hoperand
            · exact trims_pure _
        | disjunction => exact hleft .disjunction
        | conjunction => exact hleft .conjunction
        | comparison => exact hleft .comparison
        | additive => exact hleft .additive
        | multiplicative => exact hleft .multiplicative

/-- A field that begins with a name and no sign behind it is an expression. -/
theorem field_positional (steps : Nat) (text : String) (place : Position)
    (hsign : firstKind? tokens ≠ some (.symbol .assign)) :
    field (steps + 1) (⟨.name text, place⟩ :: tokens) =
      (do let value ← expressionAt steps .disjunction; pure (.positional value) : Reader Field)
        (⟨.name text, place⟩ :: tokens) := by
  rw [field]
  dsimp only
  split
  · next hlist =>
      obtain ⟨-, rfl⟩ := List.cons.inj hlist
      exact absurd rfl hsign
  · next hlist => cases hlist
  · rfl

theorem exists_of_firstKind? {kind : Token.Kind} (hkind : firstKind? tokens = some kind) :
    ∃ place behind, tokens = ⟨kind, place⟩ :: behind := by
  cases tokens with
  | nil => cases hkind
  | cons token behind =>
      cases hkind
      exact ⟨token.position, behind, rfl⟩

end Ahead

/-- Whether a rule is that of invocations. -/
def Rule.isInvocation : {α : Type} → Rule α → Bool
  | _, .invocation => true
  | _, _ => false

/-- All readers with one number of steps decide for those with another.  The reader of invocations
does only where an invocation begins, which is where it is used. -/
structure Deciding (steps steps' : Nat) : Prop where
  of {α : Type} (rule : Rule α) (hrule : rule.isInvocation = false) :
    Decides (rule.read steps) (rule.read steps')
  invocation (taken rest other : List Token) (hhead : rest.head? = other.head?)
    (hbegins : beginsInvocation (taken ++ rest) = true)
    (hrest : (invocation steps (taken ++ rest)).rest? = some rest) :
    Carried rest other (invocation steps (taken ++ rest)) (invocation steps' (taken ++ other))

namespace Deciding

variable {steps steps' : Nat} (hdeciding : Deciding steps steps')

include hdeciding

/-! ## Expressions -/

theorem expressionAt_succ (level : Level) :
    Decides (expressionAt (steps + 1) level) (expressionAt (steps' + 1) level) := by
  have hexpression (level : Level) := hdeciding.of (.expression level) rfl
  have hleft (level : Level) : Decides
      (do let first ← expressionAt steps level.next; chain steps level first)
      (do let first ← expressionAt steps' level.next; chain steps' level first) :=
    (hexpression level.next).bind fun first => hdeciding.of (.chain level first) rfl
  cases level with
  | primary => exact hdeciding.of .primary rfl
  | power =>
      rw [expressionAt, expressionAt]
      refine (hexpression .primary).bind fun base => (decides_acceptMap _).bind fun found => ?_
      split
      · exact (hexpression .unary).bind fun exponent => decides_pure _
      · exact decides_pure _
  | unary =>
      rw [expressionAt, expressionAt]
      refine (decides_acceptMap _).bind fun found => ?_
      split
      · exact (hexpression .unary).bind fun operand => decides_pure _
      · exact hexpression .power
  | concatenation =>
      rw [expressionAt, expressionAt]
      refine (hexpression .additive).bind fun left => (decides_acceptMap _).bind fun found => ?_
      split
      · exact (hexpression .concatenation).bind fun right => decides_pure _
      · exact decides_pure _
  | disjunction => exact hleft .disjunction
  | conjunction => exact hleft .conjunction
  | comparison => exact hleft .comparison
  | additive => exact hleft .additive
  | multiplicative => exact hleft .multiplicative

theorem chain_succ (level : Level) (left : Expression) :
    Decides (chain (steps + 1) level left) (chain (steps' + 1) level left) := by
  rw [chain, chain]
  refine (decides_acceptMap _).bind fun found => ?_
  split
  · next operator place =>
      refine (hdeciding.of (.expression level.next) rfl).bind fun right => ?_
      exact hdeciding.of (.chain level (.binary operator left right place)) rfl
  · exact decides_pure _

theorem indexPath_succ : Decides (indexPath (steps + 1)) (indexPath (steps' + 1)) where
  trims := (expressionsTrim (steps + 1)).indexPath
  carried taken rest other hhead hrest := by
    have hpath : Decides (indexPath steps) (indexPath steps') := hdeciding.of .indexPath rfl
    have hkey := hdeciding.of (.expression .disjunction) rfl
    obtain ⟨htokens, hothers⟩ | ⟨⟨kind, place⟩, tokens, others, htokens, hothers⟩ :=
      same_head (head?_append hhead taken)
    · exact Glance.carried (.stays [] rfl rfl) htokens hothers hrest
    · cases kind with
      | symbol mark =>
          cases mark with
          | dot =>
              refine Decides.behind ?_ [⟨.symbol .dot, place⟩] htokens hhead (by rw [htokens]; rfl)
                (fun _ => rfl) hrest
              exact decides_expectName.bind fun name => hpath.bind fun path => decides_pure _
          | openBracket =>
              refine Decides.behind ?_ [⟨.symbol .openBracket, place⟩] htokens hhead
                (by rw [htokens]; rfl) (fun _ => rfl) hrest
              refine hkey.bind fun key => (decides_expect _).bind fun _ => ?_
              exact hpath.bind fun path => decides_pure _
          | _ => exact Glance.carried (.stays [] rfl rfl) htokens hothers hrest
      | _ => exact Glance.carried (.stays [] rfl rfl) htokens hothers hrest

/-- Behind a name two readers go on with an invocation or with an index path. -/
theorem named {α : Type} {reader reader' : Reader α} {build : Invocation → α}
    {next next' : List Expression → Reader α} (hnext : ∀ path, Decides (next path) (next' path))
    {tokens taken rest other : List Token} {text : String} {place : Position}
    (hreader : ∀ tokens, reader (⟨.name text, place⟩ :: tokens) =
      if beginsInvocation (⟨.name text, place⟩ :: tokens) then
        (do let value ← Parser.invocation steps; pure (build value) : Reader α)
          (⟨.name text, place⟩ :: tokens)
      else (indexPath steps >>= next) tokens)
    (hreader' : ∀ tokens, reader' (⟨.name text, place⟩ :: tokens) =
      if beginsInvocation (⟨.name text, place⟩ :: tokens) then
        (do let value ← Parser.invocation steps'; pure (build value) : Reader α)
          (⟨.name text, place⟩ :: tokens)
      else (indexPath steps' >>= next') tokens)
    (htokens : taken ++ rest = ⟨.name text, place⟩ :: tokens) (hhead : rest.head? = other.head?)
    (hrest : (reader (taken ++ rest)).rest? = some rest) :
    Carried rest other (reader (taken ++ rest)) (reader' (taken ++ other)) := by
  rw [htokens, hreader] at hrest
  -- which way the first reader went shows in the tokens it took, so the second one goes the same
  -- way
  by_cases hbegins : beginsInvocation (⟨.name text, place⟩ :: tokens) = true
  · rw [if_pos hbegins, rest?_bind_pure, ← htokens] at hrest
    rw [← htokens] at hbegins
    obtain ⟨hsome, hothers⟩ := invocation_front hbegins hrest
    have hcarried := hdeciding.invocation taken rest other hhead hbegins hrest
    cases taken with
    | nil => exact absurd rfl hsome
    | cons token later =>
        obtain rfl := (List.cons.inj htokens).1
        have hfirst := (hreader (later ++ rest)).trans (if_pos hbegins)
        have hsecond := (hreader' (later ++ other)).trans (if_pos (hothers other))
        rw [List.cons_append, List.cons_append, hfirst, hsecond]
        exact carried_bind_pure build hcarried
  · rw [if_neg hbegins] at hrest
    have hdecides : Decides (indexPath steps >>= next) (indexPath steps' >>= next') :=
      (hdeciding.of .indexPath rfl).bind hnext
    obtain ⟨later, rfl, rfl⟩ := hdecides.trims.taken_behind [⟨.name text, place⟩] htokens hrest
    have hothers := beginsInvocation_of_path (fun path => (hnext path).trims) hhead hrest
      (Bool.eq_false_iff.mpr hbegins)
    have hfirst := (hreader (later ++ rest)).trans (if_neg hbegins)
    have hsecond := (hreader' (later ++ other)).trans (if_neg (Bool.eq_false_iff.mp hothers))
    rw [List.singleton_append, List.cons_append, List.cons_append, hfirst, hsecond]
    exact hdecides.carried later rest other hhead hrest

theorem primary_succ : Decides (primary (steps + 1)) (primary (steps' + 1)) where
  trims := (expressionsTrim (steps + 1)).primary
  carried taken rest other hhead hrest := by
    -- both lists begin with the same token, and the match looks at no other except behind a name
    obtain ⟨htokens, hothers⟩ | ⟨⟨kind, place⟩, tokens, others, htokens, hothers⟩ :=
      same_head (head?_append hhead taken)
    · exact Glance.carried (.refuses _ rfl rfl) htokens hothers hrest
    · cases kind with
      | integer text =>
          exact Glance.carried (.takes (.number .integer text place) _ rfl rfl) htokens hothers
            hrest
      | float text =>
          exact Glance.carried (.takes (.number .float text place) _ rfl rfl) htokens hothers hrest
      | string contents =>
          exact Glance.carried (.takes (.string contents place) _ rfl rfl) htokens hothers hrest
      | keyword word =>
          cases word with
          | nil_ => exact Glance.carried (.takes (.nil place) _ rfl rfl) htokens hothers hrest
          | true_ =>
              exact Glance.carried (.takes (.boolean true place) _ rfl rfl) htokens hothers hrest
          | false_ =>
              exact Glance.carried (.takes (.boolean false place) _ rfl rfl) htokens hothers hrest
          | _ => exact Glance.carried (.refuses _ rfl rfl) htokens hothers hrest
      | symbol mark =>
          cases mark with
          | openParen =>
              refine Decides.behind ?_ [⟨.symbol .openParen, place⟩] htokens hhead
                (by rw [htokens]; rfl) (fun _ => rfl) hrest
              refine (hdeciding.of (.expression .disjunction) rfl).bind fun inner => ?_
              exact (decides_expect _).bind fun _ => decides_pure _
          | openBrace =>
              refine Decides.behind ?_ [⟨.symbol .openBrace, place⟩] htokens hhead
                (by rw [htokens]; rfl) (fun _ => rfl) hrest
              refine (hdeciding.of .fieldList rfl).bind fun fields => ?_
              exact (decides_expect _).bind fun _ => decides_pure _
          | _ => exact Glance.carried (.refuses _ rfl rfl) htokens hothers hrest
      | name text =>
          exact hdeciding.named (fun path => decides_pure (.variable text path place))
            (fun _ => rfl) (fun _ => rfl) htokens hhead hrest

theorem expressionList_succ :
    Decides (expressionList (steps + 1)) (expressionList (steps' + 1)) := by
  rw [expressionList, expressionList]
  refine (hdeciding.of (.expression .disjunction) rfl).bind fun first => ?_
  refine (decides_accept _).bind fun found => ?_
  split
  · exact (hdeciding.of .expressionList rfl).bind fun others => decides_pure _
  · exact decides_pure _

theorem fieldList_succ : Decides (fieldList (steps + 1)) (fieldList (steps' + 1)) := by
  have hmore (first : Field) : Decides
      (do let others ← fieldList steps; pure (first :: others))
      (do let others ← fieldList steps'; pure (first :: others)) :=
    (hdeciding.of .fieldList rfl).bind fun others => decides_pure _
  rw [fieldList, fieldList]
  refine decides_peek.bind fun next => ?_
  split
  · exact decides_pure _
  · exact decides_pure _
  · refine (hdeciding.of .field rfl).bind fun first => (decides_accept _).bind fun comma => ?_
    split
    · exact hmore first
    · refine (decides_accept _).bind fun semicolon => ?_
      split
      · exact hmore first
      · exact decides_pure _

/-- A field that is given by a name is known by the sign behind the name.  Where there is no such
sign, the name begins an expression, which takes it, so that the sign would be the next token. -/
theorem field_succ : Decides (field (steps + 1)) (field (steps' + 1)) where
  trims := (expressionsTrim (steps + 1)).field
  carried taken rest other hhead hrest := by
    have hvalue := hdeciding.of (.expression .disjunction) rfl
    have hpositional : Decides
        (do let value ← expressionAt steps .disjunction; pure (.positional value) : Reader Field)
        (do let value ← expressionAt steps' .disjunction; pure (.positional value)) :=
      hvalue.bind fun value => decides_pure _
    -- two lists that are read as an expression
    have hplain (hfirst : field (steps + 1) (taken ++ rest) =
          (do let value ← expressionAt steps .disjunction; pure (.positional value) : Reader Field)
            (taken ++ rest))
        (hsecond : field (steps' + 1) (taken ++ other) =
          (do let value ← expressionAt steps' .disjunction; pure (.positional value) : Reader Field)
            (taken ++ other)) :
        Carried rest other (field (steps + 1) (taken ++ rest))
          (field (steps' + 1) (taken ++ other)) := by
      rw [hfirst] at hrest ⊢
      rw [hsecond]
      exact hpositional.carried taken rest other hhead hrest
    obtain ⟨htokens, hothers⟩ | ⟨⟨kind, place⟩, tokens, others, htokens, hothers⟩ :=
      same_head (head?_append hhead taken)
    · exact hplain (by rw [htokens]; rfl) (by rw [hothers]; rfl)
    · cases kind with
      | symbol mark =>
          cases mark with
          | openBracket =>
              refine Decides.behind ?_ [⟨.symbol .openBracket, place⟩] htokens hhead
                (by rw [htokens]; rfl) (fun _ => rfl) hrest
              refine hvalue.bind fun key => (decides_expect _).bind fun _ => ?_
              exact (decides_expect _).bind fun _ => hvalue.bind fun value => decides_pure _
          | _ => exact hplain (by rw [htokens]; rfl) (by rw [hothers]; rfl)
      | name text =>
          by_cases hsign : firstKind? tokens = some (.symbol .assign)
          · -- a key: the name and the sign are taken, and are the same in both lists
            obtain ⟨sign, behind, rfl⟩ := exists_of_firstKind? hsign
            exact Decides.behind (hvalue.bind fun value => decides_pure _)
              [⟨.name text, place⟩, ⟨.symbol .assign, sign⟩] htokens hhead (by rw [htokens]; rfl)
              (fun _ => rfl) hrest
          · -- an expression, which takes the name; so the token behind it is the same in both lists
            have hfirst := field_positional steps text place hsign
            have hread := hrest
            rw [htokens, hfirst, rest?_bind_pure] at hread
            obtain ⟨later, rfl⟩ := (takesName steps).2 .disjunction hread
            obtain rfl : taken = ⟨.name text, place⟩ :: later :=
              List.append_cancel_right (show taken ++ rest = (_ :: later) ++ rest from htokens)
            obtain rfl : later ++ other = others := (List.cons.inj hothers).2
            rw [firstKind?_congr (head?_append hhead later)] at hsign
            exact hplain hfirst (field_positional steps' text place hsign)
      | _ => exact hplain (by rw [htokens]; rfl) (by rw [hothers]; rfl)

theorem invocation_succ (taken rest other : List Token) (hhead : rest.head? = other.head?)
    (hbegins : beginsInvocation (taken ++ rest) = true)
    (hrest : (Parser.invocation (steps + 1) (taken ++ rest)).rest? = some rest) :
    Carried rest other (Parser.invocation (steps + 1) (taken ++ rest))
      (Parser.invocation (steps' + 1) (taken ++ other)) := by
  obtain ⟨name, place, opening, tokens, htokens⟩ | ⟨tokens, hafter⟩ :=
    beginsInvocation_eq_true.mp hbegins
  · refine Decides.behind ?_ [⟨.name name, place⟩, ⟨.symbol .openParen, opening⟩] htokens hhead
      (by rw [htokens]; rfl) (invocation_call name place opening) hrest
    refine (hdeciding.of .argumentList rfl).bind fun arguments => ?_
    split
    · exact decides_pure _
    · exact decides_pure _
  · obtain ⟨place, dot, name, opening, htokens⟩ := afterReadCall?_eq_some.mp hafter
    refine Decides.behind ?_ [⟨.name "io", place⟩, ⟨.symbol .dot, dot⟩, ⟨.name "read", name⟩,
      ⟨.symbol .openParen, opening⟩] htokens hhead (by rw [htokens, invocation_read])
      (invocation_read place dot name opening) hrest
    exact (hdeciding.of .readFormat rfl).bind fun format => decides_pure _

theorem argumentList_succ : Decides (argumentList (steps + 1)) (argumentList (steps' + 1)) := by
  rw [argumentList, argumentList]
  refine (decides_accept _).bind fun found => ?_
  split
  · exact decides_pure _
  · refine (hdeciding.of .expressionList rfl).bind fun values => ?_
    exact (decides_expect _).bind fun _ => decides_pure _

theorem readFormat_succ : Decides (readFormat (steps + 1)) (readFormat (steps' + 1)) := by
  rw [readFormat, readFormat]
  refine (decides_accept _).bind fun found => ?_
  split
  · exact decides_pure _
  · refine (hdeciding.of (.expression .disjunction) rfl).bind fun format => ?_
    exact (decides_expect _).bind fun _ => decides_pure _

/-! ## Statements -/

theorem parameterList_succ : Decides (parameterList (steps + 1)) (parameterList (steps' + 1)) := by
  rw [parameterList, parameterList]
  refine decides_peek.bind fun next => ?_
  split
  · exact decides_pure _
  · exact decides_pure _
  · refine decides_expectName.bind fun first => (decides_accept _).bind fun found => ?_
    split
    · exact (hdeciding.of .parameterList rfl).bind fun others => decides_pure _
    · exact decides_pure _

theorem block_succ (inLoop : Bool) :
    Decides (block (steps + 1) inLoop) (block (steps' + 1) inLoop) := by
  rw [block, block]
  refine (hdeciding.of (.statementList inLoop) rfl).bind fun statements => ?_
  refine decides_peek.bind fun next => ?_
  split
  · exact (hdeciding.of .returnClause rfl).bind fun result => decides_pure _
  · exact decides_pure _

theorem statementList_succ (inLoop : Bool) :
    Decides (statementList (steps + 1) inLoop) (statementList (steps' + 1) inLoop) := by
  rw [statementList, statementList]
  refine decides_peek.bind fun next => ?_
  split
  · exact decides_pure _
  · refine (hdeciding.of (.statement inLoop) rfl).bind fun first => ?_
    exact (hdeciding.of (.statementList inLoop) rfl).bind fun others => decides_pure _

theorem branchList_succ (inLoop : Bool) :
    Decides (branchList (steps + 1) inLoop) (branchList (steps' + 1) inLoop) := by
  have hbody := hdeciding.of (.block inLoop) rfl
  rw [branchList, branchList]
  refine (hdeciding.of (.expression .disjunction) rfl).bind fun condition => ?_
  refine (decides_expect _).bind fun _ => hbody.bind fun body => ?_
  refine (decides_accept _).bind fun further => ?_
  split
  · exact (hdeciding.of (.branchList inLoop) rfl).bind fun branches => decides_pure _
  · refine (decides_accept _).bind fun last => ?_
    split
    · exact hbody.bind fun otherwise => decides_pure _
    · exact decides_pure _

theorem statement_succ (inLoop : Bool) :
    Decides (statement (steps + 1) inLoop) (statement (steps' + 1) inLoop) where
  trims := (statementsTrim (steps + 1)).statement inLoop
  carried taken rest other hhead hrest := by
    have hexpression := hdeciding.of (.expression .disjunction) rfl
    have hclosed (body : Bool) (build : Block → Statement) : Decides
        (do
          let body ← block steps body
          let _ ← expect (.keyword .end_)
          pure (build body))
        (do
          let body ← block steps' body
          let _ ← expect (.keyword .end_)
          pure (build body)) :=
      (hdeciding.of (.block body) rfl).bind fun _ => (decides_expect _).bind fun _ => decides_pure _
    obtain ⟨htokens, hothers⟩ | ⟨⟨kind, place⟩, tokens, others, htokens, hothers⟩ :=
      same_head (head?_append hhead taken)
    · exact Glance.carried (.refuses _ rfl rfl) htokens hothers hrest
    · -- one token decides, except for names, where an invocation has to be told from an assignment
      cases kind with
      | symbol mark =>
          cases mark with
          | semicolon =>
              exact Glance.carried (.takes (.empty place) _ rfl rfl) htokens hothers hrest
          | _ => exact Glance.carried (.refuses _ rfl rfl) htokens hothers hrest
      | keyword word =>
          cases word with
          | break_ =>
              cases inLoop with
              | true =>
                  exact Glance.carried (.takes (.break_ place) _ rfl rfl) htokens hothers hrest
              | false => exact Glance.carried (.refuses _ rfl rfl) htokens hothers hrest
          | local_ =>
              exact Decides.behind (hdeciding.of (.declaration place) rfl)
                [⟨.keyword .local_, place⟩] htokens hhead (by rw [htokens]; rfl) (fun _ => rfl)
                hrest
          | if_ =>
              refine Decides.behind ?_ [⟨.keyword .if_, place⟩] htokens hhead
                (by rw [htokens]; rfl) (fun _ => rfl) hrest
              refine (hdeciding.of (.branchList inLoop) rfl).bind fun branches => ?_
              exact (decides_expect _).bind fun _ => decides_pure _
          | function_ =>
              refine Decides.behind ?_ [⟨.keyword .function_, place⟩] htokens hhead
                (by rw [htokens]; rfl) (fun _ => rfl) hrest
              refine decides_expectName.bind fun name => (decides_expect _).bind fun _ => ?_
              refine (hdeciding.of .parameterList rfl).bind fun parameters => ?_
              exact (decides_expect _).bind fun _ => hclosed false _
          | while_ =>
              refine Decides.behind ?_ [⟨.keyword .while_, place⟩] htokens hhead
                (by rw [htokens]; rfl) (fun _ => rfl) hrest
              refine hexpression.bind fun condition => (decides_expect _).bind fun _ => ?_
              exact hclosed true _
          | repeat_ =>
              refine Decides.behind ?_ [⟨.keyword .repeat_, place⟩] htokens hhead
                (by rw [htokens]; rfl) (fun _ => rfl) hrest
              refine (hdeciding.of (.block true) rfl).bind fun body => ?_
              refine (decides_expect _).bind fun _ => hexpression.bind fun condition => ?_
              exact decides_pure _
          | for_ =>
              refine Decides.behind ?_ [⟨.keyword .for_, place⟩] htokens hhead
                (by rw [htokens]; rfl) (fun _ => rfl) hrest
              refine decides_expectName.bind fun name => (decides_expect _).bind fun _ => ?_
              refine hexpression.bind fun start => (decides_expect _).bind fun _ => ?_
              refine hexpression.bind fun limit => (hdeciding.of .forStep rfl).bind fun step => ?_
              exact (decides_expect _).bind fun _ => hclosed true _
          | do_ =>
              exact Decides.behind (hclosed inLoop _) [⟨.keyword .do_, place⟩] htokens hhead
                (by rw [htokens]; rfl) (fun _ => rfl) hrest
          | _ => exact Glance.carried (.refuses _ rfl rfl) htokens hothers hrest
      | name text =>
          refine hdeciding.named (fun path => ?_) (fun _ => rfl) (fun _ => rfl) htokens hhead hrest
          refine (decides_expect _).bind fun _ => hexpression.bind fun value => ?_
          exact decides_pure (Statement.assign text path value place)
      | _ => exact Glance.carried (.refuses _ rfl rfl) htokens hothers hrest

end Deciding

/-! ### Readers that spend no step of their own -/

section

variable {steps steps' : Nat}

theorem returnClause_decides (hlist : Decides (expressionList steps) (expressionList steps')) :
    Decides (returnClause steps) (returnClause steps') := by
  have hend (position : Position) (values : List Expression) : Decides
      (do let _ ← accept (.symbol .semicolon); pure (⟨values, position⟩ : Return))
      (do let _ ← accept (.symbol .semicolon); pure (⟨values, position⟩ : Return)) :=
    (decides_accept _).bind fun _ => decides_pure _
  unfold returnClause
  refine (decides_expect _).bind fun position => decides_peek.bind fun next => ?_
  split
  · exact (decides_pure _).bind (hend position)
  · exact hlist.bind (hend position)

theorem declaration_decides (position : Position)
    (hexpression : Decides (expressionAt steps .disjunction) (expressionAt steps' .disjunction)) :
    Decides (declaration steps position) (declaration steps' position) := by
  unfold declaration
  refine decides_expectName.bind fun name => decides_peek.bind fun next => ?_
  split
  · exact decides_refuse fun _ => trivial
  · exact (decides_expect _).bind fun _ => hexpression.bind fun value => decides_pure _

theorem forStep_decides
    (hexpression : Decides (expressionAt steps .disjunction) (expressionAt steps' .disjunction)) :
    Decides (forStep steps) (forStep steps') := by
  unfold forStep
  refine (decides_accept _).bind fun found => ?_
  split
  · exact hexpression.bind fun step => decides_pure _
  · exact decides_pure _

end

/-! ### All rules -/

theorem deciding : ∀ steps steps' : Nat, Deciding steps steps' := by
  intro steps
  induction steps with
  | zero =>
      intro steps'
      refine ⟨fun {α} rule hrule => ?_, fun _ _ _ _ _ hrest => by cases hrest⟩
      cases rule with
      | returnClause => exact returnClause_decides (exhausted_decides _)
      | declaration position => exact declaration_decides position (exhausted_decides _)
      | forStep => exact forStep_decides (exhausted_decides _)
      | _ => exact exhausted_decides _
  | succ steps ih =>
      intro steps'
      cases steps' with
      | zero =>
          -- the other reader has no steps, and an exhausted reader contradicts nothing
          refine ⟨fun {α} rule hrule => ?_, fun taken rest _ _ _ _ => .exhausted _⟩
          have hexpressions := expressionsTrim (steps + 1)
          cases rule with
          | returnClause =>
              exact returnClause_decides (decides_exhausted hexpressions.expressionList)
          | declaration position =>
              exact declaration_decides position
                (decides_exhausted (hexpressions.expressionAt .disjunction))
          | forStep =>
              exact forStep_decides (decides_exhausted (hexpressions.expressionAt .disjunction))
          | _ => exact decides_exhausted (Rule.trims _)
      | succ steps' =>
          have hdeciding := ih steps'
          refine ⟨fun {α} rule hrule => ?_, hdeciding.invocation_succ⟩
          cases rule with
          | expression level => exact hdeciding.expressionAt_succ level
          | chain level left => exact hdeciding.chain_succ level left
          | primary => exact hdeciding.primary_succ
          | indexPath => exact hdeciding.indexPath_succ
          | expressionList => exact hdeciding.expressionList_succ
          | fieldList => exact hdeciding.fieldList_succ
          | field => exact hdeciding.field_succ
          | invocation => cases hrule
          | argumentList => exact hdeciding.argumentList_succ
          | readFormat => exact hdeciding.readFormat_succ
          | parameterList => exact hdeciding.parameterList_succ
          | returnClause => exact returnClause_decides hdeciding.expressionList_succ
          | declaration position =>
              exact declaration_decides position (hdeciding.expressionAt_succ .disjunction)
          | forStep => exact forStep_decides (hdeciding.expressionAt_succ .disjunction)
          | block inLoop => exact hdeciding.block_succ inLoop
          | statementList inLoop => exact hdeciding.statementList_succ inLoop
          | statement inLoop => exact hdeciding.statement_succ inLoop
          | branchList inLoop => exact hdeciding.branchList_succ inLoop

/-- Where no invocation begins, the reader of invocations refuses the first token. -/
theorem invocation_refuses {steps : Nat} {tokens : List Token}
    (hbegins : beginsInvocation tokens = false) :
    invocation (steps + 1) tokens = refuse .noExpression tokens := by
  have hneither := Bool.eq_false_iff.mp hbegins
  rw [Ne, beginsInvocation_eq_true] at hneither
  rw [invocation]
  dsimp only
  split
  · exact absurd (.inl ⟨_, _, _, _, rfl⟩) hneither
  · split
    · next rest hafter => exact absurd (.inr ⟨rest, hafter⟩) hneither
    · rfl
  · rfl

/-- **A reader decides by the tokens that it takes and the next one.** -/
theorem Rule.decides {α : Type} (rule : Rule α) (hrule : rule.isInvocation = false)
    (steps steps' : Nat) : Decides (rule.read steps) (rule.read steps') :=
  (deciding steps steps').of rule hrule

/-- **The steps make no difference**, as long as they are not used up. -/
theorem Rule.read_eq {α : Type} (rule : Rule α) {steps steps' : Nat} {tokens : List Token}
    (hfirst : rule.read steps tokens ≠ .exhausted)
    (hsecond : rule.read steps' tokens ≠ .exhausted) :
    rule.read steps' tokens = rule.read steps tokens := by
  cases rule with
  | invocation =>
      cases hbegins : beginsInvocation tokens with
      | true =>
          refine eq_of_carried (expressionsTrim steps).invocation
            (fun taken rest htokens hrest => ?_) hfirst hsecond
          rw [htokens] at hbegins hrest ⊢
          exact (deciding steps steps').invocation taken rest rest rfl hbegins hrest
      | false =>
          cases steps with
          | zero => exact absurd rfl hfirst
          | succ steps =>
              cases steps' with
              | zero => exact absurd rfl hsecond
              | succ steps' =>
                  exact (invocation_refuses hbegins).trans (invocation_refuses hbegins).symm
  | _ => exact ((deciding steps steps').of _ rfl).eq hfirst hsecond

end Parser

end TableScript
