import TableScript.Proofs.Lexis.Scan

/-!
# Tokens and text

The lexer gives a list of tokens if and only if the text is cut into them.  One direction says that
nothing is lost: every character of the text is in the slice of one token or in a gap, and every
token is where its slice is.  The other says that nothing else decides: however a text comes to be
cut, these are its tokens.
-/

namespace TableScript

open Lexer

/-! ## Gaps before gaps -/

theorem Gap.spaces {run gap rest : List Char} (hrun : ∀ character ∈ run, isSpace character = true)
    (hgap : Gap gap rest) : Gap (run ++ gap) rest := by
  induction run with
  | nil => exact hgap
  | cons character run ih =>
      obtain ⟨hspace, hmore⟩ := List.forall_mem_cons.mp hrun
      exact .space hspace (ih hmore)

/-- A piece that is a gap makes a gap longer. -/
theorem gap_of_scan {first : Char} {rest more : List Char}
    (hscan : scan first rest = (.gap, more)) :
    ∃ after, rest = more ++ after ∧ ∀ gap remaining, after = gap ++ remaining →
      Gap gap remaining → Gap (first :: more ++ gap) remaining := by
  unfold scan at hscan
  split at hscan
  · -- a run of spaces is taken at once, and is one space after the other in the gap
    next hspace =>
      simp only [Prod.mk.injEq, true_and] at hscan
      obtain ⟨after, rfl, hrun, -⟩ := takeWhile_eq_iff.mp hscan
      exact ⟨after, rfl, fun gap remaining _ hgap => .space hspace (hgap.spaces hrun)⟩
  split at hscan
  · next hdashes =>
      simp only [Bool.and_eq_true, decide_eq_true_eq] at hdashes
      obtain ⟨rfl, hdash⟩ := hdashes
      obtain ⟨tail, rfl⟩ := List.head?_eq_some_iff.mp hdash
      simp only [List.tail_cons, Prod.mk.injEq] at hscan
      obtain ⟨hgap, rfl⟩ := hscan
      have hread : readComment tail = (.gap, (readComment tail).2) := Prod.ext hgap rfl
      obtain ⟨after, htail, hcomment⟩ := readComment_eq_gap_iff.mp hread
      refine ⟨after, by rw [List.cons_append, ← htail], fun gap remaining hafter hgap => ?_⟩
      rcases hcomment with ⟨hbody, hopen, hnext⟩ | ⟨body, hbody, hfirst⟩
      · exact .line hbody hopen (hafter ▸ hnext) hgap
      · rw [hbody]
        simpa using Gap.bracketed hfirst hgap
  -- nothing else is a gap
  split at hscan
  · simp only [Prod.mk.injEq, quotedPiece] at hscan
    grind
  split at hscan
  · cases hscan
  split at hscan
  · cases hscan
  split at hscan
  · cases hscan
  · split at hscan <;> cases hscan

/-! ## From slices to a cut -/

/-- The slices of a text, from a place on, are without fault and have these tokens. -/
def Lexes (position : Position) (text : List Char) (tokens : List Token) : Prop :=
  (slices position text).flatMap Slice.diagnostics = [] ∧
    (slices position text).filterMap Slice.token? = tokens

section Lexes

variable {position : Position} {first : Char} {more after : List Char} {tokens : List Token}

theorem slices_of_scan {piece : Piece} (hscan : scan first (more ++ after) = (piece, more)) :
    slices position (first :: (more ++ after)) = ⟨piece, position, first :: more⟩ ::
      slices (position.afterAll (first :: more)) after := by
  rw [slices, hscan]
  simp

theorem lexes_nil : Lexes position [] tokens ↔ tokens = [] := by
  simp [Lexes, slices, eq_comm]

theorem lexes_gap (hscan : scan first (more ++ after) = (.gap, more)) :
    Lexes position (first :: (more ++ after)) tokens ↔
      Lexes (position.afterAll (first :: more)) after tokens := by
  unfold Lexes
  rw [slices_of_scan hscan]
  exact Iff.rfl

theorem lexes_token {kind : Token.Kind} (hscan : scan first (more ++ after) = (.token kind, more)) :
    Lexes position (first :: (more ++ after)) tokens ↔
      ∃ others, tokens = ⟨kind, position⟩ :: others ∧
        Lexes (position.afterAll (first :: more)) after others := by
  unfold Lexes
  rw [slices_of_scan hscan]
  constructor
  · rintro ⟨hclean, rfl⟩
    exact ⟨_, rfl, hclean, rfl⟩
  · rintro ⟨_, rfl, hclean, rfl⟩
    exact ⟨hclean, rfl⟩

/-- The first piece of a text without fault is a gap or a token. -/
theorem scan_of_lexes {rest : List Char} (hlexes : Lexes position (first :: rest) tokens) :
    (∃ more, scan first rest = (.gap, more)) ∨
      ∃ kind more, scan first rest = (.token kind, more) := by
  have hclean := hlexes.1
  rw [slices, List.flatMap_cons, List.append_eq_nil_iff] at hclean
  rcases hscan : scan first rest with ⟨piece, more⟩
  cases piece with
  | gap => exact .inl ⟨more, rfl⟩
  | token kind => exact .inr ⟨kind, more, rfl⟩
  | stray character =>
      have hbytes : bytesOf character = [] := by simpa [hscan, Slice.diagnostics] using hclean.1
      exact absurd (List.map_eq_nil_iff.mp hbytes) String.utf8EncodeChar_ne_nil
  | faulty problem before => simp [hscan, Slice.diagnostics] at hclean

end Lexes

/-- A piece that makes gaps longer is put in front of a cut. -/
theorem Cut.afterGap {before piece after : List Char} {tokens : List Token}
    (hlonger : ∀ gap remaining, after = gap ++ remaining → Gap gap remaining →
      Gap (piece ++ gap) remaining)
    (hcut : Cut (before ++ piece) after tokens) : Cut before (piece ++ after) tokens := by
  cases hcut with
  | finish hgap => exact .finish (hlonger after [] (by simp) hgap)
  | token hgap hspells hends hrest =>
      rw [List.append_assoc before] at hrest ⊢
      rw [← List.append_assoc piece]
      exact .token (hlonger _ _ rfl hgap) hspells hends hrest

/-- A token without a gap is put in front of a cut. -/
theorem Cut.afterToken {before slice rest : List Char} {kind : Token.Kind} {tokens : List Token}
    (hspells : kind.Spells slice) (hends : kind.EndsBefore slice rest)
    (hcut : Cut (before ++ slice) rest tokens) :
    Cut before (slice ++ rest) (⟨kind, placeAfter before⟩ :: tokens) := by
  simpa using Cut.token (.nothing _) hspells hends (by simpa using hcut)

/-- Every text that is lexed is cut into its tokens. -/
theorem cut_of_lexes {before text : List Char} {tokens : List Token}
    (hlexes : Lexes (placeAfter before) text tokens) : Cut before text tokens := by
  induction hlength : text.length using Nat.strongRecOn generalizing before text tokens with
  | ind length ih =>
      cases text with
      | nil =>
          obtain rfl := lexes_nil.mp hlexes
          exact .finish (.nothing [])
      | cons first rest =>
          rcases scan_of_lexes hlexes with ⟨more, hscan⟩ | ⟨kind, more, hscan⟩
          · obtain ⟨after, rfl, hlonger⟩ := gap_of_scan hscan
            rw [lexes_gap hscan, afterAll_placeAfter] at hlexes
            have hshorter : after.length < length := by simp at hlength; omega
            exact .afterGap hlonger (ih _ hshorter hlexes rfl)
          · obtain ⟨after, rfl, hspells, hends⟩ := spells_of_scan hscan
            rw [lexes_token hscan, afterAll_placeAfter] at hlexes
            obtain ⟨others, rfl, hothers⟩ := hlexes
            have hshorter : after.length < length := by simp at hlength; omega
            exact .afterToken hspells hends (ih _ hshorter hothers rfl)

/-! ## From a cut to slices -/

/-- One space more in front changes nothing but the places. -/
theorem lexes_space {position : Position} {character : Char} {text : List Char}
    {tokens : List Token} (hspace : isSpace character = true)
    (hlexes : Lexes (position.after character) text tokens) :
    Lexes position (character :: text) tokens := by
  obtain ⟨after, htext, hrun, hnext⟩ := takeWhile_eq_iff.mp (Eq.refl (text.takeWhile isSpace))
  generalize text.takeWhile isSpace = run at htext hrun
  subst htext
  have hscan : scan character (run ++ after) = (.gap, run) := by
    rw [scan_space hspace, takeWhile_eq_iff.mpr ⟨after, rfl, hrun, hnext⟩]
  rw [lexes_gap hscan, Position.afterAll_cons]
  cases run with
  | nil => exact hlexes
  | cons second run =>
      obtain ⟨hsecond, hmore⟩ := List.forall_mem_cons.mp hrun
      have hscan : scan second (run ++ after) = (.gap, run) := by
        rw [scan_space hsecond, takeWhile_eq_iff.mpr ⟨after, rfl, hmore, hnext⟩]
      exact (lexes_gap hscan).mp hlexes

/-- One comment more in front changes nothing but the places. -/
theorem lexes_comment {before comment rest : List Char} {tokens : List Token}
    (hread : readComment (comment ++ rest) = (.gap, comment))
    (hlexes : Lexes (placeAfter (before ++ '-' :: '-' :: comment)) rest tokens) :
    Lexes (placeAfter before) ('-' :: '-' :: (comment ++ rest)) tokens := by
  have hscan : scan '-' ('-' :: comment ++ rest) = (.gap, '-' :: comment) := by
    rw [List.cons_append, scan_comment, hread]
  refine (lexes_gap hscan).mpr ?_
  rw [afterAll_placeAfter]
  exact hlexes

/-- A gap in front changes nothing but the places. -/
theorem lexes_of_gap {gap rest : List Char} (hgap : Gap gap rest) {before : List Char}
    {tokens : List Token} (hlexes : Lexes (placeAfter (before ++ gap)) rest tokens) :
    Lexes (placeAfter before) (gap ++ rest) tokens := by
  induction hgap generalizing before with
  | nothing rest => simpa using hlexes
  | space hspace _ ih =>
      refine lexes_space hspace ?_
      rw [← placeAfter_snoc]
      exact ih (by simpa using hlexes)
  | line hbody hopen hend _ ih =>
      rw [List.cons_append, List.cons_append, List.append_assoc]
      refine lexes_comment (readComment_eq_gap_iff.mpr ⟨_, rfl, .inl ⟨hbody, hopen, hend⟩⟩) ?_
      exact ih (by simpa using hlexes)
  | @bracketed body gap rest hbody _ ih =>
      have hread := readComment_eq_gap_iff.mpr ⟨gap ++ rest, rfl, .inr ⟨body, rfl, hbody⟩⟩
      have hcomment := lexes_comment hread (ih (by simpa using hlexes))
      simpa using hcomment

/-- However a text is cut, its tokens are lexed. -/
theorem lexes_of_cut {before text : List Char} {tokens : List Token}
    (hcut : Cut before text tokens) : Lexes (placeAfter before) text tokens := by
  induction hcut with
  | finish hgap => simpa using lexes_of_gap hgap (lexes_nil.mpr rfl)
  | token hgap hspells hends _ ih =>
      refine lexes_of_gap hgap ?_
      -- where the gap ends, the scanner takes the slice of this token and no more
      obtain ⟨first, more, rfl, hscan⟩ := scan_of_spells hspells hends
      refine (lexes_token hscan).mpr ⟨_, rfl, ?_⟩
      rw [afterAll_placeAfter]
      exact ih

/-! ## Whole texts -/

theorem tokenize_eq_ok_iff_lexes {source : String} {tokens : List Token} {finish : Position} :
    tokenize source = .ok ⟨tokens, finish⟩ ↔
      Lexes (placeAfter []) source.toList tokens ∧ finish = placeAfter source.toList := by
  have hfinish : Position.start.afterAll source.toList = placeAfter source.toList :=
    afterAll_placeAfter [] source.toList
  unfold tokenize Lexes
  dsimp only
  -- the lexer succeeds just if no slice has a problem, and its tokens are those of the slices
  split
  · next hclean =>
      constructor
      · intro hok
        cases hok
        exact ⟨⟨hclean, rfl⟩, hfinish⟩
      · rintro ⟨⟨-, rfl⟩, rfl⟩
        rw [← hfinish]
        rfl
  · next hfault =>
      constructor
      · intro hok
        cases hok
      · rintro ⟨⟨hclean, -⟩, -⟩
        exact absurd hclean hfault

/-- **The lexer cuts a text and loses nothing.**  It gives these tokens if and only if the text is,
one after the other, the slices of the tokens and gaps of spaces and complete comments: the slice of
each token spells it and is as long as it can be, its line is one more than the line feeds before
it, and its column one more than the bytes since the last of them. -/
theorem tokenize_eq_ok_iff {source : String} {tokens : List Token} {finish : Position} :
    tokenize source = .ok ⟨tokens, finish⟩ ↔
      Cut [] source.toList tokens ∧ finish = placeAfter source.toList := by
  rw [tokenize_eq_ok_iff_lexes]
  exact and_congr_left' ⟨cut_of_lexes, lexes_of_cut⟩

end TableScript
