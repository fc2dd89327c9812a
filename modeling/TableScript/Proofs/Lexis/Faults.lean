import Mathlib.Data.List.Pairwise
import TableScript.Proofs.Lexis.Order
import TableScript.Proofs.Lexis.Scan

/-!
# Faults of a text

What is wrong with the pieces of a text is reported at three kinds of places: at the beginning of a
piece, at the character of a string literal that cannot be escaped, and at each byte of a character
that begins no token.  All of them lie inside the slice that is faulty (`Slice.Reported`), and
slices lie one behind the other; so the reports of a text come in the order of their places
(`slices_reported`).
-/

namespace TableScript

/-- A place is that of a byte of a text, or that of its end. -/
def AtByte (text : List Char) (position : Position) : Prop :=
  ∃ before after, utf8 text = before ++ after ∧ position = bytePlace before

theorem atByte_placeAfter (before after : List Char) :
    AtByte (before ++ after) (placeAfter before) :=
  ⟨utf8 before, utf8 after, utf8_append before after, (bytePlace_utf8 before).symm⟩

namespace Lexer

/-- A place lies in a slice: not before its first character, and before its end. -/
def Slice.Covers (slice : Slice) (position : Position) : Prop :=
  slice.position ≤ position ∧ position < slice.finish

/-! ## Where the problem of a piece is -/

/-- The character that cannot be escaped is the next one after those said to be before it. -/
def Quoted.Pointed (quoted : Quoted) : Prop :=
  ∀ escaped before, quoted.badEscape = some (escaped, before) →
    ∃ more, quoted.taken = before ++ escaped :: more

theorem Quoted.Pointed.prepend {quoted : Quoted} (hpointed : quoted.Pointed)
    (written meant : List Char) : (quoted.prepend written meant).Pointed := by
  intro escaped before hescape
  obtain ⟨⟨_, later⟩, hlater, hparts⟩ := Option.map_eq_some_iff.mp hescape
  cases hparts
  obtain ⟨more, hmore⟩ := hpointed escaped later hlater
  refine ⟨more, ?_⟩
  change written ++ quoted.taken = written ++ later ++ escaped :: more
  rw [hmore, List.append_assoc]

theorem readQuoted_pointed (quote : Char) (text : List Char) : (readQuoted quote text).Pointed := by
  fun_induction readQuoted quote text with
  | case1 | case4 | case5 =>
      intro escaped before hescape
      cases hescape
  | case2 escaped rest meant hmeant ih => exact ih.prepend _ _
  | case3 escaped rest hmeant ih =>
      intro escaped' before hescape
      cases hescape
      exact ⟨(readQuoted quote rest).taken, rfl⟩
  | case6 character rest hslash hfeed hother ih => exact ih.prepend _ _

theorem readQuoted_taken (quote : Char) (text : List Char) :
    (readQuoted quote text).taken <+: text := by
  fun_induction readQuoted quote text with
  | case1 | case4 => exact List.nil_prefix
  | case2 escaped rest meant hmeant ih =>
      exact (List.prefix_append_right_inj ['\\', escaped]).mpr ih
  | case3 escaped rest hmeant _ ih =>
      exact (List.prefix_append_right_inj ['\\', escaped]).mpr ih
  | case5 rest hslash hfeed => exact ⟨rest, rfl⟩
  | case6 character rest hslash hfeed hother ih => exact List.cons_prefix_cons.mpr ⟨rfl, ih⟩

variable {first : Char} {rest before : List Char} {problem : Problem}

/-- Outside string literals a faulty piece has its problem at its beginning. -/
theorem scan_faulty_start (hquote : ¬ (first = '"' ∨ first = '\''))
    (hscan : (scan first rest).1 = .faulty problem before) :
    (problem = .openComment ∨ problem = .loneTilde) ∧ before = [] := by
  unfold scan at hscan
  split at hscan
  · cases hscan
  split at hscan
  · -- a comment can only be open
    dsimp only at hscan
    unfold readComment at hscan
    split at hscan
    · split at hscan <;> cases hscan
      exact ⟨.inl rfl, rfl⟩
    · cases hscan
  split at hscan
  · next hquotes => exact absurd (by simpa using hquotes) hquote
  split at hscan
  · cases hscan
  split at hscan
  · cases hscan
  split at hscan
  · cases hscan
  · split at hscan <;> cases hscan
    exact ⟨.inr rfl, rfl⟩

/-- The characters of the slice that a text begins with. -/
def takenFrom (first : Char) (rest : List Char) : List Char :=
  first :: rest.take (scan first rest).2.length

/-- A faulty string literal has its problem at its beginning, or at the character that cannot be
escaped. -/
theorem quotedPiece_faulty {quote : Char} {quoted : Quoted} (hpointed : quoted.Pointed)
    (hpiece : quotedPiece quote quoted = .faulty problem before) :
    problem.code.toList.head? = some 'L' ∧
      ∃ next more, quote :: quoted.taken = before ++ next :: more := by
  unfold quotedPiece at hpiece
  split at hpiece
  · split at hpiece <;> cases hpiece
    next escaped taken hescape =>
      obtain ⟨more, hmore⟩ := hpointed escaped taken hescape
      exact ⟨by change "L003".toList.head? = some 'L'; decide, escaped, more,
        congrArg (quote :: ·) hmore⟩
  · cases hpiece
    exact ⟨by decide, quote, quoted.taken, rfl⟩

/-- **A faulty piece has its problem before one of its characters.** -/
theorem scan_faulty (hscan : (scan first rest).1 = .faulty problem before) :
    problem.code.toList.head? = some 'L' ∧
      ∃ next more, takenFrom first rest = before ++ next :: more := by
  -- only a string literal keeps what stands before its problem
  by_cases hquote : first = '"' ∨ first = '\''
  · unfold takenFrom
    rw [scan_quote hquote] at hscan ⊢
    dsimp only
    rw [← List.prefix_iff_eq_take.mp (readQuoted_taken first rest)]
    exact quotedPiece_faulty (readQuoted_pointed first rest) hscan
  · obtain ⟨hproblem, rfl⟩ := scan_faulty_start hquote hscan
    refine ⟨?_, first, _, rfl⟩
    rcases hproblem with rfl | rfl <;> decide

/-- A character that begins no token is neither a line feed nor a quote. -/
theorem scan_stray {character : Char} (hscan : (scan first rest).1 = .stray character) :
    character = first ∧ first ≠ '\n' ∧ first ≠ '"' ∧ first ≠ '\'' := by
  unfold scan at hscan
  split at hscan
  · cases hscan
  -- the line feed is a space, and an earlier branch takes it
  next hspace =>
  split at hscan
  · dsimp only at hscan
    unfold readComment at hscan
    split at hscan
    · split at hscan <;> cases hscan
    · cases hscan
  split at hscan
  · dsimp only at hscan
    unfold quotedPiece at hscan
    split at hscan
    · split at hscan <;> cases hscan
    · cases hscan
  next hquote =>
  split at hscan
  · cases hscan
  split at hscan
  · cases hscan
  split at hscan
  · cases hscan
  · split at hscan <;> cases hscan
    refine ⟨rfl, ?_, ?_⟩
    · rintro rfl
      exact hspace rfl
    · simpa using hquote

/-! ## Slices -/

namespace Slice

/-- A slice of a text is what the text begins with behind some of its characters. -/
def CutFrom (text : List Char) (slice : Slice) : Prop :=
  ∃ before first rest, text = before ++ first :: rest ∧
    slice = ⟨(scan first rest).1, placeAfter before, takenFrom first rest⟩

theorem CutFrom.atByte {text : List Char} {slice : Slice} (hcut : slice.CutFrom text) :
    AtByte text slice.position := by
  obtain ⟨before, first, rest, rfl, rfl⟩ := hcut
  exact atByte_placeAfter before (first :: rest)

/-- A slice is a string literal, closed or not, if it begins with a quote. -/
def IsLiteral (slice : Slice) : Prop :=
  slice.taken.head? = some '"' ∨ slice.taken.head? = some '\''

/-- What is reported of a slice of a text: problems of a piece, at bytes of the slice, one behind
the other.  There is only one if the slice is a string literal. -/
structure Reported (text : List Char) (slice : Slice) : Prop where
  letter : ∀ diagnostic ∈ slice.diagnostics, diagnostic.problem.code.toList.head? = some 'L'
  atByte : ∀ diagnostic ∈ slice.diagnostics, AtByte text diagnostic.position
  inside : ∀ diagnostic ∈ slice.diagnostics, slice.Covers diagnostic.position
  increasing : slice.diagnostics.Pairwise fun earlier later => earlier.position < later.position
  single : slice.IsLiteral →
    ∀ first ∈ slice.diagnostics, ∀ second ∈ slice.diagnostics, first = second

end Slice

section Reported

variable {text taken : List Char}

theorem reported_of_nil {slice : Slice} (hnone : slice.diagnostics = []) : slice.Reported text := by
  constructor <;> simp [hnone]

/-- Each byte of a character that begins no token is reported at its own place. -/
theorem reported_stray (hfeed : first ≠ '\n') (hquote : first ≠ '"' ∧ first ≠ '\'')
    (rest more : List Char) :
    Slice.Reported (before ++ first :: rest) ⟨.stray first, placeAfter before, first :: more⟩ := by
  have hlength : (bytesOf first).length = first.utf8Size := by
    unfold bytesOf
    rw [List.length_map, String.length_utf8EncodeChar]
  -- the bytes are numbered from the place of the character on
  have hplace {diagnostic : Diagnostic}
      (hdiagnostic : diagnostic ∈
        Slice.diagnostics ⟨.stray first, placeAfter before, first :: more⟩) :
      ∃ index < first.utf8Size, ∃ byte,
        diagnostic = ⟨.strayCharacter byte, (placeAfter before).shift index⟩ := by
    obtain ⟨index, hindex, rfl⟩ := List.mem_mapIdx.mp hdiagnostic
    exact ⟨index, hlength ▸ hindex, _, rfl⟩
  constructor
  · intro diagnostic hdiagnostic
    obtain ⟨index, -, byte, rfl⟩ := hplace hdiagnostic
    change "L001".toList.head? = some 'L'
    decide
  · intro diagnostic hdiagnostic
    obtain ⟨index, hindex, byte, rfl⟩ := hplace hdiagnostic
    -- none of the bytes before it in the character is a line feed
    have hnone : 10 ∉ (String.utf8EncodeChar first).take index := fun hten =>
      feed_not_mem_utf8EncodeChar hfeed (List.mem_of_mem_take hten)
    have hbytes : ((String.utf8EncodeChar first).take index).length = index := by
      rw [List.length_take, String.length_utf8EncodeChar]
      omega
    refine ⟨utf8 before ++ (String.utf8EncodeChar first).take index,
      (String.utf8EncodeChar first).drop index ++ utf8 rest, ?_, ?_⟩
    · rw [utf8_append, utf8_cons, List.append_assoc, ← List.append_assoc (List.take _ _),
        List.take_append_drop]
    · rw [bytePlace_append _ hnone, hbytes]
      rfl
  · intro diagnostic hdiagnostic
    obtain ⟨index, hindex, byte, rfl⟩ := hplace hdiagnostic
    refine ⟨Position.le_shift _ _, ?_⟩
    -- the next character of the line is as many columns on as this one has bytes
    have hafter : (placeAfter before).shift index < (placeAfter before).after first := by
      unfold Position.after
      rw [if_neg hfeed]
      exact Position.shift_lt_shift _ hindex
    exact hafter.trans_le (Position.le_afterAll _ more)
  · refine List.pairwise_iff_getElem.mpr fun index later hindex hlater hless => ?_
    simp only [Slice.diagnostics, List.getElem_mapIdx]
    exact Position.shift_lt_shift _ hless
  · rintro (hliteral | hliteral)
    · exact absurd (Option.some.inj hliteral) hquote.1
    · exact absurd (Option.some.inj hliteral) hquote.2

/-- A faulty piece is reported once, at one of its characters. -/
theorem reported_faulty {part more : List Char} {next : Char}
    (hletter : problem.code.toList.head? = some 'L') (hrest : part ++ next :: more <+: rest) :
    Slice.Reported (before ++ rest)
      ⟨.faulty problem part, placeAfter before, part ++ next :: more⟩ := by
  have hplace : (placeAfter before).afterAll part = placeAfter (before ++ part) :=
    afterAll_placeAfter before part
  constructor
  · simpa [Slice.diagnostics] using hletter
  · obtain ⟨after, rfl⟩ := hrest
    have hbyte : AtByte (before ++ part ++ (next :: more ++ after)) (placeAfter (before ++ part)) :=
      atByte_placeAfter _ _
    simpa [Slice.diagnostics, hplace] using hbyte
  · have hinside : Slice.Covers ⟨.faulty problem part, placeAfter before, part ++ next :: more⟩
        ((placeAfter before).afterAll part) := by
      refine ⟨Position.le_afterAll _ part, ?_⟩
      unfold Slice.finish
      rw [Position.afterAll_append]
      exact Position.lt_afterAll _ (List.cons_ne_nil next more)
    simpa [Slice.diagnostics] using hinside
  · exact List.pairwise_singleton _ _
  · simp [Slice.diagnostics]

end Reported

/-- **Every slice of a text is reported as it should be.** -/
theorem Slice.CutFrom.reported {text : List Char} {slice : Slice} (hcut : slice.CutFrom text) :
    slice.Reported text := by
  obtain ⟨before, first, rest, rfl, rfl⟩ := hcut
  cases hscan : (scan first rest).1 with
  | token kind | gap => exact reported_of_nil rfl
  | stray character =>
      obtain ⟨rfl, hfeed, hquote⟩ := scan_stray hscan
      exact reported_stray hfeed hquote rest _
  | faulty problem part =>
      obtain ⟨hletter, next, more, htaken⟩ := scan_faulty hscan
      rw [htaken]
      refine reported_faulty hletter ?_
      rw [← htaken]
      exact List.cons_prefix_cons.mpr ⟨rfl, List.take_prefix _ _⟩

/-! ## Texts -/

theorem slices_cutFrom (before text : List Char) :
    ∀ slice ∈ slices (placeAfter before) text, slice.CutFrom (before ++ text) := by
  induction hposition : placeAfter before, text using slices.induct generalizing before with
  | case1 position => simp [slices]
  | case2 position first rest found taken ih =>
      subst hposition
      rw [slices]
      refine List.forall_mem_cons.mpr ⟨⟨before, first, rest, rfl, rfl⟩, fun slice hslice => ?_⟩
      have hsplit : before ++ first :: rest = before ++ taken ++ rest.drop found.2.length := by
        rw [List.append_assoc, List.cons_append, List.take_append_drop]
      rw [hsplit]
      exact ih (before ++ taken) (afterAll_placeAfter before taken).symm slice hslice

section Texts

variable {text : List Char}

theorem cutFrom_of_mem {slice : Slice} (hslice : slice ∈ slices .start text) :
    slice.CutFrom text :=
  slices_cutFrom [] text slice hslice

/-- A place lies in one slice only. -/
theorem eq_of_covers {slice other : Slice} (hslice : slice ∈ slices .start text)
    (hother : other ∈ slices .start text) {position : Position} (hcovers : slice.Covers position)
    (hcovers' : other.Covers position) : slice = other := by
  have hordered := (slices_ordered .start text).2
  -- one that begins behind the end of another one does not cover the same place
  have hapart {earlier later : Slice} (hbehind : earlier.finish ≤ later.position)
      (hearlier : earlier.Covers position) (hlater : later.Covers position) : False :=
    lt_irrefl position (hearlier.2.trans_le (hbehind.trans hlater.1))
  have honly : ∀ slice ∈ slices .start text, ∀ other ∈ slices .start text,
      slice.Covers position → other.Covers position → slice = other := by
    refine List.Pairwise.forall_of_forall_of_flip (fun _ _ _ _ => rfl) ?_ ?_
    · exact hordered.imp fun hbehind hearlier hlater =>
        absurd hlater fun hlater => hapart hbehind hearlier hlater
    · exact hordered.imp fun hbehind hlater hearlier =>
        absurd hlater fun hlater => hapart hbehind hearlier hlater
  exact honly slice hslice other hother hcovers hcovers'

/-- **What is reported of the slices of a text** comes in the order of its places, and each report
is one of the slice in which it lies. -/
theorem slices_reported (text : List Char) :
    ((slices .start text).flatMap Slice.diagnostics).Pairwise fun earlier later =>
      earlier.position < later.position := by
  refine List.pairwise_flatMap.mpr ⟨fun slice hslice => ?_, ?_⟩
  · exact (cutFrom_of_mem hslice).reported.increasing
  · refine (slices_ordered .start text).2.imp_of_mem ?_
    intro slice later hslice hlater hbehind first hfirst second hsecond
    have hbefore := ((cutFrom_of_mem hslice).reported.inside first hfirst).2
    have hafter := ((cutFrom_of_mem hlater).reported.inside second hsecond).1
    exact hbefore.trans_le (hbehind.trans hafter)

end Texts

end Lexer

end TableScript
