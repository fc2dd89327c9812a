import TableScript.Proofs.Lexis.Lossless

/-!
# Tokens written out

Tokens are written out with one space between any two, a string in quotes of either kind and with
just so much escaped as has to be.  The text is cut into the same tokens again: a space ends every
token, whatever its kind, and between its quotes a string is written as it is meant.
-/

namespace TableScript

/-! ## Strings -/

/-- The quotes that a string can be written with. -/
inductive Quote where
  | single | double
  deriving DecidableEq, Repr

namespace Quote

/-- A quote as it is written. -/
def character : Quote → Char
  | single => '\''
  | double => '"'

/-- A character of a string as it is written between two quotes. -/
def escape (quote : Quote) (item : Char) : List Char :=
  if item = '\\' then ['\\', '\\']
  else if item = quote.character then ['\\', quote.character]
  else if item = '\n' then ['\\', 'n']
  else [item]

/-- The literal with the given contents. -/
def literal (quote : Quote) (contents : String) : List Char :=
  quote.character :: (contents.toList.flatMap quote.escape ++ [quote.character])

theorem character_eq (quote : Quote) : quote.character = '"' ∨ quote.character = '\'' := by
  cases quote <;> decide

theorem unescape?_character (quote : Quote) :
    Lexer.unescape? quote.character = some quote.character := by
  cases quote <;> rfl

/-- What is escaped is meant as it was. -/
theorem decodes_escape (quote : Quote) (contents : List Char) :
    Decodes id quote.character (contents.flatMap quote.escape) contents := by
  induction contents with
  | nil => exact .nothing
  | cons item contents ih =>
      rw [List.flatMap_cons, escape]
      by_cases hslash : item = '\\'
      · subst hslash
        exact .escape rfl ih
      by_cases hquote : item = quote.character
      · subst hquote
        rw [if_neg hslash, if_pos rfl]
        exact .escape quote.unescape?_character ih
      by_cases hfeed : item = '\n'
      · subst hfeed
        rw [if_neg hslash, if_neg hquote, if_pos rfl]
        exact .escape rfl ih
      · rw [if_neg hslash, if_neg hquote, if_neg hfeed]
        exact .plain hquote hslash hfeed ih

/-- Every string is spelt by its literals. -/
theorem spells_literal (quote : Quote) (contents : String) :
    (Token.Kind.string contents).Spells (quote.literal contents) := by
  have hascii : quote.character.toNat ≤ 127 := by cases quote <;> decide
  have hbody := quote.decodes_escape contents.toList
  exact ⟨quote.character, _, rfl, quote.character_eq, hbody, hbody.toBytes hascii⟩

end Quote

/-! ## Tokens -/

/-- A token as it is written, with the given quotes if it is a string. -/
def Token.Kind.write (quote : Quote) : Token.Kind → List Char
  | .integer text | .float text | .name text => text.toList
  | .string contents => quote.literal contents
  | .keyword word => word.text.toList
  | .symbol mark => mark.text.toList

/-- Tokens as they are written, each with its quotes, with one space between any two. -/
def render : List (Quote × Token.Kind) → List Char
  | [] => []
  | [(quote, kind)] => kind.write quote
  | (quote, kind) :: next :: rest => kind.write quote ++ ' ' :: render (next :: rest)

/-- A kind that can be spelt at all is spelt as it is written. -/
theorem Token.Kind.Spells.write {kind : Token.Kind} {slice : List Char}
    (hspells : kind.Spells slice) (quote : Quote) : kind.Spells (kind.write quote) := by
  cases kind with
  | integer text | float text | name text =>
      obtain ⟨rfl, -⟩ := id hspells
      exact hspells
  | string contents => exact quote.spells_literal contents
  | keyword word | symbol mark => rfl

theorem not_startsExponent_space {rest : List Char} (hrest : ∀ next ∈ rest.head?, next = ' ') :
    ¬ StartsExponent rest := by
  rintro ⟨_, more, rfl, mark, sign, digits, rfl, hmark, -⟩
  obtain rfl : mark = ' ' := hrest mark rfl
  rcases hmark with hmark | hmark <;> cases hmark

/-- A space, or the end of the text, ends every token. -/
theorem endsBefore_space (kind : Token.Kind) (slice : List Char) {rest : List Char}
    (hrest : ∀ next ∈ rest.head?, next = ' ') : kind.EndsBefore slice rest := by
  have hother : ∀ next, next ≠ ' ' → rest.head? ≠ some next := fun next hnext hhead =>
    hnext (hrest next hhead)
  have hdigit : ∀ next ∈ rest.head?, next.isDigit = false := by
    intro next hnext
    rw [hrest next hnext]
    rfl
  -- what would lengthen a token is a digit, a letter, a sign or a point, and never a space
  cases kind with
  | integer text =>
      refine ⟨hdigit, not_startsExponent_space hrest, ?_⟩
      rintro more rfl
      exact absurd rfl (hother '.' (by decide))
  | float text =>
      exact ⟨hdigit, fun _ _ => not_startsExponent_space hrest, fun _ => hother '.' (by decide)⟩
  | name text | keyword word =>
      intro next hnext
      rw [hrest next hnext]
      rfl
  | string contents => trivial
  | symbol mark =>
      refine Symbol.endsBefore_iff.mpr ⟨fun _ => hother '=' (by decide),
        fun _ => hother '-' (by decide), fun _ => ⟨hother '.' (by decide), hdigit⟩⟩

/-! ## Whole texts -/

/-- What is written out is cut into what was written. -/
theorem cut_render (written : List (Quote × Token.Kind))
    (hspells : ∀ item ∈ written, ∃ slice, item.2.Spells slice) (before : List Char) :
    ∃ tokens, Cut before (render written) tokens ∧
      tokens.map Token.kind = written.map Prod.snd := by
  induction written generalizing before with
  | nil => exact ⟨[], .finish (.nothing []), rfl⟩
  | cons item rest ih =>
      obtain ⟨quote, kind⟩ := item
      obtain ⟨⟨slice, hslice⟩, hothers⟩ := List.forall_mem_cons.mp hspells
      have hwrite := hslice.write quote
      cases rest with
      | nil =>
          refine ⟨[⟨kind, placeAfter before⟩], ?_, rfl⟩
          simpa [render] using Cut.afterToken hwrite (endsBefore_space kind _ (by simp))
            (.finish (.nothing []))
      | cons next rest =>
          -- the space between two tokens is the gap before the second
          obtain ⟨tokens, hcut, hkinds⟩ := ih hothers (before ++ kind.write quote ++ [' '])
          have hspaced := hcut.afterGap fun gap remaining _ hgap => .space rfl hgap
          refine ⟨⟨kind, placeAfter before⟩ :: tokens, ?_, by simp [hkinds]⟩
          exact .afterToken hwrite (endsBefore_space kind _ (by simp)) hspaced

/-- Every token of a text is spelt by some characters. -/
theorem Cut.exists_spells {before text : List Char} {tokens : List Token}
    (hcut : Cut before text tokens) : ∀ token ∈ tokens, ∃ slice, token.kind.Spells slice := by
  induction hcut with
  | finish => simp
  | token _ hspells _ _ ih => exact List.forall_mem_cons.mpr ⟨⟨_, hspells⟩, ih⟩

/-- The text that is written out has the tokens that were written. -/
theorem tokenize_of_spells (written : List (Quote × Token.Kind))
    (hspells : ∀ item ∈ written, ∃ slice, item.2.Spells slice) :
    ∃ again, tokenize (String.ofList (render written)) = .ok again ∧
      again.list.map Token.kind = written.map Prod.snd := by
  obtain ⟨tokens, hcut, hkinds⟩ := cut_render written hspells []
  refine ⟨⟨tokens, placeAfter (render written)⟩, ?_, hkinds⟩
  rw [tokenize_eq_ok_iff_lexes, String.toList_ofList]
  exact ⟨lexes_of_cut hcut, rfl⟩

/-- **Writing out and reading back.**  The tokens of a text, written out with quotes of either kind
for each string, are read as tokens of the same kinds in the same order.  And every string at all
is the contents of its literals. -/
theorem tokenize_render :
    (∀ (source : String) (tokens : Tokens), tokenize source = .ok tokens →
      ∀ written : List (Quote × Token.Kind), written.map Prod.snd = tokens.list.map Token.kind →
        ∃ again, tokenize (String.ofList (render written)) = .ok again ∧
          again.list.map Token.kind = tokens.list.map Token.kind) ∧
    ∀ (quote : Quote) (contents : String),
      ∃ again, tokenize (String.ofList (quote.literal contents)) = .ok again ∧
        again.list.map Token.kind = [.string contents] := by
  refine ⟨fun source tokens hlex written hwritten => ?_, fun quote contents => ?_⟩
  · obtain ⟨hlexes, -⟩ := tokenize_eq_ok_iff_lexes.mp hlex
    have hspells : ∀ kind ∈ tokens.list.map Token.kind, ∃ slice, kind.Spells slice :=
      List.forall_mem_map.mpr (cut_of_lexes hlexes).exists_spells
    rw [← hwritten] at hspells ⊢
    exact tokenize_of_spells written fun item hitem => hspells _ (List.mem_map_of_mem hitem)
  · refine tokenize_of_spells [(quote, .string contents)] ?_
    simpa using ⟨_, quote.spells_literal contents⟩

/-- An assignment, a number that ends with its point, and a string that needs an escape in one kind
of quotes and none in the other. -/
theorem tokenize_render_otherQuotes :
    ∃ tokens, tokenize "s='don\\'t'..1.--" = .ok tokens ∧
      ∃ again, tokenize "s = \"don't\" .. 1." = .ok again ∧
        again.list.map Token.kind = tokens.list.map Token.kind := by
  have hkinds : (tokenize "s='don\\'t'..1.--").toOption.map (·.list.map Token.kind) =
      some [.name "s", .symbol .assign, .string "don't", .symbol .concat, .float "1."] := by
    decide +kernel
  cases hlex : tokenize "s='don\\'t'..1.--" with
  | error diagnostics =>
      rw [hlex] at hkinds
      cases hkinds
  | ok tokens =>
      rw [hlex] at hkinds
      have hwritten := Option.some.inj hkinds
      refine ⟨tokens, rfl, ?_⟩
      exact tokenize_render.1 _ tokens hlex
        [(.double, .name "s"), (.double, .symbol .assign), (.double, .string "don't"),
          (.double, .symbol .concat), (.double, .float "1.")] hwritten.symm

end TableScript
