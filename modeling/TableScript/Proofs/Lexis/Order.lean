import Mathlib.Data.Prod.Lex
import TableScript.Proofs.Lexis.Lossless
import TableScript.Tree.Parser

/-!
# The order of places

Places are ordered by their lines, and in one line by their columns.  The lexer never goes back: a
slice begins where the one before it ended or further on, and ends behind its own beginning
(`Lexer.slices_ordered`).  So the places of tokens, and with them the end of the text, come in
strictly increasing order (`Tokens.ordered_of_tokenize`), and no two tokens have the same place.
-/

namespace TableScript

namespace Position

/-- Lines count first, and then columns. -/
def key (position : Position) : Nat ×ₗ Nat := toLex (position.line, position.column)

theorem key_injective : Function.Injective key := by
  intro first second hkey
  have hparts : (first.line, first.column) = (second.line, second.column) := toLex_inj.mp hkey
  rw [Prod.mk.injEq] at hparts
  obtain ⟨line, column⟩ := first
  obtain ⟨rfl, rfl⟩ := hparts
  rfl

/-- The lexicographic order of lines and columns. -/
instance : PartialOrder Position := PartialOrder.lift key key_injective

theorem lt_iff {first second : Position} : first < second ↔
    first.line < second.line ∨ first.line = second.line ∧ first.column < second.column :=
  Prod.Lex.toLex_lt_toLex

/-! ## Moving on -/

theorem lt_after (position : Position) (character : Char) :
    position < position.after character := by
  have hsize := character.utf8Size_pos
  rw [lt_iff]
  unfold after
  split
  · exact .inl (Nat.lt_succ_self _)
  · exact .inr ⟨rfl, by dsimp only; omega⟩

theorem le_afterAll (position : Position) (characters : List Char) :
    position ≤ position.afterAll characters := by
  induction characters generalizing position with
  | nil => exact le_refl position
  | cons character rest ih =>
      rw [afterAll_cons]
      exact (position.lt_after character).le.trans (ih _)

theorem lt_afterAll (position : Position) {characters : List Char} (hsome : characters ≠ []) :
    position < position.afterAll characters := by
  cases characters with
  | nil => exact absurd rfl hsome
  | cons character rest =>
      rw [afterAll_cons]
      exact (position.lt_after character).trans_le (le_afterAll _ rest)

theorem shift_lt_shift (position : Position) {fewer more : Nat} (hless : fewer < more) :
    position.shift fewer < position.shift more :=
  lt_iff.mpr (.inr ⟨rfl, Nat.add_lt_add_left hless position.column⟩)

theorem le_shift (position : Position) (count : Nat) : position ≤ position.shift count := by
  rcases Nat.eq_zero_or_pos count with rfl | hsome
  · exact le_refl position
  · exact (position.shift_lt_shift hsome).le

end Position

/-! ## Slices -/

namespace Lexer

/-- The place just after a slice. -/
def Slice.finish (slice : Slice) : Position := slice.position.afterAll slice.taken

/-- **The lexer never goes back.**  The slices of a text lie between its beginning and its end, each
of them ends behind its own beginning, and none begins before the end of one that comes earlier. -/
theorem slices_ordered (position : Position) (text : List Char) :
    (∀ slice ∈ slices position text, position ≤ slice.position ∧ slice.position < slice.finish ∧
      slice.finish ≤ position.afterAll text) ∧
    (slices position text).Pairwise fun earlier later => earlier.finish ≤ later.position := by
  -- a slice takes its first character at least, and the induction is on what is left behind it
  induction position, text using slices.induct with
  | case1 position =>
      rw [slices]
      exact ⟨by simp, .nil⟩
  | case2 position first rest found taken ih =>
      obtain ⟨hinside, hordered⟩ := ih
      have hsplit : first :: rest = taken ++ rest.drop found.2.length := by
        rw [List.cons_append, List.take_append_drop]
      have hend : position.afterAll (first :: rest) =
          (position.afterAll taken).afterAll (rest.drop found.2.length) := by
        rw [hsplit, Position.afterAll_append]
      have hbegin : position < position.afterAll taken :=
        position.lt_afterAll (List.cons_ne_nil first _)
      rw [slices, hend]
      constructor
      · refine List.forall_mem_cons.mpr ⟨⟨le_refl _, hbegin, Position.le_afterAll _ _⟩, ?_⟩
        intro slice hslice
        obtain ⟨hafter, hnonempty, hbefore⟩ := hinside slice hslice
        exact ⟨hbegin.le.trans hafter, hnonempty, hbefore⟩
      · exact hordered.cons fun slice hslice => (hinside slice hslice).1

theorem Slice.position_of_token {slice : Slice} {token : Token}
    (htoken : slice.token? = some token) : token.position = slice.position := by
  unfold Slice.token? at htoken
  split at htoken <;> cases htoken
  rfl

end Lexer

/-! ## Tokens -/

namespace Tokens

/-- The places of the tokens and the end of the text come one behind the other. -/
structure Ordered (tokens : Tokens) : Prop where
  increasing : tokens.list.Pairwise fun earlier later => earlier.position < later.position
  before_finish : ∀ token ∈ tokens.list, token.position < tokens.finish

/-- The place of the first of some tokens is before that of the first of the tokens behind it. -/
theorem Ordered.placeOf_lt {tokens : Tokens} (hordered : tokens.Ordered) {rest later : List Token}
    (hrest : rest <:+ tokens.list) (hsome : rest ≠ []) (hlater : later <:+ rest.tail) :
    Parser.placeOf tokens.finish rest < Parser.placeOf tokens.finish later := by
  cases rest with
  | nil => exact absurd rfl hsome
  | cons token others =>
      change token.position < _
      cases later with
      | nil => exact hordered.before_finish token (hrest.subset List.mem_cons_self)
      | cons next after =>
          have hincreasing := hordered.increasing.sublist hrest.sublist
          exact List.rel_of_pairwise_cons hincreasing (hlater.subset List.mem_cons_self)

theorem ordered_of_tokenize {source : String} {tokens : Tokens}
    (htokens : tokenize source = .ok tokens) : tokens.Ordered := by
  obtain ⟨list, finish⟩ := tokens
  obtain ⟨⟨-, rfl⟩, rfl⟩ := tokenize_eq_ok_iff_lexes.mp htokens
  obtain ⟨hinside, hordered⟩ := Lexer.slices_ordered (placeAfter []) source.toList
  rw [afterAll_placeAfter, List.nil_append] at hinside
  constructor
  · refine List.pairwise_filterMap.mpr (hordered.imp_of_mem ?_)
    intro earlier later hearlier _ hbehind token htoken next hnext
    rw [Lexer.Slice.position_of_token htoken, Lexer.Slice.position_of_token hnext]
    exact (hinside earlier hearlier).2.1.trans_le hbehind
  · intro token htoken
    obtain ⟨slice, hslice, hkind⟩ := List.mem_filterMap.mp htoken
    obtain ⟨-, hnonempty, hend⟩ := hinside slice hslice
    rw [Lexer.Slice.position_of_token hkind]
    exact hnonempty.trans_le hend

end Tokens

end TableScript
