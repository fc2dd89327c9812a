import TableScript.Token.Lexer

/-!
# Bytes and places

A place in a text is where so many line feeds and so many bytes after the last of them have come.
The lexer does not count bytes from the start of the text: it moves a line and a column on by each
character.  Both give the same place, since a character outside ASCII has no byte of ASCII, and so
no line feed, in its UTF-8 form.
-/

namespace TableScript

/-- The bytes of a run of characters in UTF-8. -/
def utf8 (text : List Char) : List UInt8 := text.flatMap String.utf8EncodeChar

@[simp] theorem utf8_nil : utf8 [] = [] := rfl

@[simp] theorem utf8_cons (character : Char) (rest : List Char) :
    utf8 (character :: rest) = String.utf8EncodeChar character ++ utf8 rest := rfl

@[simp] theorem utf8_append (left right : List Char) :
    utf8 (left ++ right) = utf8 left ++ utf8 right :=
  List.flatMap_append

/-! ## Characters of ASCII and their bytes -/

theorem utf8EncodeChar_of_ascii {character : Char} (hascii : character.toNat ≤ 127) :
    String.utf8EncodeChar character = [character.toUInt8] := by
  have hsize : character.utf8Size = 1 := Char.utf8Size_eq_one_iff.mpr hascii
  rw [String.utf8EncodeChar_eq_singleton hsize]
  rfl

theorem toNat_toUInt8_of_ascii {character : Char} (hascii : character.toNat ≤ 127) :
    character.toUInt8.toNat = character.toNat :=
  Nat.mod_eq_of_lt (show character.toNat < 2 ^ 8 by omega)

/-- A character outside ASCII has no byte of ASCII. -/
theorem le_of_mem_utf8EncodeChar {character : Char} (hwide : 127 < character.toNat) {byte : UInt8}
    (hbyte : byte ∈ String.utf8EncodeChar character) : 128 ≤ byte.toNat := by
  have hvalue : ¬ character.val.toNat ≤ 127 := Nat.not_le.mpr hwide
  unfold String.utf8EncodeChar at hbyte
  simp only [hvalue, if_false] at hbyte
  split at hbyte
  · simp at hbyte
    rcases hbyte with rfl | rfl <;> simp <;> omega
  · split at hbyte
    · simp at hbyte
      rcases hbyte with rfl | rfl | rfl <;> simp <;> omega
    · simp at hbyte
      rcases hbyte with rfl | rfl | rfl | rfl <;> simp <;> omega

/-- A byte of ASCII stands for nothing but its own character. -/
theorem toUInt8_mem_utf8EncodeChar {mark character : Char} (hmark : mark.toNat ≤ 127) :
    mark.toUInt8 ∈ String.utf8EncodeChar character ↔ character = mark := by
  have hcode := toNat_toUInt8_of_ascii hmark
  by_cases hascii : character.toNat ≤ 127
  · rw [utf8EncodeChar_of_ascii hascii, List.mem_singleton]
    constructor
    · intro hequal
      apply Char.toNat_inj.mp
      rw [← hcode, ← toNat_toUInt8_of_ascii hascii, hequal]
    · rintro rfl
      rfl
  · constructor
    · intro hmember
      have hle := le_of_mem_utf8EncodeChar (Nat.not_le.mp hascii) hmember
      omega
    · rintro rfl
      exact absurd hmark hascii

/-! ## Places -/

/-- The place after a run of characters from the start of a text: the line is one more than the
line feeds among the bytes, the column one more than the bytes since the last line feed. -/
def placeAfter (before : List Char) : Position where
  line := 1 + (utf8 before).count 10
  column := 1 + ((utf8 before).reverse.takeWhile (· ≠ 10)).length

/-- The place of a byte of a text, from the bytes before it. -/
def bytePlace (before : List UInt8) : Position where
  line := 1 + before.count 10
  column := 1 + (before.reverse.takeWhile (· ≠ 10)).length

theorem bytePlace_utf8 (before : List Char) : bytePlace (utf8 before) = placeAfter before := rfl

/-- Bytes without a line feed move the place on in its line. -/
theorem bytePlace_append (before : List UInt8) {bytes : List UInt8} (hnone : 10 ∉ bytes) :
    bytePlace (before ++ bytes) = (bytePlace before).shift bytes.length := by
  have hrun : ∀ byte ∈ bytes.reverse, decide (byte ≠ 10) = true := by
    intro byte hbyte
    exact decide_eq_true fun hten => hnone (hten ▸ List.mem_reverse.mp hbyte)
  unfold bytePlace Position.shift
  simp only [List.count_append, List.count_eq_zero_of_not_mem hnone, Nat.add_zero,
    List.reverse_append, List.takeWhile_append_of_pos hrun, List.length_append,
    List.length_reverse]
  congr 1
  omega

/-- Only the line feed has the byte of a line feed. -/
theorem feed_not_mem_utf8EncodeChar {character : Char} (hfeed : character ≠ '\n') :
    10 ∉ String.utf8EncodeChar character := fun hten =>
  hfeed ((toUInt8_mem_utf8EncodeChar (show '\n'.toNat ≤ 127 by decide)).mp hten)

theorem placeAfter_snoc (before : List Char) (character : Char) :
    placeAfter (before ++ [character]) = (placeAfter before).after character := by
  unfold Position.after
  by_cases hfeed : character = '\n'
  · subst hfeed
    simp [placeAfter, String.utf8EncodeChar]
    omega
  · have hmoved := bytePlace_append (utf8 before) (feed_not_mem_utf8EncodeChar hfeed)
    rw [String.length_utf8EncodeChar] at hmoved
    rw [if_neg hfeed, ← bytePlace_utf8, ← bytePlace_utf8, utf8_append, utf8_cons, utf8_nil,
      List.append_nil, hmoved]
    rfl

/-- Moving on by each character gives the place that the bytes say. -/
theorem afterAll_placeAfter (before more : List Char) :
    (placeAfter before).afterAll more = placeAfter (before ++ more) := by
  induction more generalizing before with
  | nil => simp
  | cons character more ih =>
      rw [Position.afterAll_cons, ← placeAfter_snoc, ih, List.append_assoc, List.singleton_append]

end TableScript
