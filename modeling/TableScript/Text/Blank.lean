/-!
# Blank characters

The characters with the Unicode property `White_Space`, and the removal of blanks from both ends
of a text.
-/

namespace TableScript.Text

/-- The ranges of code points, both ends included, that have the property `White_Space`. -/
def blankRanges : List (Nat × Nat) :=
  [(0x09, 0x0D), (0x20, 0x20), (0x85, 0x85), (0xA0, 0xA0), (0x1680, 0x1680), (0x2000, 0x200A),
    (0x2028, 0x2029), (0x202F, 0x202F), (0x205F, 0x205F), (0x3000, 0x3000)]

/-- Whether a character is blank. -/
def isBlank (character : Char) : Bool :=
  blankRanges.any fun range => range.1 ≤ character.toNat && character.toNat ≤ range.2

/-- A run of characters without the blanks at its two ends. -/
def trim (characters : List Char) : List Char :=
  ((characters.dropWhile isBlank).reverse.dropWhile isBlank).reverse

end TableScript.Text
