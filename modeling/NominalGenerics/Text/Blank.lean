/-!
# Blanks

A character is blank if Unicode gives it the property `White_Space`.
-/

namespace NominalGenerics.Text

/-- Ranges of blank code points, both ends included. -/
def blankRanges : List (Nat × Nat) :=
  [(0x9, 0xd), (0x20, 0x20), (0x85, 0x85), (0xa0, 0xa0), (0x1680, 0x1680), (0x2000, 0x200a),
    (0x2028, 0x2029), (0x202f, 0x202f), (0x205f, 0x205f), (0x3000, 0x3000)]

/-- Whether a character is blank. -/
def isBlank (c : Char) : Bool :=
  blankRanges.any fun (low, high) => low ≤ c.toNat && c.toNat ≤ high

/-- The text from its first character that is not blank. -/
def skipBlank (text : List Char) : List Char := text.dropWhile isBlank

/-- The text without the blanks at its ends. -/
def trimBlank (text : List Char) : List Char :=
  (skipBlank (skipBlank text).reverse).reverse

end NominalGenerics.Text
