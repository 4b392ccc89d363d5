import PropertyCascade.Text.Basic

/-!
# Blanks

The characters with the Unicode property `White_Space`, and the removal of blanks from both ends
of a text.
-/

namespace PropertyCascade

namespace Text

/-- The code points with the property `White_Space`, as inclusive ranges in increasing order. -/
def blankRanges : List (Nat × Nat) :=
  [(0x09, 0x0D), (0x20, 0x20), (0x85, 0x85), (0xA0, 0xA0), (0x1680, 0x1680), (0x2000, 0x200A),
    (0x2028, 0x2029), (0x202F, 0x202F), (0x205F, 0x205F), (0x3000, 0x3000)]

/-- A blank is a character with the property `White_Space`. -/
def isBlank (c : Char) : Bool :=
  blankRanges.any fun (first, last) => first ≤ c.toNat && c.toNat ≤ last

/-- A text without the blanks that it starts with. -/
def trimStart (text : Text) : Text :=
  text.dropWhile isBlank

/-- A text without the blanks that it ends with. -/
def trimEnd (text : Text) : Text :=
  (text.reverse.dropWhile isBlank).reverse

/-- A text without the blanks at either end. -/
def trim (text : Text) : Text :=
  trimEnd (trimStart text)

/-- There are ten ranges, which hold twenty-five code points. -/
example : blankRanges.length = 10 ∧
    (blankRanges.map fun (first, last) => last + 1 - first).sum = 25 := by decide

end Text

end PropertyCascade
