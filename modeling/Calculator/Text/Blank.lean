import Calculator.Text.Basic

/-!
# Blank characters

A character is blank when it has the Unicode property `White_Space`, which
holds of twenty-five code points.  Stripping removes every blank character of
a text, trimming only those at its two ends.
-/

namespace Calculator.Text

/-- Code point ranges of the property `White_Space`, both ends included. -/
def blankRanges : List (Nat × Nat) :=
  [(0x0009, 0x000D), (0x0020, 0x0020), (0x0085, 0x0085), (0x00A0, 0x00A0),
    (0x1680, 0x1680), (0x2000, 0x200A), (0x2028, 0x2029), (0x202F, 0x202F),
    (0x205F, 0x205F), (0x3000, 0x3000)]

def isBlank (character : Char) : Bool :=
  blankRanges.any fun (first, last) => first ≤ character.toNat && character.toNat ≤ last

/-- Removes every blank character, so `2 + 3` becomes `2+3`. -/
def strip (text : Text) : Text :=
  text.filter fun character => !isBlank character

/-- Removes the blank characters before the first and after the last other one. -/
def trim (text : Text) : Text :=
  ((text.dropWhile isBlank).reverse.dropWhile isBlank).reverse

end Calculator.Text
