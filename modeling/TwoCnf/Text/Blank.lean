/-!
# Blank — the characters that separate words

`isBlank` decides the `White_Space` property of a character. It holds of the ASCII blanks and of the
wider spaces of other scripts; it fails for the zero-width characters and for the four ASCII
information separators.
-/

namespace TwoCnf
namespace Text

/-- The code points with the `White_Space` property, as ascending closed intervals. -/
def blankRanges : List (Nat × Nat) :=
  [(0x0009, 0x000D), (0x0020, 0x0020), (0x0085, 0x0085), (0x00A0, 0x00A0), (0x1680, 0x1680),
   (0x2000, 0x200A), (0x2028, 0x2029), (0x202F, 0x202F), (0x205F, 0x205F), (0x3000, 0x3000)]

/-- A character with the `White_Space` property. -/
def isBlank (c : Char) : Bool :=
  blankRanges.any fun range => range.1 ≤ c.toNat && c.toNat ≤ range.2

end Text
end TwoCnf
