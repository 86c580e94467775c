import Monkey.Text.Range

/-!
# Blanks

The characters that separate tokens, and the slightly smaller class of characters that may stand
around a numeral. The four information separators U+001C to U+001F separate tokens but are not
skipped around a numeral.
-/

namespace Monkey.Text

/-- The blanks of Unicode 14, as inclusive ranges in ascending order. -/
def blankRanges : List (Nat × Nat) :=
  [(0x9, 0xD), (0x1C, 0x20), (0x85, 0x85), (0xA0, 0xA0), (0x1680, 0x1680), (0x2000, 0x200A),
   (0x2028, 0x2029), (0x202F, 0x202F), (0x205F, 0x205F), (0x3000, 0x3000)]

/-- A blank: it separates tokens and has no other meaning outside a string. -/
def isBlank (c : Char) : Bool :=
  inRanges blankRanges c.toNat

/-- A blank that is skipped before and after a numeral. -/
def isMarginBlank (c : Char) : Bool :=
  isBlank c && !(0x1C ≤ c.toNat && c.toNat ≤ 0x1F)

end Monkey.Text
