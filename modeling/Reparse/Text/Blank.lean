import Reparse.Text.Ranges

/-!
# Blank characters

The 25 characters of the Unicode property White_Space. Blanks separate tokens and belong to none.
-/

namespace Reparse.Text

/-- The blank code points as closed ranges, ascending. -/
def blankRanges : List (Nat × Nat) :=
  [(0x09, 0x0D), (0x20, 0x20), (0x85, 0x85), (0xA0, 0xA0), (0x1680, 0x1680), (0x2000, 0x200A),
   (0x2028, 0x2029), (0x202F, 0x202F), (0x205F, 0x205F), (0x3000, 0x3000)]

/-- Whether a character has the property White_Space. -/
def isBlank (c : Char) : Bool := inRanges blankRanges c.toNat

end Reparse.Text
