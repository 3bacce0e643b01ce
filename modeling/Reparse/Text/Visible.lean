import Reparse.Text.Mark
import Reparse.Text.Unassigned

/-!
# Visible characters

A character is visible if it can be read where it stands alone. Hidden are controls, format
characters, separators other than the space, fillers, private use, joining marks and unassigned
code points; every other character of Unicode 17 is visible.
-/

namespace Reparse.Text

/-- The control characters: general category Cc. -/
def controlRanges : List (Nat × Nat) := [(0x0, 0x1F), (0x7F, 0x9F)]

/-- The format characters: general category Cf. -/
def formatRanges : List (Nat × Nat) :=
  [(0xAD, 0xAD), (0x600, 0x605), (0x61C, 0x61C), (0x6DD, 0x6DD), (0x70F, 0x70F), (0x890, 0x891),
   (0x8E2, 0x8E2), (0x180E, 0x180E), (0x200B, 0x200F), (0x202A, 0x202E), (0x2060, 0x2064),
   (0x2066, 0x206F), (0xFEFF, 0xFEFF), (0xFFF9, 0xFFFB), (0x110BD, 0x110BD), (0x110CD, 0x110CD),
   (0x13430, 0x1343F), (0x1BCA0, 0x1BCA3), (0x1D173, 0x1D17A), (0xE0001, 0xE0001),
   (0xE0020, 0xE007F)]

/-- The separators other than the space: general categories Zs, Zl and Zp. -/
def separatorRanges : List (Nat × Nat) :=
  [(0xA0, 0xA0), (0x1680, 0x1680), (0x2000, 0x200A), (0x2028, 0x2029), (0x202F, 0x202F),
   (0x205F, 0x205F), (0x3000, 0x3000)]

/-- The Hangul fillers: the letters with the property Default_Ignorable_Code_Point. -/
def fillerRanges : List (Nat × Nat) := [(0x115F, 0x1160), (0x3164, 0x3164), (0xFFA0, 0xFFA0)]

/-- The private use code points: general category Co. -/
def privateRanges : List (Nat × Nat) :=
  [(0xE000, 0xF8FF), (0xF0000, 0xFFFFD), (0x100000, 0x10FFFD)]

/-- The hidden characters, one table for each reason to be hidden. -/
def hiddenTables : List (List (Nat × Nat)) :=
  [controlRanges, formatRanges, separatorRanges, fillerRanges, privateRanges, markRanges,
   unassignedRanges]

/-- Whether a character can be read where it stands alone. -/
def isVisible (c : Char) : Bool := hiddenTables.all fun ranges => !inRanges ranges c.toNat

end Reparse.Text
