/-!
# Ranges of code points

A set of code points is a list of closed ranges, in ascending order and with a gap between neighbours.
-/

namespace Reparse.Text

/-- Whether a code point lies in one of the given closed ranges. -/
def inRanges (ranges : List (Nat × Nat)) (code : Nat) : Bool :=
  ranges.any fun r => r.1 ≤ code && code ≤ r.2

end Reparse.Text
