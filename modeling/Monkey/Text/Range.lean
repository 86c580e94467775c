/-!
# Ranges of code points

A class of characters is given by the ascending list of its inclusive ranges.
-/

namespace Monkey.Text

/-- Whether a code point lies in one of the ranges. The ranges are in ascending order, so the search
stops at the first range that begins beyond the code point. -/
def inRanges : List (Nat × Nat) → Nat → Bool
  | [], _ => false
  | (first, last) :: rest, n =>
    if n < first then false
    else if n ≤ last then true
    else inRanges rest n

end Monkey.Text
