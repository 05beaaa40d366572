/-!
# Sets of code points

Character classes of Unicode are written as lists of inclusive ranges of code points.
-/

namespace ImportAtlas.Text

/-- Inclusive ranges of code points, in increasing order. -/
abbrev CodeRanges := List (Nat × Nat)

/-- Whether one of the ranges holds a character. -/
def CodeRanges.has (ranges : CodeRanges) (c : Char) : Bool :=
  ranges.any fun range => range.1 ≤ c.toNat && c.toNat ≤ range.2

end ImportAtlas.Text
