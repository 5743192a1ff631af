/-!
# Ranges of code points

A property of characters is given by the ranges of code points that have it.
-/

namespace BundledReading.Text

/-- Ranges of code points, each by its first and its last one. -/
abbrev CodeRanges := List (Nat × Nat)

/-- Whether `n` lies in one of the ranges. -/
def CodeRanges.has (ranges : CodeRanges) (n : Nat) : Bool :=
  ranges.any fun range => range.1 ≤ n && n ≤ range.2

end BundledReading.Text
