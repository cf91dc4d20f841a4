/-!
# Sets of characters as ranges

A property of characters is kept as the ranges of code points that have it.
-/

namespace EventSchema

namespace Text

/-- Ranges of code points, both ends included. -/
abbrev Ranges : Type := List (Nat × Nat)

/-- Whether a character lies in one of the ranges. -/
def Ranges.contains (ranges : Ranges) (c : Char) : Bool :=
  ranges.any fun r => r.1 ≤ c.toNat && c.toNat ≤ r.2

end Text

end EventSchema
