import Telemetry.Search

/-!
Sets of characters given by a table of bounds. A set that consists of many intervals of code
points is written as the ascending list of the points where membership changes, and a character
belongs to it exactly when an odd number of bounds lie at or below its code point.
-/

namespace Telemetry.Text

/-- A set of characters as the ascending code points at which membership changes. -/
structure CharClass where
  bounds : Array Nat

/-- Membership: an odd number of bounds lie at or below the code point. -/
def CharClass.contains (k : CharClass) (c : Char) : Bool :=
  Search.partitionPoint (fun b => decide (b ≤ c.toNat)) k.bounds % 2 == 1

end Telemetry.Text
