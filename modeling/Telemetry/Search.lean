/-!
Binary search in an array that a predicate splits into two parts. `Search.partitionPoint p xs` is
the number of leading elements that satisfy `p`, found by halving, provided that no element
satisfying `p` stands after one that does not.
-/

namespace Telemetry.Search

/-- Halves the range `[lo, hi)` until it is empty. Elements before `lo` are known to satisfy `p`,
elements from `hi` on are known to fail it. -/
def bisect {α : Type} (p : α → Bool) (xs : Array α) (lo hi : Nat) : Nat :=
  if lo < hi then
    let mid := (lo + hi) / 2
    match xs[mid]? with
    | some x => if p x then bisect p xs (mid + 1) hi else bisect p xs lo mid
    | none => bisect p xs lo mid
  else lo
termination_by hi - lo

/-- The index of the first element that fails `p`, or the size when there is none. -/
def partitionPoint {α : Type} (p : α → Bool) (xs : Array α) : Nat :=
  bisect p xs 0 xs.size

end Telemetry.Search
