/-!
Slices of a text by byte offsets. A character belongs to a slice only if all of its bytes do, so a
slice that ends inside a character ends in front of it.
-/

namespace Telemetry.Text

/-- Drops the characters that start before the byte offset `n`. -/
def dropBytes : (n : Nat) → List Char → List Char
  | 0, cs => cs
  | _ + 1, [] => []
  | n + 1, c :: cs => dropBytes (n + 1 - c.utf8Size) cs

/-- Keeps the characters that end at the byte offset `n` or before. -/
def takeBytes : (n : Nat) → List Char → List Char
  | _, [] => []
  | n, c :: cs => if c.utf8Size ≤ n then c :: takeBytes (n - c.utf8Size) cs else []

/-- The part of a text from the byte offset `start` up to the byte offset `stop`. -/
def slice (cs : List Char) (start stop : Nat) : List Char :=
  takeBytes (stop - start) (dropBytes start cs)

end Telemetry.Text
