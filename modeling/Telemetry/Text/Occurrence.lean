import Telemetry.Text.Utf8

/-!
Occurrences of a pattern. A pattern reads the text at one place; `occurrences` lists the places
where it succeeds, from left to right, the search going on behind each match, so that no two
matches overlap.
-/

namespace Telemetry.Text

/-- A pattern reads at one place of a text. From the character before the place, if any, and the
text behind it, it gives a value and the text behind the match. -/
abbrev Pattern (α : Type) := Option Char → List Char → Option (α × List Char)

/-- A match: the offsets of its first byte and of the byte behind it, and its value. -/
structure Occurrence (α : Type) where
  start : Nat
  stop : Nat
  value : α
  deriving DecidableEq, Repr

/-- The matches in the rest of a text. The rest stands at `offset` behind the character `before`,
and its first `skip` characters belong to a match already found. -/
def occurrencesFrom {α : Type} (p : Pattern α) :
    (before : Option Char) → (offset skip : Nat) → List Char → List (Occurrence α)
  | _, _, _, [] => []
  | _, offset, skip + 1, c :: cs => occurrencesFrom p (some c) (offset + c.utf8Size) skip cs
  | before, offset, 0, c :: cs =>
    match p before (c :: cs) with
    | some (a, rest) =>
      let length := (c :: cs).length - rest.length
      ⟨offset, offset + byteSize ((c :: cs).take length), a⟩ ::
        occurrencesFrom p (some c) (offset + c.utf8Size) (length - 1) cs
    | none => occurrencesFrom p (some c) (offset + c.utf8Size) 0 cs

/-- The matches in a text of their own whose first byte stands at `offset`. -/
def occurrences {α : Type} (p : Pattern α) (cs : List Char) (offset : Nat) :
    List (Occurrence α) :=
  occurrencesFrom p none offset 0 cs

end Telemetry.Text
