import Telemetry.Search
import Telemetry.Source.Lexeme

/-!
The parts of a text that are not code. `Coverage.ofBytes` joins adjacent lexemes of strings and
comments into maximal spans, and `Coverage.isCode` finds by binary search whether an offset lies
outside all of them. A match of a pattern that starts inside a span is no code and is ignored.
-/

namespace Telemetry.Source

/-- A half-open interval of offsets. -/
structure Span where
  start : Nat
  stop : Nat
  deriving DecidableEq, Repr

/-- Puts a span in front of later ones, joined to the first of them when they touch. -/
def Span.join (s : Span) : List Span → List Span
  | [] => [s]
  | t :: ts => if s.stop = t.start then ⟨s.start, t.stop⟩ :: ts else s :: t :: ts

/-- The maximal spans of strings and comments, in order. -/
def coveredSpans : List Lexeme → List Span
  | [] => []
  | l :: ls =>
    if l.kind = .code then coveredSpans ls
    else Span.join ⟨l.start, l.stop⟩ (coveredSpans ls)

/-- The spans of a text that strings and comments cover, in ascending order and apart. -/
structure Coverage where
  spans : Array Span
  deriving DecidableEq, Repr

def Coverage.ofBytes (bs : List UInt8) : Coverage :=
  ⟨(coveredSpans (lexemes bs)).toArray⟩

/-- Whether an offset lies outside every string and comment. An offset behind the end of the
text does. -/
def Coverage.isCode (c : Coverage) (offset : Nat) : Bool :=
  match Search.partitionPoint (fun s => decide (s.start ≤ offset)) c.spans with
  | 0 => true
  | n + 1 =>
    match c.spans[n]? with
    | some s => decide (s.stop ≤ offset)
    | none => true

end Telemetry.Source
