import Telemetry.Source.Phrase
import Telemetry.Text.Search

/-!
Receivers. A family of calls goes to a variable with a conventional name, the token, and to every
variable or parameter that is declared with the type of the family.
-/

namespace Telemetry

open Telemetry.Text

/-- A family of receivers. -/
structure Receiver where
  token : String
  typeName : String
  deriving DecidableEq, Repr

namespace Receiver

def meterDefault : Receiver := ⟨"meterRegistry", "MeterRegistry"⟩

def eventDefault : Receiver := ⟨"eventLogger", "EventLogger"⟩

def appearsIn (r : Receiver) (text : List Char) : Bool :=
  (r.token ≠ "" && contains r.token.toList text) ||
    (r.typeName ≠ "" && contains r.typeName.toList text)

/-- Matches `name: Type` on word boundaries. -/
def typedName (typeName : List Char) : Pattern String := fun before cs =>
  if isBoundary before cs then
    (identifier? cs).bind fun (name, rest) =>
      match trimStart rest with
      | ':' :: rest =>
        (typeName.isPrefixOf? (trimStart rest)).bind fun rest =>
          if isBoundary typeName.getLast? rest then some (String.ofList name, rest) else none
      | _ => none
  else none

/-- Adds a name to a list that does not hold it yet. -/
def addName (names : List String) (name : String) : List String :=
  if names.contains name then names else names ++ [name]

/-- The names under which the receiver goes in a text: the token, then the names declared with
its type, each once. A token or a type that is no identifier counts for nothing. -/
def namesIn (r : Receiver) (text : List Char) : List String :=
  let tokens := if isIdentifier r.token.toList then [r.token] else []
  if isIdentifier r.typeName.toList then
    ((occurrences (typedName r.typeName.toList) text 0).map (·.value)).foldl addName tokens
  else tokens

end Receiver

end Telemetry
