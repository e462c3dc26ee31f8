import Telemetry.Text.Blank
import Telemetry.Text.Identifier
import Telemetry.Text.Occurrence
import Telemetry.Text.Word

/-!
Phrases of the scanned language that more than one pattern is made of: the access to a member of a
receiver, and the type annotation of a name.
-/

namespace Telemetry.Source

open Telemetry.Text

/-- Reads `receiver.` or `receiver?.` at a word boundary, blanks allowed around the marks, and
gives the text that starts with the member. -/
def memberOf (receiver : List Char) (before : Option Char) (cs : List Char) :
    Option (List Char) :=
  if isBoundary before cs then
    (receiver.isPrefixOf? cs).bind fun rest =>
      match trimStart rest with
      | '?' :: '.' :: rest => some (trimStart rest)
      | '.' :: rest => some (trimStart rest)
      | _ => none
  else none

/-- A character that may stand in a type name behind the first one. -/
def isTypePart (c : Char) : Bool :=
  isWord c || c == '.' || c == '<' || c == '>' || c == '?'

/-- Skips `: Type` and the blanks behind it, if a colon comes first. A colon without a type name
is a failure. -/
def skipType? : List Char → Option (List Char)
  | ':' :: rest =>
    match trimStart rest with
    | c :: cs => if isIdentifierStart c then some (trimStart (cs.dropWhile isTypePart)) else none
    | [] => none
  | cs => some cs

end Telemetry.Source
