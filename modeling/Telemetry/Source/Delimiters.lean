import Telemetry.Source.Lexeme
import Telemetry.Text.Blank

/-!
Balanced delimiters. `arguments` cuts the list that a parenthesis opens into its top-level
arguments, `matchingBrace` finds the brace that closes a block. Delimiters in strings and comments
do not count, strings are kept in the arguments and comments are dropped from them.

Nothing here fails: a list that is never closed has no arguments, and a block that is never closed
has no closing brace, so that the scan can go on behind it.
-/

namespace Telemetry.Source

open Telemetry.Text (byte)

/-- The part that a lexeme plays in an argument list, at a given depth of nested brackets. -/
inductive Part where
  /-- Belongs to the current argument; the depth afterwards is `depth`. -/
  | keep (depth : Nat)
  /-- A comment, which belongs to no argument. -/
  | drop
  /-- Ends the current argument and starts the next one. -/
  | separator
  /-- Ends the list. -/
  | finish

/-- The part of a lexeme at a depth. Any closing bracket undoes any opening one, and at depth
zero only a parenthesis closes the list. -/
def Lexeme.part (depth : Nat) (l : Lexeme) : Part :=
  match l.kind, l.bytes with
  | .comment, _ => .drop
  | .string, _ => .keep depth
  | .code, [] => .keep depth
  | .code, b :: _ =>
    if b = byte '(' || b = byte '[' || b = byte '\x7b' then .keep (depth + 1)
    else if b = byte ')' || b = byte ']' || b = byte '\x7d' then
      match depth with
      | outer + 1 => .keep outer
      | 0 => if b = byte ')' then .finish else .keep 0
    else if b = byte ',' && depth = 0 then .separator
    else .keep depth

/-- Adds bytes to the front of the first argument of a list. -/
def extendFirst (bs : List UInt8) : List (List UInt8) → List (List UInt8)
  | [] => [bs]
  | a :: rest => (bs ++ a) :: rest

/-- The raw arguments up to the closing parenthesis, at least one, or nothing when the list is
never closed. An empty list has one empty argument here. -/
def rawArguments : (depth : Nat) → List Lexeme → Option (List (List UInt8))
  | _, [] => none
  | depth, l :: ls =>
    match l.part depth with
    | .keep depth' => (rawArguments depth' ls).map (extendFirst l.bytes)
    | .drop => rawArguments depth ls
    | .separator => (rawArguments depth ls).map ([] :: ·)
    | .finish => some [[]]

/-- The text of a raw argument, without the blanks around it. -/
def argumentText (raw : List UInt8) : List Char :=
  Text.trim (Text.decode raw)

/-- A list whose only argument is blank has no arguments. -/
def dropLoneEmpty (args : List (List Char)) : List (List Char) :=
  if args = [[]] then [] else args

/-- The top-level arguments of the call whose parenthesis stands at offset `opening`. There are
none when another byte stands there or the list is never closed. -/
def arguments (bs : List UInt8) (opening : Nat) : List (List Char) :=
  if bs[opening]? = some (byte '(') then
    match rawArguments 0 (lexemesAt bs (opening + 1)) with
    | some raw => dropLoneEmpty (raw.map argumentText)
    | none => []
  else []

/-- The top-level parts of a text that stands for the inside of an argument list. -/
def splitTopLevel (cs : List Char) : List (List Char) :=
  arguments (Text.encode ('(' :: cs ++ [')'])) 0

/-- The offset of the brace that brings the number of open braces back to zero, `depth` of them
being open so far. -/
def closingBrace : (depth : Nat) → List Lexeme → Option Nat
  | _, [] => none
  | depth, l :: ls =>
    if l.code? = some (byte '\x7b') then closingBrace (depth + 1) ls
    else if l.code? = some (byte '\x7d') then
      if depth - 1 = 0 then some l.start else closingBrace (depth - 1) ls
    else closingBrace depth ls

/-- The offset of the brace that closes the one at offset `opening`. -/
def matchingBrace (bs : List UInt8) (opening : Nat) : Option Nat :=
  if bs[opening]? = some (byte '\x7b') then closingBrace 0 (lexemesAt bs opening) else none

end Telemetry.Source
