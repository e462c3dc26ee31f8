import Telemetry.Source.Coverage
import Telemetry.Source.Phrase
import Telemetry.Symbol.Table

/-!
Declarations of string constants: `val name = "literal"` or `val name: Type = "literal"`, where the
literal is all there is on its line but for a semicolon or a line comment. Visibility words and
`const` may stand in front and need not be read. `Table.ofSource` collects the declarations whose
name stands in code; a later declaration of a name replaces an earlier one.
-/

namespace Telemetry.Symbol

open Telemetry.Text Telemetry.Source

/-- A declaration: the number of bytes from its keyword to its name, the name, and the text
between the quotes, escapes included. -/
structure Declaration where
  nameAfter : Nat
  name : List Char
  value : List Char
  deriving DecidableEq, Repr

/-- The characters up to the closing quote, and the text behind it. A backslash takes the next
character along; a newline ends the line before the literal is closed. -/
def literalBody? : List Char → Option (List Char × List Char)
  | [] => none
  | [c] => if c = '"' then some ([], []) else none
  | c :: d :: cs =>
    if c = '"' then some ([], d :: cs)
    else if c = '\n' then none
    else if c = '\\' then
      if d = '\n' then none
      else (literalBody? cs).map fun (body, rest) => (c :: d :: body, rest)
    else (literalBody? (d :: cs)).map fun (body, rest) => (c :: body, rest)

/-- The rest of a text that stands at the end of a line, a carriage return being skipped. -/
def lineEnd? : List Char → Option (List Char)
  | [] => some []
  | '\n' :: cs => some ('\n' :: cs)
  | ['\r'] => some []
  | '\r' :: '\n' :: cs => some ('\n' :: cs)
  | _ => none

/-- Skips what may follow the literal on its line: blanks, then a semicolon or a line comment. -/
def skipLineRest? (cs : List Char) : Option (List Char) :=
  match cs.dropWhile (fun c => c == ' ' || c == '\t') with
  | ';' :: rest => lineEnd? rest
  | '/' :: '/' :: rest => some (rest.dropWhile (· != '\n'))
  | rest => lineEnd? rest

/-- Reads `= "literal"` to the end of the line. -/
def initializer? : List Char → Option (List Char × List Char)
  | '=' :: rest =>
    match trimStart rest with
    | '"' :: rest =>
      (literalBody? rest).bind fun (value, rest) =>
        (skipLineRest? rest).map fun rest => (value, rest)
    | _ => none
  | _ => none

/-- Matches a declaration from the word `val` to the end of its line. -/
def declaration : Pattern Declaration := fun before cs =>
  if isBoundary before cs then
    ("val".toList.isPrefixOf? cs).bind fun rest =>
      let blanks := rest.takeWhile isBlank
      if blanks.isEmpty then none
      else
        (identifier? (trimStart rest)).bind fun (name, rest) =>
          (skipType? (trimStart rest)).bind fun rest =>
            (initializer? rest).map fun (value, rest) =>
              (⟨3 + byteSize blanks, name, value⟩, rest)
  else none

/-- The declarations of a text whose name stands in code, in source order. -/
def declarations (text : List Char) : List (Occurrence Declaration) :=
  let coverage := Coverage.ofBytes (encode text)
  (occurrences declaration text 0).filter fun o => coverage.isCode (o.start + o.value.nameAfter)

def Table.ofSource (text : List Char) : Table :=
  (declarations text).foldl
    (fun t o => t.insert (String.ofList o.value.name) (String.ofList o.value.value)) .empty

/-- The table of a file: its declarations, then the overrides addressed to it. -/
def Table.build (text : List Char) (identifier : String) (overrides : Overrides) : Table :=
  (Table.ofSource text).override identifier overrides

end Telemetry.Symbol
