import Telemetry.Catalog
import Telemetry.Report.Version

/-!
The catalogue as a JSON document: the version, the counts, the rows and, if there are any, the names
left open. The document is laid out with two spaces a level, fields in a fixed order. Characters
outside ASCII are written as they are, control characters by their short escapes or as `\u00xx`.
-/

namespace Telemetry.Report

/-- JSON values, as far as a report needs them. The fields of an object keep their order. -/
inductive Json where
  | number (n : Nat)
  | string (s : String)
  | array (items : List Json)
  | object (fields : List (String × Json))

namespace Json

def hexDigit (n : Nat) : Char :=
  if n < 10 then Char.ofNat (48 + n) else Char.ofNat (87 + n)

def escapeChar (c : Char) : List Char :=
  if c = '"' then ['\\', '"']
  else if c = '\\' then ['\\', '\\']
  else if c = '\n' then ['\\', 'n']
  else if c = '\r' then ['\\', 'r']
  else if c = '\t' then ['\\', 't']
  else if c = '\x08' then ['\\', 'b']
  else if c = '\x0c' then ['\\', 'f']
  else if c.toNat < 0x20 then
    ['\\', 'u', '0', '0', hexDigit (c.toNat / 16), hexDigit (c.toNat % 16)]
  else [c]

/-- A string in its quotes. -/
def quote (s : String) : List Char :=
  '"' :: s.toList.flatMap escapeChar ++ ['"']

/-- The line break in front of something at a level of nesting. -/
def newline (level : Nat) : List Char :=
  '\n' :: List.replicate (2 * level) ' '

mutual

/-- The layout of a value that stands at a level of nesting. -/
def layout (level : Nat) : Json → List Char
  | .number n => (toString n).toList
  | .string s => quote s
  | .array [] => ['[', ']']
  | .array (item :: items) =>
    '[' :: newline (level + 1) ++ layout (level + 1) item ++ layoutItems (level + 1) items ++
      newline level ++ [']']
  | .object [] => ['\x7b', '\x7d']
  | .object ((key, value) :: fields) =>
    '\x7b' :: newline (level + 1) ++ quote key ++ [':', ' '] ++ layout (level + 1) value ++
      layoutFields (level + 1) fields ++ newline level ++ ['\x7d']

/-- The items behind the first one of an array. -/
def layoutItems (level : Nat) : List Json → List Char
  | [] => []
  | item :: items => ',' :: newline level ++ layout level item ++ layoutItems level items

/-- The fields behind the first one of an object. -/
def layoutFields (level : Nat) : List (String × Json) → List Char
  | [] => []
  | (key, value) :: fields =>
    ',' :: newline level ++ quote key ++ [':', ' '] ++ layout level value ++
      layoutFields level fields

end

def ofRow (r : Row) : Json :=
  .object [("category", .string r.category.name), ("name", .string r.name),
    ("type", .string r.kind), ("severity", .string r.severity),
    ("value_type", .string r.valueType), ("source_file", .string r.sourceFile)]

def ofOpenName (n : OpenName) : Json :=
  .object [("source_file", .string n.sourceFile), ("name", .string n.name),
    ("category", .string n.category.name)]

/-- The names left open as a field, which is left out when there are none. -/
def unresolvedField (names : List OpenName) : List (String × Json) :=
  if names.isEmpty then [] else [("unresolved", .array (names.map ofOpenName))]

structure Summary where
  version : String
  files : Nat
  meterCount : Nat
  eventCount : Nat
  rows : List Row
  unresolved : List OpenName
  deriving DecidableEq, Repr

def Summary.ofCatalog (c : Catalog) : Summary :=
  ⟨Telemetry.version, c.files, c.meters.length, c.events.length, c.rows, c.unresolved⟩

def ofSummary (s : Summary) : Json :=
  .object ([("version", .string s.version), ("files_scanned", .number s.files),
    ("meter_count", .number s.meterCount), ("event_count", .number s.eventCount),
    ("rows", .array (s.rows.map ofRow))] ++ unresolvedField s.unresolved)

def render (c : Catalog) : String :=
  String.ofList (layout 0 (ofSummary (.ofCatalog c)) ++ ['\n'])

end Json

end Telemetry.Report
