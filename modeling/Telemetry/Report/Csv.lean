import Telemetry.Catalog

/-!
The catalogue as comma-separated values: a header, then one record a row, each ended by a newline.
A field with a comma, a quote or a line break in it is quoted, and quotes inside it are doubled.
-/

namespace Telemetry.Report.Csv

/-- A character that makes a field need quotes. -/
def isSpecial (c : Char) : Bool :=
  c == ',' || c == '"' || c == '\n' || c == '\r'

def doubleQuotes : List Char → List Char
  | [] => []
  | c :: cs => if c = '"' then '"' :: '"' :: doubleQuotes cs else c :: doubleQuotes cs

def escape (field : List Char) : List Char :=
  if field.any isSpecial then '"' :: doubleQuotes field ++ ['"'] else field

def header : List String :=
  ["category", "name", "type", "severity", "value_type", "source_file"]

def fields (r : Row) : List String :=
  [r.category.name, r.name, r.kind, r.severity, r.valueType, r.sourceFile]

/-- A record as it is written, with the newline that ends it. -/
def record (fields : List String) : List Char :=
  [','].intercalate (fields.map fun f => escape f.toList) ++ ['\n']

def render (c : Catalog) : String :=
  String.ofList ((header :: c.rows.map fields).flatMap record)

end Telemetry.Report.Csv
