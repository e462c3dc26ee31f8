import Telemetry.Catalog
import Telemetry.Report.Style
import Telemetry.Report.Version

/-!
The catalogue for a terminal: a heading with the counts, a table of the meters, a table of the
events, and a warning that lists the names left open.
-/

namespace Telemetry.Report.Pretty

def lines (ls : List String) : String :=
  String.join (ls.map (· ++ "\n"))

def severityStyle (severity : String) : Style :=
  match severity with
  | "error" => .red
  | "warn" => .yellow
  | "info" => .blue
  | _ => .dimmed

/-- The tag of a severity: its name in capitals, padded before it is styled. -/
def severityTag (color : Bool) (severity : String) : String :=
  styled color (severityStyle severity) 0 (padded 8 (severity.map Char.toUpper))

def meterLine (color : Bool) (r : Row) : String :=
  "    " ++ styled color .green 12 r.kind ++ padded 48 r.name ++ styled color .blue 0 r.sourceFile

def eventLine (color : Bool) (r : Row) : String :=
  "    " ++ severityTag color r.severity ++ padded 48 r.name ++
    styled color .dimmed 20 r.valueType ++ styled color .blue 0 r.sourceFile

/-- A table with its title and count, or nothing when it has no rows. -/
def table (color : Bool) (title : String) (rows : List String) : List String :=
  if rows.isEmpty then []
  else ("  " ++ styled color .bold 0 title ++ " (" ++ toString rows.length ++ "):") :: rows ++ [""]

def openNameLine (color : Bool) (n : OpenName) : String :=
  "    " ++ styled color .dimmed 8 n.category.name ++ padded 48 n.name ++
    styled color .blue 0 n.sourceFile

/-- The lines of the warning about open names, none when there are no such names. -/
def warningLines (color : Bool) (c : Catalog) : List String :=
  if c.unresolved.isEmpty then []
  else
    ("  " ++ styled color .yellow 0 "WARN" ++ " " ++ toString c.unresolved.length ++
        " name(s) could not be fully resolved:") ::
      c.unresolved.map (openNameLine color) ++
      ["  Add an override such as `<ClassName>.<variable>: value` to the config or pass --override.",
        ""]

def warning (color : Bool) (c : Catalog) : String :=
  lines (warningLines color c)

def heading (color : Bool) (c : Catalog) : List String :=
  ["",
    "  " ++ styled color .boldCyan 0 programName ++ " v" ++ version,
    "",
    "  " ++ styled color .dimmed 0 "Files:" ++ " " ++ toString c.files ++ "  " ++
      styled color .dimmed 0 "Meters:" ++ " " ++ toString c.meters.length ++ "  " ++
      styled color .dimmed 0 "Events:" ++ " " ++ toString c.events.length,
    ""]

def render (color : Bool) (c : Catalog) : String :=
  let meters := c.rows.filter (·.category = .meter)
  let events := c.rows.filter (·.category = .event)
  lines (heading color c ++
    table color "Meters" (meters.map (meterLine color)) ++
    table color "Events" (events.map (eventLine color)) ++
    warningLines color c)

end Telemetry.Report.Pretty
