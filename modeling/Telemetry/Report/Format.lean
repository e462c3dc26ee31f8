import Telemetry.Report.Csv
import Telemetry.Report.Json
import Telemetry.Report.Pretty
import Telemetry.Text.Search

/-!
The formats of a report.
-/

namespace Telemetry.Report

inductive Format where
  | csv
  | json
  | pretty
  deriving DecidableEq, Repr

/-- The format with a name, in whatever case. -/
def Format.ofName? (name : String) : Option Format :=
  match name.map Text.lower with
  | "csv" => some .csv
  | "json" => some .json
  | "pretty" => some .pretty
  | _ => none

def unknownFormat (name : String) : String :=
  "unknown format: " ++ name

def Format.render (f : Format) (color : Bool) (c : Catalog) : String :=
  match f with
  | .csv => Csv.render c
  | .json => Json.render c
  | .pretty => Pretty.render color c

/-- Whether a report in a format lists the names left open as a warning of its own. -/
def Format.includesWarning : Format → Bool
  | .pretty => true
  | .csv | .json => false

end Telemetry.Report
