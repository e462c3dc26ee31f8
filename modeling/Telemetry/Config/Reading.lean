import Telemetry.Config.Basic
import Telemetry.Yaml.Document

/-!
Configurations read from YAML. Fields that are missing take their defaults, unknown ones are
ignored, and a blank text is the standard configuration. A scalar is taken as it is written
wherever a string is wanted; a list or mapping that is left empty may be left out altogether.
-/

namespace Telemetry.Config

open Telemetry.Yaml

inductive Unreadable where
  | yaml (fault : Yaml.Fault)
  | wrongType (expected : String)
  | missingField (name : String)
  | duplicateField (name : String)
  deriving DecidableEq, Repr

def Unreadable.message : Unreadable → String
  | .yaml fault => fault.message
  | .wrongType expected => "invalid type, expected " ++ expected
  | .missingField name => "missing field `" ++ name ++ "`"
  | .duplicateField name => "duplicate field `" ++ name ++ "`"

def readString (d : Document) (n : Node) : Except Unreadable String :=
  match d.target n with
  | .scalar text _ => .ok text
  | _ => .error (.wrongType "a string")

def readList (d : Document) (n : Node) : Except Unreadable (List String) :=
  match d.target n with
  | .sequence items => items.mapM (readString d)
  | .scalar "" true => .ok []
  | _ => .error (.wrongType "a sequence")

def readPairs (d : Document) (n : Node) : Except Unreadable (List (String × Node)) :=
  match d.target n with
  | .mapping entries => entries.mapM fun (key, value) => (readString d key).map (·, value)
  | .scalar "" true => .ok []
  | _ => .error (.wrongType "a map")

/-- The values of strings by strings. Of several values for one key the last one holds. -/
def readMap (d : Document) (n : Node) : Except Unreadable Symbol.Overrides := do
  (← readPairs d n).foldlM (fun m (key, value) => (readString d value).map (m.insert key)) ∅

/-- The value of a field, which may be given once. -/
def field? (fields : List (String × Node)) (name : String) : Except Unreadable (Option Node) :=
  match fields.filter (·.1 == name) with
  | [] => .ok none
  | [(_, n)] => .ok (some n)
  | _ => .error (.duplicateField name)

/-- The value of a field that may not be missing. -/
def field (fields : List (String × Node)) (name : String) : Except Unreadable Node := do
  match ← field? fields name with
  | some n => return n
  | none => throw (.missingField name)

def readReceiver (d : Document) (n : Node) : Except Unreadable Receiver := do
  let fields ← readPairs d n
  return ⟨← readString d (← field fields "token"), ← readString d (← field fields "type_name")⟩

/-- The value of a field as `read` gives it, or a default when it is missing. -/
def readField {α : Type} (fields : List (String × Node)) (name : String) (default : α)
    (read : Node → Except Unreadable α) : Except Unreadable α := do
  match ← field? fields name with
  | some n => read n
  | none => return default

def ofDocument (d : Document) : Except Unreadable Config := do
  let fields ← readPairs d (d.root.getD .empty)
  return {
    meterReceiver := ← readField fields "meter_receiver" .meterDefault (readReceiver d)
    eventReceiver := ← readField fields "event_receiver" .eventDefault (readReceiver d)
    extensions := ← readField fields "extensions" standard.extensions (readList d)
    excludedPaths := ← readField fields "excluded_paths" standard.excludedPaths (readList d)
    overrides := ← readField fields "overrides" standard.overrides (readMap d) }

def ofText (text : String) : Except Unreadable Config :=
  if (Text.trim text.toList).isEmpty then .ok standard
  else
    match Document.ofText text with
    | .ok d => ofDocument d
    | .error fault => .error (.yaml fault)

end Telemetry.Config
