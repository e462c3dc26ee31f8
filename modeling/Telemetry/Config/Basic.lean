import Telemetry.Receiver
import Telemetry.Symbol.Table
import Telemetry.Text.Quoted

/-!
Configurations: the receivers to look for, the files to scan, and values for names that cannot be
resolved otherwise. A configuration is valid if its receivers are identifiers, some extension is
given and every override is addressed to a name in a file.
-/

namespace Telemetry

open Telemetry.Text

structure Config where
  meterReceiver : Receiver
  eventReceiver : Receiver
  /-- The extensions of the files to scan, without the dot. -/
  extensions : List String
  /-- Patterns of paths to leave out. -/
  excludedPaths : List String
  overrides : Symbol.Overrides

namespace Config

/-- The configuration that holds where none is given. -/
def standard : Config where
  meterReceiver := .meterDefault
  eventReceiver := .eventDefault
  extensions := ["kt", "kts"]
  excludedPaths := []
  overrides := ∅

/-- The names under which a configuration file is looked for, in order. -/
def fileNames : List String := ["meterscan.yaml", ".meterscan.yaml"]

inductive Fault where
  | receiver (family field value : String)
  | overrideKey (key : String)
  | overrideArgument (argument : String)
  | noExtensions
  deriving DecidableEq, Repr

def Fault.message : Fault → String
  | .receiver family field value =>
    family ++ " receiver " ++ field ++ " " ++ quoted value ++ " is not an identifier"
  | .overrideKey key => "override key " ++ quoted key ++ " must look like ClassName.variableName"
  | .overrideArgument argument =>
    "override " ++ quoted argument ++ " must be given as KEY=VALUE"
  | .noExtensions => "no file extensions configured"

/-- The key and the value of an argument `KEY=VALUE`, split at its first equals sign. Blanks around
the key do not count. -/
def splitArgument? (argument : String) : Option (String × String) :=
  let cs := argument.toList
  match cs.dropWhile (· != '=') with
  | '=' :: value =>
    some (String.ofList (trim (cs.takeWhile (· != '='))), String.ofList value)
  | _ => none

/-- Adds the overrides of a list of arguments, one after another, up to the first that is none. -/
def addOverrides (c : Config) : List String → Config × Option Fault
  | [] => (c, none)
  | argument :: rest =>
    match splitArgument? argument with
    | some (key, value) => addOverrides { c with overrides := c.overrides.insert key value } rest
    | none => (c, some (.overrideArgument argument))

def isOverrideKey (key : String) : Bool :=
  match Symbol.splitKey? key with
  | some (file, name) => isIdentifier file.toList && isIdentifier name.toList
  | none => false

def receiverFault? (family : String) (r : Receiver) : Option Fault :=
  if !isIdentifier r.token.toList then some (.receiver family "token" r.token)
  else if !isIdentifier r.typeName.toList then some (.receiver family "type_name" r.typeName)
  else none

/-- The first fault of a configuration, if it has one: of the receivers, of the extensions, of the
override keys in their order. -/
def fault? (c : Config) : Option Fault :=
  (receiverFault? "meter" c.meterReceiver).or <|
    (receiverFault? "event" c.eventReceiver).or <|
      if c.extensions.isEmpty then some .noExtensions
      else (c.overrides.keys.find? (!isOverrideKey ·)).map .overrideKey

end Config

end Telemetry
