import Telemetry.Command.Arguments

/-!
The command line: `scan` writes the catalogue of the sources under a path, `init` writes a starter
configuration. The name of the command comes first; only help and version may be asked for in its
place.
-/

namespace Telemetry.Command

structure ScanArguments where
  path : String
  config : Option String
  format : String
  output : Option String
  overrides : List String
  strict : Bool
  deriving DecidableEq, Repr

structure InitArguments where
  output : String
  deriving DecidableEq, Repr

inductive Request where
  | scan (arguments : ScanArguments)
  | init (arguments : InitArguments)
  deriving DecidableEq, Repr

def helpSlot : Slot := ⟨"help", some 'h', .help⟩

def topSpec : Spec where
  options := [helpSlot, ⟨"version", some 'V', .version⟩]
  positional := none

def scanSpec : Spec where
  options :=
    [⟨"config", some 'c', .value true⟩, ⟨"format", some 'f', .value false⟩,
      ⟨"output", some 'o', .value true⟩, ⟨"override", none, .values⟩, ⟨"strict", none, .flag⟩,
      helpSlot]
  positional := some ⟨"path", none, .value true⟩

def initSpec : Spec where
  options := [⟨"output", some 'o', .value true⟩, helpSlot]
  positional := none

def readScan (arguments : List String) : Except Stop Request := do
  let v ← Reading.run scanSpec arguments
  return .scan {
    path := (v.get? "path").getD ""
    config := v.get? "config"
    format := (v.get? "format").getD "csv"
    output := v.get? "output"
    overrides := v.getAll "override"
    strict := (v.get? "strict").isSome }

def readInit (arguments : List String) : Except Stop Request := do
  let v ← Reading.run initSpec arguments
  return .init ⟨(v.get? "output").getD "meterscan.yaml"⟩

def commandNames : List String := ["scan", "init", "help"]

/-- What `help` answers: help on the command that is named, if there is one. -/
def helpOn : List String → Stop
  | [] => .help
  | [name] => if commandNames.contains name then .help else .unknownCommand
  | _ => .unknownCommand

def ofArguments : List String → Except Stop Request
  | [] => .error .nothingGiven
  | "scan" :: rest => readScan rest
  | "init" :: rest => readInit rest
  | "help" :: rest => .error (helpOn rest)
  | "--" :: [] => .error .nothingGiven
  | "--" :: argument :: _ =>
    .error (if commandNames.contains argument then .unknownArgument else .unknownCommand)
  | argument :: _ =>
    match argument.toList with
    | '-' :: _ :: _ =>
      match Reading.next topSpec .start argument with
      | .error stop => .error stop
      | .ok _ => .error .unknownArgument
    | _ => .error .unknownCommand

end Telemetry.Command
