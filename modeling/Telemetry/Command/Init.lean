import Telemetry.Command.Line
import Telemetry.Command.Outcome

/-!
The command `init`. It writes a starter configuration under a path where nothing is yet, and makes
the folders on the way there.
-/

namespace Telemetry.Command

def template : String :=
  "# meterscan configuration

# Variable name and type of the meter receiver.
meter_receiver:
  token: meterRegistry
  type_name: MeterRegistry

# Variable name and type of the structured event receiver.
event_receiver:
  token: eventLogger
  type_name: EventLogger

# File extensions to scan.
extensions:
  - kt
  - kts

# Glob patterns for paths to skip.
excluded_paths:
  - \"**/test/**\"

# Values for names that cannot be resolved from the same file,
# keyed ClassName.variableName.
overrides: \x7b\x7d
#  OrderService.servicePrefix: orders
"

def occupiedMessage (path : String) : String :=
  "Error: file already exists: " ++ path ++
    "\nRemove it or use --output to specify a different path\n"

def createdMessage (path : String) : String :=
  "Created " ++ path ++ "\n\nNext steps:\n  1. Edit " ++ path ++
    " to match your receivers\n  2. Run: meterscan scan . --config " ++ path ++ "\n"

/-- The folder of a path, unless that is the working directory. -/
def folderOf? (path : String) : Option String :=
  (Path.parent? path).filter fun parent =>
    parent ≠ "" && Path.components parent ≠ [.current]

/-- Makes the folder of a path, and gives the reason if that fails. -/
def makeFolderOf (t : FileTree) (a : Access) (path : String) : FileTree × Option Failure :=
  match folderOf? path with
  | none => (t, none)
  | some folder =>
    let (t, error) := t.ensureFolder a folder
    (t, error.map (.makeFolder folder))

def init (host : Host) (t : FileTree) (args : InitArguments) : Outcome :=
  if t.exists? args.output then
    let message := occupiedMessage args.output
    ⟨"", message, .after host.stderr message .error, t⟩
  else
    match makeFolderOf t host.access args.output with
    | (t, some reason) => ⟨"", "", .failure reason, t⟩
    | (t, none) =>
      match Access.grant (host.access.writing args.output)
          (t.write args.output (Text.encode template.toList)) with
      | .ok t =>
        let message := createdMessage args.output
        ⟨message, "", .after host.stdout message .success, t⟩
      | .error e => ⟨"", "", .failure (.write args.output e), t⟩

end Telemetry.Command
