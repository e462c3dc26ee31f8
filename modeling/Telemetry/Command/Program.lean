import Telemetry.Command.Init
import Telemetry.Command.Scan
import Telemetry.Report.Version

/-!
The program: what it writes and how it exits for a list of arguments and a file tree.
-/

namespace Telemetry.Command

def Request.run (host : Host) (t : FileTree) (r : Request) : Outcome :=
  match r with
  | .scan args => Command.scan host t args
  | .init args => Command.init host t args

def usage : String :=
  "Catalog meters and structured log events declared in source code

Usage: meterscan <COMMAND>

Commands:
  scan  Scan sources and write the instrumentation catalog
  init  Write a starter configuration file
  help  Print this message or the help of the given subcommand(s)

Options:
  -h, --help     Print help
  -V, --version  Print version
"

/-- What the two streams take of the output, the exit code and the tree that is left behind. -/
structure Run where
  stdout : List UInt8
  stderr : List UInt8
  exitCode : Nat
  tree : FileTree

/-- The run of the program. Whether the streams take the usage does not matter. -/
def program (host : Host) (t : FileTree) (arguments : List String) : Run :=
  match ofArguments arguments with
  | .error .version => ⟨host.stdout.taken (programName ++ " " ++ version ++ "\n"), [], 0, t⟩
  | .error .help => ⟨host.stdout.taken usage, [], 0, t⟩
  | .error stop => ⟨[], host.stderr.taken usage, stop.exitCode, t⟩
  | .ok request =>
    let o := request.run host t
    ⟨host.stdout.taken o.stdout, host.stderr.taken o.diagnostics, o.exitCode host.stderr, o.tree⟩

end Telemetry.Command
