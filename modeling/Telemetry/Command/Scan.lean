import Telemetry.Command.Line
import Telemetry.Command.Outcome
import Telemetry.Config.Reading
import Telemetry.Report.Format
import Telemetry.Survey

/-!
The command `scan`. It checks the format, reads and checks the configuration, checks the path,
collects the catalogue of the sources under it, writes the report and warns of the names left open.
Only the report changes the file tree, and only where it is wanted in a file.
-/

namespace Telemetry.Command

open Telemetry.Text

/-- The reasons for which a scan is refused before it starts. -/
inductive Refusal where
  | format (name : String)
  | configFile (path : String) (error : FileError)
  | configEncoding (path : String)
  | configText (path : String) (cause : Config.Unreadable)
  | config (fault : Config.Fault)
  | noSuchPath (path : String)
  deriving DecidableEq, Repr

def Refusal.message : Refusal → String
  | .format name => "invalid format " ++ quoted name ++ ", must be 'csv', 'json', or 'pretty'"
  | .configFile path error => "reading config " ++ path ++ ": " ++ error.message
  | .configEncoding path => "reading config " ++ path ++ ": stream did not contain valid UTF-8"
  | .configText path cause => "parsing config " ++ path ++ ": " ++ cause.message
  | .config fault => "invalid config: " ++ fault.message
  | .noSuchPath path => "cannot access path " ++ quotedPath path

/-- The configuration file of a folder: the first of the usual names that is a file. -/
def discoverConfig (t : FileTree) (folder : String) : Option String :=
  (Config.fileNames.map (Path.join folder)).find? t.isFile

def readConfigFile (t : FileTree) (a : Access) (path : String) : Except Refusal Config :=
  match Access.grant (a.reading path) (t.read path) with
  | .error e => .error (.configFile path e)
  | .ok content =>
    match decode? content with
    | none => .error (.configEncoding path)
    | some cs =>
      match Config.ofText (String.ofList cs) with
      | .ok c => .ok c
      | .error cause => .error (.configText path cause)

/-- The configuration before the overrides of the command line: from the file that is named, else
from the one that is discovered, else the standard one. -/
def baseConfig (t : FileTree) (a : Access) (config : Option String) : Except Refusal Config :=
  match config.or (discoverConfig t ".") with
  | some path => readConfigFile t a path
  | none => .ok .standard

/-- The configuration of a scan, which must be valid. -/
def scanConfig (t : FileTree) (a : Access) (args : ScanArguments) : Except Refusal Config :=
  match baseConfig t a args.config with
  | .error r => .error r
  | .ok base =>
    match base.addOverrides args.overrides with
    | (_, some fault) => .error (.config fault)
    | (c, none) =>
      match c.fault? with
      | some fault => .error (.config fault)
      | none => .ok c

/-- What must hold before a scan starts: a known format, a valid configuration, an existing path. -/
def prepare (t : FileTree) (a : Access) (args : ScanArguments) :
    Except Refusal (Report.Format × Config) :=
  match Report.Format.ofName? args.format with
  | none => .error (.format args.format)
  | some format =>
    match scanConfig t a args with
    | .error r => .error r
    | .ok c => if t.exists? args.path then .ok (format, c) else .error (.noSuchPath args.path)

def collect (t : FileTree) (a : Access) (c : Config) (path : String) :
    Except WalkFault Catalog :=
  match Selection.ofPatterns c.extensions c.excludedPaths with
  | .error fault => .error fault
  | .ok selection =>
    match t.sourcesWith a selection path with
    | .error fault => .error fault
    | .ok files => .ok (survey c files)

/-- What is said when no file was found. -/
def emptyWarning (c : Catalog) : String :=
  if c.files = 0 then "Warning: no files to scan\n" else ""

/-- The warning about open names, unless the report on the terminal holds it already. -/
def openNamesWarning (color : Bool) (format : Report.Format) (output : Option String)
    (c : Catalog) : String :=
  if !format.includesWarning || output.isSome then Report.Pretty.warning color c else ""

def scanEnding (strict : Bool) (c : Catalog) : Ending :=
  .exit (if strict && c.hasUnresolved then .unresolved else .success)

/-- Puts a report on the terminal or into a file, and gives the tree that it leaves. -/
def putReport (host : Host) (t : FileTree) (output : Option String) (report : String) :
    Except Failure FileTree :=
  match output with
  | none =>
    match host.stdout.refusal? report with
    | none => .ok t
    | some e => .error (.stream e)
  | some path =>
    match Access.grant (host.access.writing path) (t.write path (encode report.toList)) with
    | .ok t => .ok t
    | .error e => .error (.create path e)

/-- Reports on a catalogue: says that there was no file, puts the report where it is wanted, and
warns of the names left open. Only the first of the three aborts when it cannot be written. -/
def deliver (host : Host) (t : FileTree) (args : ScanArguments) (format : Report.Format)
    (c : Catalog) : Outcome :=
  let report := format.render host.color c
  let printed := if args.output.isNone then report else ""
  let warnings := emptyWarning c ++ openNamesWarning host.color format args.output c
  if host.stderr.takes (emptyWarning c) then
    match putReport host t args.output report with
    | .error reason => ⟨printed, emptyWarning c, .failure reason, t⟩
    | .ok t =>
      match host.stderr.refusal? warnings with
      | none => ⟨printed, warnings, scanEnding args.strict c, t⟩
      | some e => ⟨printed, warnings, .failure (.stream e), t⟩
  else ⟨"", emptyWarning c, .abort, t⟩

def scan (host : Host) (t : FileTree) (args : ScanArguments) : Outcome :=
  match prepare t host.access args with
  | .error r =>
    let message := "Error: " ++ r.message ++ "\n"
    ⟨"", message, .after host.stderr message .error, t⟩
  | .ok (format, config) =>
    match collect t host.access config args.path with
    | .error fault => ⟨"", "", .failure (.walk fault), t⟩
    | .ok catalog => deliver host t args format catalog

end Telemetry.Command
