import Telemetry.Command.Program

/-!
The command line. What a request can touch of the file system is read into a file tree, the program
runs on the tree, and the file that it wrote, if any, is put back. Everything is decided on the
tree; this module only moves bytes. A stream that refuses bytes is noticed when they are sent, and
the program is then run once more on a host with such a stream.
-/

namespace Telemetry.Shell

open Telemetry.Command

inductive Found where
  | nothing
  | file
  | folder

def find (path : String) : IO Found := do
  try
    let place ← IO.FS.realPath path
    if ← place.isDir then return .folder
    if ← place.pathExists then return .file
    return .nothing
  catch _ => return .nothing

/-- What the system was seen to deny, by the paths under which it was asked. -/
structure Denials where
  listing : List (String × FileError)
  reading : List (String × FileError)

/-- Looking at the file system, which may be denied here and there. -/
abbrev Look := StateT Denials IO

def denialOf : IO.Error → FileError
  | .permissionDenied .. => .permissionDenied
  | _ => .inputOutput

def readContent (path place : String) : Look (List UInt8) := do
  try return (← IO.FS.readBinFile place).toList
  catch e =>
    modify fun d => { d with reading := (path, denialOf e) :: d.reading }
    return []

def readNames (path : String) : Look (List String) := do
  try
    let place ← IO.FS.realPath path
    return (← place.readDir).toList.map (·.fileName)
  catch e =>
    modify fun d => { d with listing := (path, denialOf e) :: d.listing }
    return []

/-- The entries of the folder at a path. Folders that a walk passes over are left empty, and so are
the files that it cannot take for their extension. -/
partial def readFolder (extensions : List String) (path : String) : Look Folder := do
  let mut entries : Folder := []
  for name in ← readNames path do
    let below := Path.join path name
    match ← find below with
    | .nothing => pure ()
    | .file =>
      let wanted := extensions.contains ((Path.extension? below).getD "")
      let content ← if wanted then readContent below below else pure []
      entries := (name, .file content) :: entries
    | .folder =>
      let inner ← if isSkippedFolder name then pure [] else readFolder extensions below
      entries := (name, .folder inner) :: entries
  return entries

/-- Puts what stands at a path into a tree, with the folders on the way there. -/
def lookAt (t : FileTree) (path : String) : Look FileTree := do
  let (start, names) := FileTree.startOf path
  let mut t := t
  let mut location := start
  let mut walked := if start.isEmpty then "" else "/"
  for name in names do
    match t.step location name with
    | .error _ => return t
    | .ok next =>
      location := next
      if name ≠ "" then walked := Path.join walked name
      match ← find walked with
      | .nothing => return t
      | .file => return t.put location (.file (← readContent path walked))
      | .folder => if (t.entryAt? location).isNone then t := t.put location (.folder [])
  return t

/-- Puts the folder at a path into a tree with all that a walk needs of it. -/
def lookBelow (extensions : List String) (t : FileTree) (path : String) : Look FileTree := do
  let t ← lookAt t path
  match t.locate path with
  | .ok ([], .folder _) => return { t with here := ← readFolder extensions path }
  | .ok (location, .folder _) => return t.put location (.folder (← readFolder extensions path))
  | _ => return t

/-- The tree of a system of which nothing but its root is known. -/
def unknownTree : FileTree := ⟨[], [("/", .folder [])]⟩

/-- What a request can touch of the file system. -/
def surroundings : Request → Look FileTree
  | .init args => lookAt unknownTree args.output
  | .scan args => do
    let configs := args.config.toList ++ Config.fileNames.map (Path.join ".")
    let t ← configs.foldlM lookAt unknownTree
    let extensions := match scanConfig t .full args with
      | .ok c => c.extensions
      | .error _ => []
    let t ← lookBelow extensions t args.path
    (configs ++ args.output.toList).foldlM lookAt t

/-- What the system allows, by what it was seen to deny. A file that cannot be written is noticed
when it is put back. -/
def Denials.access (d : Denials) : Access :=
  ⟨(d.listing.lookup ·), (d.reading.lookup ·), fun _ => none⟩

def target? : Request → Option String
  | .init args => some args.output
  | .scan args => args.output

/-- Puts a file back into the file system if it changed. -/
def putBack (before after : FileTree) (path : String) : IO Unit := do
  if let .ok content := after.read path then
    if (before.read path).toOption ≠ some content then
      if let some folder := (Path.parent? path).filter (· ≠ "") then IO.FS.createDirAll folder
      IO.FS.writeBinFile path ⟨content.toArray⟩

def useColor (out : IO.FS.Stream) : IO Bool := do
  let settings : Report.ColorSettings :=
    { terminal := ← out.isTty
      force := ← IO.getEnv "CLICOLOR_FORCE"
      forbid := ← IO.getEnv "NO_COLOR"
      allow := ← IO.getEnv "CLICOLOR" }
  return settings.useColor

/-- Why a stream refused bytes. -/
def refusalOf : IO.Error → StreamError
  | .resourceExhausted .. => .noSpace
  | .resourceVanished .. => .brokenPipe
  | _ => .inputOutput

/-- Sends bytes to a stream, and gives the stream that has shown itself. -/
def send (out : IO.FS.Stream) (bytes : List UInt8) : IO Command.Stream := do
  if bytes.isEmpty then return .unlimited
  try
    out.write ⟨bytes.toArray⟩
    out.flush
    return .unlimited
  catch e => return .limited 0 (refusalOf e)

end Telemetry.Shell

open Telemetry in
def main (arguments : List String) : IO UInt32 := do
  let out ← IO.getStdout
  let err ← IO.getStderr
  let request := Command.ofArguments arguments
  let (tree, denials) ← match request with
    | .ok r => (Shell.surroundings r).run ⟨[], []⟩
    | .error _ => pure (.empty, ⟨[], []⟩)
  let host := ⟨← Shell.useColor out, .unlimited, .unlimited, denials.access⟩
  let run := Command.program host tree arguments
  try
    if let some path := request.toOption.bind Shell.target? then Shell.putBack tree run.tree path
  catch e =>
    err.putStrLn ("Error: " ++ toString e)
    return Command.ExitCode.error.number.toUInt32
  let host := { host with stdout := ← Shell.send out run.stdout }
  let run := Command.program host tree arguments
  let host := { host with stderr := ← Shell.send err run.stderr }
  return (Command.program host tree arguments).exitCode.toUInt32
