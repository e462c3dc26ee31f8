import Telemetry.FileTree.Basic
import Telemetry.Glob.Match
import Telemetry.Text.Quoted
import Telemetry.Text.Utf8

/-!
The source files under a path. A path to a file stands for that file alone. Under a folder all files
with a wanted extension are taken, unless a pattern excludes their path; hidden folders and folders
of build products are not entered. Files come in the order of their paths, and files that are no
UTF-8 text are left out. A folder that cannot be listed or a file that cannot be read ends the walk.
-/

namespace Telemetry

open Telemetry.Text

/-- A source file: its path as walked, the name under which it is reported, and its text. -/
structure SourceFile where
  path : String
  name : String
  text : String
  deriving DecidableEq, Repr

def SourceFile.at (path text : String) : SourceFile :=
  ⟨path, Path.displayName path, text⟩

/-- Which files a walk takes: those with one of the extensions whose paths are not excluded. -/
structure Selection where
  extensions : List String
  excluded : String → Bool

inductive WalkFault where
  | exclude (pattern : String) (fault : Glob.Fault)
  /-- The path cannot be followed, or the folder there cannot be listed. -/
  | visit (path : String) (error : FileError)
  | read (path : String) (error : FileError)
  deriving DecidableEq, Repr

def WalkFault.message : WalkFault → String
  | .exclude pattern fault =>
    "invalid exclude pattern " ++ quoted pattern ++ ": error parsing glob '" ++ pattern ++ "': " ++
      fault.message
  | .visit path error =>
    "IO error for operation on " ++ path ++ ": " ++ error.message ++ ": " ++ error.message
  | .read path error => "reading " ++ path ++ ": " ++ error.message

def excludePattern (pattern : String) : Except WalkFault (List Glob.Token) :=
  match Glob.parse pattern with
  | .ok tokens => .ok tokens
  | .error fault => .error (.exclude pattern fault)

/-- The selection of a list of extensions and patterns. The first faulty pattern is reported. -/
def Selection.ofPatterns (extensions patterns : List String) : Except WalkFault Selection :=
  (patterns.mapM excludePattern).map fun globs =>
    ⟨extensions, fun path => globs.any fun glob => Glob.isMatch glob path⟩

def Selection.wants (s : Selection) (path : String) : Bool :=
  s.extensions.contains ((Path.extension? path).getD "") && !s.excluded path

/-- Whether folders with a name are passed over below the root. -/
def isSkippedFolder (name : String) : Bool :=
  name.startsWith "." || ["build", "target", "out", "node_modules"].contains name

/-- All files below a folder at a path, with their paths, but for skipped folders. -/
def filesBelow (path : String) : Folder → List (String × List UInt8)
  | [] => []
  | (name, .file content) :: rest => (Path.join path name, content) :: filesBelow path rest
  | (name, .folder entries) :: rest =>
    (if isSkippedFolder name then [] else filesBelow (Path.join path name) entries) ++
      filesBelow path rest

/-- The files that a walk takes, in the order of their paths. -/
def selectedFiles (s : Selection) (root : String) (folder : Folder) :
    List (String × List UInt8) :=
  ((filesBelow root folder).filter fun f => s.wants f.1).mergeSort
    fun a b => (Path.compare a.1 b.1).isLE

/-- The source file of a path and a content, if the content is text. -/
def SourceFile.ofContent? (f : String × List UInt8) : Option SourceFile :=
  (decode? f.2).map fun cs => .at f.1 (String.ofList cs)

/-- The first folder in the order of a walk that cannot be listed, with the reason. Folders that are
passed over need not be listed. -/
def unlisted? (a : Access) (path : String) : Folder → Option (String × FileError)
  | [] => none
  | (_, .file _) :: rest => unlisted? a path rest
  | (name, .folder entries) :: rest =>
    let below := Path.join path name
    let inside :=
      if isSkippedFolder name then none
      else ((a.listing below).map (below, ·)).or (unlisted? a below entries)
    inside.or (unlisted? a path rest)

/-- Reads files one after the other. Those that are no text are left out. -/
def readFiles (a : Access) : List (String × List UInt8) → Except WalkFault (List SourceFile)
  | [] => .ok []
  | f :: fs =>
    match a.reading f.1 with
    | some e => .error (.read f.1 e)
    | none => (readFiles a fs).map ((SourceFile.ofContent? f).toList ++ ·)

namespace FileTree

/-- The source files under a path, as far as the system lets them be listed and read. -/
def sourcesWith (t : FileTree) (a : Access) (s : Selection) (root : String) :
    Except WalkFault (List SourceFile) :=
  match t.locate root with
  | .error e => .error (.visit root e)
  | .ok (_, .file content) => readFiles a [(root, content)]
  | .ok (_, .folder entries) =>
    match ((a.listing root).map (root, ·)).or (unlisted? a root entries) with
    | some (path, e) => .error (.visit path e)
    | none => readFiles a (selectedFiles s root entries)

/-- The source files under a path where nothing is denied. -/
def sources (t : FileTree) (s : Selection) (root : String) : Except WalkFault (List SourceFile) :=
  t.sourcesWith .full s root

end FileTree

end Telemetry
