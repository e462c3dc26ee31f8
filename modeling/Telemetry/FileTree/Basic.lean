import Telemetry.Path

/-!
File trees. A tree holds the files and folders that can be reached from a working directory; what
lies outside of it hangs under the names `/` and `..`, which no entry of a folder can have. Paths
are resolved step by step: each step needs a folder to start from, and an empty step or `.` stays
where it is.
-/

namespace Telemetry

inductive Entry where
  | file (content : List UInt8)
  | folder (entries : List (String × Entry))

abbrev Folder := List (String × Entry)

/-- The entries of the working directory, and what lies outside of it. -/
structure FileTree where
  here : Folder
  elsewhere : Folder

inductive FileError where
  | notFound
  | exists
  | notDirectory
  | isDirectory
  | nameTooLong
  | permissionDenied
  | inputOutput
  /-- The path holds a character that ends texts for the system. -/
  | nulInName
  deriving DecidableEq, Repr

def FileError.message : FileError → String
  | .notFound => "No such file or directory (os error 2)"
  | .exists => "File exists (os error 17)"
  | .notDirectory => "Not a directory (os error 20)"
  | .isDirectory => "Is a directory (os error 21)"
  | .nameTooLong => "File name too long (os error 36)"
  | .permissionDenied => "Permission denied (os error 13)"
  | .inputOutput => "Input/output error (os error 5)"
  | .nulInName => "file name contained an unexpected NUL byte"

/-- The reasons for which a system denies, by the path that is used, to list a folder, to read a file
or to make or write what the path leads to. A tree says what stands where; what may be done with it
is not part of the tree. -/
structure Access where
  listing : String → Option FileError
  reading : String → Option FileError
  writing : String → Option FileError

namespace Access

def full : Access := ⟨fun _ => none, fun _ => none, fun _ => none⟩

@[simp] theorem listing_full (path : String) : full.listing path = none := rfl

@[simp] theorem reading_full (path : String) : full.reading path = none := rfl

/-- The result of an operation that may be denied. The tree is looked at first, so a denial changes
nothing where the operation cannot be done anyway. -/
def grant {α : Type} (denial : Option FileError) (result : Except FileError α) :
    Except FileError α :=
  match result, denial with
  | .ok _, some e => .error e
  | result, _ => result

theorem grant_eq_ok_iff {α : Type} {denial : Option FileError} {result : Except FileError α}
    {a : α} : grant denial result = .ok a ↔ denial = none ∧ result = .ok a := by
  cases result <;> cases denial <;> simp [grant]

end Access

/-- A place in a tree: the names on the way to it. -/
abbrev Location := List String

/-- The entry at the end of a way through folders. -/
def Entry.descend : Location → Entry → Option Entry
  | [], e => some e
  | name :: names, .folder entries => (entries.lookup name).bind (descend names)
  | _ :: _, .file _ => none

def Folder.put (f : Folder) (name : String) (e : Entry) : Folder :=
  if f.any (·.1 == name) then f.map fun p => if p.1 == name then (name, e) else p
  else f ++ [(name, e)]

/-- Puts an entry at the end of a way through folders that exist. -/
def Folder.putAt (e : Entry) : Location → Folder → Folder
  | [], f => f
  | [name], f => f.put name e
  | name :: names, f =>
    match f.lookup name with
    | some (.folder entries) => f.put name (.folder (putAt e names entries))
    | _ => f

namespace FileTree

def empty : FileTree := ⟨[], []⟩

def isElsewhere (l : Location) : Bool :=
  l.head? = some "/" || l.head? = some ".."

def entryAt? (t : FileTree) (l : Location) : Option Entry :=
  Entry.descend l (.folder (if isElsewhere l then t.elsewhere else t.here))

/-- The location one step up. -/
def up (l : Location) : Location :=
  if l = ["/"] then l
  else if l.isEmpty || l.getLast? = some ".." then l ++ [".."]
  else l.dropLast

def maxNameSize : Nat := 255

def maxPathSize : Nat := 4095

/-- What makes a path unusable whatever the tree holds. -/
def pathError? (path : String) : Option FileError :=
  if path.toList.contains '\x00' then some .nulInName
  else if path = "" then some .notFound
  else if maxPathSize < path.utf8ByteSize then some .nameTooLong
  else none

/-- One step of a path from a location, which must be a folder. -/
def step (t : FileTree) (l : Location) (name : String) : Except FileError Location :=
  match t.entryAt? l with
  | none => .error .notFound
  | some (.file _) => .error .notDirectory
  | some (.folder _) =>
    if name = "" || name = "." then .ok l
    else if name = ".." then .ok (up l)
    else if maxNameSize < name.utf8ByteSize then .error .nameTooLong
    else .ok (l ++ [name])

/-- The location where a path starts, and its steps from there. -/
def startOf (path : String) : Location × List String :=
  match Path.segments path with
  | "" :: rest => (["/"], rest)
  | names => ([], names)

def locate (t : FileTree) (path : String) : Except FileError (Location × Entry) :=
  match pathError? path with
  | some e => .error e
  | none =>
    let (start, names) := startOf path
    match names.foldlM t.step start with
    | .error e => .error e
    | .ok l =>
      match t.entryAt? l with
      | some e => .ok (l, e)
      | none => .error .notFound

def exists? (t : FileTree) (path : String) : Bool :=
  (t.locate path).isOk

def isFile (t : FileTree) (path : String) : Bool :=
  match t.locate path with
  | .ok (_, .file _) => true
  | _ => false

def isFolder (t : FileTree) (path : String) : Bool :=
  match t.locate path with
  | .ok (_, .folder _) => true
  | _ => false

def read (t : FileTree) (path : String) : Except FileError (List UInt8) :=
  match t.locate path with
  | .ok (_, .file content) => .ok content
  | .ok (_, .folder _) => .error .isDirectory
  | .error e => .error e

def put (t : FileTree) (l : Location) (e : Entry) : FileTree :=
  if isElsewhere l then { t with elsewhere := Folder.putAt e l t.elsewhere }
  else { t with here := Folder.putAt e l t.here }

/-- A path without the slashes at its end, split into the steps to its parent and the last one. -/
def splitLast (names : List String) : List String × Option String :=
  let kept := (names.reverse.dropWhile (· == "")).reverse
  (kept.dropLast, kept.getLast?)

/-- The folder that a path leads to without its last step. -/
def parentOf (t : FileTree) (start : Location) (names : List String) :
    Except FileError Location :=
  match names.foldlM t.step start with
  | .ok l => t.step l "."
  | .error e => .error e

/-- Where a file can be written under a path. It may be there already; a folder may not. -/
def fileLocation (t : FileTree) (path : String) : Except FileError Location :=
  match pathError? path with
  | some e => .error e
  | none =>
    let (start, names) := startOf path
    match splitLast names with
    | (_, none) => .error .isDirectory
    | (parents, some last) =>
      match t.parentOf start parents with
      | .error e => .error e
      | .ok l =>
        if path.endsWith "/" || last = "." || last = ".." then .error .isDirectory
        else
          match t.step l last with
          | .error e => .error e
          | .ok l =>
            match t.entryAt? l with
            | some (.folder _) => .error .isDirectory
            | _ => .ok l

/-- Writes a file, in place of any other. -/
def write (t : FileTree) (path : String) (content : List UInt8) : Except FileError FileTree :=
  (t.fileLocation path).map fun l => t.put l (.file content)

/-- Makes a folder where nothing is yet. -/
def makeFolder (t : FileTree) (path : String) : Except FileError FileTree :=
  match pathError? path with
  | some e => .error e
  | none =>
    let (start, names) := startOf path
    match splitLast names with
    | (_, none) => .error .exists
    | (parents, some last) =>
      match t.parentOf start parents with
      | .error e => .error e
      | .ok l =>
        if last = "." || last = ".." then .error .exists
        else
          match t.step l last with
          | .error e => .error e
          | .ok l => if (t.entryAt? l).isSome then .error .exists else .ok (t.put l (.folder []))

/-- Makes a folder, which may be there already, and gives the reason if that fails. -/
def makeFolderOnce (t : FileTree) (a : Access) (path : String) : FileTree × Option FileError :=
  match Access.grant (a.writing path) (t.makeFolder path) with
  | .ok t => (t, none)
  | .error e => (t, if t.isFolder path then none else some e)

/-- Makes a folder unless it is there, and before that the folders around it where they are
missing. Folders that were made stay when a later step fails. -/
def makeFolders (a : Access) :
    (fuel : Nat) → FileTree → (path : String) → FileTree × Option FileError
  | 0, t, _ => (t, none)
  | fuel + 1, t, path =>
    if path = "" then (t, none)
    else
      match t.makeFolderOnce a path with
      | (t, some .notFound) =>
        match Path.parent? path with
        | none => (t, some .notFound)
        | some parent =>
          match makeFolders a fuel t parent with
          | (t, none) => t.makeFolderOnce a path
          | (t, some e) => (t, some e)
      | result => result

/-- Makes sure that a folder is there, and the folders around it. -/
def ensureFolder (t : FileTree) (a : Access) (path : String) : FileTree × Option FileError :=
  makeFolders a (path.length + 1) t path

end FileTree

end Telemetry
