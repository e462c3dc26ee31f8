/-!
File paths. A path is a text whose components are separated by slashes; empty components and
components `.` other than a leading one do not count. The file name of a path is its last
component, unless that is a step upwards, and it splits at its last dot into stem and extension; a
name whose only dot comes first is all stem. Paths are compared component by component.
-/

namespace Telemetry.Path

inductive Component where
  /-- The slash that an absolute path starts with. -/
  | root
  /-- A leading `.`. -/
  | current
  /-- A step upwards, `..`. -/
  | parent
  | normal (name : String)
  deriving DecidableEq, Repr

/-- The component that a text between slashes stands for, if it counts. -/
def Component.ofName? (name : String) : Option Component :=
  if name = "" || name = "." then none
  else if name = ".." then some .parent
  else some (.normal name)

def segments (path : String) : List String :=
  (path.toList.splitOn '/').map String.ofList

def components (path : String) : List Component :=
  match segments path with
  | "" :: rest => (if rest.isEmpty then [] else [.root]) ++ rest.filterMap Component.ofName?
  | "." :: rest => .current :: rest.filterMap Component.ofName?
  | names => names.filterMap Component.ofName?

/-- The last component, if it names a file. -/
def fileName? (path : String) : Option String :=
  match (components path).getLast? with
  | some (.normal name) => some name
  | _ => none

/-- Splits a file name at its last dot. There is no split at a dot that comes first or where there
is no dot. -/
def splitName (name : String) : String × Option String :=
  let reversed := name.toList.reverse
  match reversed.dropWhile (· != '.') with
  | '.' :: stem =>
    if stem.isEmpty then (name, none)
    else (String.ofList stem.reverse, some (String.ofList (reversed.takeWhile (· != '.')).reverse))
  | _ => (name, none)

def extension? (path : String) : Option String :=
  (fileName? path).bind fun name => (splitName name).2

/-- The identifier of a file: its name without the extension, or the whole path where there is no
file name. -/
def identifier (path : String) : String :=
  match fileName? path with
  | some name => (splitName name).1
  | none => path

/-- The name under which a file is reported: its file name, or the whole path where there is
none. -/
def displayName (path : String) : String :=
  (fileName? path).getD path

/-- Whether a text between slashes counts for nothing. -/
def isFiller (name : String) : Bool :=
  name = "" || name = "."

/-- Drops the texts at the end that count for nothing, all but the very first. -/
def dropFillers : List String → List String
  | [] => []
  | first :: rest => first :: (rest.reverse.dropWhile isFiller).reverse

/-- A path without its last component; nothing for the root and for the empty path. -/
def parent? (path : String) : Option String :=
  match dropFillers (segments path) with
  | [""] => none
  | names =>
    match dropFillers names.dropLast with
    | [""] => some "/"
    | parents => some (String.intercalate "/" parents)

/-- Appends a name to a path, with a slash between them unless the path ends with one. An absolute
name replaces the path. -/
def join (path name : String) : String :=
  if path = "" || name.startsWith "/" then name
  else if path.endsWith "/" then path ++ name
  else path ++ "/" ++ name

/-- The place of a component among components of other sorts. -/
def Component.rank : Component → Nat
  | .root => 0
  | .current => 1
  | .parent => 2
  | .normal _ => 3

/-- The order of components: the root, a leading `.`, steps upwards, then names by code points. -/
def Component.compare : Component → Component → Ordering
  | .normal a, .normal b => Ord.compare a b
  | a, b => Ord.compare a.rank b.rank

/-- The order of paths: component by component, a path before its extensions. -/
def compareComponents : List Component → List Component → Ordering
  | [], [] => .eq
  | [], _ :: _ => .lt
  | _ :: _, [] => .gt
  | a :: as, b :: bs => (a.compare b).then (compareComponents as bs)

def compare (p q : String) : Ordering :=
  compareComponents (components p) (components q)

end Telemetry.Path
