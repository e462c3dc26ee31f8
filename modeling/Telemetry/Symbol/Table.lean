import Std.Data.TreeMap

/-!
Symbol tables. A table binds names to literal values; binding a name again replaces its value.
Overrides come from the configuration under keys `file.name`, and a table takes over those that
are addressed to its file.
-/

namespace Telemetry.Symbol

/-- Overrides by key, in the order of their keys. -/
abbrev Overrides := Std.TreeMap String String

/-- The bindings of one file, the newest first. -/
structure Table where
  bindings : List (String × String)
  deriving DecidableEq, Repr

namespace Table

def empty : Table := ⟨[]⟩

def get? (t : Table) (name : String) : Option String :=
  t.bindings.lookup name

/-- Binds a name, in place of any earlier binding. -/
def insert (t : Table) (name value : String) : Table :=
  ⟨(name, value) :: t.bindings.filter (·.1 != name)⟩

def size (t : Table) : Nat :=
  t.bindings.length

def isEmpty (t : Table) : Bool :=
  t.bindings.isEmpty

end Table

/-- The part of an override key before its first dot and the part after it. -/
def splitKey? (key : String) : Option (String × String) :=
  let cs := key.toList
  match cs.dropWhile (· != '.') with
  | '.' :: name => some (String.ofList (cs.takeWhile (· != '.')), String.ofList name)
  | _ => none

/-- The name that an override key addresses in the file with the given identifier. -/
def addressed? (identifier key : String) : Option String :=
  match splitKey? key with
  | some (file, name) => if file = identifier && name ≠ "" then some name else none
  | none => none

/-- Takes over the overrides addressed to a file; other keys are ignored. -/
def Table.override (t : Table) (identifier : String) (overrides : Overrides) : Table :=
  overrides.toList.foldl (fun t (key, value) =>
    match addressed? identifier key with
    | some name => t.insert name value
    | none => t) t

end Telemetry.Symbol
