import Telemetry.Text.Blank

/-!
The arguments of a recording call. A meter is recorded with a named argument `name = …`, with the
positional convention (scope, unit, name, tags), or with the name alone. An event takes a name,
perhaps a value and perhaps `tags = …`, or the named arguments `name = …` and `value = …`.
-/

namespace Telemetry.Call

open Telemetry.Text

/-- The right-hand side of the named argument `key = …`. A comparison `key == …` is none. -/
def named? (key arg : String) : Option String :=
  (key.toList.isPrefixOf? (trimStart arg.toList)).bind fun rest =>
    match trimStart rest with
    | '=' :: '=' :: _ => none
    | '=' :: rest => some (String.ofList (trim rest))
    | _ => none

def firstNamed? (key : String) (args : List String) : Option String :=
  args.findSome? (named? key)

/-- A trimmed expression, if anything is left of it. -/
def nonBlank? (expr : String) : Option String :=
  if trimmed expr = "" then none else some (trimmed expr)

/-- The name expression of a meter: the named argument, the third of at least four arguments, or
the only one. -/
def meterName? (args : List String) : Option String :=
  match firstNamed? "name" args with
  | some name => nonBlank? name
  | none =>
    match args with
    | [name] => nonBlank? name
    | _ :: _ :: name :: _ :: _ => nonBlank? name
    | _ => none

/-- The name expression of an event and the expression of the value it carries, if any. -/
structure EventArguments where
  name : String
  value : Option String
  deriving DecidableEq, Repr

/-- The value among positional arguments: the second one, unless it gives the tags. -/
def positionalValue? : Option String → Option String
  | none => none
  | some arg =>
    if (named? "tags" arg).isSome then none
    else nonBlank? ((named? "value" arg).getD arg)

def eventArguments? (args : List String) : Option EventArguments :=
  match firstNamed? "name" args with
  | some name =>
    (nonBlank? name).map fun name => ⟨name, (firstNamed? "value" args).bind nonBlank?⟩
  | none =>
    (args.head?.bind nonBlank?).map fun name => ⟨name, positionalValue? args[1]?⟩

end Telemetry.Call
