/-!
Command-line arguments. A command declares its options and whether it takes a positional argument.
An option is given by its long name, with its value behind an equals sign or as the next argument,
or by its letter; letters of options without values may share one hyphen. Behind `--` every
argument is positional. Values are checked when the next argument settles that they are complete,
so that of two faults the one met first is reported.
-/

namespace Telemetry.Command

/-- Why the reading of arguments stops without a command. -/
inductive Stop where
  | help
  | version
  /-- Nothing is given where a command is wanted. -/
  | nothingGiven
  | unknownArgument
  | missingArgument
  | unknownCommand
  | invalidValue
  /-- An option is given twice. -/
  | conflict
  | tooManyValues
  deriving DecidableEq, Repr

/-- The exit code of a stop: asking for help or for the version is no error. -/
def Stop.exitCode : Stop → Nat
  | .help | .version => 0
  | _ => 2

inductive Role where
  | help
  | version
  /-- Present or not. -/
  | flag
  /-- One value, which may have to be nonempty. -/
  | value (nonempty : Bool)
  /-- Any number of values, one each time. -/
  | values
  deriving DecidableEq, Repr

def Role.takesValue : Role → Bool
  | .value _ | .values => true
  | .help | .version | .flag => false

/-- An argument that a command accepts. Without a name on the command line it is positional. -/
structure Slot where
  name : String
  letter : Option Char
  role : Role
  deriving DecidableEq, Repr

structure Spec where
  options : List Slot
  positional : Option Slot

/-- The values found so far, by the names of their slots, in order. -/
abbrev Values := List (String × String)

structure Reading where
  found : Values
  /-- A slot whose values are still being collected. -/
  pending : Option (Slot × List String)
  /-- Whether the pending slot waits for its value. -/
  waiting : Bool
  /-- Whether the positional argument was given. -/
  placed : Bool
  /-- Whether all further arguments are positional. -/
  trailing : Bool

namespace Reading

def start : Reading := ⟨[], none, false, false, false⟩

/-- Records a value, which may be given once unless the slot is repeatable. -/
def record (r : Reading) (s : Slot) (value : String) : Except Stop Reading :=
  if s.role ≠ .values && r.found.any (·.1 == s.name) then .error .conflict
  else if s.role = .value true && value = "" then .error .invalidValue
  else .ok { r with found := r.found ++ [(s.name, value)] }

def settle (r : Reading) : Except Stop Reading :=
  match r.pending with
  | none => .ok r
  | some (_, []) => .error .invalidValue
  | some (s, value :: _) => { r with pending := none, waiting := false }.record s value

def flag (r : Reading) (s : Slot) : Except Stop Reading := do
  let r ← r.settle
  match s.role with
  | .help => throw .help
  | .version => throw .version
  | _ => r.record s "true"

/-- An option with a value, attached or to follow. -/
def option (r : Reading) (s : Slot) (attached : Option String) : Except Stop Reading := do
  let r ← r.settle
  match attached with
  | some value => r.record s value
  | none => return { r with pending := some (s, []), waiting := true }

def long (r : Reading) (spec : Spec) (name : String) (attached : Option String) :
    Except Stop Reading :=
  match spec.options.find? (·.name == name) with
  | none => .error .unknownArgument
  | some s =>
    if s.role.takesValue then r.option s attached
    else if attached.isSome then .error .tooManyValues
    else r.flag s

/-- The letters behind a hyphen. What follows the letter of an option with a value is the value. -/
def letters (spec : Spec) : Reading → List Char → Except Stop Reading
  | r, [] => .ok r
  | r, c :: cs =>
    match spec.options.find? (·.letter == some c) with
    | none => .error .unknownArgument
    | some s =>
      if s.role.takesValue then
        match cs with
        | [] => r.option s none
        | '=' :: value => r.option s (some (String.ofList value))
        | value => r.option s (some (String.ofList value))
      else (r.flag s).bind fun r => letters spec r cs

def place (r : Reading) (spec : Spec) (argument : String) : Except Stop Reading :=
  match spec.positional with
  | some s =>
    if r.placed then .error .unknownArgument
    else do
      let r ← r.settle
      return { r with pending := some (s, [argument]), placed := true }
  | none => .error .unknownArgument

def splitLong (cs : List Char) : String × Option String :=
  let name := String.ofList (cs.takeWhile (· != '='))
  match cs.dropWhile (· != '=') with
  | _ :: value => (name, some (String.ofList value))
  | [] => (name, none)

def next (spec : Spec) (r : Reading) (argument : String) : Except Stop Reading :=
  if r.trailing then r.place spec argument
  else
    match argument.toList with
    | ['-', '-'] => .ok { r with trailing := true }
    | '-' :: '-' :: cs => r.long spec (splitLong cs).1 (splitLong cs).2
    | '-' :: c :: cs => letters spec r (c :: cs)
    | _ =>
      match r.waiting, r.pending with
      | true, some (s, _) => .ok { r with pending := some (s, [argument]), waiting := false }
      | _, _ => r.place spec argument

/-- The values of a list of arguments. A positional argument must be given if there is one. -/
def run (spec : Spec) (arguments : List String) : Except Stop Values := do
  let r ← arguments.foldlM (next spec) start
  let r ← r.settle
  match spec.positional with
  | some _ => if r.placed then return r.found else throw .missingArgument
  | none => return r.found

end Reading

/-- The value of a slot, the first if there are several. -/
def Values.get? (v : Values) (name : String) : Option String :=
  v.lookup name

def Values.getAll (v : Values) (name : String) : List String :=
  (v.filter (·.1 == name)).map (·.2)

end Telemetry.Command
