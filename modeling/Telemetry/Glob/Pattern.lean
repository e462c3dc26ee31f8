/-!
Glob patterns for paths. `?` stands for any one byte and `*` for any number of them, slashes
included; `**` between slashes stands for any number of folders; `[…]` is a class of characters,
`{…,…}` a choice, and a backslash takes the next character as it is. Choices may be nested.
-/

namespace Telemetry.Glob

inductive Token where
  | literal (c : Char)
  | any
  | many
  /-- `**/` at the start: nothing, a slash, or anything that ends with a slash. -/
  | foldersBefore
  /-- `/**` at the end: a slash and anything behind it. -/
  | foldersAfter
  /-- `/**/` in between: a slash, or anything between two slashes. -/
  | foldersBetween
  | oneOf (negated : Bool) (ranges : List (Char × Char))
  | choice (branches : List (List Token))

inductive Fault where
  | unclosedClass
  | invalidRange (low high : Char)
  | unopenedChoice
  | unclosedChoice
  | danglingEscape
  deriving DecidableEq, Repr

def Fault.message : Fault → String
  | .unclosedClass => "unclosed character class; missing ']'"
  | .invalidRange low high =>
    "invalid range; '" ++ String.singleton low ++ "' > '" ++ String.singleton high ++ "'"
  | .unopenedChoice =>
    "unopened alternate group; missing '\x7b' (maybe escape '\x7d' with '[\x7d]'?)"
  | .unclosedChoice =>
    "unclosed alternate group; missing '\x7d' (maybe escape '\x7b' with '[\x7b]'?)"
  | .danglingEscape => "dangling '\\'"

/-! ### Classes -/

/-- Ends the latest range of a class with a character. -/
def closeRange (c : Char) : List (Char × Char) → Except Fault (List (Char × Char))
  | [] => .ok [(c, c)]
  | (low, _) :: ranges => if c < low then .error (.invalidRange low c) else .ok ((low, c) :: ranges)

/-- Reads a class behind its bracket: its ranges, the latest first, and the number of characters
read. A bracket or hyphen that comes first stands for itself, and so does a hyphen that comes
last. -/
def classRanges (first pending : Bool) (ranges : List (Char × Char)) (read : Nat) :
    List Char → Except Fault (List (Char × Char) × Nat)
  | [] => .error .unclosedClass
  | c :: cs =>
    if c = ']' && !first then .ok (if pending then ('-', '-') :: ranges else ranges, read + 1)
    else if c = '-' && !first && !pending then classRanges false true ranges (read + 1) cs
    else if pending then
      (closeRange c ranges).bind fun ranges => classRanges false false ranges (read + 1) cs
    else classRanges false false ((c, c) :: ranges) (read + 1) cs

/-- Reads a class behind its opening bracket: the class and the number of characters read. -/
def classToken (cs : List Char) : Except Fault (Token × Nat) :=
  let negated := cs.head? = some '!' || cs.head? = some '^'
  let skipped := if negated then 1 else 0
  (classRanges true false [] skipped (cs.drop skipped)).map fun (ranges, read) =>
    (.oneOf negated ranges.reverse, read)

/-! ### Patterns -/

/-- A choice that is being read: the tokens in front of it and its finished branches, both with the
latest first. -/
structure Frame where
  before : List Token
  branches : List (List Token)

/-- The state between two characters: the tokens of the current branch, the latest first, and the
choices that are open, the innermost first. -/
structure Reader where
  current : List Token
  frames : List Frame

def Reader.push (r : Reader) (t : Token) : Reader :=
  { r with current := t :: r.current }

def Reader.openChoice (r : Reader) : Reader :=
  ⟨[], ⟨r.current, []⟩ :: r.frames⟩

/-- Starts the next branch of the innermost choice; outside of all a comma stands for itself. -/
def Reader.comma (r : Reader) : Reader :=
  match r.frames with
  | [] => r.push (.literal ',')
  | f :: frames => ⟨[], { f with branches := r.current.reverse :: f.branches } :: frames⟩

def Reader.closeChoice (r : Reader) : Except Fault Reader :=
  match r.frames with
  | [] => .error .unopenedChoice
  | f :: frames =>
    .ok ⟨.choice (r.current.reverse :: f.branches).reverse :: f.before, frames⟩

/-- Puts a run of folders in the place of the slash in front of it. Next to another run at the
start or at the end it adds nothing. -/
def Reader.folders (r : Reader) (last : Bool) : Reader :=
  match r.current with
  | .foldersBefore :: _ => r
  | .foldersAfter :: _ => r
  | _ :: rest => { r with current := (if last then .foldersAfter else .foldersBetween) :: rest }
  | [] => r

/-- Reads a double star behind the character `before`, when `cs` follows it, and tells whether the
slash that follows belongs to it. Only between slashes or ends does it stand for folders. -/
def Reader.doubleStar (r : Reader) (before : Option Char) (cs : List Char) : Reader × Bool :=
  let plain := (r.push .many).push .many
  let nested := !r.frames.isEmpty
  if r.current.isEmpty then
    if cs.isEmpty || cs.head? = some '/' then (r.push .foldersBefore, !cs.isEmpty)
    else (plain, false)
  else if before = some '/' || (nested && (before = some ',' || before = some '\x7b')) then
    match cs with
    | [] => (r.folders true, false)
    | '/' :: _ => (r.folders false, true)
    | ',' :: _ => if nested then (r.folders true, false) else (plain, false)
    | '\x7d' :: _ => if nested then (r.folders true, false) else (plain, false)
    | _ => (plain, false)
  else (plain, false)

def Reader.read : (fuel : Nat) → (before : Option Char) → Reader → List Char → Except Fault Reader
  | 0, _, r, _ => .ok r
  | _ + 1, _, r, [] => .ok r
  | fuel + 1, before, r, c :: cs =>
    if c = '?' then Reader.read fuel (some c) (r.push .any) cs
    else if c = '*' then
      match cs with
      | '*' :: rest =>
        match r.doubleStar before rest with
        | (r, true) => Reader.read fuel (some '/') r (rest.drop 1)
        | (r, false) => Reader.read fuel (some '*') r rest
      | _ => Reader.read fuel (some c) (r.push .many) cs
    else if c = '[' then
      (classToken cs).bind fun (t, read) =>
        Reader.read fuel (some ']') (r.push t) (cs.drop read)
    else if c = '\x7b' then Reader.read fuel (some c) r.openChoice cs
    else if c = '\x7d' then
      (r.closeChoice).bind fun r => Reader.read fuel (some c) r cs
    else if c = ',' then Reader.read fuel (some c) r.comma cs
    else if c = '\\' then
      match cs with
      | [] => .error .danglingEscape
      | d :: rest => Reader.read fuel (some d) (r.push (.literal d)) rest
    else Reader.read fuel (some c) (r.push (.literal c)) cs

def parse (pattern : String) : Except Fault (List Token) :=
  let cs := pattern.toList
  (Reader.read cs.length none ⟨[], []⟩ cs).bind fun r =>
    if r.frames.isEmpty then .ok r.current.reverse else .error .unclosedChoice

end Telemetry.Glob
