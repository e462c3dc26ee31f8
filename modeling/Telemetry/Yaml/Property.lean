import Telemetry.Yaml.Cursor
import Telemetry.Yaml.Fault
import Telemetry.Yaml.Token

/-!
Anchors, aliases, tags and directives. The parts of a tag behind its handle are checked for their
form and otherwise dropped.
-/

namespace Telemetry.Yaml

/-! ### Anchors and aliases -/

/-- A character that may follow the name of an anchor directly. -/
def endsAnchor : List Char → Bool
  | [] => true
  | c :: cs => atBlank (c :: cs) || "?:,]\x7d%@`".toList.contains c

def anchorName (c : Cursor) : Except Fault (String × Cursor) :=
  let c := c.advance 1
  let name := c.rest.takeWhile isNameChar
  let c := c.advance name.length
  if name.isEmpty || !endsAnchor c.rest then .error .anchorName
  else .ok (String.ofList name, c)

/-! ### Tags -/

/-- A character of the text of a tag. Commas and brackets may stand only where the tag is delimited
otherwise. -/
def isUriChar (delimited : Bool) (c : Char) : Bool :=
  isNameChar c || ";/?:@&=+$.!~*'()%".toList.contains c ||
    (delimited && (c == ',' || c == '[' || c == ']'))

/-- Whether a byte may follow others inside the encoding of a character. -/
def isTrailByte (n : Nat) : Bool :=
  n / 64 == 2

/-- The number of bytes that a leading byte announces, or zero. -/
def uriWidth (n : Nat) : Nat :=
  if n / 128 == 0 then 1
  else if n / 32 == 6 then 2
  else if n / 16 == 14 then 3
  else if n / 8 == 30 then 4
  else 0

def uriByte? : List Char → Option Nat
  | '%' :: a :: b :: _ =>
    match "0123456789abcdef".toList.idxOf? a.toLower, "0123456789abcdef".toList.idxOf? b.toLower with
    | some x, some y => some (x * 16 + y)
    | _, _ => none
  | _ => none

/-- The number of characters of the escapes that encode one character of a tag. -/
def uriEscape? (cs : List Char) : Option Nat :=
  (uriByte? cs).bind fun lead =>
    let width := uriWidth lead
    if width = 0 then none
    else if (List.range (width - 1)).all fun i =>
        (uriByte? (cs.drop (3 * (i + 1)))).any isTrailByte then some (3 * width)
    else none

def uriLength (delimited : Bool) : (fuel : Nat) → List Char → Except Fault Nat
  | 0, _ => .ok 0
  | _ + 1, [] => .ok 0
  | fuel + 1, c :: cs =>
    if c = '%' then
      match uriEscape? (c :: cs) with
      | some n => (uriLength delimited fuel ((c :: cs).drop n)).map (n + ·)
      | none => .error .tag
    else if isUriChar delimited c then (uriLength delimited fuel cs).map (1 + ·)
    else .ok 0

def skipUri (delimited : Bool) (c : Cursor) : Except Fault (Nat × Cursor) :=
  (uriLength delimited c.rest.length c.rest).map fun n => (n, c.advance n)

/-- The handle in front of a tag: an exclamation mark, perhaps with a name and another one. -/
def tagHandle (cs : List Char) : List Char :=
  match cs with
  | '!' :: rest =>
    let name := rest.takeWhile isNameChar
    if (rest.drop name.length).head? = some '!' then '!' :: name ++ ['!'] else '!' :: name
  | _ => []

/-- Whether a handle is closed by a second exclamation mark. -/
def isNamedHandle (handle : List Char) : Bool :=
  2 ≤ handle.length && handle.getLast? = some '!'

/-- Reads a tag, from its exclamation mark on. Inside brackets a comma may follow it. -/
def tagToken (flow : Bool) (c : Cursor) : Except Fault (Token × Cursor) := do
  let (handle, c) ← match c.rest with
    | '!' :: '<' :: _ =>
      let (length, c) ← skipUri true (c.advance 2)
      if length = 0 || c.rest.head? ≠ some '>' then throw .tag
      pure ("", c.advance 1)
    | _ =>
      let handle := tagHandle c.rest
      let (length, next) ← skipUri false (c.advance handle.length)
      if isNamedHandle handle then
        if length = 0 then throw .tag
        pure (String.ofList handle, next)
      else
        pure (if handle.length = 1 && length = 0 then "" else "!", next)
  if atBlank c.rest || (flow && c.rest.head? = some ',') then return (.tag handle, c)
  throw .tag

/-! ### Directives -/

/-- Reads a number of a version, of nine digits at most. -/
def versionNumber (c : Cursor) : Except Fault (Nat × Cursor) :=
  let digits := c.rest.takeWhile Char.isDigit
  if digits.isEmpty || 9 < digits.length then .error .directive
  else .ok (digits.foldl (fun n d => n * 10 + (d.toNat - '0'.toNat)) 0, c.advance digits.length)

def versionDirective (c : Cursor) : Except Fault (Token × Cursor) := do
  let (major, c) ← versionNumber c.skipSpaces
  if c.rest.head? ≠ some '.' then throw .directive
  let (minor, c) ← versionNumber (c.advance 1)
  return (.versionDirective major minor, c)

/-- Reads the value of a tag directive: a handle, then what it stands for. -/
def tagDirective (c : Cursor) : Except Fault (Token × Cursor) := do
  let c := c.skipSpaces
  let handle := tagHandle c.rest
  if handle ≠ ['!'] && !isNamedHandle handle then throw .directive
  let c := c.advance handle.length
  if !c.rest.head?.any isSpace then throw .directive
  let (length, c) ← skipUri true c.skipSpaces
  if length = 0 || !atBlank c.rest then throw .directive
  return (.tagDirective (String.ofList handle), c)

/-- Reads a directive, from its percent sign to the end of its line. -/
def directive (c : Cursor) : Except Fault (Token × Cursor) := do
  let c := c.advance 1
  let name := c.rest.takeWhile isNameChar
  let c := c.advance name.length
  if name.isEmpty || !atBlank c.rest then throw .directive
  let (token, c) ← match String.ofList name with
    | "YAML" => versionDirective c
    | "TAG" => tagDirective c
    | _ => throw .directive
  let c := c.skipSpaces.skipComment
  if !atLineEnd c.rest then throw .directive
  return (token, c.advanceLine)

end Telemetry.Yaml
