/-!
A place in a YAML text: the characters still to be read, and the index, line and column of the next
one. Lines end with a line feed, a carriage return, both, a next-line character or a line or
paragraph separator; the last two are kept as they are, the others are read as a line feed.
-/

namespace Telemetry.Yaml

def isBreak (c : Char) : Bool :=
  c == '\n' || c == '\r' || c == '\u0085' || c == '\u2028' || c == '\u2029'

def isSpace (c : Char) : Bool :=
  c == ' ' || c == '\t'

/-- A character of names of anchors, directives and tag handles. -/
def isNameChar (c : Char) : Bool :=
  c.isAlphanum || c == '_' || c == '-'

/-- A character that may stand in a YAML text. -/
def isAllowed (c : Char) : Bool :=
  let n := c.toNat
  n == 0x09 || n == 0x0A || n == 0x0D || (0x20 ≤ n && n ≤ 0x7E) || n == 0x85 ||
    (0xA0 ≤ n && n ≤ 0xD7FF) || (0xE000 ≤ n && n ≤ 0xFFFD) || 0x10000 ≤ n

/-- Whether a text ends here or goes on with a space, a tab or a line break. -/
def atBlank : List Char → Bool
  | [] => true
  | c :: _ => isSpace c || isBreak c

def atLineEnd : List Char → Bool
  | [] => true
  | c :: _ => isBreak c

/-- Whether a document marker stands here: three hyphens or three dots, then a blank. -/
def atDocumentMarker : List Char → Bool
  | '-' :: '-' :: '-' :: rest => atBlank rest
  | '.' :: '.' :: '.' :: rest => atBlank rest
  | _ => false

structure Cursor where
  rest : List Char
  index : Nat
  line : Nat
  column : Nat
  deriving DecidableEq, Repr

namespace Cursor

def start (text : List Char) : Cursor := ⟨text, 0, 0, 0⟩

/-- Steps over characters of the same line. -/
def advance (c : Cursor) (n : Nat) : Cursor :=
  { c with rest := c.rest.drop n, index := c.index + n, column := c.column + n }

/-- Steps over the characters that satisfy a condition, none of them a line break. -/
def skipWhile (c : Cursor) (p : Char → Bool) : Cursor :=
  c.advance (c.rest.takeWhile p).length

def advanceLine (c : Cursor) : Cursor :=
  match c.rest with
  | '\r' :: '\n' :: rest => ⟨rest, c.index + 2, c.line + 1, 0⟩
  | d :: rest => if isBreak d then ⟨rest, c.index + 1, c.line + 1, 0⟩ else c
  | [] => c

/-- The line break that stands here, as it is read. -/
def lineBreak (c : Cursor) : List Char :=
  match c.rest with
  | d :: _ =>
    if d = '\u2028' || d = '\u2029' then [d] else if isBreak d then ['\n'] else []
  | [] => []

def skipSpaces (c : Cursor) : Cursor :=
  c.skipWhile isSpace

def skipComment (c : Cursor) : Cursor :=
  match c.rest with
  | '#' :: _ => c.skipWhile (!isBreak ·)
  | _ => c

/-- Whether the cursor stands at a document marker at the start of a line. -/
def atMarker (c : Cursor) : Bool :=
  c.column = 0 && atDocumentMarker c.rest

end Cursor

end Telemetry.Yaml
