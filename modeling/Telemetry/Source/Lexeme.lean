import Telemetry.Text.Utf8

/-!
Lexemes of a source text. A single pass over the bytes tells code from string literals and
comments, which is all that the scanner needs to know about the language: delimiters and commas
count only in code. A string ends at its own quote, a backslash in it takes the next byte along,
line comments end with their newline and block comments nest.

A lexeme is one or two bytes long, and the lexemes of a text are consecutive: `lexemesFrom` cuts
the text into them without leaving a byte out. An unfinished string or comment extends to the end
of the text.
-/

namespace Telemetry.Source

open Telemetry.Text (byte)

/-- Where the pass stands between two lexemes. -/
inductive Mode where
  | code
  /-- Inside a string that `quote` opened and will close. -/
  | string (quote : UInt8)
  | lineComment
  /-- Inside a block comment that stands within `outer` other ones. -/
  | blockComment (outer : Nat)
  deriving DecidableEq, Repr

/-- What a lexeme belongs to. Quotes belong to their string, markers to their comment. -/
inductive Kind where
  | code
  | string
  | comment
  deriving DecidableEq, Repr

structure Lexeme where
  kind : Kind
  start : Nat
  bytes : List UInt8
  deriving DecidableEq, Repr

def Lexeme.stop (l : Lexeme) : Nat :=
  l.start + l.bytes.length

/-- The byte of a lexeme of code. -/
def Lexeme.code? (l : Lexeme) : Option UInt8 :=
  if l.kind = .code then l.bytes.head? else none

/-- The effect of one byte: the kind of its lexeme, the mode after it, and whether the lexeme
takes the following byte along, if there is one. -/
structure Step where
  kind : Kind
  next : Mode
  pair : Bool
  deriving DecidableEq, Repr

/-- The lexeme that the byte `b` starts in the given mode, when `ahead` is the byte after it. -/
def Mode.step (mode : Mode) (b : UInt8) (ahead : Option UInt8) : Step :=
  match mode with
  | .code =>
    if b = byte '"' || b = byte '\'' then ⟨.string, .string b, false⟩
    else if b = byte '/' && ahead = some (byte '/') then ⟨.comment, .lineComment, true⟩
    else if b = byte '/' && ahead = some (byte '*') then ⟨.comment, .blockComment 0, true⟩
    else ⟨.code, .code, false⟩
  | .string quote =>
    if b = byte '\\' then ⟨.string, .string quote, true⟩
    else if b = quote then ⟨.string, .code, false⟩
    else ⟨.string, .string quote, false⟩
  | .lineComment =>
    if b = byte '\n' then ⟨.comment, .code, false⟩
    else ⟨.comment, .lineComment, false⟩
  | .blockComment outer =>
    if b = byte '*' && ahead = some (byte '/') then
      match outer with
      | 0 => ⟨.comment, .code, true⟩
      | outer + 1 => ⟨.comment, .blockComment outer, true⟩
    else if b = byte '/' && ahead = some (byte '*') then
      ⟨.comment, .blockComment (outer + 1), true⟩
    else ⟨.comment, .blockComment outer, false⟩

/-- The lexemes of `bs`, whose first byte stands at `offset`, entered in the given mode. -/
def lexemesFrom : (mode : Mode) → (offset : Nat) → (bs : List UInt8) → List Lexeme
  | _, _, [] => []
  | mode, offset, [b] =>
    [⟨(mode.step b none).kind, offset, [b]⟩]
  | mode, offset, b :: ahead :: bs =>
    let step := mode.step b (some ahead)
    if step.pair then
      ⟨step.kind, offset, [b, ahead]⟩ :: lexemesFrom step.next (offset + 2) bs
    else
      ⟨step.kind, offset, [b]⟩ :: lexemesFrom step.next (offset + 1) (ahead :: bs)

def lexemes (bs : List UInt8) : List Lexeme :=
  lexemesFrom .code 0 bs

/-- The lexemes read from an offset on, as if code started there. -/
def lexemesAt (bs : List UInt8) (offset : Nat) : List Lexeme :=
  lexemesFrom .code offset (bs.drop offset)

end Telemetry.Source
