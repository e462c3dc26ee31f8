import Telemetry.Yaml.Cursor
import Telemetry.Yaml.Fault

/-!
Scalars. Each of the five styles is read from its first character on and gives the text that it
stands for. Plain and quoted scalars fold the line breaks inside them; literal and folded scalars
take their text from an indented block.
-/

namespace Telemetry.Yaml

/-! ### Gaps between the words of a flow scalar -/

/-- The blanks between two words of a scalar: the spaces, as long as no line break was passed, else
the first line break and the ones after it. -/
structure Gap where
  broken : Bool
  spaces : List Char
  leading : List Char
  trailing : List Char

def Gap.none : Gap := ⟨false, [], [], []⟩

/-- The gap after an escaped line break, which is not kept itself. -/
def Gap.escaped : Gap := ⟨true, [], [], []⟩

/-- What a gap contributes to the text: a single line break becomes a space, more of them lose the
first one. -/
def Gap.text (g : Gap) : List Char :=
  if g.broken then
    if g.leading.head? = some '\n' then (if g.trailing.isEmpty then [' '] else g.trailing)
    else g.leading ++ g.trailing
  else g.spaces

/-- Reads blanks and line breaks. Behind a line break a tab may not stand left of the column
`indent`. -/
def Gap.read (indent : Nat) : (fuel : Nat) → Gap → Cursor → Except Fault (Gap × Cursor)
  | 0, g, c => .ok (g, c)
  | fuel + 1, g, c =>
    match c.rest with
    | [] => .ok (g, c)
    | d :: _ =>
      if isSpace d then
        if g.broken && d = '\t' && c.column < indent then .error .tab
        else
          Gap.read indent fuel (if g.broken then g else { g with spaces := g.spaces ++ [d] })
            (c.advance 1)
      else if isBreak d then
        Gap.read indent fuel
          (if g.broken then { g with trailing := g.trailing ++ c.lineBreak }
            else ⟨true, [], c.lineBreak, []⟩)
          c.advanceLine
      else .ok (g, c)

/-! ### Plain scalars -/

/-- A character that ends a plain scalar inside brackets. -/
def isFlowMark (c : Char) : Bool :=
  c == ',' || c == '[' || c == ']' || c == '\x7b' || c == '\x7d'

/-- The characters of a plain scalar up to the next blank or the end of the scalar. -/
def plainWord (flow : Bool) : List Char → Except Fault (List Char)
  | [] => .ok []
  | c :: cs =>
    if isSpace c || isBreak c then .ok []
    else if flow && c = ':' && cs.head?.any (fun d => isFlowMark d || d == '?') then .error .colon
    else if (c = ':' && atBlank cs) || (flow && isFlowMark c) then .ok []
    else (plainWord flow cs).map (c :: ·)

/-- Reads a plain scalar of which `text` was read already, up to the gap `g`. It ends at a document
marker, a comment, an indicator, or, outside of brackets, left of the column `indent`. The result
tells whether the scalar was left behind a line break. -/
def plainFrom (flow : Bool) (indent : Nat) :
    (fuel : Nat) → (text : List Char) → Gap → Cursor → Except Fault (List Char × Bool × Cursor)
  | 0, text, g, c => .ok (text, g.broken, c)
  | fuel + 1, text, g, c =>
    if c.atMarker || c.rest.head? = some '#' then .ok (text, g.broken, c)
    else do
      let word ← plainWord flow c.rest
      if word.isEmpty then return (text, g.broken, c)
      let text := text ++ g.text ++ word
      let c := c.advance word.length
      if c.rest.isEmpty || !atBlank c.rest then return (text, false, c)
      let (g, c) ← Gap.read indent c.rest.length .none c
      if !flow && c.column < indent then return (text, g.broken, c)
      plainFrom flow indent fuel text g c

def plainScalar (flow : Bool) (indent : Nat) (c : Cursor) :
    Except Fault (List Char × Bool × Cursor) :=
  plainFrom flow indent (c.rest.length + 1) [] .none c

/-! ### Quoted scalars -/

def hexValue? (c : Char) : Option Nat :=
  if '0' ≤ c && c ≤ '9' then some (c.toNat - '0'.toNat)
  else if 'a' ≤ c && c ≤ 'f' then some (c.toNat - 'a'.toNat + 10)
  else if 'A' ≤ c && c ≤ 'F' then some (c.toNat - 'A'.toNat + 10)
  else none

def hexNumber? (n : Nat) (cs : List Char) : Option Nat :=
  if cs.length < n then none
  else (cs.take n).foldlM (fun value c => (hexValue? c).map (value * 16 + ·)) 0

def hexChar? (n : Nat) (cs : List Char) : Option Char :=
  (hexNumber? n cs).bind fun value =>
    if (0xD800 ≤ value && value ≤ 0xDFFF) || 0x10FFFF < value then none
    else some (Char.ofNat value)

/-- The character that an escape sequence stands for, and the number of characters behind the
backslash that belong to it. -/
def escapeSequence? : List Char → Option (Char × Nat)
  | [] => none
  | c :: cs =>
    match c with
    | '0' => some ('\x00', 1)
    | 'a' => some ('\x07', 1)
    | 'b' => some ('\x08', 1)
    | 't' | '\t' => some ('\t', 1)
    | 'n' => some ('\n', 1)
    | 'v' => some ('\x0b', 1)
    | 'f' => some ('\x0c', 1)
    | 'r' => some ('\r', 1)
    | 'e' => some ('\x1b', 1)
    | ' ' => some (' ', 1)
    | '"' => some ('"', 1)
    | '/' => some ('/', 1)
    | '\\' => some ('\\', 1)
    | 'N' => some ('\u0085', 1)
    | '_' => some ('\u00A0', 1)
    | 'L' => some ('\u2028', 1)
    | 'P' => some ('\u2029', 1)
    | 'x' => (hexChar? 2 cs).map (·, 3)
    | 'u' => (hexChar? 4 cs).map (·, 5)
    | 'U' => (hexChar? 8 cs).map (·, 9)
    | _ => none

/-- Reads the characters of a quoted scalar up to a blank, the closing quote or an escaped line
break, which is read too; the flag tells that there was one. -/
def quotedWord (single : Bool) :
    (fuel : Nat) → (text : List Char) → Cursor → Except Fault (List Char × Bool × Cursor)
  | 0, text, c => .ok (text, false, c)
  | fuel + 1, text, c =>
    match c.rest with
    | [] => .ok (text, false, c)
    | d :: rest =>
      if isSpace d || isBreak d then .ok (text, false, c)
      else if single then
        if d = '\'' then
          if rest.head? = some '\'' then quotedWord single fuel (text ++ ['\'']) (c.advance 2)
          else .ok (text, false, c)
        else quotedWord single fuel (text ++ [d]) (c.advance 1)
      else if d = '"' then .ok (text, false, c)
      else if d = '\\' then
        if rest.head?.any isBreak then .ok (text, true, (c.advance 1).advanceLine)
        else
          match escapeSequence? rest with
          | some (e, length) => quotedWord single fuel (text ++ [e]) (c.advance (length + 1))
          | none => .error .escape
      else quotedWord single fuel (text ++ [d]) (c.advance 1)

/-- Reads a quoted scalar of which `text` was read already. -/
def quotedFrom (single : Bool) :
    (fuel : Nat) → (text : List Char) → Cursor → Except Fault (List Char × Cursor)
  | 0, _, _ => .error .unclosedQuote
  | fuel + 1, text, c =>
    if c.atMarker || c.rest.isEmpty then .error .unclosedQuote
    else do
      let (text, escaped, c) ← quotedWord single c.rest.length text c
      if c.rest.head? = some (if single then '\'' else '"') then return (text, c.advance 1)
      let (g, c) ← Gap.read 0 c.rest.length (if escaped then .escaped else .none) c
      quotedFrom single fuel (text ++ g.text) c

def quotedScalar (single : Bool) (c : Cursor) : Except Fault (List Char × Cursor) :=
  quotedFrom single (c.rest.length + 1) [] (c.advance 1)

/-! ### Block scalars -/

/-- What becomes of the line breaks at the end of a block scalar. -/
inductive Chomping where
  | strip
  | clip
  | keep
  deriving DecidableEq, Repr

def Chomping.ofChar? : Char → Option Chomping
  | '+' => some .keep
  | '-' => some .strip
  | _ => none

/-- The indentation that a character of the header asks for; zero is none. -/
def indentDigit? (c : Char) : Option Nat :=
  if '0' ≤ c && c ≤ '9' then some (c.toNat - '0'.toNat) else none

/-- Reads the indicators in the header of a block scalar, in either order: the chomping, and the
indentation if it is given. -/
def blockHeader (cs : List Char) : Except Fault (Chomping × Nat × Nat) :=
  match cs with
  | [] => .ok (.clip, 0, 0)
  | c :: rest =>
    match Chomping.ofChar? c, indentDigit? c with
    | some chomping, _ =>
      match rest.head?.bind indentDigit? with
      | some 0 => .error .blockHeader
      | some n => .ok (chomping, n, 2)
      | none => .ok (chomping, 0, 1)
    | none, some 0 => .error .blockHeader
    | none, some n =>
      match rest.head?.bind Chomping.ofChar? with
      | some chomping => .ok (chomping, n, 2)
      | none => .ok (.clip, n, 1)
    | none, none => .ok (.clip, 0, 0)

/-- The empty lines in front of a line of a block scalar: the line breaks, the greatest column
reached, and the place behind the indentation of the next line. An `indent` of zero is not known
yet. -/
def blockBreaks (indent : Nat) :
    (fuel : Nat) → (breaks : List Char) → (widest : Nat) → Cursor →
      Except Fault (List Char × Nat × Cursor)
  | 0, breaks, widest, c => .ok (breaks, widest, c)
  | fuel + 1, breaks, widest, c =>
    let spaces := (c.rest.takeWhile (· == ' ')).length
    let c := c.advance (if indent = 0 then spaces else min spaces (indent - c.column))
    let widest := max widest c.column
    if (indent = 0 || c.column < indent) && c.rest.head? = some '\t' then .error .tab
    else if c.rest.head?.any isBreak then
      blockBreaks indent fuel (breaks ++ c.lineBreak) widest c.advanceLine
    else .ok (breaks, widest, c)

/-- What was read of a block scalar: the text, the last line break and the empty lines behind it,
and whether the last line started with a blank. -/
structure Block where
  text : List Char
  leading : List Char
  trailing : List Char
  blank : Bool

/-- Adds the line at the cursor to a block. In a folded scalar the line break in front of a line
becomes a space, unless one of the two lines starts with a blank or empty lines stand between. -/
def Block.addLine (literal : Bool) (b : Block) (line : List Char) (lineBreak : List Char)
    (trailing : List Char) : Block :=
  let blank := line.head?.any isSpace
  let joined :=
    if !literal && b.leading.head? = some '\n' && !b.blank && !blank then
      if b.trailing.isEmpty then [' '] else []
    else b.leading
  ⟨b.text ++ joined ++ b.trailing ++ line, lineBreak, trailing, blank⟩

def blockLines (literal : Bool) (indent : Nat) :
    (fuel : Nat) → Block → Cursor → Except Fault (Block × Cursor)
  | 0, b, c => .ok (b, c)
  | fuel + 1, b, c =>
    if c.column = indent && !c.rest.isEmpty then do
      let line := c.rest.takeWhile (!isBreak ·)
      let c := c.advance line.length
      let (trailing, _, next) ← blockBreaks indent c.rest.length [] 0 c.advanceLine
      blockLines literal indent fuel (b.addLine literal line c.lineBreak trailing) next
    else .ok (b, c)

/-- The text of a block whose end is chomped. -/
def Block.finish (b : Block) : Chomping → List Char
  | .strip => b.text
  | .clip => b.text ++ b.leading
  | .keep => b.text ++ b.leading ++ b.trailing

/-- Reads a literal or folded scalar, from its indicator on. The block is indented deeper than the
column `parent`, which is where the enclosing collection starts, plus one. -/
def blockScalar (literal : Bool) (parent : Nat) (c : Cursor) :
    Except Fault (List Char × Cursor) := do
  let c := c.advance 1
  let (chomping, increment, length) ← blockHeader c.rest
  let c := ((c.advance length).skipSpaces).skipComment
  if !atLineEnd c.rest then throw .blockHeader
  let c := c.advanceLine
  let known := if increment = 0 then 0 else parent - 1 + increment
  let (trailing, widest, c) ← blockBreaks known c.rest.length [] 0 c
  let indent := if known = 0 then max (max widest parent) 1 else known
  let (b, c) ← blockLines literal indent (c.rest.length + 1) ⟨[], [], trailing, false⟩ c
  return (b.finish chomping, c)

end Telemetry.Yaml
