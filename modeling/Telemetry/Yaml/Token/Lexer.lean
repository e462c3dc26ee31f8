import Telemetry.Yaml.Property
import Telemetry.Yaml.Scalar

/-!
From a YAML text to its tokens. The state keeps the columns at which the open block collections
start, how many brackets are open, and for each of them the place of a token that may turn out to
be a key. A key without a question mark is recognised only at its colon; the key token is then put
in front of it, and the start of a block mapping in front of that where the key stands deeper than
the collection around it. Such a key ends on its own line, within 1024 characters.
-/

namespace Telemetry.Yaml

/-- A token that may turn out to be a key. It must, if it stands where only a key may stand. -/
structure KeyCandidate where
  possible : Bool
  required : Bool
  /-- The number of tokens in front of it. -/
  token : Nat
  index : Nat
  line : Nat
  column : Nat

/-- No token. -/
def KeyCandidate.none : KeyCandidate := ⟨false, false, 0, 0, 0, 0⟩

structure Lexer where
  cursor : Cursor
  tokens : Array Token
  /-- One more than the column of the innermost block collection, zero outside of all. -/
  indent : Nat
  /-- The values of `indent` of the collections around it. -/
  outer : List Nat
  /-- The candidate for a key at each level of brackets, the innermost first. -/
  keys : List KeyCandidate
  /-- How many brackets are open. -/
  flow : Nat
  /-- Whether a key may start here. -/
  keyAllowed : Bool

namespace Lexer

def start (text : List Char) : Lexer :=
  ⟨.start text, #[], 0, [], [.none], 0, true⟩

def push (s : Lexer) (t : Token) : Lexer :=
  { s with tokens := s.tokens.push t }

/-- Drops the candidate at the current level, which must not be a required key. -/
def dropKey (s : Lexer) : Except Fault Lexer :=
  match s.keys with
  | k :: keys =>
    if k.possible && k.required then .error .simpleKey
    else .ok { s with keys := { k with possible := false } :: keys }
  | [] => .ok s

def offerKey (s : Lexer) : Except Fault Lexer :=
  if s.keyAllowed then do
    let s ← s.dropKey
    let key : KeyCandidate :=
      { possible := true
        required := s.flow = 0 && s.indent = s.cursor.column + 1
        token := s.tokens.size
        index := s.cursor.index
        line := s.cursor.line
        column := s.cursor.column }
    return { s with keys := key :: s.keys.drop 1 }
  else .ok s

/-- Gives up the candidates that are too far back to be keys. -/
def expireKeys (s : Lexer) : Except Fault Lexer :=
  let expired (k : KeyCandidate) : Bool :=
    k.possible && (k.line < s.cursor.line || k.index + 1024 < s.cursor.index)
  if s.keys.any fun k => expired k && k.required then .error .simpleKey
  else
    .ok { s with
      keys := s.keys.map fun k => if expired k then { k with possible := false } else k }

/-- Opens a block collection at a column, unless one is open there or deeper. Its start token is
put in front of the token number `position`. -/
def openBlock (s : Lexer) (column position : Nat) (start : Token) : Lexer :=
  if s.flow = 0 && s.indent < column + 1 then
    { s with
      indent := column + 1
      outer := s.indent :: s.outer
      tokens := s.tokens.insertIdxIfInBounds position start }
  else s

/-- Closes the block collections whose indentation is greater than `indent`. -/
def closeBlocksTo (indent : Nat) : List Nat → Nat → Array Token → Nat × List Nat × Array Token
  | [], current, tokens => (current, [], tokens)
  | enclosing :: outer, current, tokens =>
    if indent < current then closeBlocksTo indent outer enclosing (tokens.push .blockEnd)
    else (current, enclosing :: outer, tokens)

/-- Closes the block collections that start right of a place. -/
def closeBlocks (s : Lexer) (indent : Nat) : Lexer :=
  if s.flow = 0 then
    let (current, outer, tokens) := closeBlocksTo indent s.outer s.indent s.tokens
    { s with indent := current, outer, tokens }
  else s

/-- Steps over blanks, comments and line breaks. A line break allows a key outside of brackets. Tabs
count as blanks only inside brackets or where no key may start. -/
def skipToToken : (fuel : Nat) → Lexer → Lexer
  | 0, s => s
  | fuel + 1, s =>
    let c := s.cursor
    let c := if c.column = 0 && c.rest.head? = some '\uFEFF' then c.advance 1 else c
    let tabs := 0 < s.flow || !s.keyAllowed
    let c := (c.skipWhile fun d => d == ' ' || (tabs && d == '\t')).skipComment
    if c.rest.head?.any isBreak then
      skipToToken fuel { s with cursor := c.advanceLine, keyAllowed := s.keyAllowed || s.flow = 0 }
    else { s with cursor := c }

/-- Steps over an indicator of `n` characters and adds its token. -/
def indicator (s : Lexer) (n : Nat) (t : Token) : Lexer :=
  { s with cursor := s.cursor.advance n, tokens := s.tokens.push t }

def finish (s : Lexer) : Except Fault Lexer := do
  let s ← (s.closeBlocks 0).dropKey
  return s.push .streamEnd

def readDirective (s : Lexer) : Except Fault Lexer := do
  let s ← (s.closeBlocks 0).dropKey
  let (token, cursor) ← directive s.cursor
  return { s with cursor, keyAllowed := false }.push token

def readMarker (s : Lexer) (t : Token) : Except Fault Lexer := do
  let s ← (s.closeBlocks 0).dropKey
  return { s with keyAllowed := false }.indicator 3 t

def openBracket (s : Lexer) (t : Token) : Except Fault Lexer := do
  let s ← s.offerKey
  return { s with keys := .none :: s.keys, flow := s.flow + 1, keyAllowed := true }.indicator 1 t

def closeBracket (s : Lexer) (t : Token) : Except Fault Lexer := do
  let s ← s.dropKey
  let s := if s.flow = 0 then s else { s with keys := s.keys.drop 1, flow := s.flow - 1 }
  return { s with keyAllowed := false }.indicator 1 t

def readComma (s : Lexer) : Except Fault Lexer := do
  let s ← s.dropKey
  return { s with keyAllowed := true }.indicator 1 .flowEntry

/-- Opens a block collection for the indicator at the cursor, which must be allowed there. -/
def openBlockHere (s : Lexer) (start : Token) : Except Fault Lexer :=
  if s.flow = 0 then
    if s.keyAllowed then .ok (s.openBlock s.cursor.column s.tokens.size start)
    else .error .misplaced
  else .ok s

def readHyphen (s : Lexer) : Except Fault Lexer := do
  let s ← s.openBlockHere .blockSequenceStart
  let s ← s.dropKey
  return { s with keyAllowed := true }.indicator 1 .blockEntry

def readQuestionMark (s : Lexer) : Except Fault Lexer := do
  let s ← s.openBlockHere .blockMappingStart
  let s ← s.dropKey
  return { s with keyAllowed := s.flow = 0 }.indicator 1 .key

/-- The colon of a value. If a candidate for a key is open, it is one. -/
def readColon (s : Lexer) : Except Fault Lexer := do
  match s.keys with
  | k :: keys =>
    if k.possible then
      let s := { s with tokens := s.tokens.insertIdxIfInBounds k.token .key }
      let s := s.openBlock k.column k.token .blockMappingStart
      return { s with keys := { k with possible := false } :: keys, keyAllowed := false }.indicator 1
        .value
    else
      let s ← s.openBlockHere .blockMappingStart
      return { s with keyAllowed := s.flow = 0 }.indicator 1 .value
  | [] => throw .misplaced

def readAnchor (s : Lexer) (make : String → Token) : Except Fault Lexer := do
  let s ← s.offerKey
  let (name, cursor) ← anchorName s.cursor
  return { s with cursor, keyAllowed := false }.push (make name)

def readTag (s : Lexer) : Except Fault Lexer := do
  let s ← s.offerKey
  let (token, cursor) ← tagToken (0 < s.flow) s.cursor
  return { s with cursor, keyAllowed := false }.push token

def readBlockScalar (s : Lexer) (literal : Bool) : Except Fault Lexer := do
  let s ← s.dropKey
  let (text, cursor) ← blockScalar literal s.indent s.cursor
  return { s with cursor, keyAllowed := true }.push (.scalar (String.ofList text) false)

def readQuoted (s : Lexer) (single : Bool) : Except Fault Lexer := do
  let s ← s.offerKey
  let (text, cursor) ← quotedScalar single s.cursor
  return { s with cursor, keyAllowed := false }.push (.scalar (String.ofList text) false)

/-- A plain scalar. Behind a line break a key may start again. -/
def readPlain (s : Lexer) : Except Fault Lexer := do
  let s ← s.offerKey
  let (text, broken, cursor) ← plainScalar (0 < s.flow) s.indent s.cursor
  return { s with cursor, keyAllowed := broken }.push (.scalar (String.ofList text) true)

/-- Whether a plain scalar may start with a character that the text `rest` follows. -/
def startsPlain (flow : Bool) (c : Char) (rest : List Char) : Bool :=
  !(isSpace c || isBreak c || "-?:,[]\x7b\x7d#&*!|>'\"%@`".toList.contains c) ||
    (c == '-' && !rest.head?.any isSpace) ||
    (!flow && (c == '?' || c == ':') && !atBlank rest)

def readToken (s : Lexer) : Except Fault Lexer :=
  let flow := 0 < s.flow
  match s.cursor.rest with
  | [] => s.finish
  | c :: rest =>
    if s.cursor.column = 0 && c = '%' then s.readDirective
    else if s.cursor.atMarker then
      s.readMarker (if c = '-' then .documentStart else .documentEnd)
    else if c = '[' then s.openBracket .flowSequenceStart
    else if c = '\x7b' then s.openBracket .flowMappingStart
    else if c = ']' then s.closeBracket .flowSequenceEnd
    else if c = '\x7d' then s.closeBracket .flowMappingEnd
    else if c = ',' then s.readComma
    else if c = '-' && atBlank rest then s.readHyphen
    else if c = '?' && (flow || atBlank rest) then s.readQuestionMark
    else if c = ':' && (flow || atBlank rest) then s.readColon
    else if c = '*' then s.readAnchor .alias
    else if c = '&' then s.readAnchor .anchor
    else if c = '!' then s.readTag
    else if c = '|' && !flow then s.readBlockScalar true
    else if c = '>' && !flow then s.readBlockScalar false
    else if c = '\'' then s.readQuoted true
    else if c = '"' then s.readQuoted false
    else if startsPlain flow c rest then s.readPlain
    else .error .tokenStart

def next (s : Lexer) : Except Fault Lexer := do
  let s := s.skipToToken (s.cursor.rest.length + 1)
  let s ← s.expireKeys
  (s.closeBlocks (s.cursor.column + 1)).readToken

def run : (fuel : Nat) → Lexer → Except Fault (List Token)
  | 0, s => .ok s.tokens.toList
  | fuel + 1, s => do
    let s ← s.next
    if s.tokens.back? = some .streamEnd then return s.tokens.toList
    run fuel s

end Lexer

def tokens (text : List Char) : Except Fault (List Token) :=
  if text.all isAllowed then Lexer.run (text.length + 1) (.start text) else .error .character

end Telemetry.Yaml
