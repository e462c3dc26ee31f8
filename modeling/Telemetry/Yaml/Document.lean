import Telemetry.Yaml.Token.Lexer

/-!
Documents: the node that a YAML text describes. An alias stays a reference to the node that carries
its anchor, because a node may contain an alias of itself; `Document.target` follows it. A text
holds at most one document, and a text without any token is a document without a node.
-/

namespace Telemetry.Yaml

inductive Node where
  /-- A scalar; `plain` tells that it was written without quotes and not as a block. -/
  | scalar (text : String) (plain : Bool)
  | sequence (items : List Node)
  | mapping (entries : List (Node × Node))
  /-- A reference to the node with the given number among the nodes that carry an anchor. -/
  | alias (anchor : Nat)

/-- The node that stands where none is written. -/
def Node.empty : Node := .scalar "" true

def Node.consItem (item : Node) : Node → Node
  | .sequence items => .sequence (item :: items)
  | node => node

def Node.consPair (key value : Node) : Node → Node
  | .mapping entries => .mapping ((key, value) :: entries)
  | node => node

/-- A document: its root, if it has a node at all, and the nodes that carry anchors by their
numbers. -/
structure Document where
  root : Option Node
  anchored : List (Nat × Node)

/-- The node that a node stands for: an alias is followed to the node that carries the anchor. -/
def Document.target (d : Document) : Node → Node
  | .alias n => (d.anchored.lookup n).getD .empty
  | node => node

/-! ### From tokens to nodes -/

/-- The state between two nodes: the tokens still to be read, the handles that tags may use, the
numbers of the anchors by their names, each name once, and the nodes that carry anchors by their
numbers, the one that starts last in front. -/
structure Parser where
  tokens : List Token
  handles : List String
  anchors : List (String × Nat)
  anchored : List (Nat × Node)

namespace Parser

def peek (p : Parser) : Token :=
  p.tokens.head?.getD .streamEnd

def skip (p : Parser) : Parser :=
  { p with tokens := p.tokens.drop 1 }

/-- Gives an anchor its number, which is the number of names in use so far. A name that is used
again moves to its new number, so that number goes to the next new name as well. -/
def bind (p : Parser) (name : Option String) : Option Nat × Parser :=
  match name with
  | some name =>
    let n := p.anchors.length
    (some n, { p with anchors := (name, n) :: p.anchors.filter (·.1 != name) })
  | none => (none, p)

/-- Remembers a node under the number of its anchor, behind the nodes inside of it. Before the node
was read, `earlier` nodes were remembered. -/
def remember (p : Parser) (earlier : Nat) (anchor : Option Nat) (node : Node) : Parser :=
  match anchor with
  | some n =>
    let inside := p.anchored.length - earlier
    { p with anchored := p.anchored.take inside ++ (n, node) :: p.anchored.drop inside }
  | none => p

def anchor? (p : Parser) : Option String × Parser :=
  match p.peek with
  | .anchor name => (some name, p.skip)
  | _ => (none, p)

/-- Reads the tag in front of a node; its handle must be declared. The flag tells that there was
one. -/
def tag? (p : Parser) : Except Fault (Bool × Parser) :=
  match p.peek with
  | .tag handle =>
    if handle = "" || p.handles.contains handle then .ok (true, p.skip) else .error .tagHandle
  | _ => .ok (false, p)

def properties (p : Parser) : Except Fault (Option String × Bool × Parser) := do
  match p.anchor? with
  | (some name, p) =>
    let (tagged, p) ← p.tag?
    return (some name, tagged, p)
  | (none, p) =>
    let (tagged, p) ← p.tag?
    if tagged then
      let (name, p) := p.anchor?
      return (name, true, p)
    return (none, false, p)

/-- Whether a node is missing between indicators of a block sequence. -/
def endsBlockItem : Token → Bool
  | .blockEntry | .blockEnd => true
  | _ => false

/-- Whether a node is missing between indicators of a sequence at the level of its key. -/
def endsIndentlessItem : Token → Bool
  | .blockEntry | .key | .value | .blockEnd => true
  | _ => false

/-- Whether a node is missing between indicators of a block mapping. -/
def endsBlockPart : Token → Bool
  | .key | .value | .blockEnd => true
  | _ => false

/-- Whether the value of a pair in a bracketed sequence is missing. -/
def endsFlowItem : Token → Bool
  | .flowEntry | .flowSequenceEnd => true
  | _ => false

/-- Whether a value in a braced mapping is missing. -/
def endsFlowPart : Token → Bool
  | .flowEntry | .flowMappingEnd => true
  | _ => false

mutual

/-- Reads a node. Block collections are allowed if `block`, a sequence that is not indented if
`indentless`. -/
def node (fuel : Nat) (block indentless : Bool) (p : Parser) : Except Fault (Node × Parser) :=
  match fuel with
  | 0 => .error .content
  | fuel + 1 => do
    if let .alias name := p.peek then
      match p.anchors.lookup name with
      | some n => return (.alias n, p.skip)
      | none => throw .unknownAnchor
    let (name, tagged, p) ← p.properties
    let (anchor, p) := p.bind name
    let earlier := p.anchored.length
    let (n, p) ← match p.peek with
      | .blockEntry =>
        if indentless then indentlessItems fuel p
        else if anchor.isSome || tagged then pure (Node.empty, p)
        else throw .content
      | .scalar text plain => pure (Node.scalar text plain, p.skip)
      | .flowSequenceStart => flowItems fuel true p.skip
      | .flowMappingStart => flowPairs fuel true p.skip
      | .blockSequenceStart =>
        if block then blockItems fuel p.skip
        else if anchor.isSome || tagged then pure (Node.empty, p)
        else throw .content
      | .blockMappingStart =>
        if block then blockPairs fuel p.skip
        else if anchor.isSome || tagged then pure (Node.empty, p)
        else throw .content
      | _ => if anchor.isSome || tagged then pure (Node.empty, p) else throw .content
    return (n, p.remember earlier anchor n)

def blockItems (fuel : Nat) (p : Parser) : Except Fault (Node × Parser) :=
  match fuel with
  | 0 => .error .entry
  | fuel + 1 => do
    match p.peek with
    | .blockEntry =>
      let p := p.skip
      let (item, p) ← if endsBlockItem p.peek then pure (Node.empty, p) else node fuel true false p
      let (rest, p) ← blockItems fuel p
      return (Node.consItem item rest, p)
    | .blockEnd => return (.sequence [], p.skip)
    | _ => throw .entry

/-- Reads the items of a block sequence at the level of the key that it belongs to. -/
def indentlessItems (fuel : Nat) (p : Parser) : Except Fault (Node × Parser) :=
  match fuel with
  | 0 => .error .entry
  | fuel + 1 => do
    match p.peek with
    | .blockEntry =>
      let p := p.skip
      let (item, p) ←
        if endsIndentlessItem p.peek then pure (Node.empty, p) else node fuel true false p
      let (rest, p) ← indentlessItems fuel p
      return (Node.consItem item rest, p)
    | _ => return (.sequence [], p)

def blockPairs (fuel : Nat) (p : Parser) : Except Fault (Node × Parser) :=
  match fuel with
  | 0 => .error .key
  | fuel + 1 => do
    match p.peek with
    | .key =>
      let p := p.skip
      let (key, p) ← if endsBlockPart p.peek then pure (Node.empty, p) else node fuel true true p
      let (value, p) ←
        if p.peek = .value then
          let p := p.skip
          if endsBlockPart p.peek then pure (Node.empty, p) else node fuel true true p
        else pure (Node.empty, p)
      let (rest, p) ← blockPairs fuel p
      return (Node.consPair key value rest, p)
    | .blockEnd => return (.mapping [], p.skip)
    | _ => throw .key

/-- Reads the items of a sequence in brackets. All but the first come behind a comma, and one may
stand behind the last. A pair stands for a mapping of its own. -/
def flowItems (fuel : Nat) (first : Bool) (p : Parser) : Except Fault (Node × Parser) :=
  match fuel with
  | 0 => .error .entry
  | fuel + 1 => do
    if p.peek = .flowSequenceEnd then return (.sequence [], p.skip)
    if !first && p.peek ≠ .flowEntry then throw .entry
    let p := if first then p else p.skip
    if p.peek = .flowSequenceEnd then return (.sequence [], p.skip)
    let (item, p) ←
      if p.peek = .key then flowPair fuel p.skip else node fuel false false p
    let (rest, p) ← flowItems fuel false p
    return (Node.consItem item rest, p)

/-- Reads a pair inside a sequence in brackets, behind the mark of its key. The token that stands in
the place of a missing key is passed over. -/
def flowPair (fuel : Nat) (p : Parser) : Except Fault (Node × Parser) :=
  match fuel with
  | 0 => .error .key
  | fuel + 1 => do
    let (key, p) ←
      if p.peek = .value || endsFlowItem p.peek then pure (Node.empty, p.skip)
      else node fuel false false p
    let (value, p) ←
      if p.peek = .value then
        let p := p.skip
        if endsFlowItem p.peek then pure (Node.empty, p) else node fuel false false p
      else pure (Node.empty, p)
    return (.mapping [(key, value)], p)

def flowPairs (fuel : Nat) (first : Bool) (p : Parser) : Except Fault (Node × Parser) :=
  match fuel with
  | 0 => .error .key
  | fuel + 1 => do
    if p.peek = .flowMappingEnd then return (.mapping [], p.skip)
    if !first && p.peek ≠ .flowEntry then throw .key
    let p := if first then p else p.skip
    if p.peek = .flowMappingEnd then return (.mapping [], p.skip)
    let (key, value, p) ←
      if p.peek = .key then
        let p := p.skip
        let (key, p) ←
          if p.peek = .value || endsFlowPart p.peek then pure (Node.empty, p)
          else node fuel false false p
        let (value, p) ←
          if p.peek = .value then
            let p := p.skip
            if endsFlowPart p.peek then pure (Node.empty, p) else node fuel false false p
          else pure (Node.empty, p)
        pure (key, value, p)
      else
        let (key, p) ← node fuel false false p
        pure (key, Node.empty, p)
    let (rest, p) ← flowPairs fuel false p
    return (Node.consPair key value rest, p)

end

/-! ### Documents -/

/-- Reads the directives in front of a document. A text may state its version once, which must be
1.1 or 1.2, and declare each tag handle once. -/
def directives : (version : Bool) → (handles : List String) → List Token →
    Except Fault (List String × List Token)
  | version, handles, .versionDirective major minor :: rest =>
    if version || major ≠ 1 || (minor ≠ 1 && minor ≠ 2) then .error .directive
    else directives true handles rest
  | version, handles, .tagDirective handle :: rest =>
    if handles.contains handle then .error .directive
    else directives version (handle :: handles) rest
  | _, handles, rest => .ok (handles, rest)

def endsDocument : Token → Bool
  | .versionDirective .. | .tagDirective .. | .documentStart | .documentEnd | .streamEnd => true
  | _ => false

def opensDocument : Token → Bool
  | .versionDirective .. | .tagDirective .. | .documentStart => true
  | _ => false

/-- Reads the root of the document, whose marker may be left out where it has no directives. -/
def root (tokens : List Token) : Except Fault (Node × Parser) := do
  let fuel := 4 * tokens.length + 8
  if opensDocument (tokens.head?.getD .streamEnd) then
    let (handles, tokens) ← directives false [] tokens
    match tokens with
    | .documentStart :: rest =>
      let p : Parser := ⟨rest, "!" :: "!!" :: handles, [], []⟩
      if endsDocument p.peek then return (.empty, p) else node fuel true false p
    | _ => throw .documentStart
  else node fuel true false ⟨tokens, ["!", "!!"], [], []⟩

end Parser

/-- What may follow the document: the marker of its end, any number of times, and then nothing. -/
def Document.checkEnd : List Token → Except Fault Unit
  | .documentEnd :: rest => Document.checkEnd rest
  | [] | .streamEnd :: _ => .ok ()
  | .versionDirective .. :: _ | .tagDirective .. :: _ | .documentStart :: _ => .error .secondDocument
  | _ => .error .documentStart

def Document.ofTokens (tokens : List Token) : Except Fault Document := do
  if tokens.head?.getD .streamEnd = .streamEnd then return ⟨none, []⟩
  let (root, p) ← Parser.root tokens
  Document.checkEnd p.tokens
  return ⟨some root, p.anchored⟩

def Document.ofText (text : String) : Except Fault Document := do
  Document.ofTokens (← tokens text.toList)

end Telemetry.Yaml
