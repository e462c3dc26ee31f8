/-!
What can be wrong with a YAML text. The reading stops at the first fault.
-/

namespace Telemetry.Yaml

inductive Fault where
  /-- A character that may not stand in a YAML text. -/
  | character
  /-- A character that starts nothing. -/
  | tokenStart
  /-- A key of a mapping that no colon follows. -/
  | simpleKey
  /-- An entry, a key or a value where none may stand. -/
  | misplaced
  /-- A tab in the place of indentation. -/
  | tab
  /-- A directive that is not understood. -/
  | directive
  /-- An anchor or an alias without a name. -/
  | anchorName
  /-- A tag that is not understood. -/
  | tag
  /-- A tag whose handle is not declared. -/
  | tagHandle
  /-- The header of a block scalar that is not understood. -/
  | blockHeader
  /-- A quoted scalar that is never closed. -/
  | unclosedQuote
  /-- An escape sequence that is not understood. -/
  | escape
  /-- A colon that may not stand in a plain scalar. -/
  | colon
  /-- A document that starts without its marker. -/
  | documentStart
  /-- A node without content. -/
  | content
  /-- A sequence that goes on with something other than an entry. -/
  | entry
  /-- A mapping that goes on with something other than a key. -/
  | key
  /-- An alias of an anchor that is not known. -/
  | unknownAnchor
  /-- A second document in the text. -/
  | secondDocument
  deriving DecidableEq, Repr

def Fault.message : Fault → String
  | .character => "control characters are not allowed"
  | .tokenStart => "found character that cannot start any token"
  | .simpleKey => "could not find expected ':'"
  | .misplaced => "mapping values are not allowed in this context"
  | .tab => "found a tab character that violates indentation"
  | .directive => "found unknown directive name"
  | .anchorName => "did not find expected alphabetic or numeric character"
  | .tag => "did not find expected tag URI"
  | .tagHandle => "found undefined tag handle"
  | .blockHeader => "did not find expected comment or line break"
  | .unclosedQuote => "found unexpected end of stream"
  | .escape => "found unknown escape character"
  | .colon => "found unexpected ':'"
  | .documentStart => "did not find expected <document start>"
  | .content => "did not find expected node content"
  | .entry => "did not find expected '-' indicator"
  | .key => "did not find expected key"
  | .unknownAnchor => "unknown anchor"
  | .secondDocument => "deserializing from YAML containing more than one document is not supported"

end Telemetry.Yaml
