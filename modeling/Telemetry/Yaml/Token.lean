/-!
The tokens of a YAML text. Indentation is made explicit: a block collection is a start token, its
entries and an end token. A simple key gets the key token that a question mark would have given.
-/

namespace Telemetry.Yaml

inductive Token where
  | streamEnd
  | versionDirective (major minor : Nat)
  | tagDirective (handle : String)
  | documentStart
  | documentEnd
  | blockSequenceStart
  | blockMappingStart
  | blockEnd
  | flowSequenceStart
  | flowSequenceEnd
  | flowMappingStart
  | flowMappingEnd
  | blockEntry
  | flowEntry
  | key
  | value
  | alias (name : String)
  | anchor (name : String)
  /-- A tag, of which only the handle matters; it is empty where the tag has none. -/
  | tag (handle : String)
  | scalar (text : String) (plain : Bool)
  deriving DecidableEq, Repr

end Telemetry.Yaml
