/-!
Identifiers: an ASCII letter or underscore followed by ASCII letters, digits and underscores.
`Identifier.take?` reads the longest identifier that a text starts with, `isIdentifier` asks
whether a text is one from end to end.
-/

namespace Telemetry.Text

def isIdentifierStart (c : Char) : Bool :=
  c.isAlpha || c == '_'

def isIdentifierPart (c : Char) : Bool :=
  c.isAlphanum || c == '_'

/-- The longest identifier in front of a text, and the text after it. -/
def identifier? : List Char → Option (List Char × List Char)
  | [] => none
  | c :: cs =>
    if isIdentifierStart c then
      some (c :: cs.takeWhile isIdentifierPart, cs.dropWhile isIdentifierPart)
    else none

def isIdentifier : List Char → Bool
  | [] => false
  | c :: cs => isIdentifierStart c && cs.all isIdentifierPart

end Telemetry.Text
