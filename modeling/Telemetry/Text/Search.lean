import Telemetry.Text.Utf8

/-!
Searching a text for a word, with or without regard to case. Case is disregarded by simple case
folding, under which the ASCII letters `s` and `k` have one more form each: the long s and the
Kelvin sign.
-/

namespace Telemetry.Text

def contains (word : List Char) : List Char → Bool
  | [] => word.isEmpty
  | c :: cs => word.isPrefixOf (c :: cs) || contains word cs

/-- The lower-case form of a character whose lower-case form is an ASCII letter; other characters
are left alone. -/
def lower (c : Char) : Char :=
  if c = '\u212A' then 'k' else c.toLower

/-- The case-folded form of a character whose case-folded form is an ASCII letter; other characters
are left alone. -/
def fold (c : Char) : Char :=
  if c = '\u017F' then 's' else lower c

/-- Whether one of the words, written in lower case, occurs in the text in whatever case. -/
def containsAnyFolded (words : List String) (cs : List Char) : Bool :=
  let folded := cs.map fold
  words.any fun word => contains word.toList folded

def endsWithAny (words : List String) (cs : List Char) : Bool :=
  words.any fun word => word.toList.isSuffixOf cs

end Telemetry.Text
