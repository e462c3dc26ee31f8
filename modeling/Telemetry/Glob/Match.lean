import Telemetry.Glob.Pattern
import Telemetry.Text.Utf8

/-!
Matching of glob patterns against the bytes of a path. A token turns a text into the texts that may
be left behind it; a pattern matches a path if nothing may be left behind all of its tokens.
-/

namespace Telemetry.Glob

open Telemetry.Text

/-- All the ends of a text, the text itself included. -/
def tails : List UInt8 → List (List UInt8)
  | [] => [[]]
  | b :: bs => (b :: bs) :: tails bs

/-- What may be left behind a slash that comes first in one of the texts. -/
def afterSlash (texts : List (List UInt8)) : List (List UInt8) :=
  texts.filterMap fun
    | b :: bs => if b = byte '/' then some bs else none
    | [] => none

/-- Whether a byte belongs to a range of characters. A character of several bytes stands for each of
them, and a range for its outer bytes and for those between the ends of its two characters. -/
def inRange (low high : Char) (b : UInt8) : Bool :=
  let ls := encode [low]
  let hs := encode [high]
  ls.contains b || hs.contains b ||
    (low ≠ high && ls.getLast?.any (· ≤ b) && hs.head?.any (b ≤ ·))

/-- What a class leaves behind. -/
def afterClass (negated : Bool) (ranges : List (Char × Char)) : List UInt8 → List (List UInt8)
  | b :: bs => if (ranges.any fun (low, high) => inRange low high b) != negated then [bs] else []
  | [] => []

mutual

/-- Whether a token stands for the empty text only because nothing is in it. -/
def Token.isVoid : Token → Bool
  | .choice branches => allVoid branches
  | _ => false

/-- Whether all tokens are void. -/
def isVoid : List Token → Bool
  | [] => true
  | t :: ts => t.isVoid && isVoid ts

def allVoid : List (List Token) → Bool
  | [] => true
  | b :: bs => isVoid b && allVoid bs

end

mutual

/-- What a token may leave behind. -/
def Token.leave (text : List UInt8) : Token → List (List UInt8)
  | .literal c => ((encode [c]).isPrefixOf? text).toList
  | .any => match text with
    | _ :: bs => [bs]
    | [] => []
  | .many => tails text
  | .foldersBefore => text :: (afterSlash [text] ++ afterSlash (tails text))
  | .foldersAfter => (afterSlash [text]).flatMap tails
  | .foldersBetween =>
    let rest := afterSlash [text]
    rest ++ afterSlash (rest.flatMap tails)
  | .oneOf negated ranges => afterClass negated ranges text
  | .choice branches => if allVoid branches then [text] else leaveAny text branches

def leaveAll (texts : List (List UInt8)) : List Token → List (List UInt8)
  | [] => texts
  | t :: ts => leaveAll (texts.flatMap fun text => t.leave text).eraseDups ts

/-- What one of the branches of a choice may leave behind. A void branch is no choice. -/
def leaveAny (text : List UInt8) : List (List Token) → List (List UInt8)
  | [] => []
  | b :: bs => (if isVoid b then [] else leaveAll [text] b) ++ leaveAny text bs

end

/-- Whether a pattern matches a path from end to end. A pattern of folders alone matches
everything. -/
def isMatch (pattern : List Token) (path : String) : Bool :=
  match pattern with
  | [.foldersBefore] => true
  | _ => (leaveAll [encode path.toList] pattern).any List.isEmpty

end Telemetry.Glob
