import Telemetry.Text.Blank
import Telemetry.Text.Identifier

/-!
The pieces of a string template. In the body of a literal, `$name` and `${…}` are tokens, and what
stands between them is plain text. A token names a symbol if it is `$name`, or if the text in the
braces is an identifier with blanks around it; any other token stands for a computation that is not
looked into.
-/

namespace Telemetry.Template

open Telemetry.Text

inductive Piece where
  /-- One character that belongs to no token. -/
  | plain (c : Char)
  /-- A token as written, and the symbol that it names, if it names one. -/
  | token (written : String) (name : Option String)
  deriving DecidableEq, Repr

/-- The symbol that the text in the braces of a token names. -/
def bracedName? (inside : List Char) : Option String :=
  if isIdentifier (trim inside) then some (String.ofList (trim inside)) else none

/-- The token in front of a text, and the number of its characters. -/
def token? : List Char → Option (Piece × Nat)
  | '$' :: '\x7b' :: cs =>
    let inside := cs.takeWhile (· != '\x7d')
    match cs.dropWhile (· != '\x7d') with
    | _ :: _ =>
      some (.token (String.ofList ('$' :: '\x7b' :: inside ++ ['\x7d'])) (bracedName? inside),
        inside.length + 3)
    | [] => none
  | '$' :: cs =>
    (identifier? cs).map fun (name, _) =>
      (.token (String.ofList ('$' :: name)) (some (String.ofList name)), name.length + 1)
  | _ => none

/-- The pieces of the rest of a body whose first `skip` characters belong to a token already
read. -/
def piecesAfter : (skip : Nat) → List Char → List Piece
  | _, [] => []
  | skip + 1, _ :: cs => piecesAfter skip cs
  | 0, c :: cs =>
    match token? (c :: cs) with
    | some (piece, length) => piece :: piecesAfter (length - 1) cs
    | none => .plain c :: piecesAfter 0 cs

def pieces (body : String) : List Piece :=
  piecesAfter 0 body.toList

/-- The text of a piece as it stands in the body. -/
def Piece.written : Piece → String
  | .plain c => String.singleton c
  | .token written _ => written

end Telemetry.Template
