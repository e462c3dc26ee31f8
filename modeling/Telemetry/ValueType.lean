import Telemetry.Source.Delimiters
import Telemetry.Text.Digit
import Telemetry.Text.Identifier
import Telemetry.Text.Search
import Telemetry.Text.Word

/-!
The type of the value that an event carries, guessed from the expression. An array constructor is
typed element by element. Any other expression is scalar and takes the first rule that fits: the
shape of a literal, then the accessor that it ends with, then words that occur in it.
-/

namespace Telemetry.ValueType

open Telemetry.Text

inductive Scalar where
  | long
  | double
  | float
  | int
  | short
  | byte
  | number
  | string
  | boolean
  | duration
  | throwable
  | object
  deriving DecidableEq, Repr

def Scalar.label : Scalar → String
  | .long => "Long"
  | .double => "Double"
  | .float => "Float"
  | .int => "Int"
  | .short => "Short"
  | .byte => "Byte"
  | .number => "Number"
  | .string => "String"
  | .boolean => "Boolean"
  | .duration => "Duration"
  | .throwable => "Throwable"
  | .object => "Object"

/-! ### Literals -/

def skipMinus : List Char → List Char
  | '-' :: cs => cs
  | cs => cs

def skipSign : List Char → List Char
  | '+' :: cs => cs
  | '-' :: cs => cs
  | cs => cs

/-- Skips a digit and the digits and underscores behind it. -/
def skipNumber? : List Char → Option (List Char)
  | [] => none
  | c :: cs => if isDigit c then some (cs.dropWhile fun c => isDigit c || c == '_') else none

/-- Skips an exponent: its mark, a sign if there is one, and its digits. -/
def skipExponent? : List Char → Option (List Char)
  | [] => none
  | c :: cs =>
    if c == 'e' || c == 'E' then
      match skipSign cs with
      | d :: ds => if isDigit d then some (ds.dropWhile isDigit) else none
      | [] => none
    else none

def isOneOf (choices : String) : List Char → Bool
  | [c] => choices.toList.contains c
  | _ => false

/-- Whether the text is empty or the mark of a floating-point literal. -/
def isFloatEnd (cs : List Char) : Bool :=
  cs.isEmpty || isOneOf "fFdD" cs

def isLongLiteral (cs : List Char) : Bool :=
  (skipNumber? (skipMinus cs)).any (isOneOf "lL")

/-- What follows the integer part of a floating-point literal: a fraction, perhaps with an
exponent, or an exponent, perhaps with a mark; or the mark of a float alone. -/
def isDecimalTail : List Char → Bool
  | '.' :: cs => (skipNumber? cs).any fun rest =>
      isFloatEnd rest || (skipExponent? rest).any isFloatEnd
  | cs => isOneOf "fF" cs || (skipExponent? cs).any isFloatEnd

def isDecimalLiteral (cs : List Char) : Bool :=
  (skipNumber? (skipMinus cs)).any isDecimalTail

/-- Whether the text is a nonempty run of characters of one kind. -/
def isRun (p : Char → Bool) (cs : List Char) : Bool :=
  !cs.isEmpty && cs.all p

def isHexDigit (c : Char) : Bool :=
  ('0' ≤ c && c ≤ '9') || ('a' ≤ c && c ≤ 'f') || ('A' ≤ c && c ≤ 'F')

/-- A hexadecimal, binary or decimal integer literal without its sign. -/
def isUnsignedInt : List Char → Bool
  | '0' :: m :: cs =>
    ((m == 'x' || m == 'X') && isRun (fun c => isHexDigit c || c == '_') cs) ||
      ((m == 'b' || m == 'B') && isRun (fun c => c == '0' || c == '1' || c == '_') cs) ||
      (skipNumber? ('0' :: m :: cs)).any List.isEmpty
  | cs => (skipNumber? cs).any List.isEmpty

def isIntLiteral (cs : List Char) : Bool :=
  isUnsignedInt (skipMinus cs)

/-- A text that starts and ends with a double quote, two different ones. -/
def isQuoted : List Char → Bool
  | '"' :: cs => cs.getLast? == some '"'
  | _ => false

/-! ### Accessors and words -/

/-- The type that a final conversion `.toInt()` and the like gives. -/
def conversion? (cs : List Char) : Option Scalar :=
  [(".toInt()", Scalar.int), (".toLong()", .long), (".toDouble()", .double),
    (".toFloat()", .float), (".toShort()", .short), (".toByte()", .byte)].findSome?
      fun (accessor, type) => if accessor.toList.isSuffixOf cs then some type else none

/-- The last identifier of an expression, if only characters that belong to no word follow it. -/
def lastSegment (cs : List Char) : List Char :=
  let reversed := cs.reverse.dropWhile (!isWord ·)
  (reversed.takeWhile isIdentifierPart).reverse.dropWhile (!isIdentifierStart ·)

/-- Whether an expression seems to denote an error. -/
def looksLikeError (cs : List Char) : Bool :=
  let lowered := cs.map lower
  let last := String.ofList (lastSegment lowered)
  contains "throwable".toList lowered || contains "exception".toList lowered ||
    last == "e" || last == "error" || "cause".toList.isSuffixOf last.toList

/-- The type of a scalar expression: the first rule that fits. -/
def scalar (cs : List Char) : Scalar :=
  if isLongLiteral cs then .long
  else if isDecimalLiteral cs then .double
  else if isIntLiteral cs then .int
  else if isQuoted cs then .string
  else if cs = "true".toList || cs = "false".toList then .boolean
  else if containsAnyFolded ["duration", "nanos"] cs then .duration
  else if endsWithAny [".size", ".length", ".size()", ".count()"] cs then .int
  else if let some type := conversion? cs then type
  else if endsWithAny [".toString()", ".message", ".localizedMessage", ".name", ".text"] cs then
    .string
  else if containsAnyFolded ["elapsed", "latency", "millis", "seconds", "time"] cs then .duration
  else if containsAnyFolded
      ["bytes", "count", "records", "items", "size", "length", "total", "number"] cs then .number
  else if looksLikeError cs then .throwable
  else .object

/-! ### Arrays -/

/-- Skips type arguments `<…>`, if an angle bracket comes first. -/
def skipTypeArguments? : List Char → Option (List Char)
  | '<' :: cs =>
    match cs.dropWhile (· != '>') with
    | _ :: rest => some rest
    | [] => none
  | cs => some cs

/-- The text between the parentheses of an array constructor that makes up the whole
expression. -/
def arrayBody? (cs : List Char) : Option (List Char) :=
  ("arrayOf".toList.isPrefixOf? cs).bind fun rest =>
    (skipTypeArguments? (trimStart rest)).bind fun rest =>
      match trimStart rest with
      | '(' :: rest => if rest.getLast? = some ')' then some rest.dropLast else none
      | _ => none

def arrayLabel (elements : List String) : String :=
  if elements.isEmpty then "Array<Object>"
  else "Array<" ++ String.intercalate ", " elements ++ ">"

/-- The label of a trimmed expression. An element of an array is shorter than the array, so the
second alternative for elements is never taken. -/
def labelOf (cs : List Char) : String :=
  match arrayBody? cs with
  | some body =>
    arrayLabel ((Source.splitTopLevel body).map fun element =>
      if element.length < cs.length then labelOf element else (scalar element).label)
  | none => (scalar cs).label
termination_by cs.length

def classify (expr : String) : String :=
  labelOf (trim expr.toList)

end Telemetry.ValueType
