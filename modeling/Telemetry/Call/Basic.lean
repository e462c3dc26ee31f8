import Telemetry.Call.Scope
import Telemetry.Text.Alphanumeric

/-!
Recording calls. A call is found directly, as `receiver.method(`, or inside a scope block of the
receiver, either through the parameter of the block or, where the receiver is implicit, as a bare
`method(` or `this.method(`. The offset of the opening parenthesis identifies a call: whichever
search finds an offset first keeps it, and `calls` lists each call once, in source order.
-/

namespace Telemetry.Call

open Telemetry.Text Telemetry.Source

/-- A call as found: the method and the offset of the opening parenthesis. -/
structure Site where
  method : String
  opening : Nat
  deriving DecidableEq, Repr

structure Record extends Site where
  args : List String
  deriving DecidableEq, Repr

/-- Matches `receiver.method(`, from the receiver up to and including the parenthesis. -/
def memberCall (receiver : List Char) : Pattern String := fun before cs =>
  (memberOf receiver before cs).bind fun rest =>
    (identifier? rest).bind fun (method, rest) =>
      match trimStart rest with
      | '(' :: rest => some (String.ofList method, rest)
      | _ => none

/-- The calls of recognised methods on a receiver in the part of the text from `start` to `stop`
that start in code. -/
def memberSites (methods : List String) (text : List Char) (coverage : Coverage)
    (receiver : List Char) (start stop : Nat) : List Site :=
  (occurrences (memberCall receiver) (slice text start stop) start).filterMap fun o =>
    if coverage.isCode o.start && methods.contains o.value then some ⟨o.value, o.stop - 1⟩
    else none

/-- Matches `method(` for one of the methods at a word boundary; of several that fit, the first
one in the list. Methods are read as literal texts, as a pattern reads them that joins names made of
word characters; without any method no call is read. -/
def bareCall (methods : List String) : Pattern String := fun before cs =>
  if isBoundary before cs then
    methods.findSome? fun method =>
      (method.toList.isPrefixOf? cs).bind fun rest =>
        match trimStart rest with
        | '(' :: rest => some (method, rest)
        | _ => none
  else none

/-- Whether a text, read backwards, starts with a whole word read backwards. -/
def endsWithWord (word : String) (reversed : List Char) : Bool :=
  match word.toList.reverse.isPrefixOf? reversed with
  | some rest => !rest.head?.any fun c => isAlphanumeric c || c == '_'
  | none => false

/-- Whether a bare call belongs to the implicit receiver, judged by the text in front of it, read
backwards: it may be qualified by `this` and by nothing else, and it must not be the declaration
of a function. -/
def isImplicitCall (reversed : List Char) : Bool :=
  match reversed.dropWhile isBlank with
  | '.' :: rest =>
    match rest.dropWhile isBlank with
    | '?' :: rest => endsWithWord "this" (rest.dropWhile isBlank)
    | rest => endsWithWord "this" rest
  | rest => !endsWithWord "fun" rest

/-- The bare calls in the part of the text from `start` to `stop` that start in code and belong to
the implicit receiver. -/
def bareSites (methods : List String) (text : List Char) (coverage : Coverage)
    (start stop : Nat) : List Site :=
  let window := slice text start stop
  (occurrences (bareCall methods) window start).filterMap fun o =>
    if coverage.isCode o.start && isImplicitCall (takeBytes (o.start - start) window).reverse then
      some ⟨o.value, o.stop - 1⟩
    else none

def scopeSites (methods : List String) (text : List Char) (coverage : Coverage) (s : Scope) :
    List Site :=
  match s.access with
  | .implicit => bareSites methods text coverage (s.opening + 1) s.closing
  | .parameter name =>
    memberSites methods text coverage name.toList (s.opening + 1) s.closing

/-- Keeps the first of the sites that share an offset. -/
def claim (sites : List Site) : List Site :=
  sites.foldl (fun kept s => if kept.any (·.opening == s.opening) then kept else kept ++ [s]) []

/-- The sites of all receivers in the order of the searches: the direct calls of every receiver,
then the calls in the scope blocks of every receiver. -/
def sites (methods : List String) (text : List Char) (receivers : List String) : List Site :=
  let coverage := Coverage.ofBytes (encode text)
  let stop := byteSize text
  receivers.flatMap (fun r => memberSites methods text coverage r.toList 0 stop) ++
    receivers.flatMap fun r =>
      (scopes text r.toList).flatMap (scopeSites methods text coverage)

/-- The calls of recognised methods on any of the receivers, in source order. Bare calls try the
methods in the order of their names. -/
def calls (methods : List String) (text : List Char) (receivers : List String) : List Record :=
  let bytes := encode text
  let methods := methods.mergeSort (fun a b => a ≤ b)
  ((claim (sites methods text receivers)).mergeSort (fun a b => a.opening ≤ b.opening)).map
    fun s => { s with args := (arguments bytes s.opening).map String.ofList }

end Telemetry.Call
