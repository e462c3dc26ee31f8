import Telemetry.Source.Coverage
import Telemetry.Source.Delimiters
import Telemetry.Source.Phrase
import Telemetry.Text.Slice

/-!
Scope blocks. `receiver.apply { … }` and `receiver.run { … }` make the receiver implicit inside the
braces; `receiver.let { … }` and `receiver.also { … }` pass it as a parameter, which is called `it`
unless the block starts with `name ->` or `name: Type ->`. `scopes` lists the blocks opened on a
receiver, in source order.
-/

namespace Telemetry.Call

open Telemetry.Text Telemetry.Source

/-- How the calls inside a scope block reach the receiver. -/
inductive Access where
  /-- Without naming it. -/
  | implicit
  /-- Through the parameter of the block. -/
  | parameter (name : String)
  deriving DecidableEq, Repr

/-- A scope block: the offsets of its braces and the access to its receiver. -/
structure Scope where
  opening : Nat
  closing : Nat
  access : Access
  deriving DecidableEq, Repr

def Scope.body (s : Scope) (text : List Char) : List Char :=
  slice text (s.opening + 1) s.closing

inductive ScopeWord where
  | apply
  | run
  | letIn
  | also
  deriving DecidableEq, Repr

def ScopeWord.spelling : ScopeWord → String
  | .apply => "apply"
  | .run => "run"
  | .letIn => "let"
  | .also => "also"

/-- Whether the block of a scope word leaves the receiver unnamed. -/
def ScopeWord.isImplicit : ScopeWord → Bool
  | .apply | .run => true
  | .letIn | .also => false

/-- The scope word in front of a text, when an opening brace follows it. -/
def scopeWord? (cs : List Char) : Option (ScopeWord × List Char) :=
  [ScopeWord.apply, .run, .letIn, .also].findSome? fun w =>
    (w.spelling.toList.isPrefixOf? cs).bind fun rest =>
      match trimStart rest with
      | '\x7b' :: rest => some (w, rest)
      | _ => none

/-- Matches `receiver.word {`, from the receiver up to and including the brace. -/
def scopeOpening (receiver : List Char) : Pattern ScopeWord := fun before cs =>
  (memberOf receiver before cs).bind scopeWord?

/-- How many bytes behind the opening brace are searched for the name of a parameter. -/
def parameterReach : Nat := 64

/-- The name of the parameter when a block does not give one. -/
def defaultParameter : String := "it"

/-- The parameter that a block starts with: `name ->` or `name: Type ->`. -/
def parameter? (cs : List Char) : Option String :=
  (identifier? (trimStart cs)).bind fun (name, rest) =>
    (skipType? (trimStart rest)).bind fun rest =>
      match rest with
      | '-' :: '>' :: _ => some (String.ofList name)
      | _ => none

/-- The name of the parameter of the block between two braces. -/
def parameterName (text : List Char) (opening closing : Nat) : String :=
  (parameter? (slice text (opening + 1) (min (opening + 1 + parameterReach) closing))).getD
    defaultParameter

/-- The block that an occurrence of a scope word opens, if the word stands in code and the brace
is closed. -/
def scopeAt? (text : List Char) (bytes : List UInt8) (coverage : Coverage)
    (o : Occurrence ScopeWord) : Option Scope :=
  if coverage.isCode o.start then
    let opening := o.stop - 1
    (matchingBrace bytes opening).map fun closing =>
      { opening, closing
        access :=
          if o.value.isImplicit then .implicit
          else .parameter (parameterName text opening closing) }
  else none

def scopes (text receiver : List Char) : List Scope :=
  let bytes := encode text
  let coverage := Coverage.ofBytes bytes
  (occurrences (scopeOpening receiver) text 0).filterMap (scopeAt? text bytes coverage)

end Telemetry.Call
