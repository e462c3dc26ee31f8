import Telemetry.Symbol.Table
import Telemetry.Template.Piece

/-!
Resolution of name expressions. A name expression is a quoted literal, whose tokens are replaced by
the values of the symbols they name, or a symbol itself, perhaps qualified by the identifier of its
file. The values of symbols are templates in their turn.

A token stays as written, and the result is flagged unresolved, if it names no symbol, if its
symbol is unbound, being expanded already, or nested too deep, or if its expansion would take the
value beyond a size limit. Within one resolution each symbol is expanded at most once: its
resolution is remembered and used again wherever the symbol recurs.
-/

namespace Telemetry.Template

open Telemetry.Text

/-- The text that an expression stands for, and whether nothing in it was left open. -/
structure Resolution where
  value : String
  resolved : Bool
  deriving DecidableEq, Repr

/-- What resolution depends on: the bindings, the identifier of the file, and the number of bytes
beyond which no value is expanded. -/
structure Context where
  table : Symbol.Table
  identifier : String
  limit : Nat

/-- How many symbols may be under expansion at one time. -/
def maxDepth : Nat := 32

/-- The least size limit in use. -/
def defaultLimit : Nat := 4096

abbrev Cache := List (String × Resolution)

/-- The outcome of one symbol: its resolution if it has one, and the cache afterwards. -/
abbrev Outcome := Option Resolution × Cache

/-- The state of the expansion of one body: the value and flag so far, and the cache. -/
structure Progress where
  value : String
  resolved : Bool
  cache : Cache
  deriving DecidableEq, Repr

/-- Takes a token over as written. -/
def Progress.keep (p : Progress) (written : String) : Progress :=
  { p with value := p.value ++ written, resolved := false }

/-- Adds a piece to the value, where `expand` expands a symbol. -/
def Progress.add (limit : Nat) (expand : Cache → String → Outcome) (p : Progress) :
    Piece → Progress
  | .plain c => { p with value := p.value.push c }
  | .token written none => p.keep written
  | .token written (some name) =>
    if limit ≤ p.value.utf8ByteSize then p.keep written
    else
      match expand p.cache name with
      | (some inner, cache) =>
        if p.value.utf8ByteSize + inner.value.utf8ByteSize ≤ limit then
          ⟨p.value ++ inner.value, p.resolved && inner.resolved, cache⟩
        else Progress.keep { p with cache } written
      | (none, cache) => Progress.keep { p with cache } written

def expandBody (limit : Nat) (expand : Cache → String → Outcome) (cache : Cache)
    (body : String) : Resolution × Cache :=
  let p := (pieces body).foldl (Progress.add limit expand) ⟨"", true, cache⟩
  (⟨p.value, p.resolved⟩, p.cache)

/-- Expands a symbol while the symbols of `chain` are under expansion and `room` more may be. -/
def expandName (table : Symbol.Table) (limit : Nat) :
    (room : Nat) → (chain : List String) → Cache → String → Outcome
  | room, chain, cache, name =>
    match cache.lookup name with
    | some r => (some r, cache)
    | none =>
      match room with
      | 0 => (none, cache)
      | room + 1 =>
        if chain.contains name then (none, cache)
        else
          match table.get? name with
          | none => (none, cache)
          | some body =>
            let (r, cache) := expandBody limit (expandName table limit room (name :: chain)) cache body
            (some r, (name, r) :: cache)

/-- The text between the quotes of an expression that starts and ends with one. -/
def unquote? : List Char → Option (List Char)
  | '"' :: rest => if rest.getLast? = some '"' then some rest.dropLast else none
  | _ => none

/-- The symbol that an unquoted expression names: the qualifier `identifier.` is dropped. -/
def localName (identifier : String) (expr : List Char) : List Char :=
  if identifier = "" then expr
  else
    match identifier.toList.isPrefixOf? expr with
    | some ('.' :: name) => name
    | _ => expr

def resolve (ctx : Context) (expr : String) : Resolution :=
  let expr := trim expr.toList
  match unquote? expr with
  | some body =>
    (expandBody ctx.limit (expandName ctx.table ctx.limit maxDepth []) [] (String.ofList body)).1
  | none =>
    let name := String.ofList (localName ctx.identifier expr)
    match (expandName ctx.table ctx.limit maxDepth [] [] name).1 with
    | some r => r
    | none => ⟨String.ofList expr, false⟩

end Telemetry.Template
