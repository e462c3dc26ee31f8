import Mathlib.Logic.Relation
import Telemetry.Proofs.Template.Tokens
import Telemetry.Symbol.Table

/-!
Complete expansion of templates, as a relation.

`Expands table cs v` says that `v` is the body `cs` with every token replaced by the complete
expansion of the value of the symbol that it names. It has no derivation for a body that reaches an
unbound symbol, a token that names none, or a cycle of references: this is what it means that
nothing in a value was left open.

* `Expands.unique` — a body has at most one complete expansion.
* `Expands.closed_of_reaches` — every token reached from an expanded body names a bound symbol.
* `Expands.acyclic_of_reaches` — no body reached from an expanded body reaches itself again.
-/

namespace Telemetry.Template

open Telemetry.Text Relation

/-- `v` is the body `cs` with every token replaced by the complete expansion of the value of the
symbol that it names. -/
inductive Expands (table : Symbol.Table) : List Char → List Char → Prop where
  | nil : Expands table [] []
  | plain {c : Char} {cs v : List Char} (hplain : ∀ inside rest, ¬ Token (c :: cs) inside rest)
      (hrest : Expands table cs v) : Expands table (c :: cs) (c :: v)
  | token {cs inside rest inner v : List Char} {bound : String} (htoken : Token cs inside rest)
      (hname : isIdentifier (trim inside) = true)
      (hbound : table.get? (String.ofList (trim inside)) = some bound)
      (hinner : Expands table bound.toList inner) (hrest : Expands table rest v) :
      Expands table cs (inner ++ v)

/-- A token with the text `inside` occurs in a body, read from left to right. -/
inductive HasToken : List Char → List Char → Prop where
  | here {cs inside rest : List Char} (htoken : Token cs inside rest) : HasToken cs inside
  | afterPlain {c : Char} {cs inside : List Char}
      (hplain : ∀ inside rest, ¬ Token (c :: cs) inside rest) (hrest : HasToken cs inside) :
      HasToken (c :: cs) inside
  | afterToken {cs inside rest inside' : List Char} (htoken : Token cs inside' rest)
      (hrest : HasToken rest inside) : HasToken cs inside

/-- A body refers to the value of a symbol that one of its tokens names. -/
def Refers (table : Symbol.Table) (cs ds : List Char) : Prop :=
  ∃ inside bound, HasToken cs inside ∧ isIdentifier (trim inside) = true ∧
    table.get? (String.ofList (trim inside)) = some bound ∧ ds = bound.toList

section Expansion

variable {table : Symbol.Table} {cs ds v w : List Char}

/-- A body has at most one complete expansion. -/
theorem Expands.unique (h : Expands table cs v) (h' : Expands table cs w) : v = w := by
  induction h generalizing w with
  | nil =>
    cases h' with
    | nil => rfl
    | token htoken => cases htoken
  | plain hplain hrest ih =>
    cases h' with
    | plain _ hrest' => rw [ih hrest']
    | token htoken => exact absurd htoken (hplain _ _)
  | token htoken hname hbound hinner hrest ihInner ihRest =>
    cases h' with
    | nil => cases htoken
    | plain hplain => exact absurd htoken (hplain _ _)
    | token htoken' hname' hbound' hinner' hrest' =>
      obtain ⟨rfl, rfl⟩ := htoken.unique htoken'
      rw [hbound] at hbound'
      cases hbound'
      rw [ihInner hinner', ihRest hrest']

/-- Every token of an expanded body names a bound symbol whose value is expanded in its turn. -/
theorem Expands.of_hasToken {inside : List Char} (h : Expands table cs v)
    (htoken : HasToken cs inside) :
    isIdentifier (trim inside) = true ∧
      ∃ bound inner, table.get? (String.ofList (trim inside)) = some bound ∧
        Expands table bound.toList inner := by
  induction htoken generalizing v with
  | here htoken =>
    cases h with
    | nil => cases htoken
    | plain hplain => exact absurd htoken (hplain _ _)
    | token htoken' hname hbound hinner =>
      obtain ⟨rfl, -⟩ := htoken'.unique htoken
      exact ⟨hname, _, _, hbound, hinner⟩
  | afterPlain hplain _ ih =>
    cases h with
    | plain _ hrest => exact ih hrest
    | token htoken => exact absurd htoken (hplain _ _)
  | afterToken htoken _ ih =>
    cases h with
    | nil => cases htoken
    | plain hplain => exact absurd htoken (hplain _ _)
    | token htoken' _ _ _ hrest =>
      obtain ⟨-, rfl⟩ := htoken'.unique htoken
      exact ih hrest

theorem Expands.of_reaches (h : Expands table cs v) (hreach : ReflTransGen (Refers table) cs ds) :
    ∃ w, Expands table ds w := by
  induction hreach with
  | refl => exact ⟨v, h⟩
  | tail _ hrefers ih =>
    obtain ⟨w, hw⟩ := ih
    obtain ⟨inside, bound, htoken, -, hbound, rfl⟩ := hrefers
    obtain ⟨-, bound', inner, hbound', hinner⟩ := hw.of_hasToken htoken
    rw [hbound] at hbound'
    cases hbound'
    exact ⟨inner, hinner⟩

/-- **No open token is reached from an expanded body.** -/
theorem Expands.closed_of_reaches (h : Expands table cs v)
    (hreach : ReflTransGen (Refers table) cs ds) {inside : List Char}
    (htoken : HasToken ds inside) :
    isIdentifier (trim inside) = true ∧
      (table.get? (String.ofList (trim inside))).isSome = true := by
  obtain ⟨w, hw⟩ := h.of_reaches hreach
  obtain ⟨hname, bound, -, hbound, -⟩ := hw.of_hasToken htoken
  exact ⟨hname, by rw [hbound]; rfl⟩

/-- The references from an expanded body are well founded. -/
theorem Expands.acc (h : Expands table cs v) : Acc (fun ds cs => Refers table cs ds) cs := by
  -- Over the derivation, every value that a token of the body names is accessible.
  have hvalues : ∀ {inside : List Char} {bound : String}, HasToken cs inside →
      table.get? (String.ofList (trim inside)) = some bound →
      Acc (fun ds cs => Refers table cs ds) bound.toList := by
    induction h with
    | nil =>
      intro inside bound htoken _
      cases htoken with
      | here htoken => cases htoken
      | afterToken htoken => cases htoken
    | plain hplain _ ih =>
      intro inside bound htoken hbound
      cases htoken with
      | here htoken => exact absurd htoken (hplain _ _)
      | afterPlain _ hrest => exact ih hrest hbound
      | afterToken htoken => exact absurd htoken (hplain _ _)
    | token htoken _ hbound _ _ ihInner ihRest =>
      intro inside bound htoken' hbound'
      cases htoken' with
      | here htoken' =>
        obtain ⟨rfl, -⟩ := htoken.unique htoken'
        rw [hbound] at hbound'
        cases hbound'
        refine Acc.intro _ ?_
        rintro ds ⟨inside, bound, hinside, -, hget, rfl⟩
        exact ihInner hinside hget
      | afterPlain hplain => exact absurd htoken (hplain _ _)
      | afterToken htoken' hrest =>
        obtain ⟨-, rfl⟩ := htoken.unique htoken'
        exact ihRest hrest hbound'
  refine Acc.intro _ ?_
  rintro ds ⟨inside, bound, hinside, -, hget, rfl⟩
  exact hvalues hinside hget

/-- **No cycle of references is reached from an expanded body.** -/
theorem Expands.acyclic_of_reaches (h : Expands table cs v)
    (hreach : ReflTransGen (Refers table) cs ds) : ¬ TransGen (Refers table) ds ds := by
  obtain ⟨w, hw⟩ := h.of_reaches hreach
  have hacc := hw.acc.transGen
  intro hcycle
  induction hacc with
  | intro ds _ ih =>
    have hcycle' : TransGen (fun ds cs => Refers table cs ds) ds ds := transGen_swap.mp hcycle
    exact ih ds hcycle' hreach hw hcycle

end Expansion

end Telemetry.Template
