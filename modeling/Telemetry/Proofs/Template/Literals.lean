import Telemetry.Proofs.Source.Literals
import Telemetry.Proofs.Template.Soundness
import Telemetry.Proofs.Text.Bytes

/-!
Which expressions are resolved as literals, and which of them are literals. Resolution asks for a
quote at either end, and no more.

* `resolve_quoted` — a text between quotes is resolved as it stands if no dollar sign is in it,
  broken or not.
* `exists_bound_of_resolved` — an expression that is resolved without quotes is a known name.
* `resolve_resolved_literal` — so an expression that is resolved is a known name or one literal,
  unless it is a broken text between quotes, like a sum of two literals.
-/

namespace Telemetry.Template

open Telemetry.Text Telemetry.Source

section Literals

variable {ctx : Context} {expr : String} {body : List Char}

/-- The literal with a body. -/
def quoted (body : List Char) : List Char :=
  '"' :: (body ++ ['"'])

theorem encode_quoted (body : List Char) :
    encode (quoted body) = byte '"' :: (encode body ++ [byte '"']) := by
  rw [quoted, encode_cons_of_ascii (by decide), encode_append, encode_cons_of_ascii (by decide),
    encode_nil]

theorem isLiteral_quoted_iff :
    IsLiteral (encode (quoted body)) ↔ isUnbroken (encode body) = true := by
  rw [isLiteral_iff, encode_quoted]
  constructor
  · rintro ⟨body', heq, hbody'⟩
    obtain rfl : encode body = body' := List.append_cancel_right (List.cons.inj heq).2
    exact hbody'
  · intro hbody
    exact ⟨encode body, rfl, hbody⟩

theorem trim_quoted (body : List Char) : trim (quoted body) = quoted body := by
  refine trim_eq_iff.mpr ⟨⟨[], [], by simp, by simp, by simp⟩, ?_, ?_⟩
  · intro c hc
    rw [quoted, List.head?_cons] at hc
    cases hc
    rfl
  · intro c hc
    rw [quoted, ← List.cons_append, List.getLast?_concat] at hc
    cases hc
    rfl

/-- A body without a dollar sign is taken over character by character. -/
theorem foldl_add_of_plain (limit : Nat) (expand : Cache → String → Outcome) (p : Progress)
    (h : '$' ∉ body) : (piecesOf body).foldl (Progress.add limit expand) p =
      { p with value := p.value ++ String.ofList body } := by
  refine foldl_pieces_induction (f := Progress.add limit expand)
    (motive := fun cs p q => '$' ∉ cs → q = { p with value := p.value ++ String.ofList cs })
    ?_ ?_ ?_ body p h
  · intro p _
    simp
  · intro c cs p q _ ih h
    have hvalue : p.value.push c ++ String.ofList cs = p.value ++ String.ofList (c :: cs) :=
      String.toList_injective (by simp)
    rw [ih (List.not_mem_of_not_mem_cons h)]
    simp only [Progress.add, hvalue]
  · intro cs inside rest written p q htoken _ _ h
    -- a token starts with the dollar sign that the body does not have
    cases htoken <;> simp at h

theorem resolve_quoted (ctx : Context) (h : '$' ∉ body) :
    resolve ctx (String.ofList (quoted body)) = ⟨String.ofList body, true⟩ := by
  have hunquote : unquote? (quoted body) = some body := unquote?_eq_some_iff.mpr rfl
  simp only [resolve, String.toList_ofList, trim_quoted, hunquote, expandBody, pieces]
  rw [foldl_add_of_plain _ _ _ h]
  simp

theorem exists_bound_of_resolved (hquoted : unquote? (trim expr.toList) = none)
    (h : (resolve ctx expr).resolved = true) :
    ∃ bound, ctx.table.get? (String.ofList (localName ctx.identifier (trim expr.toList))) =
      some bound := by
  simp only [resolve, hquoted] at h
  rcases expandName_cases ctx.table ctx.limit maxDepth [] []
      (String.ofList (localName ctx.identifier (trim expr.toList))) with
    ⟨r, hlookup, -⟩ | ⟨-, -, hout⟩ | ⟨_, bound, -, -, -, hbound, -⟩
  · cases hlookup
  · rw [hout] at h
    cases h
  · exact ⟨bound, hbound⟩

end Literals

/-- **What is resolved is a known name, one literal, or a broken text between quotes.** A broken
text is no literal, and resolution does not tell it from one: any text between quotes that has no
dollar sign in it is resolved to itself. -/
theorem resolve_resolved_literal (ctx : Context) :
    (∀ expr, (resolve ctx expr).resolved = true →
      (∃ bound, ctx.table.get? (String.ofList (localName ctx.identifier (trim expr.toList))) =
        some bound) ∨
      IsLiteral (encode (trim expr.toList)) ∨
      ∃ body, trim expr.toList = quoted body ∧ isUnbroken (encode body) = false) ∧
    ∀ body, (IsLiteral (encode (quoted body)) ↔ isUnbroken (encode body) = true) ∧
      ('$' ∉ body → resolve ctx (String.ofList (quoted body)) = ⟨String.ofList body, true⟩) := by
  refine ⟨?_, fun body => ⟨isLiteral_quoted_iff, resolve_quoted ctx⟩⟩
  intro expr hresolved
  cases hquoted : unquote? (trim expr.toList) with
  | none => exact Or.inl (exists_bound_of_resolved hquoted hresolved)
  | some body =>
    have hexpr : trim expr.toList = quoted body := unquote?_eq_some_iff.mp hquoted
    rw [hexpr]
    cases hbroken : isUnbroken (encode body) with
    | true => exact Or.inr (Or.inl (isLiteral_quoted_iff.mpr hbroken))
    | false => exact Or.inr (Or.inr ⟨body, rfl, hbroken⟩)

/-- A literal with quotes of its own, and a sum of two literals and a name that is none. -/
theorem resolve_resolved_literal_sum :
    IsLiteral (encode (trim " \"say \\\"hi\\\"\" ".toList)) ∧
    (resolve ⟨⟨[]⟩, "", 4096⟩ "\"orders.\" + region + \".hits\"").resolved = true ∧
    ¬ IsLiteral (encode "\"orders.\" + region + \".hits\"".toList) := by
  obtain ⟨hsound, hquoted⟩ := resolve_resolved_literal ⟨⟨[]⟩, "", 4096⟩
  have hflag : (resolve ⟨⟨[]⟩, "", 4096⟩ " \"say \\\"hi\\\"\" ").resolved = true := by
    decide +kernel
  obtain ⟨hliteral, hsum⟩ := hquoted "orders.\" + region + \".hits".toList
  refine ⟨?_, congrArg Resolution.resolved (hsum (by decide +kernel)), ?_⟩
  · rcases hsound _ hflag with ⟨bound, hbound⟩ | hliteral | ⟨body, hexpr, hbroken⟩
    · cases hbound
    · exact hliteral
    · have htrim : trim " \"say \\\"hi\\\"\" ".toList = quoted "say \\\"hi\\\"".toList := by
        decide +kernel
      obtain rfl : body = "say \\\"hi\\\"".toList :=
        List.append_cancel_right (List.cons.inj (hexpr.symm.trans htrim)).2
      exact absurd hbroken (by decide +kernel)
  · intro h
    exact absurd (hliteral.mp h) (by decide +kernel)

end Telemetry.Template
