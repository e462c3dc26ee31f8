import Telemetry.Proofs.Text.Reading
import Telemetry.Template.Piece

/-!
The grammar of template tokens, and the pieces as its reading.

`Token cs inside rest` says that a token stands in front of `cs`, with the text `inside` in it and
the text `rest` behind it: either `$name`, the name being as long as can be, or braces around any
text without a closing brace.

* `Token.unique` — at most one token stands at a place.
* `pieces_of_token`, `pieces_of_plain` — the pieces of a body follow the grammar: a token where one
  stands, else a plain character.
-/

namespace Telemetry.Template

open Telemetry.Text

/-- A token in front of a text: the text inside it and the text behind it. -/
inductive Token : List Char → List Char → List Char → Prop where
  /-- Braces around a text that holds no closing brace. -/
  | braced {inside rest : List Char} (h : '\x7d' ∉ inside) :
      Token ('$' :: '\x7b' :: (inside ++ '\x7d' :: rest)) inside rest
  /-- A name that no further character extends. -/
  | bare {name rest : List Char} (hname : isIdentifier name = true)
      (hstop : ∀ c ∈ rest.head?, isIdentifierPart c = false) :
      Token ('$' :: (name ++ rest)) name rest

theorem isIdentifier_ne_brace {name rest cs : List Char} (hname : isIdentifier name = true) :
    name ++ rest ≠ '\x7b' :: cs := by
  intro h
  cases name with
  | nil => simp [isIdentifier] at hname
  | cons c name =>
    rw [List.cons_append, List.cons.injEq] at h
    rw [h.1] at hname
    exact absurd (isIdentifier_cons.mp hname).1 (by decide)

/-- At most one token stands at a place. -/
theorem Token.unique {cs inside rest inside' rest' : List Char} (h : Token cs inside rest)
    (h' : Token cs inside' rest') : inside = inside' ∧ rest = rest' := by
  -- The character behind the dollar sign decides which of the two forms it is.
  generalize hcs : cs = ds at h'
  cases h with
  | braced hinside =>
    cases h' with
    | braced hinside' =>
      have hrun : ∀ {xs : List Char}, '\x7d' ∉ xs → ∀ c ∈ xs, (c != '\x7d') = true :=
        fun hxs c hc => bne_iff_ne.mpr (ne_of_mem_of_not_mem hc hxs)
      have htail := (List.cons.inj (List.cons.inj hcs).2).2
      obtain ⟨hin, hout⟩ := run_unique (hrun hinside) (by simp) (hrun hinside') (by simp) htail
      exact ⟨hin, (List.cons.inj hout).2⟩
    | bare hname' hstop' =>
      exact absurd (List.cons.inj hcs).2.symm (isIdentifier_ne_brace hname')
  | bare hname hstop =>
    cases h' with
    | braced hinside' =>
      exact absurd (List.cons.inj hcs).2 (isIdentifier_ne_brace hname)
    | bare hname' hstop' =>
      exact run_unique (fun c hc => isIdentifierPart_of_mem hname hc) hstop
        (fun c hc => isIdentifierPart_of_mem hname' hc) hstop' (List.cons.inj hcs).2

/-- The text behind a token is shorter. -/
theorem Token.length_lt {cs inside rest : List Char} (h : Token cs inside rest) :
    rest.length < cs.length := by
  cases h with
  | braced hinside => simp only [List.length_cons, List.length_append]; omega
  | bare hname hstop => simp only [List.length_cons, List.length_append]; omega

/-! ### The reader of tokens -/

/-- The reader finds every token as it is written, and it names what stands trimmed inside, if that
is an identifier. -/
theorem token?_of_token {cs inside rest : List Char} (h : Token cs inside rest) :
    ∃ written length, token? cs = some (.token written (bracedName? inside), length + 1) ∧
      cs.drop (length + 1) = rest ∧ cs = written.toList ++ rest := by
  cases h with
  | braced hinside =>
    have hrun : ∀ c ∈ inside, (c != '\x7d') = true :=
      fun c hc => bne_iff_ne.mpr (ne_of_mem_of_not_mem hc hinside)
    have hstop : ∀ c ∈ ('\x7d' :: rest).head?, (c != '\x7d') = false := by simp
    refine ⟨String.ofList ('$' :: '\x7b' :: inside ++ ['\x7d']), inside.length + 2, ?_, by simp,
      by simp⟩
    simp only [token?, takeWhile_append_stop hrun hstop, dropWhile_append_stop hrun hstop]
  | bare hname hstop =>
    have hread := identifier?_eq_some_iff.mpr ⟨rfl, hname, hstop⟩
    refine ⟨String.ofList ('$' :: inside), inside.length, ?_, by simp, by simp⟩
    rw [token?.eq_2 _ (fun _ => isIdentifier_ne_brace hname), hread]
    simp [bracedName?, trim_of_isIdentifier hname, hname]

/-- What the reader finds is a token. -/
theorem token_of_token? {cs : List Char} {found : Piece × Nat} (h : token? cs = some found) :
    ∃ inside rest, Token cs inside rest := by
  unfold token? at h
  split at h
  · rename_i cs
    split at h
    · rename_i c rest hdrop
      have hbrace : c = '\x7d' := by
        have hc : c ∈ (cs.dropWhile (· != '\x7d')).head? := by rw [hdrop]; rfl
        simpa using head?_dropWhile_eq_false hc
      subst hbrace
      have hsplit : cs.takeWhile (· != '\x7d') ++ '\x7d' :: rest = cs := by
        rw [← hdrop]
        exact List.takeWhile_append_dropWhile
      refine ⟨cs.takeWhile (· != '\x7d'), rest, ?_⟩
      have hnot : '\x7d' ∉ cs.takeWhile (· != '\x7d') := fun hmem => by
        simpa using List.mem_takeWhile_imp hmem
      have htoken : Token ('$' :: '\x7b' :: (cs.takeWhile (· != '\x7d') ++ '\x7d' :: rest))
          (cs.takeWhile (· != '\x7d')) rest := .braced hnot
      rwa [hsplit] at htoken
    · cases h
  · rename_i cs _
    obtain ⟨⟨name, rest⟩, hread, -⟩ := Option.map_eq_some_iff.mp h
    obtain ⟨rfl, hname, hstop⟩ := identifier?_eq_some_iff.mp hread
    exact ⟨name, rest, .bare hname hstop⟩
  · cases h

/-! ### The pieces of a body -/

/-- The pieces of a body given by its characters. -/
abbrev piecesOf (cs : List Char) : List Piece :=
  piecesAfter 0 cs

theorem piecesAfter_eq_piecesOf_drop (skip : Nat) (cs : List Char) :
    piecesAfter skip cs = piecesOf (cs.drop skip) := by
  induction skip generalizing cs with
  | zero => rfl
  | succ skip ih =>
    cases cs with
    | nil => simp [piecesOf, piecesAfter]
    | cons c cs => simpa [piecesAfter] using ih cs

/-- Where a token stands, the pieces start with it and go on behind it. -/
theorem pieces_of_token {cs inside rest : List Char} (h : Token cs inside rest) :
    ∃ written, piecesOf cs = .token written (bracedName? inside) :: piecesOf rest ∧
      cs = written.toList ++ rest := by
  obtain ⟨written, length, hread, hdrop, hwritten⟩ := token?_of_token h
  cases cs with
  | nil => cases h
  | cons c cs =>
    refine ⟨written, ?_, hwritten⟩
    simp only [piecesOf, piecesAfter, hread, Nat.add_sub_cancel]
    rw [piecesAfter_eq_piecesOf_drop]
    simpa using congrArg piecesOf hdrop

/-- Where no token stands, the pieces start with a plain character. -/
theorem pieces_of_plain {c : Char} {cs : List Char}
    (h : ∀ inside rest, ¬ Token (c :: cs) inside rest) :
    piecesOf (c :: cs) = .plain c :: piecesOf cs := by
  have hread : token? (c :: cs) = none := by
    cases hfound : token? (c :: cs) with
    | none => rfl
    | some found =>
      obtain ⟨inside, rest, htoken⟩ := token_of_token? hfound
      exact absurd htoken (h inside rest)
  simp only [piecesOf, piecesAfter, hread]

end Telemetry.Template
