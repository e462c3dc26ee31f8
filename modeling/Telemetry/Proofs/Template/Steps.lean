import Telemetry.Proofs.Template.Tokens
import Telemetry.Template.Resolution

/-!
What one step of a resolution can do.

* `expandName_cases` — a symbol is served from the cache, refused, or expanded; the guards of the
  three ways are stated with them.
* `add_symbol_cases` — a token that names a symbol is kept as written or replaced, with the guards.
* `foldl_pieces_induction` — what holds before a body is read, and is kept by every plain
  character and every token, holds after it.
-/

namespace Telemetry.Template

open Telemetry.Text

/-- **The three ways of a symbol.** -/
theorem expandName_cases (table : Symbol.Table) (limit room : Nat) (chain : List String)
    (cache : Cache) (name : String) :
    (∃ r, cache.lookup name = some r ∧
      expandName table limit room chain cache name = (some r, cache)) ∨
    (cache.lookup name = none ∧ (room = 0 ∨ name ∈ chain ∨ table.get? name = none) ∧
      expandName table limit room chain cache name = (none, cache)) ∨
    ∃ left bound, room = left + 1 ∧ cache.lookup name = none ∧ name ∉ chain ∧
      table.get? name = some bound ∧
      expandName table limit room chain cache name =
        (some (expandBody limit (expandName table limit left (name :: chain)) cache bound).1,
          (name, (expandBody limit (expandName table limit left (name :: chain)) cache bound).1) ::
            (expandBody limit (expandName table limit left (name :: chain)) cache bound).2) := by
  unfold expandName
  cases hlookup : cache.lookup name with
  | some r => exact Or.inl ⟨r, rfl, rfl⟩
  | none =>
    refine Or.inr ?_
    cases room with
    | zero => exact Or.inl ⟨rfl, Or.inl rfl, rfl⟩
    | succ room =>
      by_cases hchain : name ∈ chain
      · exact Or.inl ⟨rfl, Or.inr (Or.inl hchain), by simp [hchain]⟩
      · cases hbound : table.get? name with
        | none => exact Or.inl ⟨rfl, Or.inr (Or.inr rfl), by simp [hchain]⟩
        | some bound =>
          exact Or.inr ⟨room, bound, rfl, rfl, hchain, rfl, by simp [hchain]⟩

/-- A bound symbol that is neither remembered nor under expansion is expanded, if there is room. -/
theorem expandName_of_new {table : Symbol.Table} (limit left : Nat) {chain : List String}
    {cache : Cache} {name bound : String} (hnew : cache.lookup name = none) (hchain : name ∉ chain)
    (hbound : table.get? name = some bound) :
    expandName table limit (left + 1) chain cache name =
      (some (expandBody limit (expandName table limit left (name :: chain)) cache bound).1,
        (name, (expandBody limit (expandName table limit left (name :: chain)) cache bound).1) ::
          (expandBody limit (expandName table limit left (name :: chain)) cache bound).2) := by
  rcases expandName_cases table limit (left + 1) chain cache name with
    ⟨r, hlookup, -⟩ | ⟨-, hrefused, -⟩ | ⟨left', bound', hleft, -, -, hbound', hout⟩
  · rw [hnew] at hlookup
    cases hlookup
  · simp [hchain, hbound] at hrefused
  · obtain rfl := Nat.succ.inj hleft
    obtain rfl := Option.some.inj (hbound.symm.trans hbound')
    exact hout

/-- **The three ways of a token that names a symbol**: the value has reached the limit and the
symbol is not expanded, or the symbol has no expansion or one that does not fit, or its expansion
is added. -/
theorem add_symbol_cases (limit : Nat) (expand : Cache → String → Outcome) (p : Progress)
    (written name : String) :
    (limit ≤ p.value.utf8ByteSize ∧
      p.add limit expand (.token written (some name)) = p.keep written) ∨
    (p.value.utf8ByteSize < limit ∧
      (∀ inner ∈ (expand p.cache name).1,
        limit < p.value.utf8ByteSize + inner.value.utf8ByteSize) ∧
      p.add limit expand (.token written (some name)) =
        Progress.keep { p with cache := (expand p.cache name).2 } written) ∨
    ∃ inner ∈ (expand p.cache name).1, p.value.utf8ByteSize < limit ∧
      p.value.utf8ByteSize + inner.value.utf8ByteSize ≤ limit ∧
      p.add limit expand (.token written (some name)) =
        ⟨p.value ++ inner.value, p.resolved && inner.resolved, (expand p.cache name).2⟩ := by
  simp only [Progress.add]
  by_cases hfull : limit ≤ p.value.utf8ByteSize
  · exact Or.inl ⟨hfull, by simp [hfull]⟩
  · refine Or.inr ?_
    have hroom : p.value.utf8ByteSize < limit := Nat.lt_of_not_le hfull
    rcases hout : expand p.cache name with ⟨found, cache⟩
    cases found with
    | none => exact Or.inl ⟨hroom, by simp, by simp [hfull]⟩
    | some inner =>
      by_cases hfits : p.value.utf8ByteSize + inner.value.utf8ByteSize ≤ limit
      · exact Or.inr ⟨inner, rfl, hroom, hfits, by simp [hfull, hfits]⟩
      · refine Or.inl ⟨hroom, ?_, by simp [hfull, hfits]⟩
        rintro _ ⟨⟩
        exact Nat.lt_of_not_le hfits

/-- **Reading a body piece by piece.** A relation between the rest of a body, the state before and
the state after it holds of every body if it holds of the empty one and is kept by a plain
character and by a token put in front. -/
theorem foldl_pieces_induction {f : Progress → Piece → Progress}
    {motive : List Char → Progress → Progress → Prop} (hnil : ∀ p, motive [] p p)
    (hplain : ∀ c cs p q, (∀ inside rest, ¬ Token (c :: cs) inside rest) →
      motive cs (f p (.plain c)) q → motive (c :: cs) p q)
    (htoken : ∀ cs inside rest written p q, Token cs inside rest →
      cs = written.toList ++ rest →
      motive rest (f p (.token written (bracedName? inside))) q → motive cs p q)
    (cs : List Char) (p : Progress) : motive cs p ((piecesOf cs).foldl f p) := by
  -- A token is read in one step however long it is, so the induction is on the length.
  induction hlen : cs.length using Nat.strongRecOn generalizing cs p with
  | _ n ih =>
  subst hlen
  by_cases hfront : ∃ inside rest, Token cs inside rest
  · obtain ⟨inside, rest, hfront⟩ := hfront
    obtain ⟨written, hpieces, hwritten⟩ := pieces_of_token hfront
    rw [hpieces, List.foldl_cons]
    exact htoken cs inside rest written p _ hfront hwritten
      (ih rest.length hfront.length_lt rest _ rfl)
  · cases cs with
    | nil => exact hnil p
    | cons c cs =>
      have hnone : ∀ inside rest, ¬ Token (c :: cs) inside rest :=
        fun inside rest h => hfront ⟨inside, rest, h⟩
      rw [pieces_of_plain hnone, List.foldl_cons]
      exact hplain c cs p _ hnone (ih cs.length (by simp) cs _ rfl)

end Telemetry.Template
