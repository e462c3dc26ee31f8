import Telemetry.Proofs.Template.Expansion
import Telemetry.Proofs.Template.Steps

/-!
Soundness of resolution with a cache: a value that is flagged resolved is the complete expansion of
the template that the expression stands for.

The flag is cleared wherever a token is kept, and the cache holds results that were cut short
beside complete ones. The invariant `Cache.Sound` says of each entry that it is complete if it is
flagged so, and `SymbolSound` says of an expander of symbols that it keeps the invariant and that
what it returns meets it. `expandBody_sound` carries both through a body, piece by piece, and
`expandName_sound` through the nested expansions, by induction on the depth that is left.
-/

namespace Telemetry.Template

open Telemetry.Text Relation

/-- A resolution of a symbol that is flagged resolved is the complete expansion of its value. -/
def Resolution.SoundFor (table : Symbol.Table) (name : String) (r : Resolution) : Prop :=
  r.resolved = true →
    ∃ bound, table.get? name = some bound ∧ Expands table bound.toList r.value.toList

/-- Every entry of a cache is sound. -/
def Cache.Sound (table : Symbol.Table) (cache : Cache) : Prop :=
  ∀ name r, cache.lookup name = some r → r.SoundFor table name

/-- An expander of symbols keeps the cache sound and returns sound resolutions. -/
def SymbolSound (table : Symbol.Table) (expand : Cache → String → Outcome) : Prop :=
  ∀ cache name, Cache.Sound table cache →
    Cache.Sound table (expand cache name).2 ∧
      ∀ r ∈ (expand cache name).1, r.SoundFor table name

section Soundness

variable {table : Symbol.Table} {expand : Cache → String → Outcome}

theorem Cache.sound_nil : Cache.Sound table [] := by
  intro name r h
  cases h

theorem Cache.Sound.cons {cache : Cache} {name : String} {r : Resolution}
    (h : Cache.Sound table cache) (hr : r.SoundFor table name) :
    Cache.Sound table ((name, r) :: cache) := by
  intro name' r' hlookup
  rw [List.lookup_cons] at hlookup
  split at hlookup
  · rename_i heq
    cases hlookup
    rw [beq_iff_eq.mp heq]
    exact hr
  · exact h name' r' hlookup

/-! ### One body -/

/-- The state of an expansion that has read a body: if the flag stands, it stood before, and the
value has grown by the complete expansion of the body. -/
def Progress.Extends (table : Symbol.Table) (cs : List Char) (p q : Progress) : Prop :=
  q.resolved = true →
    p.resolved = true ∧ ∃ v, Expands table cs v ∧ q.value.toList = p.value.toList ++ v

/-- A token, once read, leaves the cache sound; and if the flag still stands, it named a bound
symbol whose complete expansion was added. -/
theorem add_token_sound (limit : Nat) (hexpand : SymbolSound table expand) {p : Progress}
    (hp : Cache.Sound table p.cache) (written : String) (name : Option String) :
    Cache.Sound table (p.add limit expand (.token written name)).cache ∧
      ((p.add limit expand (.token written name)).resolved = true →
        p.resolved = true ∧ ∃ symbol bound inner, name = some symbol ∧
          table.get? symbol = some bound ∧ Expands table bound.toList inner ∧
          (p.add limit expand (.token written name)).value.toList = p.value.toList ++ inner) := by
  cases name with
  | none => exact ⟨hp, fun hflag => Bool.noConfusion hflag⟩
  | some symbol =>
    obtain ⟨hcache, hresult⟩ := hexpand p.cache symbol hp
    rcases add_symbol_cases limit expand p written symbol with
      ⟨-, hadd⟩ | ⟨-, -, hadd⟩ | ⟨inner, hinner, -, -, hadd⟩
    · rw [hadd]
      exact ⟨hp, fun hflag => Bool.noConfusion hflag⟩
    · rw [hadd]
      exact ⟨hcache, fun hflag => Bool.noConfusion hflag⟩
    · rw [hadd]
      refine ⟨hcache, fun hflag => ?_⟩
      obtain ⟨hbefore, hflag⟩ := Bool.and_eq_true_iff.mp hflag
      obtain ⟨bound, hbound, hexpands⟩ := hresult inner hinner hflag
      exact ⟨hbefore, symbol, bound, inner.value.toList, rfl, hbound, hexpands,
        String.toList_append⟩

/-- **Reading a body keeps the invariant**, from any state. -/
theorem foldl_add_sound (limit : Nat) (hexpand : SymbolSound table expand) (cs : List Char)
    (p : Progress) (hp : Cache.Sound table p.cache) :
    Cache.Sound table ((piecesOf cs).foldl (Progress.add limit expand) p).cache ∧
      Progress.Extends table cs p ((piecesOf cs).foldl (Progress.add limit expand) p) := by
  refine foldl_pieces_induction (f := Progress.add limit expand)
    (motive := fun cs p q => Cache.Sound table p.cache →
      Cache.Sound table q.cache ∧ Progress.Extends table cs p q) ?_ ?_ ?_ cs p hp
  · intro p hp
    exact ⟨hp, fun hflag => ⟨hflag, [], .nil, by simp⟩⟩
  · intro c cs p q hplain ih hp
    obtain ⟨hfinal, hextends⟩ := ih hp
    refine ⟨hfinal, fun hflag => ?_⟩
    obtain ⟨hbefore, v, hv, hvalue⟩ := hextends hflag
    refine ⟨hbefore, c :: v, .plain hplain hv, ?_⟩
    rw [hvalue]
    simp [Progress.add]
  · intro cs inside rest written p q htoken _ ih hp
    obtain ⟨hcache, hadd⟩ :=
      add_token_sound limit hexpand hp written (bracedName? inside)
    obtain ⟨hfinal, hextends⟩ := ih hcache
    refine ⟨hfinal, fun hflag => ?_⟩
    obtain ⟨hmiddle, v, hv, hvalue⟩ := hextends hflag
    obtain ⟨hbefore, symbol, bound, inner, hname, hbound, hinner, hgrown⟩ := hadd hmiddle
    obtain ⟨hidentifier, rfl⟩ : isIdentifier (trim inside) = true ∧
        String.ofList (trim inside) = symbol := by
      simpa [bracedName?] using hname
    refine ⟨hbefore, inner ++ v, .token htoken hidentifier hbound hinner hv, ?_⟩
    rw [hvalue, hgrown, List.append_assoc]

theorem expandBody_sound (limit : Nat) (hexpand : SymbolSound table expand) {cache : Cache}
    (hcache : Cache.Sound table cache) (body : String) :
    Cache.Sound table (expandBody limit expand cache body).2 ∧
      ((expandBody limit expand cache body).1.resolved = true →
        Expands table body.toList (expandBody limit expand cache body).1.value.toList) := by
  obtain ⟨hfinal, hextends⟩ :=
    foldl_add_sound limit hexpand body.toList ⟨"", true, cache⟩ hcache
  refine ⟨hfinal, fun hflag => ?_⟩
  obtain ⟨-, v, hv, hvalue⟩ := hextends hflag
  change (expandBody limit expand cache body).1.value.toList = "".toList ++ v at hvalue
  rw [hvalue]
  exact hv

/-! ### Nested expansions -/

/-- **The expander of symbols is sound** at every depth and inside every chain. -/
theorem expandName_sound (table : Symbol.Table) (limit room : Nat) (chain : List String) :
    SymbolSound table (expandName table limit room chain) := by
  induction room using Nat.strongRecOn generalizing chain with
  | _ room ih =>
  intro cache name hcache
  rcases expandName_cases table limit room chain cache name with
    ⟨r, hlookup, hout⟩ | ⟨-, -, hout⟩ | ⟨left, bound, rfl, -, -, hbound, hout⟩
  · rw [hout]
    refine ⟨hcache, ?_⟩
    rintro _ ⟨⟩
    exact hcache name r hlookup
  · rw [hout]
    exact ⟨hcache, by rintro _ ⟨⟩⟩
  · rw [hout]
    obtain ⟨hbody, hresult⟩ :=
      expandBody_sound limit (ih left (by omega) (name :: chain)) hcache bound
    have hr : Resolution.SoundFor table name
        (expandBody limit (expandName table limit left (name :: chain)) cache bound).1 :=
      fun hflag => ⟨bound, hbound, hresult hflag⟩
    refine ⟨hbody.cons hr, ?_⟩
    rintro _ ⟨⟩
    exact hr

end Soundness

/-! ### Name expressions -/

theorem unquote?_eq_some_iff {cs body : List Char} :
    unquote? cs = some body ↔ cs = '"' :: (body ++ ['"']) := by
  constructor
  · intro h
    unfold unquote? at h
    split at h
    · rename_i rest
      split at h
      · rename_i hlast
        cases h
        obtain ⟨body, rfl⟩ := List.getLast?_eq_some_iff.mp hlast
        rw [List.dropLast_concat]
      · cases h
    · cases h
  · rintro rfl
    simp [unquote?]

/-- **A value flagged resolved is the complete expansion of its template.** The template is the
text between the quotes of the expression, or the value of the symbol that it names. It has this
expansion and no other; every token reached from it names a bound symbol, and no cycle of
references is reached from it. -/
theorem resolve_resolved_expands {ctx : Context} {expr : String}
    (h : (resolve ctx expr).resolved = true) :
    ∃ body : List Char,
      (trim expr.toList = '"' :: (body ++ ['"']) ∨
        ∃ bound, ctx.table.get? (String.ofList (localName ctx.identifier (trim expr.toList))) =
          some bound ∧ body = bound.toList) ∧
      (∀ v, Expands ctx.table body v ↔ v = (resolve ctx expr).value.toList) ∧
      ∀ reached, ReflTransGen (Refers ctx.table) body reached →
        (∀ inside, HasToken reached inside → isIdentifier (trim inside) = true ∧
          (ctx.table.get? (String.ofList (trim inside))).isSome = true) ∧
        ¬ TransGen (Refers ctx.table) reached reached := by
  have hsymbols := expandName_sound ctx.table ctx.limit maxDepth []
  obtain ⟨body, hbody, hexpands⟩ : ∃ body : List Char,
      (trim expr.toList = '"' :: (body ++ ['"']) ∨
        ∃ bound, ctx.table.get? (String.ofList (localName ctx.identifier (trim expr.toList))) =
          some bound ∧ body = bound.toList) ∧
      Expands ctx.table body (resolve ctx expr).value.toList := by
    unfold resolve at h ⊢
    simp only at h ⊢
    cases hquoted : unquote? (trim expr.toList) with
    | some body =>
      simp only [hquoted] at h ⊢
      have hexpands :=
        (expandBody_sound ctx.limit hsymbols Cache.sound_nil (String.ofList body)).2 h
      rw [String.toList_ofList] at hexpands
      exact ⟨body, Or.inl (unquote?_eq_some_iff.mp hquoted), hexpands⟩
    | none =>
      simp only [hquoted] at h ⊢
      split at h
      · rename_i r hfound
        obtain ⟨bound, hbound, hexpands⟩ :=
          (hsymbols [] _ Cache.sound_nil).2 r hfound h
        exact ⟨bound.toList, Or.inr ⟨bound, hbound, rfl⟩, hexpands⟩
      · cases h
  refine ⟨body, hbody, fun v => ⟨fun hv => hv.unique hexpands, ?_⟩, ?_⟩
  · rintro rfl
    exact hexpands
  · intro reached hreach
    exact ⟨fun inside htoken => hexpands.closed_of_reaches hreach htoken,
      hexpands.acyclic_of_reaches hreach⟩

/-- A qualified name whose value is expanded twice from the cache, beside a symbol that refers to
itself and is not reached. -/
theorem resolve_resolved_expands_qualified :
    (resolve ⟨⟨[("a", "x"), ("b", "$a-$\x7b a \x7d"), ("c", "$c")]⟩, "Jobs", 4096⟩
      " Jobs.b ").resolved = true ∧
    ∃ body, Expands ⟨[("a", "x"), ("b", "$a-$\x7b a \x7d"), ("c", "$c")]⟩ body ['x', '-', 'x'] := by
  have hvalue : resolve ⟨⟨[("a", "x"), ("b", "$a-$\x7b a \x7d"), ("c", "$c")]⟩, "Jobs", 4096⟩
      " Jobs.b " = ⟨"x-x", true⟩ := by decide +kernel
  have hflag := congrArg Resolution.resolved hvalue
  obtain ⟨body, -, hexpands, -⟩ := resolve_resolved_expands hflag
  exact ⟨hflag, body, (hexpands _).mpr (by rw [hvalue]; decide +kernel)⟩

end Telemetry.Template
