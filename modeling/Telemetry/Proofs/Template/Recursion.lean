import Telemetry.Proofs.Template.Expansion
import Telemetry.Proofs.Template.Soundness

/-!
The resolver with its cache, its chain and its depth limit, against plain recursion.

`Unfolds` is the plain recursion: a body is read from left to right, and every token that names a
bound symbol is replaced by the plain expansion of its value, if that fits the size limit. There is
no cache in it, no chain of symbols under expansion and no limit to the depth. `Resolves` is the
same for name expressions. `Chain` lists the symbols that are visited when references are followed
from a body.

* `Unfolds.unique` — the plain recursion has at most one result.
* `Cache.Exact` — the invariant of the cache: what it holds is what the recursion gives.
* `expandName_exact` — it is kept, and a symbol is expanded to what the recursion gives, as long as
  the chains from its value fit the depth that is left and meet no symbol under expansion.
* `resolve_eq_iff_resolves` — so the resolver and the recursion agree wherever no chain of
  references is cyclic or visits more than 32 symbols.
-/

namespace Telemetry.Template

open Telemetry.Text

/-! ### Plain recursion -/

/-- The plain expansion of a body: `Unfolds table limit r cs r'` says that the value and flag `r`,
extended by the expansion of `cs`, are `r'`. -/
inductive Unfolds (table : Symbol.Table) (limit : Nat) :
    Resolution → List Char → Resolution → Prop where
  | nil {r : Resolution} : Unfolds table limit r [] r
  | plain {r r' : Resolution} {c : Char} {cs : List Char}
      (hplain : ∀ inside rest, ¬ Token (c :: cs) inside rest)
      (hrest : Unfolds table limit ⟨r.value.push c, r.resolved⟩ cs r') :
      Unfolds table limit r (c :: cs) r'
  /-- A token stays as written if it names no symbol, if the value has reached the limit, or if the
  symbol is unbound. -/
  | kept {r r' : Resolution} {cs inside rest : List Char} {written : String}
      (htoken : Token cs inside rest) (hwritten : cs = written.toList ++ rest)
      (hkept : isIdentifier (trim inside) = false ∨ limit ≤ r.value.utf8ByteSize ∨
        table.get? (String.ofList (trim inside)) = none)
      (hrest : Unfolds table limit ⟨r.value ++ written, false⟩ rest r') :
      Unfolds table limit r cs r'
  /-- It stays as written, too, if the expansion of its symbol would exceed the limit. -/
  | large {r r' inner : Resolution} {cs inside rest : List Char} {written bound : String}
      (htoken : Token cs inside rest) (hwritten : cs = written.toList ++ rest)
      (hname : isIdentifier (trim inside) = true)
      (hbound : table.get? (String.ofList (trim inside)) = some bound)
      (hinner : Unfolds table limit ⟨"", true⟩ bound.toList inner)
      (hlarge : limit < r.value.utf8ByteSize + inner.value.utf8ByteSize)
      (hrest : Unfolds table limit ⟨r.value ++ written, false⟩ rest r') :
      Unfolds table limit r cs r'
  | replaced {r r' inner : Resolution} {cs inside rest : List Char} {bound : String}
      (htoken : Token cs inside rest) (hname : isIdentifier (trim inside) = true)
      (hbound : table.get? (String.ofList (trim inside)) = some bound)
      (hroom : r.value.utf8ByteSize < limit)
      (hinner : Unfolds table limit ⟨"", true⟩ bound.toList inner)
      (hfits : r.value.utf8ByteSize + inner.value.utf8ByteSize ≤ limit)
      (hrest : Unfolds table limit ⟨r.value ++ inner.value, r.resolved && inner.resolved⟩ rest r') :
      Unfolds table limit r cs r'

/-- The plain resolution of a name expression: of the body between its quotes, or of the value of
the symbol that it names. An expression that is neither stands for itself. -/
inductive Resolves (ctx : Context) (expr : String) : Resolution → Prop where
  | literal {body : List Char} {r : Resolution}
      (hquoted : trim expr.toList = '"' :: (body ++ ['"']))
      (hbody : Unfolds ctx.table ctx.limit ⟨"", true⟩ body r) : Resolves ctx expr r
  | symbol {bound : String} {r : Resolution}
      (hunquoted : ∀ body, trim expr.toList ≠ '"' :: (body ++ ['"']))
      (hbound : ctx.table.get? (String.ofList (localName ctx.identifier (trim expr.toList))) =
        some bound)
      (hbody : Unfolds ctx.table ctx.limit ⟨"", true⟩ bound.toList r) : Resolves ctx expr r
  | unknown (hunquoted : ∀ body, trim expr.toList ≠ '"' :: (body ++ ['"']))
      (hbound : ctx.table.get? (String.ofList (localName ctx.identifier (trim expr.toList))) =
        none) : Resolves ctx expr ⟨String.ofList (trim expr.toList), false⟩

/-! ### Chains of references -/

/-- The bound symbols visited when references are followed from a body, one after the other. -/
inductive Chain (table : Symbol.Table) : List Char → List String → Prop where
  | nil {cs : List Char} : Chain table cs []
  | cons {cs inside : List Char} {bound : String} {chain : List String}
      (htoken : HasToken cs inside) (hname : isIdentifier (trim inside) = true)
      (hbound : table.get? (String.ofList (trim inside)) = some bound)
      (hrest : Chain table bound.toList chain) :
      Chain table cs (String.ofList (trim inside) :: chain)

/-- The chains that start from a name expression. The symbol that it names comes first. -/
inductive ExprChain (ctx : Context) (expr : String) : List String → Prop where
  | literal {body : List Char} {chain : List String}
      (hquoted : trim expr.toList = '"' :: (body ++ ['"'])) (hchain : Chain ctx.table body chain) :
      ExprChain ctx expr chain
  | symbol {bound : String} {chain : List String}
      (hunquoted : ∀ body, trim expr.toList ≠ '"' :: (body ++ ['"']))
      (hbound : ctx.table.get? (String.ofList (localName ctx.identifier (trim expr.toList))) =
        some bound)
      (hchain : Chain ctx.table bound.toList chain) :
      ExprChain ctx expr (String.ofList (localName ctx.identifier (trim expr.toList)) :: chain)

/-- Every chain from a body fits into `room` and, behind the symbols of `under`, visits no symbol
twice. -/
def Shallow (table : Symbol.Table) (under : List String) (room : Nat) (cs : List Char) : Prop :=
  ∀ chain, Chain table cs chain → (under.reverse ++ chain).Nodup ∧ chain.length ≤ room

/-- The symbols that the tokens of a body name, in order. -/
def symbolsOf (cs : List Char) : List String :=
  (piecesOf cs).filterMap fun
    | .plain _ => none
    | .token _ name => name

theorem mem_symbolsOf {cs inside : List Char} (h : HasToken cs inside)
    (hname : isIdentifier (trim inside) = true) : String.ofList (trim inside) ∈ symbolsOf cs := by
  induction h with
  | here htoken =>
    obtain ⟨written, hpieces, -⟩ := pieces_of_token htoken
    simp [symbolsOf, hpieces, bracedName?, hname]
  | afterPlain hplain _ ih =>
    simpa [symbolsOf, pieces_of_plain hplain] using ih hname
  | afterToken htoken _ ih =>
    obtain ⟨written, hpieces, -⟩ := pieces_of_token htoken
    rw [symbolsOf, hpieces]
    exact (List.sublist_cons_self _ _).filterMap _ |>.subset (ih hname)

/-- A chain is empty or starts with a symbol of the body and goes on from its value. -/
theorem Chain.eq_nil_or_cons {table : Symbol.Table} {cs : List Char} {chain : List String}
    (h : Chain table cs chain) :
    chain = [] ∨ ∃ name ∈ symbolsOf cs, ∃ bound ∈ table.get? name, ∃ rest,
      Chain table bound.toList rest ∧ chain = name :: rest := by
  cases h with
  | nil => exact Or.inl rfl
  | cons htoken hname hbound hrest =>
    exact Or.inr ⟨_, mem_symbolsOf htoken hname, _, hbound, _, hrest, rfl⟩

section Recursion

variable {table : Symbol.Table} {limit : Nat}

theorem not_token_nil {inside rest : List Char} : ¬ Token [] inside rest := by
  intro h
  cases h

/-- What is written for a token is determined by what stands behind it. -/
theorem written_unique {cs rest : List Char} {written written' : String}
    (h : cs = written.toList ++ rest) (h' : cs = written'.toList ++ rest) : written = written' :=
  String.toList_inj.mp (List.append_cancel_right (h.symm.trans h'))

/-- A token that names a bound symbol does not stay as written while there is room. -/
theorem not_kept {r : Resolution} {inside : List Char} {bound : String}
    (hname : isIdentifier (trim inside) = true) (hroom : r.value.utf8ByteSize < limit)
    (hbound : table.get? (String.ofList (trim inside)) = some bound) :
    ¬ (isIdentifier (trim inside) = false ∨ limit ≤ r.value.utf8ByteSize ∨
      table.get? (String.ofList (trim inside)) = none) := by
  simp [hname, hbound, hroom]

/-- **The plain recursion has at most one result.** -/
theorem Unfolds.unique {r r₁ r₂ : Resolution} {cs : List Char} (h₁ : Unfolds table limit r cs r₁)
    (h₂ : Unfolds table limit r cs r₂) : r₁ = r₂ := by
  induction h₁ generalizing r₂ with
  | nil =>
    cases h₂ with
    | nil => rfl
    | kept htoken | large htoken | replaced htoken => exact absurd htoken not_token_nil
  | plain hplain _ ih =>
    cases h₂ with
    | plain _ hrest => exact ih hrest
    | kept htoken | large htoken | replaced htoken => exact absurd htoken (hplain _ _)
  | kept htoken hwritten hkept _ ih =>
    cases h₂ with
    | nil => exact absurd htoken not_token_nil
    | plain hplain => exact absurd htoken (hplain _ _)
    | kept htoken' hwritten' _ hrest | large htoken' hwritten' _ _ _ _ hrest =>
      obtain ⟨rfl, rfl⟩ := htoken.unique htoken'
      obtain rfl := written_unique hwritten hwritten'
      exact ih hrest
    | replaced htoken' hname hbound hroom =>
      obtain ⟨rfl, rfl⟩ := htoken.unique htoken'
      exact absurd hkept (not_kept hname hroom hbound)
  | large htoken hwritten hname hbound _ hlarge _ ihInner ih =>
    cases h₂ with
    | nil => exact absurd htoken not_token_nil
    | plain hplain => exact absurd htoken (hplain _ _)
    | kept htoken' hwritten' _ hrest | large htoken' hwritten' _ _ _ _ hrest =>
      obtain ⟨rfl, rfl⟩ := htoken.unique htoken'
      obtain rfl := written_unique hwritten hwritten'
      exact ih hrest
    | replaced htoken' _ hbound' _ hinner' hfits =>
      obtain ⟨rfl, rfl⟩ := htoken.unique htoken'
      obtain rfl := Option.some.inj (hbound.symm.trans hbound')
      obtain rfl := ihInner hinner'
      omega
  | replaced htoken hname hbound hroom _ hfits _ ihInner ih =>
    cases h₂ with
    | nil => exact absurd htoken not_token_nil
    | plain hplain => exact absurd htoken (hplain _ _)
    | kept htoken' _ hkept =>
      obtain ⟨rfl, rfl⟩ := htoken.unique htoken'
      exact absurd hkept (not_kept hname hroom hbound)
    | large htoken' _ _ hbound' hinner' hlarge =>
      obtain ⟨rfl, rfl⟩ := htoken.unique htoken'
      obtain rfl := Option.some.inj (hbound.symm.trans hbound')
      obtain rfl := ihInner hinner'
      omega
    | replaced htoken' _ hbound' _ hinner' _ hrest =>
      obtain ⟨rfl, rfl⟩ := htoken.unique htoken'
      obtain rfl := Option.some.inj (hbound.symm.trans hbound')
      obtain rfl := ihInner hinner'
      exact ih hrest

/-! ### The invariant of the cache -/

/-- Every entry of a cache is what the plain recursion gives for the symbol. -/
def Cache.Exact (table : Symbol.Table) (limit : Nat) (cache : Cache) : Prop :=
  ∀ name r, cache.lookup name = some r →
    ∃ bound, table.get? name = some bound ∧ Unfolds table limit ⟨"", true⟩ bound.toList r

/-- An expander gives for a symbol what the plain recursion gives, and keeps the cache exact. -/
def ExactAt (table : Symbol.Table) (limit : Nat) (expand : Cache → String → Outcome)
    (name : String) : Prop :=
  ∀ cache, Cache.Exact table limit cache →
    Cache.Exact table limit (expand cache name).2 ∧
      (table.get? name = none → (expand cache name).1 = none) ∧
      ∀ bound, table.get? name = some bound →
        ∃ r, (expand cache name).1 = some r ∧ Unfolds table limit ⟨"", true⟩ bound.toList r

theorem Cache.exact_nil : Cache.Exact table limit [] := by
  intro name r h
  cases h

theorem Cache.Exact.cons {cache : Cache} {name bound : String} {r : Resolution}
    (h : Cache.Exact table limit cache) (hbound : table.get? name = some bound)
    (hr : Unfolds table limit ⟨"", true⟩ bound.toList r) :
    Cache.Exact table limit ((name, r) :: cache) := by
  intro name' r' hlookup
  rw [List.lookup_cons] at hlookup
  split at hlookup
  · rename_i heq
    cases hlookup
    rw [beq_iff_eq.mp heq]
    exact ⟨bound, hbound, hr⟩
  · exact h name' r' hlookup

/-! ### One body -/

variable {expand : Cache → String → Outcome}

/-- A token, once read, leaves the cache exact, and the plain recursion reads it in the same way. -/
theorem add_token_unfolds {cs inside rest : List Char} {written : String} {p : Progress}
    {r : Resolution} (htoken : Token cs inside rest) (hwritten : cs = written.toList ++ rest)
    (hexpand : isIdentifier (trim inside) = true →
      ExactAt table limit expand (String.ofList (trim inside)))
    (hp : Cache.Exact table limit p.cache) :
    Cache.Exact table limit (p.add limit expand (.token written (bracedName? inside))).cache ∧
      (Unfolds table limit
        ⟨(p.add limit expand (.token written (bracedName? inside))).value,
          (p.add limit expand (.token written (bracedName? inside))).resolved⟩ rest r →
        Unfolds table limit ⟨p.value, p.resolved⟩ cs r) := by
  by_cases hname : isIdentifier (trim inside) = true
  · rw [show bracedName? inside = some (String.ofList (trim inside)) by simp [bracedName?, hname]]
    obtain ⟨hcache, hunbound, hresult⟩ := hexpand hname p.cache hp
    rcases add_symbol_cases limit expand p written (String.ofList (trim inside)) with
      ⟨hfull, hadd⟩ | ⟨hroom, hlarge, hadd⟩ | ⟨inner, hinner, hroom, hfits, hadd⟩
    · rw [hadd]
      exact ⟨hp, fun hrest => .kept htoken hwritten (Or.inr (Or.inl hfull)) hrest⟩
    · rw [hadd]
      refine ⟨hcache, fun hrest => ?_⟩
      cases hbound : table.get? (String.ofList (trim inside)) with
      | none => exact .kept htoken hwritten (Or.inr (Or.inr hbound)) hrest
      | some bound =>
        obtain ⟨inner, hinner, hunfolds⟩ := hresult bound hbound
        exact .large htoken hwritten hname hbound hunfolds (hlarge inner hinner) hrest
    · rw [hadd]
      refine ⟨hcache, fun hrest => ?_⟩
      cases hbound : table.get? (String.ofList (trim inside)) with
      | none =>
        rw [hunbound hbound] at hinner
        cases hinner
      | some bound =>
        obtain ⟨inner', hinner', hunfolds⟩ := hresult bound hbound
        rw [hinner'] at hinner
        cases hinner
        exact .replaced htoken hname hbound hroom hunfolds hfits hrest
  · rw [show bracedName? inside = none by simp [bracedName?, hname]]
    exact ⟨hp, fun hrest => .kept htoken hwritten (Or.inl (Bool.eq_false_iff.mpr hname)) hrest⟩

/-- **Reading a body agrees with the plain recursion**, if the expander does on its tokens. -/
theorem foldl_add_unfolds (cs : List Char) (p : Progress)
    (hexpand : ∀ inside, HasToken cs inside → isIdentifier (trim inside) = true →
      ExactAt table limit expand (String.ofList (trim inside)))
    (hp : Cache.Exact table limit p.cache) :
    Cache.Exact table limit ((piecesOf cs).foldl (Progress.add limit expand) p).cache ∧
      Unfolds table limit ⟨p.value, p.resolved⟩ cs
        ⟨((piecesOf cs).foldl (Progress.add limit expand) p).value,
          ((piecesOf cs).foldl (Progress.add limit expand) p).resolved⟩ := by
  refine foldl_pieces_induction (f := Progress.add limit expand)
    (motive := fun cs p q =>
      (∀ inside, HasToken cs inside → isIdentifier (trim inside) = true →
        ExactAt table limit expand (String.ofList (trim inside))) →
      Cache.Exact table limit p.cache → Cache.Exact table limit q.cache ∧
        Unfolds table limit ⟨p.value, p.resolved⟩ cs ⟨q.value, q.resolved⟩) ?_ ?_ ?_ cs p hexpand hp
  · intro p _ hp
    exact ⟨hp, .nil⟩
  · intro c cs p q hplain ih hexpand hp
    obtain ⟨hfinal, hrest⟩ :=
      ih (fun inside htoken => hexpand inside (.afterPlain hplain htoken)) hp
    exact ⟨hfinal, .plain hplain hrest⟩
  · intro cs inside rest written p q htoken hwritten ih hexpand hp
    obtain ⟨hcache, hadd⟩ := add_token_unfolds (r := ⟨q.value, q.resolved⟩) htoken hwritten
      (hexpand inside (.here htoken)) hp
    obtain ⟨hfinal, hrest⟩ :=
      ih (fun inside' htoken' => hexpand inside' (.afterToken htoken htoken')) hcache
    exact ⟨hfinal, hadd hrest⟩

theorem expandBody_unfolds (limit : Nat) {cache : Cache} (body : String)
    (hexpand : ∀ inside, HasToken body.toList inside → isIdentifier (trim inside) = true →
      ExactAt table limit expand (String.ofList (trim inside)))
    (hcache : Cache.Exact table limit cache) :
    Cache.Exact table limit (expandBody limit expand cache body).2 ∧
      Unfolds table limit ⟨"", true⟩ body.toList (expandBody limit expand cache body).1 :=
  foldl_add_unfolds body.toList ⟨"", true, cache⟩ hexpand hcache

/-! ### Nested expansions -/

/-- The value of a symbol that a shallow body names is shallow below that symbol. -/
theorem Shallow.of_hasToken {under : List String} {room : Nat} {cs inside : List Char}
    {bound : String} (h : Shallow table under room cs) (htoken : HasToken cs inside)
    (hname : isIdentifier (trim inside) = true)
    (hbound : table.get? (String.ofList (trim inside)) = some bound) :
    ∃ left, room = left + 1 ∧ String.ofList (trim inside) ∉ under ∧
      Shallow table (String.ofList (trim inside) :: under) left bound.toList := by
  obtain ⟨hnodup, hlength⟩ := h _ (.cons htoken hname hbound .nil)
  obtain ⟨left, rfl⟩ : ∃ left, room = left + 1 :=
    Nat.exists_eq_succ_of_ne_zero (by rintro rfl; simp at hlength)
  refine ⟨left, rfl, fun hmem => ?_, fun chain hchain => ?_⟩
  · exact (List.nodup_append.mp hnodup).2.2 _ (List.mem_reverse.mpr hmem) _ List.mem_cons_self rfl
  · obtain ⟨hnodup, hlength⟩ := h _ (.cons htoken hname hbound hchain)
    refine ⟨?_, Nat.le_of_succ_le_succ hlength⟩
    rwa [List.reverse_cons, List.append_assoc, List.singleton_append]

/-- **The expander of symbols agrees with the plain recursion** on every symbol whose value is
shallow: neither the depth limit nor the chain cuts an expansion short. -/
theorem expandName_exact {under : List String} {room : Nat} {name : String}
    (h : ∀ bound, table.get? name = some bound → ∃ left, room = left + 1 ∧ name ∉ under ∧
      Shallow table (name :: under) left bound.toList) :
    ExactAt table limit (expandName table limit room under) name := by
  induction room using Nat.strongRecOn generalizing under name with
  | _ room ih =>
  intro cache hcache
  rcases expandName_cases table limit room under cache name with
    ⟨r, hlookup, hout⟩ | ⟨-, hrefused, hout⟩ | ⟨left, bound, rfl, -, hnot, hbound, hout⟩
  · rw [hout]
    obtain ⟨bound, hbound, hunfolds⟩ := hcache name r hlookup
    refine ⟨hcache, fun hunbound => ?_, fun bound' hbound' => ?_⟩
    · rw [hunbound] at hbound
      cases hbound
    · obtain rfl := Option.some.inj (hbound.symm.trans hbound')
      exact ⟨r, rfl, hunfolds⟩
  · rw [hout]
    refine ⟨hcache, fun _ => rfl, fun bound hbound => ?_⟩
    obtain ⟨left, hroom, hnot, -⟩ := h bound hbound
    rcases hrefused with hzero | hmem | hunbound
    · omega
    · exact absurd hmem hnot
    · rw [hunbound] at hbound
      cases hbound
  · obtain ⟨left', hleft, -, hshallow⟩ := h bound hbound
    obtain rfl : left = left' := by omega
    obtain ⟨hbody, hunfolds⟩ := expandBody_unfolds limit bound
      (fun inside htoken hname => ih left (by omega) fun inner hinner =>
        hshallow.of_hasToken htoken hname hinner) hcache
    rw [hout]
    refine ⟨hbody.cons hbound hunfolds, fun hunbound => ?_, fun bound' hbound' => ?_⟩
    · rw [hunbound] at hbound
      cases hbound
    · obtain rfl := Option.some.inj (hbound.symm.trans hbound')
      exact ⟨_, rfl, hunfolds⟩

end Recursion

/-! ### Name expressions -/

theorem Resolves.unique {ctx : Context} {expr : String} {r r' : Resolution}
    (h : Resolves ctx expr r) (h' : Resolves ctx expr r') : r = r' := by
  cases h with
  | literal hquoted hbody =>
    cases h' with
    | literal hquoted' hbody' =>
      rw [hquoted] at hquoted'
      obtain rfl := List.append_cancel_right (List.cons.inj hquoted').2
      exact hbody.unique hbody'
    | symbol hunquoted | unknown hunquoted => exact absurd hquoted (hunquoted _)
  | symbol hunquoted hbound hbody =>
    cases h' with
    | literal hquoted => exact absurd hquoted (hunquoted _)
    | symbol _ hbound' hbody' =>
      obtain rfl := Option.some.inj (hbound.symm.trans hbound')
      exact hbody.unique hbody'
    | unknown _ hbound' => exact nomatch hbound.symm.trans hbound'
  | unknown hunquoted hbound =>
    cases h' with
    | literal hquoted => exact absurd hquoted (hunquoted _)
    | symbol _ hbound' => exact nomatch hbound.symm.trans hbound'
    | unknown => rfl

/-- The resolver gives what the plain recursion gives. -/
theorem resolves_resolve {ctx : Context} {expr : String}
    (h : ∀ chain, ExprChain ctx expr chain → chain.Nodup ∧ chain.length ≤ maxDepth) :
    Resolves ctx expr (resolve ctx expr) := by
  unfold resolve
  simp only
  cases hquoted : unquote? (trim expr.toList) with
  | some body =>
    have hliteral := unquote?_eq_some_iff.mp hquoted
    have hshallow : Shallow ctx.table [] maxDepth (String.ofList body).toList := by
      rw [String.toList_ofList]
      exact fun chain hchain => h chain (.literal hliteral hchain)
    obtain ⟨-, hunfolds⟩ := expandBody_unfolds ctx.limit (String.ofList body)
      (fun inside htoken hname => expandName_exact fun inner hinner =>
        hshallow.of_hasToken htoken hname hinner) Cache.exact_nil
    rw [String.toList_ofList] at hunfolds
    exact .literal hliteral hunfolds
  | none =>
    have hunquoted : ∀ body, trim expr.toList ≠ '"' :: (body ++ ['"']) := by
      intro body hbody
      rw [unquote?_eq_some_iff.mpr hbody] at hquoted
      cases hquoted
    have hexact : ExactAt ctx.table ctx.limit (expandName ctx.table ctx.limit maxDepth [])
        (String.ofList (localName ctx.identifier (trim expr.toList))) := by
      refine expandName_exact fun bound hbound =>
        ⟨maxDepth - 1, rfl, List.not_mem_nil, fun chain hchain => ?_⟩
      obtain ⟨hnodup, hlength⟩ := h _ (.symbol hunquoted hbound hchain)
      exact ⟨hnodup, Nat.le_sub_one_of_lt hlength⟩
    obtain ⟨-, hunknown, hresult⟩ := hexact [] Cache.exact_nil
    cases hbound : ctx.table.get? (String.ofList (localName ctx.identifier (trim expr.toList))) with
    | none =>
      rw [hunknown hbound]
      exact .unknown hunquoted hbound
    | some bound =>
      obtain ⟨r, hr, hunfolds⟩ := hresult bound hbound
      rw [hr]
      exact .symbol hunquoted hbound hunfolds

/-- **The resolver agrees with plain recursion.** If no chain of references from an expression
visits a symbol twice or more than 32 symbols, then resolution gives the value and the flag of the
plain recursion, which has this result and no other. -/
theorem resolve_eq_iff_resolves {ctx : Context} {expr : String}
    (h : ∀ chain, ExprChain ctx expr chain → chain.Nodup ∧ chain.length ≤ 32) (r : Resolution) :
    resolve ctx expr = r ↔ Resolves ctx expr r := by
  have hresolves : Resolves ctx expr (resolve ctx expr) := resolves_resolve h
  constructor
  · rintro rfl
    exact hresolves
  · intro hr
    exact hresolves.unique hr

theorem resolve_eq_iff_resolves_twice :
    (∀ chain, ExprChain ⟨⟨[("a", "x"), ("b", "$a-$\x7b a \x7d")]⟩, "Jobs", 4⟩ "\"$b$b\"" chain →
      chain = [] ∨ chain = ["b"] ∨ chain = ["b", "a"]) ∧
    Resolves ⟨⟨[("a", "x"), ("b", "$a-$\x7b a \x7d")]⟩, "Jobs", 4⟩ "\"$b$b\"" ⟨"x-x$b", false⟩ := by
  have hchains : ∀ chain,
      ExprChain ⟨⟨[("a", "x"), ("b", "$a-$\x7b a \x7d")]⟩, "Jobs", 4⟩ "\"$b$b\"" chain →
      chain = [] ∨ chain = ["b"] ∨ chain = ["b", "a"] := by
    intro chain hchain
    have hexpr : trim "\"$b$b\"".toList = '"' :: (['$', 'b', '$', 'b'] ++ ['"']) := by
      decide +kernel
    cases hchain with
    | symbol hunquoted => exact absurd hexpr (hunquoted _)
    | literal hquoted hchain =>
      rw [hexpr] at hquoted
      obtain rfl := List.append_cancel_right (List.cons.inj hquoted).2
      rcases hchain.eq_nil_or_cons with rfl | ⟨name, hname, bound, hbound, rest, hrest, rfl⟩
      · exact Or.inl rfl
      rw [show symbolsOf ['$', 'b', '$', 'b'] = ["b", "b"] by decide +kernel] at hname
      obtain rfl : name = "b" := by simpa using hname
      obtain rfl : "$a-$\x7b a \x7d" = bound := Option.some.inj hbound
      rcases hrest.eq_nil_or_cons with rfl | ⟨name, hname, bound, hbound, rest, hrest, rfl⟩
      · exact Or.inr (Or.inl rfl)
      rw [show symbolsOf "$a-$\x7b a \x7d".toList = ["a", "a"] by decide +kernel] at hname
      obtain rfl : name = "a" := by simpa using hname
      obtain rfl : "x" = bound := Option.some.inj hbound
      rcases hrest.eq_nil_or_cons with rfl | ⟨name, hname, -⟩
      · exact Or.inr (Or.inr rfl)
      · rw [show symbolsOf "x".toList = [] by decide +kernel] at hname
        cases hname
  refine ⟨hchains, (resolve_eq_iff_resolves (fun chain hchain => ?_) _).mp (by decide +kernel)⟩
  rcases hchains chain hchain with rfl | rfl | rfl <;> decide

end Telemetry.Template
