import Telemetry.Proofs.Symbol.Overrides
import Telemetry.Proofs.Template.Recursion
import Telemetry.Symbol.Declaration

/-!
What a resolution reads of the symbol table.

`Mentions table name other` says that the value of a symbol has a token that names another one, and
`Reached ctx expr name` that a symbol is met when mentions are followed from an expression, whether
it is bound or not.

* `Cache.AgreeOn` — two caches agree on a set of symbols. Two expansions that start so, over tables
  that agree on the set too, end so with the same resolution (`expandName_agree`), provided that no
  mention leads out of the set.
* `resolve_local` — so a resolution depends on the symbols that its expression reaches, and on no
  other binding.
-/

namespace Telemetry.Template

open Telemetry.Text Relation

/-! ### Mentions -/

/-- The value of a symbol has a token that names another symbol. -/
def Mentions (table : Symbol.Table) (name other : String) : Prop :=
  ∃ bound, table.get? name = some bound ∧ other ∈ symbolsOf bound.toList

/-- The symbols that an expression names itself: those of the tokens between its quotes, or the one
that it is. -/
def rootsOf (identifier expr : String) : List String :=
  match unquote? (trim expr.toList) with
  | some body => symbolsOf body
  | none => [String.ofList (localName identifier (trim expr.toList))]

/-- A symbol is met when mentions are followed from an expression. -/
def Reached (ctx : Context) (expr name : String) : Prop :=
  ∃ root ∈ rootsOf ctx.identifier expr, ReflTransGen (Mentions ctx.table) root name

/-- No mention leads out of a set of symbols. -/
def IsClosed (table : Symbol.Table) (S : Set String) : Prop :=
  ∀ name ∈ S, ∀ other, Mentions table name other → other ∈ S

theorem mem_symbolsOf_iff {cs : List Char} {name : String} :
    name ∈ symbolsOf cs ↔ ∃ written, .token written (some name) ∈ piecesOf cs := by
  rw [symbolsOf, List.mem_filterMap]
  constructor
  · rintro ⟨piece, hpiece, hname⟩
    cases piece with
    | plain c => cases hname
    | token written name' => exact ⟨written, hname ▸ hpiece⟩
  · rintro ⟨written, hpiece⟩
    exact ⟨_, hpiece, rfl⟩

section Agreement

variable {table table' : Symbol.Table} (limit : Nat) {S : Set String}
  {expand expand' : Cache → String → Outcome}

/-! ### Two expansions side by side -/

/-- Two caches hold the same for every symbol of a set. -/
def Cache.AgreeOn (S : Set String) (cache cache' : Cache) : Prop :=
  ∀ name ∈ S, cache.lookup name = cache'.lookup name

/-- Two expanders give a symbol the same resolution, from caches that agree, and leave caches that
agree. -/
def SameFor (S : Set String) (expand expand' : Cache → String → Outcome) (name : String) : Prop :=
  ∀ cache cache', Cache.AgreeOn S cache cache' →
    (expand cache name).1 = (expand' cache' name).1 ∧
      Cache.AgreeOn S (expand cache name).2 (expand' cache' name).2

/-- Two expansions of one body that have come to the same value and flag, over related caches. -/
structure Progress.Alike (I : Cache → Cache → Prop) (p p' : Progress) : Prop where
  value : p.value = p'.value
  resolved : p.resolved = p'.resolved
  cache : I p.cache p'.cache

theorem Cache.AgreeOn.cons {cache cache' : Cache} (h : Cache.AgreeOn S cache cache')
    (name : String) (r : Resolution) :
    Cache.AgreeOn S ((name, r) :: cache) ((name, r) :: cache') := by
  intro other hother
  rw [List.lookup_cons, List.lookup_cons, h other hother]

/-- A piece, once read, leaves two expansions in agreement. -/
theorem Progress.Alike.add {p p' : Progress} {piece : Piece}
    (hsame : ∀ written name, piece = .token written (some name) → SameFor S expand expand' name)
    (h : p.Alike (Cache.AgreeOn S) p') :
    (p.add limit expand piece).Alike (Cache.AgreeOn S) (p'.add limit expand' piece) := by
  obtain ⟨value, resolved, cache⟩ := p
  obtain ⟨value', resolved', cache'⟩ := p'
  obtain ⟨rfl, rfl, hcache⟩ : value = value' ∧ resolved = resolved' ∧
    Cache.AgreeOn S cache cache' := ⟨h.value, h.resolved, h.cache⟩
  cases piece with
  | plain c => exact ⟨rfl, rfl, hcache⟩
  | token written name =>
    cases name with
    | none => exact ⟨rfl, rfl, hcache⟩
    | some name =>
      obtain ⟨hresult, hafter⟩ := hsame written name rfl cache cache' hcache
      simp only [Progress.add]
      by_cases hfull : limit ≤ value.utf8ByteSize
      · rw [if_pos hfull, if_pos hfull]
        exact ⟨rfl, rfl, hcache⟩
      · rw [if_neg hfull, if_neg hfull]
        rcases hout : expand cache name with ⟨found, after⟩
        rcases hout' : expand' cache' name with ⟨found', after'⟩
        rw [hout, hout'] at hresult hafter
        obtain rfl : found = found' := hresult
        cases found with
        | none => exact ⟨rfl, rfl, hafter⟩
        | some inner =>
          by_cases hfits : value.utf8ByteSize + inner.value.utf8ByteSize ≤ limit
          · simp only [if_pos hfits]
            exact ⟨rfl, rfl, hafter⟩
          · simp only [if_neg hfits]
            exact ⟨rfl, rfl, hafter⟩

theorem foldl_add_agree (ps : List Piece)
    (hsame : ∀ written name, .token written (some name) ∈ ps → SameFor S expand expand' name)
    {p p' : Progress} (h : p.Alike (Cache.AgreeOn S) p') :
    (ps.foldl (Progress.add limit expand) p).Alike (Cache.AgreeOn S)
      (ps.foldl (Progress.add limit expand') p') := by
  induction ps generalizing p p' with
  | nil => exact h
  | cons piece ps ih =>
    refine ih (fun written name hmem => hsame written name (List.mem_cons_of_mem _ hmem))
      (h.add limit fun written name hpiece => hsame written name ?_)
    rw [hpiece]
    exact List.mem_cons_self

theorem expandBody_agree (body : String) {cache cache' : Cache}
    (hsame : ∀ name ∈ symbolsOf body.toList, SameFor S expand expand' name)
    (h : Cache.AgreeOn S cache cache') :
    (expandBody limit expand cache body).1 = (expandBody limit expand' cache' body).1 ∧
      Cache.AgreeOn S (expandBody limit expand cache body).2
        (expandBody limit expand' cache' body).2 := by
  have hagree := foldl_add_agree limit (piecesOf body.toList)
    (fun written name hmem => hsame name (mem_symbolsOf_iff.mpr ⟨written, hmem⟩))
    (⟨rfl, rfl, h⟩ : Progress.Alike (Cache.AgreeOn S) ⟨"", true, cache⟩ ⟨"", true, cache'⟩)
  exact ⟨congrArg₂ Resolution.mk hagree.value hagree.resolved, hagree.cache⟩

/-- **The expansion of a symbol reads no more than a closed set that it belongs to.** Over tables
and caches that agree on the set, it has the same resolution and leaves caches that agree. -/
theorem expandName_agree (hclosed : IsClosed table S)
    (htables : ∀ name ∈ S, table.get? name = table'.get? name) (room : Nat) (chain : List String)
    {name : String} (hname : name ∈ S) :
    SameFor S (expandName table limit room chain) (expandName table' limit room chain) name := by
  induction room generalizing chain name with
  | zero =>
    intro cache cache' h
    unfold expandName
    rw [← h name hname]
    cases cache.lookup name with
    | none => exact ⟨rfl, h⟩
    | some r => exact ⟨rfl, h⟩
  | succ room ih =>
    intro cache cache' h
    unfold expandName
    rw [← h name hname, ← htables name hname]
    cases cache.lookup name with
    | some r => exact ⟨rfl, h⟩
    | none =>
      by_cases hchain : chain.contains name = true
      · dsimp only
        rw [if_pos hchain, if_pos hchain]
        exact ⟨rfl, h⟩
      · dsimp only
        rw [if_neg hchain, if_neg hchain]
        cases hbound : table.get? name with
        | none => exact ⟨rfl, h⟩
        | some bound =>
          obtain ⟨hresult, hafter⟩ := expandBody_agree limit bound
            (fun other hother =>
              ih (name :: chain) (hclosed name hname other ⟨bound, hbound, hother⟩)) h
          refine ⟨congrArg some hresult, ?_⟩
          dsimp only
          rw [hresult]
          exact hafter.cons name _

end Agreement

/-! ### Name expressions -/

theorem isClosed_reached (ctx : Context) (expr : String) :
    IsClosed ctx.table {name | Reached ctx expr name} := by
  rintro name ⟨root, hroot, hreach⟩ other hmention
  exact ⟨root, hroot, hreach.tail hmention⟩

/-- What is reached stays in every closed set that the expression starts in. -/
theorem Reached.mem_of_isClosed {ctx : Context} {expr name : String} {S : Set String}
    (h : Reached ctx expr name) (hclosed : IsClosed ctx.table S)
    (hroots : ∀ root ∈ rootsOf ctx.identifier expr, root ∈ S) : name ∈ S := by
  obtain ⟨root, hroot, hreach⟩ := h
  induction hreach with
  | refl => exact hroots root hroot
  | tail _ hmention ih => exact hclosed _ ih _ hmention

/-- **A resolution depends on the symbols that its expression reaches.** -/
theorem resolve_congr {ctx : Context} {expr : String} {table : Symbol.Table}
    (h : ∀ name, Reached ctx expr name → ctx.table.get? name = table.get? name) :
    resolve ctx expr = resolve { ctx with table } expr := by
  have hsame : ∀ root ∈ rootsOf ctx.identifier expr,
      SameFor {name | Reached ctx expr name} (expandName ctx.table ctx.limit maxDepth [])
        (expandName table ctx.limit maxDepth []) root :=
    fun root hroot => expandName_agree ctx.limit (isClosed_reached ctx expr) h maxDepth []
      ⟨root, hroot, .refl⟩
  unfold rootsOf at hsame
  simp only [resolve]
  cases hquoted : unquote? (trim expr.toList) with
  | some body =>
    rw [hquoted] at hsame
    refine (expandBody_agree ctx.limit _ (fun name hname => hsame name ?_) fun _ _ => rfl).1
    rwa [String.toList_ofList] at hname
  | none =>
    rw [hquoted] at hsame
    simp only [(hsame _ (List.mem_singleton_self _) [] [] fun _ _ => rfl).1]

/-- **Unrelated bindings do not change a resolution.** Over two tables that give the same answer for
every symbol that the expression reaches, an expression has the same value and flag. So it has when
a symbol that it does not reach is bound or bound anew, and when the file is changed in a way that
keeps the declarations and the overrides of the symbols that it reaches. -/
theorem resolve_local (ctx : Context) (expr : String) :
    (∀ table : Symbol.Table,
      (∀ name, Reached ctx expr name → ctx.table.get? name = table.get? name) →
        resolve { ctx with table } expr = resolve ctx expr) ∧
    (∀ name value, ¬ Reached ctx expr name →
      resolve { ctx with table := ctx.table.insert name value } expr = resolve ctx expr) ∧
    ∀ (text text' : List Char) (overrides overrides' : Symbol.Overrides),
      ctx.table = .build text ctx.identifier overrides →
      (∀ name, Reached ctx expr name →
        (Symbol.Table.ofSource text).get? name = (Symbol.Table.ofSource text').get? name ∧
        overrides[ctx.identifier ++ "." ++ name]? = overrides'[ctx.identifier ++ "." ++ name]?) →
      resolve { ctx with table := .build text' ctx.identifier overrides' } expr =
        resolve ctx expr := by
  refine ⟨fun table h => (resolve_congr h).symm, fun name value hnot => ?_,
    fun text text' overrides overrides' htable h => ?_⟩
  · refine (resolve_congr fun other hother => ?_).symm
    rw [Symbol.Table.get?_insert, if_neg]
    rintro rfl
    exact hnot hother
  · refine (resolve_congr fun name hname => ?_).symm
    obtain ⟨hdeclared, hoverride⟩ := h name hname
    rw [htable, Symbol.Table.build, Symbol.Table.build, Symbol.Table.get?_override,
      Symbol.Table.get?_override, hdeclared, hoverride]

/-- A file with two symbols that are reached and one that refers to itself; the latter is bound
anew, declared otherwise and overridden. -/
theorem resolve_local_jobs :
    Symbol.Table.build "val a = \"x$b\"\nval b = \"y\"\nval c = \"$c\"".toList "Jobs" ∅ =
      ⟨[("c", "$c"), ("b", "y"), ("a", "x$b")]⟩ ∧
    resolve ⟨⟨[("a", "x$b"), ("b", "y")]⟩, "Jobs", 4096⟩ " Jobs.a " =
      resolve ⟨⟨[("c", "$c"), ("b", "y"), ("a", "x$b")]⟩, "Jobs", 4096⟩ " Jobs.a " ∧
    resolve ⟨.insert ⟨[("c", "$c"), ("b", "y"), ("a", "x$b")]⟩ "c" "z", "Jobs", 4096⟩ " Jobs.a " =
      resolve ⟨⟨[("c", "$c"), ("b", "y"), ("a", "x$b")]⟩, "Jobs", 4096⟩ " Jobs.a " ∧
    resolve ⟨.build "val b = \"y\"\nval c = \"$b\"\nval a = \"x$b\"".toList "Jobs"
        ((∅ : Symbol.Overrides).insert "Jobs.c" "z"), "Jobs", 4096⟩ " Jobs.a " =
      resolve ⟨⟨[("c", "$c"), ("b", "y"), ("a", "x$b")]⟩, "Jobs", 4096⟩ " Jobs.a " := by
  have hbuild : Symbol.Table.build "val a = \"x$b\"\nval b = \"y\"\nval c = \"$c\"".toList
      "Jobs" ∅ = ⟨[("c", "$c"), ("b", "y"), ("a", "x$b")]⟩ := by decide +kernel
  have hreached : ∀ name,
      Reached ⟨⟨[("c", "$c"), ("b", "y"), ("a", "x$b")]⟩, "Jobs", 4096⟩ " Jobs.a " name →
      name = "a" ∨ name = "b" := by
    intro name hname
    refine hname.mem_of_isClosed (S := {name | name = "a" ∨ name = "b"}) ?_ ?_
    · rintro name (rfl | rfl) other ⟨bound, hbound, hother⟩
      · obtain rfl : "x$b" = bound := Option.some.inj hbound
        rw [show symbolsOf "x$b".toList = ["b"] by decide +kernel] at hother
        exact Or.inr (List.mem_singleton.mp hother)
      · obtain rfl : "y" = bound := Option.some.inj hbound
        rw [show symbolsOf "y".toList = [] by decide +kernel] at hother
        cases hother
    · intro root hroot
      rw [show rootsOf "Jobs" " Jobs.a " = ["a"] by decide +kernel] at hroot
      exact Or.inl (List.mem_singleton.mp hroot)
  obtain ⟨htables, hinsert, hfile⟩ :=
    resolve_local ⟨⟨[("c", "$c"), ("b", "y"), ("a", "x$b")]⟩, "Jobs", 4096⟩ " Jobs.a "
  refine ⟨hbuild, htables _ fun name hname => ?_, hinsert "c" "z" fun hname => ?_,
    hfile _ _ _ _ hbuild.symm fun name hname => ?_⟩
  · rcases hreached name hname with rfl | rfl <;> rfl
  · exact absurd (hreached "c" hname) (by decide)
  · rcases hreached name hname with rfl | rfl
    · exact ⟨by decide +kernel, by simp⟩
    · exact ⟨by decide +kernel, by simp⟩

end Telemetry.Template
