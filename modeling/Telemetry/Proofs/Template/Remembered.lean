import Telemetry.Proofs.Template.Locality

/-!
What a resolution remembers.

* `Cache.Grows` — a cache that has grown out of another one keeps what it holds, and what is new
  belongs to a set. The expansion of a symbol makes the cache grow by symbols that are reached from
  it and are not under expansion (`expandName_grows`).
* `Remembers` — an expander keeps what is remembered and remembers what it returns.
* `foldl_add_follows` — two expansions of one body in step: where the first comes to its end with
  its flag standing, the second gives the same, if the expanders agree on resolved symbols.
* `Cache.Settled` — every resolved entry is what its value reads as when its symbols are looked up
  and none is expanded. So whatever a resolved symbol reaches is remembered, too, and resolved
  (`Cache.Settled.reached`).
* `expandName_settled` — the expander keeps a cache settled.
-/

namespace Telemetry.Template

open Telemetry.Text Relation

/-! ### Growth -/

/-- A cache that has grown out of another one: everything remembered still is, and what is new
belongs to a set. -/
structure Cache.Grows (S : Set String) (cache cache' : Cache) : Prop where
  keeps : ∀ name r, cache.lookup name = some r → cache'.lookup name = some r
  adds : ∀ name r, cache'.lookup name = some r → cache.lookup name = some r ∨ name ∈ S

section Lookup

variable {cache : Cache} {name other : String} {r s : Resolution}

theorem lookup_cons_of_ne (h : other ≠ name) (r : Resolution) (cache : Cache) :
    List.lookup other ((name, r) :: cache) = cache.lookup other := by
  rw [List.lookup_cons, beq_false_of_ne h]

/-- What is looked up behind a new entry is the entry itself or another one. -/
theorem lookup_cons_cases (h : List.lookup other ((name, r) :: cache) = some s) :
    (other = name ∧ r = s) ∨ (other ≠ name ∧ cache.lookup other = some s) := by
  by_cases hother : other = name
  · subst hother
    rw [List.lookup_cons_self] at h
    exact Or.inl ⟨rfl, Option.some.inj h⟩
  · rw [lookup_cons_of_ne hother] at h
    exact Or.inr ⟨hother, h⟩

theorem ne_of_lookup (hnew : cache.lookup name = none) (h : cache.lookup other = some r) :
    other ≠ name := by
  rintro rfl
  rw [hnew] at h
  cases h

end Lookup

section Growth

variable {S T : Set String} {cache cache' cache'' : Cache}

theorem Cache.Grows.refl (S : Set String) (cache : Cache) : Cache.Grows S cache cache :=
  ⟨fun _ _ h => h, fun _ _ h => Or.inl h⟩

theorem Cache.Grows.trans (h : Cache.Grows S cache cache') (h' : Cache.Grows S cache' cache'') :
    Cache.Grows S cache cache'' := by
  refine ⟨fun name r hlookup => h'.keeps name r (h.keeps name r hlookup), ?_⟩
  intro name r hlookup
  rcases h'.adds name r hlookup with hmiddle | hnew
  · exact h.adds name r hmiddle
  · exact Or.inr hnew

theorem Cache.Grows.mono (h : Cache.Grows S cache cache') (hST : S ⊆ T) :
    Cache.Grows T cache cache' :=
  ⟨h.keeps, fun name r hlookup => (h.adds name r hlookup).imp_right (@hST name)⟩

theorem Cache.Grows.cons (h : Cache.Grows S cache cache') {name : String}
    (hnew : cache.lookup name = none) (hname : name ∈ S) (r : Resolution) :
    Cache.Grows S cache ((name, r) :: cache') := by
  constructor
  · intro other r' hlookup
    rw [lookup_cons_of_ne (ne_of_lookup hnew hlookup)]
    exact h.keeps other r' hlookup
  · intro other r' hlookup
    rcases lookup_cons_cases hlookup with ⟨rfl, -⟩ | ⟨-, hlookup⟩
    · exact Or.inr hname
    · exact h.adds other r' hlookup

/-- A symbol outside the set is not remembered if it was not before. -/
theorem Cache.Grows.lookup_eq_none (h : Cache.Grows S cache cache') {name : String}
    (hnew : cache.lookup name = none) (hname : name ∉ S) : cache'.lookup name = none := by
  cases hlookup : cache'.lookup name with
  | none => rfl
  | some r =>
    rcases h.adds name r hlookup with hold | hmem
    · rw [hnew] at hold
      cases hold
    · exact absurd hmem hname

end Growth

section Bodies

variable {table : Symbol.Table} (limit : Nat) {expand : Cache → String → Outcome}

/-- **What every symbol of a body keeps, the body keeps.** -/
theorem foldl_add_cache {Q : Cache → Prop} (ps : List Piece)
    (hexpand : ∀ written name, .token written (some name) ∈ ps → ∀ cache, Q cache →
      Q (expand cache name).2) {p : Progress} (hp : Q p.cache) :
    Q (ps.foldl (Progress.add limit expand) p).cache := by
  induction ps generalizing p with
  | nil => exact hp
  | cons piece ps ih =>
    apply ih fun written name hmem => hexpand written name (List.mem_cons_of_mem _ hmem)
    cases piece with
    | plain c => exact hp
    | token written name =>
      cases name with
      | none => exact hp
      | some name =>
        have hname := hexpand written name List.mem_cons_self p.cache hp
        rcases add_symbol_cases limit expand p written name with
          ⟨-, hadd⟩ | ⟨-, -, hadd⟩ | ⟨inner, -, -, -, hadd⟩
        · rw [hadd]
          exact hp
        · rw [hadd]
          exact hname
        · rw [hadd]
          exact hname

theorem foldl_add_grows {S : Set String} (ps : List Piece)
    (hexpand : ∀ written name, .token written (some name) ∈ ps → ∀ cache,
      Cache.Grows S cache (expand cache name).2) (p : Progress) :
    Cache.Grows S p.cache (ps.foldl (Progress.add limit expand) p).cache :=
  foldl_add_cache limit ps
    (fun written name hmem _ h => h.trans (hexpand written name hmem _)) (.refl S p.cache)

/-- The symbols that are reached from a symbol and are not under expansion. -/
def openFrom (table : Symbol.Table) (chain : List String) (name : String) : Set String :=
  {other | other ∉ chain ∧ ReflTransGen (Mentions table) name other}

/-- The value of a symbol makes the cache grow by what its tokens make it grow by. -/
theorem expandBody_grows {chain : List String} {name bound : String}
    (hexpand : ∀ cache other, Cache.Grows (openFrom table chain other) cache (expand cache other).2)
    (hbound : table.get? name = some bound) (cache : Cache) :
    Cache.Grows (openFrom table chain name) cache (expandBody limit expand cache bound).2 := by
  refine foldl_add_grows limit (piecesOf bound.toList) ?_ ⟨"", true, cache⟩
  intro written other hmem cache'
  refine (hexpand cache' other).mono ?_
  rintro reached ⟨hopen, hreach⟩
  exact ⟨hopen, .head ⟨bound, hbound, mem_symbolsOf_iff.mpr ⟨written, hmem⟩⟩ hreach⟩

/-- **The expansion of a symbol remembers what it reaches**, and forgets nothing. -/
theorem expandName_grows (room : Nat) (chain : List String) (cache : Cache) (name : String) :
    Cache.Grows (openFrom table chain name) cache
      (expandName table limit room chain cache name).2 := by
  induction room using Nat.strongRecOn generalizing chain cache name with
  | _ room ih =>
  rcases expandName_cases table limit room chain cache name with
    ⟨r, -, hout⟩ | ⟨-, -, hout⟩ | ⟨left, bound, rfl, hlookup, hchain, hbound, hout⟩
  · rw [hout]
    exact .refl _ _
  · rw [hout]
    exact .refl _ _
  · rw [hout]
    have hbody := expandBody_grows limit (ih left (Nat.lt_succ_self left) (name :: chain)) hbound
      cache
    have houter : openFrom table (name :: chain) name ⊆ openFrom table chain name :=
      fun other hother => ⟨fun hmem => hother.1 (List.mem_cons_of_mem _ hmem), hother.2⟩
    exact (hbody.mono houter).cons hlookup ⟨hchain, .refl⟩ _

/-! ### What is returned is remembered -/

/-- An expander keeps what is remembered, and remembers what it returns. -/
structure Remembers (expand : Cache → String → Outcome) : Prop where
  keeps : ∀ cache name other r, cache.lookup other = some r →
    (expand cache name).2.lookup other = some r
  result : ∀ cache name r, (expand cache name).1 = some r →
    (expand cache name).2.lookup name = some r

theorem expandName_remembers (table : Symbol.Table) (room : Nat) (chain : List String) :
    Remembers (expandName table limit room chain) := by
  constructor
  · intro cache name other r h
    exact (expandName_grows limit room chain cache name).keeps other r h
  · intro cache name r h
    rcases expandName_cases table limit room chain cache name with
      ⟨r', hlookup, hout⟩ | ⟨-, -, hout⟩ | ⟨left, bound, rfl, -, -, -, hout⟩
    · rw [hout] at h ⊢
      exact hlookup.trans h
    · rw [hout] at h
      cases h
    · rw [hout] at h ⊢
      rw [List.lookup_cons_self]
      exact h

/-- A body keeps what is remembered. -/
theorem Remembers.foldl_add (h : Remembers expand) (ps : List Piece) {p : Progress} {name : String}
    {r : Resolution} (hlookup : p.cache.lookup name = some r) :
    (ps.foldl (Progress.add limit expand) p).cache.lookup name = some r :=
  foldl_add_cache (Q := fun cache => cache.lookup name = some r) limit ps
    (fun _ other _ cache hcache => h.keeps cache other name r hcache) hlookup

/-! ### Bodies with their flag standing -/

theorem add_symbol_of_fits {p : Progress} {name : String} {inner : Resolution} (written : String)
    (hroom : p.value.utf8ByteSize < limit) (hinner : (expand p.cache name).1 = some inner)
    (hfits : p.value.utf8ByteSize + inner.value.utf8ByteSize ≤ limit) :
    p.add limit expand (.token written (some name)) =
      ⟨p.value ++ inner.value, p.resolved && inner.resolved, (expand p.cache name).2⟩ := by
  rcases add_symbol_cases limit expand p written name with
    ⟨hfull, -⟩ | ⟨-, hlarge, -⟩ | ⟨inner', hinner', -, -, hadd⟩
  · omega
  · have := hlarge inner hinner
    omega
  · rw [hinner] at hinner'
    cases hinner'
    exact hadd

/-- A token behind which the flag stands named a symbol with a resolved expansion that fits. -/
theorem add_token_of_resolved {p : Progress} {written : String} {name : Option String}
    (h : (p.add limit expand (.token written name)).resolved = true) :
    ∃ symbol inner, name = some symbol ∧ p.resolved = true ∧
      (expand p.cache symbol).1 = some inner ∧ inner.resolved = true ∧
      p.value.utf8ByteSize < limit ∧
      p.value.utf8ByteSize + inner.value.utf8ByteSize ≤ limit := by
  cases name with
  | none => cases h
  | some symbol =>
    rcases add_symbol_cases limit expand p written symbol with
      ⟨-, hadd⟩ | ⟨-, -, hadd⟩ | ⟨inner, hinner, hroom, hfits, hadd⟩
    · rw [hadd] at h
      cases h
    · rw [hadd] at h
      cases h
    · rw [hadd] at h
      obtain ⟨hbefore, hflag⟩ := Bool.and_eq_true_iff.mp h
      exact ⟨symbol, inner, rfl, hbefore, hinner, hflag, hroom, hfits⟩

/-- **If the flag stands behind a body**, it stood in front of it, and every symbol of the body is
remembered, resolved. -/
theorem Remembers.foldl_add_resolved (hexpand : Remembers expand) (ps : List Piece) (p : Progress)
    (h : (ps.foldl (Progress.add limit expand) p).resolved = true) :
    p.resolved = true ∧ ∀ written name, .token written (some name) ∈ ps →
      ∃ r, (ps.foldl (Progress.add limit expand) p).cache.lookup name = some r ∧
        r.resolved = true := by
  induction ps generalizing p with
  | nil => exact ⟨h, by simp⟩
  | cons piece ps ih =>
    obtain ⟨hstep, hrest⟩ := ih (p.add limit expand piece) h
    cases piece with
    | plain c =>
      refine ⟨hstep, fun written name hmem => hrest written name ?_⟩
      exact List.mem_of_ne_of_mem (by simp) hmem
    | token written name =>
      obtain ⟨symbol, inner, rfl, hbefore, hinner, hflag, hroom, hfits⟩ :=
        add_token_of_resolved limit hstep
      refine ⟨hbefore, fun written' name hmem => ?_⟩
      rcases List.mem_cons.mp hmem with heq | hmem
      · cases heq
        refine ⟨inner, hexpand.foldl_add limit ps ?_, hflag⟩
        rw [add_symbol_of_fits limit written hroom hinner hfits]
        exact hexpand.result p.cache symbol inner hinner
      · exact hrest written' name hmem

/-- **Two expansions in step.** Where the first one comes to the end of a body with its flag
standing, the second one gives the same, provided that it gives the same for every symbol that the
first one resolves. The end of the first one may be made use of: it keeps what is remembered on the
way. -/
theorem foldl_add_follows {I : Cache → Cache → Prop} (hexpand : Remembers expand)
    (expand' : Cache → String → Outcome) (ps : List Piece) {p p' : Progress} (h : p.Alike I p')
    (hflag : (ps.foldl (Progress.add limit expand) p).resolved = true)
    (hstep : ∀ written name, .token written (some name) ∈ ps → ∀ cache cache' r, I cache cache' →
      (expand cache name).1 = some r → r.resolved = true →
      (ps.foldl (Progress.add limit expand) p).cache.lookup name = some r →
      (expand' cache' name).1 = some r ∧ I (expand cache name).2 (expand' cache' name).2) :
    (ps.foldl (Progress.add limit expand) p).Alike I
      (ps.foldl (Progress.add limit expand') p') := by
  induction ps generalizing p p' with
  | nil => exact h
  | cons piece ps ih =>
    obtain ⟨hone, -⟩ := hexpand.foldl_add_resolved limit ps (p.add limit expand piece) hflag
    refine ih ?_ hflag fun written name hmem => hstep written name (List.mem_cons_of_mem _ hmem)
    cases piece with
    | plain c => exact ⟨congrArg (·.push c) h.value, h.resolved, h.cache⟩
    | token written name =>
      obtain ⟨symbol, inner, rfl, -, hinner, hresolved, hroom, hfits⟩ :=
        add_token_of_resolved limit hone
      have hadd := add_symbol_of_fits limit written hroom hinner hfits
      have hend : ((.token written (some symbol) :: ps).foldl (Progress.add limit expand)
          p).cache.lookup symbol = some inner := by
        refine hexpand.foldl_add limit ps ?_
        rw [hadd]
        exact hexpand.result p.cache symbol inner hinner
      obtain ⟨hinner', hcache⟩ := hstep written symbol List.mem_cons_self p.cache p'.cache inner
        h.cache hinner hresolved hend
      rw [h.value] at hroom hfits
      rw [hadd, add_symbol_of_fits limit written hroom hinner' hfits, h.value, h.resolved]
      exact ⟨rfl, rfl, hcache⟩

/-! ### Settled caches -/

theorem expandName_zero (table : Symbol.Table) (chain : List String) (cache : Cache)
    (name : String) : expandName table limit 0 chain cache name = (cache.lookup name, cache) := by
  unfold expandName
  cases cache.lookup name with
  | none => rfl
  | some r => rfl

/-- Every resolved entry is what its value reads as when there is no room for a symbol: symbols are
looked up and none is expanded. -/
def Cache.Settled (table : Symbol.Table) (limit : Nat) (cache : Cache) : Prop :=
  ∀ name r, cache.lookup name = some r → r.resolved = true →
    ∃ bound, table.get? name = some bound ∧
      (expandBody limit (expandName table limit 0 []) cache bound).1 = r

theorem Cache.settled_nil (table : Symbol.Table) : Cache.Settled table limit [] := by
  intro name r h
  cases h

theorem expandBody_zero_cache (table : Symbol.Table) (cache : Cache) (body : String) :
    (expandBody limit (expandName table limit 0 []) cache body).2 = cache :=
  foldl_add_cache (Q := fun after => after = cache) limit (piecesOf body.toList)
    (fun _ name _ after hafter => by rw [expandName_zero]; exact hafter) rfl

/-- **What a body was expanded to with its flag standing, it reads as** wherever everything is
remembered that was in the end. -/
theorem expandBody_recalled (table : Symbol.Table) (hexpand : Remembers expand)
    {cache cache' : Cache} {body : String}
    (hflag : (expandBody limit expand cache body).1.resolved = true)
    (hkeeps : ∀ name r, (expandBody limit expand cache body).2.lookup name = some r →
      cache'.lookup name = some r) :
    (expandBody limit (expandName table limit 0 []) cache' body).1 =
      (expandBody limit expand cache body).1 := by
  have halike := foldl_add_follows (I := fun _ after => after = cache') limit hexpand
    (expandName table limit 0 []) (piecesOf body.toList)
    (⟨rfl, rfl, rfl⟩ : Progress.Alike _ ⟨"", true, cache⟩ ⟨"", true, cache'⟩) hflag ?_
  · exact congrArg₂ Resolution.mk halike.value.symm halike.resolved.symm
  · rintro written name - _ _ r rfl - - hend
    rw [expandName_zero]
    exact ⟨hkeeps name r hend, rfl⟩

section Settled

variable {limit} {cache : Cache} {name : String} {r : Resolution}

theorem Cache.Settled.mentioned (h : Cache.Settled table limit cache)
    (hlookup : cache.lookup name = some r) (hflag : r.resolved = true) {other : String}
    (hmentions : Mentions table name other) :
    ∃ r', cache.lookup other = some r' ∧ r'.resolved = true := by
  obtain ⟨bound, hbound, rfl⟩ := h name r hlookup hflag
  obtain ⟨bound', hbound', hother⟩ := hmentions
  obtain rfl := Option.some.inj (hbound.symm.trans hbound')
  obtain ⟨written, hmem⟩ := mem_symbolsOf_iff.mp hother
  obtain ⟨-, hsymbols⟩ := (expandName_remembers limit table 0 []).foldl_add_resolved limit
    (piecesOf bound.toList) ⟨"", true, cache⟩ hflag
  obtain ⟨r', hlookup', hflag'⟩ := hsymbols written other hmem
  have hcache := expandBody_zero_cache limit table cache bound
  exact ⟨r', hcache ▸ hlookup', hflag'⟩

/-- **Whatever a resolved symbol reaches is remembered, resolved.** -/
theorem Cache.Settled.reached (h : Cache.Settled table limit cache)
    (hlookup : cache.lookup name = some r) (hflag : r.resolved = true) {other : String}
    (hreach : ReflTransGen (Mentions table) name other) :
    ∃ r', cache.lookup other = some r' ∧ r'.resolved = true := by
  induction hreach with
  | refl => exact ⟨r, hlookup, hflag⟩
  | tail _ hmentions ih =>
    obtain ⟨r', hlookup', hflag'⟩ := ih
    exact h.mentioned hlookup' hflag' hmentions

/-- A symbol can be added to a settled cache with the resolution that its value was expanded to. -/
theorem Cache.Settled.cons {bound : String} (hexpand : Remembers expand)
    (hsettled : Cache.Settled table limit (expandBody limit expand cache bound).2)
    (hnew : (expandBody limit expand cache bound).2.lookup name = none)
    (hbound : table.get? name = some bound) :
    Cache.Settled table limit ((name, (expandBody limit expand cache bound).1) ::
      (expandBody limit expand cache bound).2) := by
  have hkeeps : ∀ other r, (expandBody limit expand cache bound).2.lookup other = some r →
      List.lookup other ((name, (expandBody limit expand cache bound).1) ::
        (expandBody limit expand cache bound).2) = some r := by
    intro other r hlookup
    rw [lookup_cons_of_ne (ne_of_lookup hnew hlookup)]
    exact hlookup
  intro other r hlookup hflag
  rcases lookup_cons_cases hlookup with ⟨rfl, rfl⟩ | ⟨-, hlookup⟩
  · exact ⟨bound, hbound, expandBody_recalled limit table hexpand hflag hkeeps⟩
  · obtain ⟨bound', hbound', rfl⟩ := hsettled other r hlookup hflag
    refine ⟨bound', hbound', expandBody_recalled limit table (expandName_remembers limit table 0 [])
      hflag ?_⟩
    rw [expandBody_zero_cache]
    exact hkeeps

end Settled

/-- **The expansion of a symbol keeps a cache settled.** -/
theorem expandName_settled (room : Nat) (chain : List String) {cache : Cache} (name : String)
    (h : Cache.Settled table limit cache) :
    Cache.Settled table limit (expandName table limit room chain cache name).2 := by
  induction room using Nat.strongRecOn generalizing chain cache name with
  | _ room ih =>
  rcases expandName_cases table limit room chain cache name with
    ⟨r, -, hout⟩ | ⟨-, -, hout⟩ | ⟨left, bound, rfl, hlookup, -, hbound, hout⟩
  · rw [hout]
    exact h
  · rw [hout]
    exact h
  · rw [hout]
    have hbody : Cache.Settled table limit
        (expandBody limit (expandName table limit left (name :: chain)) cache bound).2 :=
      foldl_add_cache limit (piecesOf bound.toList)
        (fun _ other _ _ hcache => ih left (Nat.lt_succ_self left) (name :: chain) other hcache) h
    have hgrows := expandBody_grows limit (expandName_grows limit left (name :: chain)) hbound cache
    refine hbody.cons (expandName_remembers limit table left (name :: chain)) ?_ hbound
    exact hgrows.lookup_eq_none hlookup fun hopen => hopen.1 List.mem_cons_self

end Bodies

end Telemetry.Template
