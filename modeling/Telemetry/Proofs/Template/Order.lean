import Mathlib.Data.List.Infix
import Telemetry.Proofs.Template.Remembered

/-!
Whether a symbol resolves behind other tokens as it does on its own.

All tokens of a literal share one cache, and a symbol that is met deep inside the expansion of an
earlier token may be remembered before it could be expanded to its end. `Cache.Reliable` collects
what can be relied on all the same: resolved entries are complete expansions.

* `expandName_follows` — a symbol that resolves on its own resolves alike wherever nothing that it
  reaches is remembered unresolved, and (`resolved_of_expandName`) nowhere else.
* `Trail` — the symbols that are met one after the other when mentions are followed from some
  tokens. The expansion of those tokens leaves nothing unresolved that the symbol reaches, as long
  as no trail to it has more symbols than may be under expansion (`expandName_within`).
* `token_replaced_iff` — so the tokens in front of a token make a difference to it through the depth
  limit alone.
-/

namespace Telemetry.Template

open Telemetry.Text Relation

/-! ### Symbols and references -/

/-- The symbols of a body are identifiers inside its tokens. -/
theorem hasToken_of_mem_symbolsOf {cs : List Char} {name : String} (h : name ∈ symbolsOf cs) :
    ∃ inside, HasToken cs inside ∧ isIdentifier (trim inside) = true ∧
      String.ofList (trim inside) = name := by
  refine foldl_pieces_induction (f := fun p _ => p)
    (motive := fun cs _ _ => name ∈ symbolsOf cs → ∃ inside, HasToken cs inside ∧
      isIdentifier (trim inside) = true ∧ String.ofList (trim inside) = name)
    ?_ ?_ ?_ cs ⟨"", true, []⟩ h
  · intro _ hname
    cases hname
  · intro c cs _ _ hplain ih hname
    rw [symbolsOf, pieces_of_plain hplain] at hname
    obtain ⟨inside, htoken, hinside⟩ := ih hname
    exact ⟨inside, .afterPlain hplain htoken, hinside⟩
  · intro cs inside rest _ _ _ htoken _ ih hname
    obtain ⟨written, hpieces, -⟩ := pieces_of_token htoken
    obtain ⟨written', hmem⟩ := mem_symbolsOf_iff.mp hname
    rw [hpieces] at hmem
    rcases List.mem_cons.mp hmem with heq | hrest
    · have hsymbol : bracedName? inside = some name := (Piece.token.inj heq).2.symm
      obtain ⟨hidentifier, hname⟩ := Option.ite_none_right_eq_some.mp hsymbol
      exact ⟨inside, .here htoken, hidentifier, Option.some.inj hname⟩
    · obtain ⟨inside', htoken', hinside'⟩ := ih (mem_symbolsOf_iff.mpr ⟨written', hrest⟩)
      exact ⟨inside', .afterToken htoken htoken', hinside'⟩

theorem isIdentifier_of_mem_symbolsOf {cs : List Char} {name : String} (h : name ∈ symbolsOf cs) :
    isIdentifier name.toList = true := by
  obtain ⟨inside, -, hidentifier, rfl⟩ := hasToken_of_mem_symbolsOf h
  rw [String.toList_ofList]
  exact hidentifier

theorem isClosed_reachedFrom (table : Symbol.Table) (name : String) :
    IsClosed table {other | ReflTransGen (Mentions table) name other} := by
  intro other hother next hmentions
  exact hother.tail hmentions

theorem Mentions.refers {table : Symbol.Table} {name other bound bound' : String}
    (h : Mentions table name other) (hbound : table.get? name = some bound)
    (hbound' : table.get? other = some bound') : Refers table bound.toList bound'.toList := by
  obtain ⟨value, hvalue, hother⟩ := h
  obtain rfl := Option.some.inj (hbound.symm.trans hvalue)
  obtain ⟨inside, htoken, hidentifier, rfl⟩ := hasToken_of_mem_symbolsOf hother
  exact ⟨inside, bound', htoken, hidentifier, hbound', rfl⟩

section Order

variable {table : Symbol.Table} {limit : Nat} {S : Set String}

/-! ### Reliable caches -/

/-- A cache whose resolved entries are complete expansions, with everything that they reach. -/
structure Cache.Reliable (table : Symbol.Table) (limit : Nat) (cache : Cache) : Prop where
  sound : Cache.Sound table cache
  settled : Cache.Settled table limit cache

theorem Cache.reliable_nil (table : Symbol.Table) (limit : Nat) : Cache.Reliable table limit [] :=
  ⟨sound_nil, settled_nil limit table⟩

theorem Cache.Reliable.expandName {cache : Cache} (h : Cache.Reliable table limit cache)
    (room : Nat) (chain : List String) (name : String) :
    Cache.Reliable table limit (expandName table limit room chain cache name).2 :=
  ⟨(expandName_sound table limit room chain cache name h.sound).1,
    expandName_settled limit room chain name h.settled⟩

/-- Two reliable caches agree on what they have both resolved. -/
theorem Cache.Reliable.unique {cache cache' : Cache} (h : Cache.Reliable table limit cache)
    (h' : Cache.Reliable table limit cache') {name : String} {r r' : Resolution}
    (hlookup : cache.lookup name = some r) (hlookup' : cache'.lookup name = some r')
    (hflag : r.resolved = true) (hflag' : r'.resolved = true) : r = r' := by
  obtain ⟨bound, hbound, hexpands⟩ := h.sound name r hlookup hflag
  obtain ⟨bound', hbound', hexpands'⟩ := h'.sound name r' hlookup' hflag'
  obtain rfl := Option.some.inj (hbound.symm.trans hbound')
  have hvalue : r.value = r'.value := String.toList_inj.mp (hexpands.unique hexpands')
  obtain ⟨value, resolved⟩ := r
  obtain ⟨value', resolved'⟩ := r'
  exact congrArg₂ Resolution.mk hvalue (hflag.trans hflag'.symm)

/-- **A resolved symbol is on no cycle.** -/
theorem Cache.Reliable.acyclic {cache : Cache} (h : Cache.Reliable table limit cache)
    {name : String} {r : Resolution} (hlookup : cache.lookup name = some r)
    (hflag : r.resolved = true) : ¬ TransGen (Mentions table) name name := by
  obtain ⟨bound, hbound, hexpands⟩ := h.sound name r hlookup hflag
  have hbodies : ∀ {other : String}, TransGen (Mentions table) name other →
      ∃ bound', table.get? other = some bound' ∧
        TransGen (Refers table) bound.toList bound'.toList := by
    intro other hreach
    obtain ⟨r', hlookup', hflag'⟩ := h.settled.reached hlookup hflag hreach.to_reflTransGen
    obtain ⟨bound', hbound', -⟩ := h.sound other r' hlookup' hflag'
    refine ⟨bound', hbound', ?_⟩
    induction hreach generalizing r' bound' with
    | single hmentions => exact .single (hmentions.refers hbound hbound')
    | tail hreach hmentions ih =>
      obtain ⟨r₁, hlookup₁, hflag₁⟩ := h.settled.reached hlookup hflag hreach.to_reflTransGen
      obtain ⟨bound₁, hbound₁, -⟩ := h.sound _ r₁ hlookup₁ hflag₁
      exact (ih r₁ hlookup₁ hflag₁ bound₁ hbound₁).tail (hmentions.refers hbound₁ hbound')
  intro hcycle
  obtain ⟨bound', hbound', hrefers⟩ := hbodies hcycle
  obtain rfl := Option.some.inj (hbound.symm.trans hbound')
  exact hexpands.acyclic_of_reaches .refl hrefers

/-! ### A symbol on its own and behind other tokens -/

/-- The second of two reliable caches remembers, for the symbols of a set, whatever the first one
does, and nothing that is unresolved. -/
structure Cache.Ahead (table : Symbol.Table) (limit : Nat) (S : Set String)
    (cache cache' : Cache) : Prop where
  reliable : Cache.Reliable table limit cache
  reliable' : Cache.Reliable table limit cache'
  keeps : ∀ name ∈ S, ∀ r, cache.lookup name = some r → cache'.lookup name = some r
  resolved : ∀ name ∈ S, ∀ r, cache'.lookup name = some r → r.resolved = true

/-- A symbol that the second cache remembers leaves it ahead. -/
theorem Cache.Ahead.of_lookup {cache cache' : Cache} (h : Cache.Ahead table limit S cache cache')
    (room : Nat) (chain : List String) {name : String} (hname : name ∈ S) {r r' : Resolution}
    (hresult : (expandName table limit room chain cache name).1 = some r)
    (hflag : r.resolved = true) (hlookup' : cache'.lookup name = some r') :
    r' = r ∧ Cache.Ahead table limit S (expandName table limit room chain cache name).2 cache' := by
  have hafter := h.reliable.expandName room chain name
  have hlookup := (expandName_remembers limit table room chain).result cache name r hresult
  have hflag' := h.resolved name hname r' hlookup'
  refine ⟨h.reliable'.unique hafter hlookup' hlookup hflag' hflag,
    hafter, h.reliable', ?_, h.resolved⟩
  intro other hother s hs
  rcases (expandName_grows limit room chain cache name).adds other s hs with hold | ⟨-, hreach⟩
  · exact h.keeps other hother s hold
  · obtain ⟨t, ht, htflag⟩ := hafter.settled.reached hlookup hflag hreach
    obtain rfl := Option.some.inj (hs.symm.trans ht)
    obtain ⟨u, hu, huflag⟩ := h.reliable'.settled.reached hlookup' hflag' hreach
    rw [hu, h.reliable'.unique hafter hu hs huflag htflag]

/-- A resolved symbol that is added to both caches leaves the second one ahead. -/
theorem Cache.Ahead.cons {cache cache' : Cache} (h : Cache.Ahead table limit S cache cache')
    {name : String} {r : Resolution} (hflag : r.resolved = true)
    (hreliable : Cache.Reliable table limit ((name, r) :: cache))
    (hreliable' : Cache.Reliable table limit ((name, r) :: cache')) :
    Cache.Ahead table limit S ((name, r) :: cache) ((name, r) :: cache') := by
  refine ⟨hreliable, hreliable', ?_, ?_⟩
  · intro other hother s hs
    rcases lookup_cons_cases hs with ⟨rfl, rfl⟩ | ⟨hne, hs⟩
    · exact List.lookup_cons_self
    · rw [lookup_cons_of_ne hne]
      exact h.keeps other hother s hs
  · intro other hother s hs
    rcases lookup_cons_cases hs with ⟨-, rfl⟩ | ⟨-, hs⟩
    · exact hflag
    · exact h.resolved other hother s hs

/-- **A symbol follows its own resolution.** What it is resolved to from one cache, it is resolved
to from any cache that is ahead. -/
theorem expandName_follows (hclosed : IsClosed table S) (room : Nat) (chain : List String)
    {cache cache' : Cache} (h : Cache.Ahead table limit S cache cache') {name : String}
    (hname : name ∈ S) {r : Resolution}
    (hresult : (expandName table limit room chain cache name).1 = some r)
    (hflag : r.resolved = true) :
    (expandName table limit room chain cache' name).1 = some r ∧
      Cache.Ahead table limit S (expandName table limit room chain cache name).2
        (expandName table limit room chain cache' name).2 := by
  induction room using Nat.strongRecOn generalizing chain cache cache' name r with
  | _ room ih =>
  cases hlookup' : cache'.lookup name with
  | some r' =>
    obtain ⟨rfl, hahead⟩ := h.of_lookup room chain hname hresult hflag hlookup'
    have hout' : expandName table limit room chain cache' name = (some r', cache') := by
      unfold expandName
      rw [hlookup']
    rw [hout']
    exact ⟨rfl, hahead⟩
  | none =>
    rcases expandName_cases table limit room chain cache name with
      ⟨s, hlookup, -⟩ | ⟨-, -, hout⟩ | ⟨left, bound, rfl, hnew, hchain, hbound, hout⟩
    · rw [h.keeps name hname s hlookup] at hlookup'
      cases hlookup'
    · rw [hout] at hresult
      cases hresult
    · have hafter := h.reliable.expandName (left + 1) chain name
      have hafter' := h.reliable'.expandName (left + 1) chain name
      have hout' := expandName_of_new limit left hlookup' hchain hbound
      rw [hout] at hresult hafter ⊢
      rw [hout'] at hafter' ⊢
      obtain rfl := Option.some.inj hresult
      -- both bodies are read in step, one token after the other
      have hbody := foldl_add_follows (I := Cache.Ahead table limit S) limit
        (expandName_remembers limit table left (name :: chain))
        (expandName table limit left (name :: chain)) (piecesOf bound.toList)
        (⟨rfl, rfl, h⟩ : Progress.Alike _ ⟨"", true, cache⟩ ⟨"", true, cache'⟩) hflag ?_
      · have hsame :
            (expandBody limit (expandName table limit left (name :: chain)) cache bound).1 =
              (expandBody limit (expandName table limit left (name :: chain)) cache' bound).1 :=
          congrArg₂ Resolution.mk hbody.value hbody.resolved
        rw [← hsame] at hafter' ⊢
        exact ⟨rfl, hbody.cache.cons hflag hafter hafter'⟩
      · intro written other hmem cache₁ cache₁' s hahead hs hsflag _
        have hother : other ∈ S :=
          hclosed name hname other ⟨bound, hbound, mem_symbolsOf_iff.mpr ⟨written, hmem⟩⟩
        exact ih left (Nat.lt_succ_self left) (name :: chain) hahead hother hs hsflag

/-- **A symbol that is resolved reaches nothing that was remembered unresolved.** -/
theorem resolved_of_expandName {cache : Cache} (h : Cache.Settled table limit cache) {room : Nat}
    {chain : List String} {name other : String} {r s : Resolution}
    (hresult : (expandName table limit room chain cache name).1 = some r)
    (hflag : r.resolved = true) (hreach : ReflTransGen (Mentions table) name other)
    (hlookup : cache.lookup other = some s) : s.resolved = true := by
  have hremembers := expandName_remembers limit table room chain
  have hsettled := expandName_settled limit room chain name h
  obtain ⟨t, ht, htflag⟩ :=
    hsettled.reached (hremembers.result cache name r hresult) hflag hreach
  obtain rfl := Option.some.inj (ht.symm.trans (hremembers.keeps cache name other s hlookup))
  exact htflag

/-! ### Trails -/

/-- A symbol can come next on a trail: it is one of those to start from, or the last symbol mentions
it. -/
def LeadsTo (table : Symbol.Table) (roots : Set String) : List String → String → Prop
  | [], name => name ∈ roots
  | last :: _, name => Mentions table last name

/-- Symbols, no two alike, that are met one after the other when mentions are followed; the last one
comes first. -/
inductive Trail (table : Symbol.Table) (roots : Set String) : List String → Prop where
  | nil : Trail table roots []
  | cons {trail : List String} {name : String} (htrail : Trail table roots trail)
      (hnew : name ∉ trail) (hleads : LeadsTo table roots trail name) :
      Trail table roots (name :: trail)

/-- Every symbol on a trail reaches the one that comes next. -/
theorem Trail.reaches {roots : Set String} {trail : List String} (h : Trail table roots trail)
    {name other : String} (hleads : LeadsTo table roots trail name) (hmem : other ∈ trail) :
    TransGen (Mentions table) other name := by
  induction h generalizing name with
  | nil => cases hmem
  | cons _ _ hleads' ih =>
    rcases List.mem_cons.mp hmem with rfl | hmem
    · exact .single hleads
    · exact (ih hleads' hmem).tail hleads

/-- For the symbols of a set, a cache remembers nothing but what is known. -/
def Cache.Within (S : Set String) (known cache : Cache) : Prop :=
  ∀ name ∈ S, ∀ r, cache.lookup name = some r → known.lookup name = some r

section Within

variable {known : Cache} {roots : Set String}

/-- **Where no trail is too long, nothing is cut short.** A closed set of symbols that are known to
be resolved, and that no trail of more than `maxDepth` symbols leads to, is expanded to what is
known wherever one of its symbols is met on a trail. -/
theorem expandName_within (hknown : Cache.Reliable table limit known)
    (hS : ∀ name ∈ S, ∃ r, known.lookup name = some r ∧ r.resolved = true)
    (hclosed : IsClosed table S)
    (hdeep : ∀ name ∈ S, ∀ trail, Trail table roots (name :: trail) → trail.length < maxDepth)
    {room : Nat} {chain : List String} (hroom : chain.length + room = maxDepth)
    (htrail : Trail table roots chain) {name : String} (hleads : LeadsTo table roots chain name)
    {cache : Cache} (h : Cache.Within S known cache) :
    (name ∈ S → (expandName table limit room chain cache name).1 = known.lookup name) ∧
      Cache.Within S known (expandName table limit room chain cache name).2 := by
  induction room using Nat.strongRecOn generalizing chain cache name with
  | _ room ih =>
  rcases expandName_cases table limit room chain cache name with
    ⟨r, hlookup, hout⟩ | ⟨-, hrefused, hout⟩ | ⟨left, bound, rfl, -, hchain, hbound, hout⟩
  · rw [hout]
    exact ⟨fun hname => (h name hname r hlookup).symm, h⟩
  · rw [hout]
    refine ⟨fun hname => ?_, h⟩
    obtain ⟨r, hlookup, hflag⟩ := hS name hname
    have hchain : name ∉ chain :=
      fun hmem => hknown.acyclic hlookup hflag (htrail.reaches hleads hmem)
    rcases hrefused with rfl | hmem | hunbound
    · have := hdeep name hname chain (.cons htrail hchain hleads)
      omega
    · exact absurd hmem hchain
    · obtain ⟨bound, hbound, -⟩ := hknown.sound name r hlookup hflag
      rw [hunbound] at hbound
      cases hbound
  · rw [hout]
    have hinner : ∀ written other, .token written (some other) ∈ piecesOf bound.toList →
        ∀ cache, Cache.Within S known cache →
          (other ∈ S → (expandName table limit left (name :: chain) cache other).1 =
            known.lookup other) ∧
          Cache.Within S known (expandName table limit left (name :: chain) cache other).2 := by
      intro written other hmem cache hcache
      refine ih left (Nat.lt_succ_self left) ?_ (.cons htrail hchain hleads) ?_ hcache
      · rw [List.length_cons]
        omega
      · exact ⟨bound, hbound, mem_symbolsOf_iff.mpr ⟨written, hmem⟩⟩
    have hbody : Cache.Within S known
        (expandBody limit (expandName table limit left (name :: chain)) cache bound).2 :=
      foldl_add_cache limit (piecesOf bound.toList)
        (fun written other hmem cache hcache => (hinner written other hmem cache hcache).2) h
    have hresult : name ∈ S → known.lookup name = some
        (expandBody limit (expandName table limit left (name :: chain)) cache bound).1 := by
      intro hname
      obtain ⟨r, hlookup, hflag⟩ := hS name hname
      obtain ⟨bound', hbound', rfl⟩ := hknown.settled name r hlookup hflag
      obtain rfl := Option.some.inj (hbound.symm.trans hbound')
      -- the body is read in step with what is known of its symbols
      have halike := foldl_add_follows
        (I := fun recalled cache => recalled = known ∧ Cache.Within S known cache) limit
        (expandName_remembers limit table 0 []) (expandName table limit left (name :: chain))
        (piecesOf bound.toList)
        (⟨rfl, rfl, rfl, h⟩ : Progress.Alike _ ⟨"", true, known⟩ ⟨"", true, cache⟩) hflag ?_
      · rw [hlookup]
        exact congrArg some (congrArg₂ Resolution.mk halike.value halike.resolved)
      · rintro written other hmem _ cache r ⟨rfl, hcache⟩ hr - -
        rw [expandName_zero] at hr ⊢
        obtain ⟨hsame, hwithin⟩ := hinner written other hmem cache hcache
        have hother : other ∈ S :=
          hclosed name hname other ⟨bound, hbound, mem_symbolsOf_iff.mpr ⟨written, hmem⟩⟩
        exact ⟨(hsame hother).trans hr, rfl, hwithin⟩
    refine ⟨fun hname => (hresult hname).symm, ?_⟩
    intro other hother s hs
    rcases lookup_cons_cases hs with ⟨rfl, rfl⟩ | ⟨-, hs⟩
    · exact hresult hother
    · exact hbody other hother s hs

end Within

end Order

/-! ### Name expressions -/

/-- A bare symbol is resolved by its expansion. -/
theorem resolve_of_isIdentifier (ctx : Context) {name : String}
    (h : isIdentifier name.toList = true) :
    resolve ctx name =
      (expandName ctx.table ctx.limit maxDepth [] [] name).1.getD ⟨name, false⟩ := by
  have hunquoted : unquote? name.toList = none := by
    cases hquoted : unquote? name.toList with
    | none => rfl
    | some body =>
      have hmem : '"' ∈ name.toList := by
        rw [unquote?_eq_some_iff.mp hquoted]
        exact List.mem_cons_self
      exact absurd hmem (not_mem_identifier (by decide) h)
  have hlocal : localName ctx.identifier name.toList = name.toList := by
    unfold localName
    split
    · rfl
    · split
      · rename_i rest hrest
        have hmem : '.' ∈ name.toList := by
          rw [← List.isPrefixOf?_eq_some_iff_append_eq.mp hrest]
          simp
        exact absurd hmem (not_mem_identifier (by decide) h)
      · rfl
  simp only [resolve, trim_of_isIdentifier h, hunquoted, hlocal, String.ofList_toList]
  cases (expandName ctx.table ctx.limit maxDepth [] [] name).1 with
  | none => rfl
  | some r => rfl

/-- A symbol that resolves on its own is expanded from an empty cache. -/
theorem expandName_of_resolve {ctx : Context} {name value : String}
    (hname : isIdentifier name.toList = true) (h : resolve ctx name = ⟨value, true⟩) :
    (expandName ctx.table ctx.limit maxDepth [] [] name).1 = some ⟨value, true⟩ := by
  rw [resolve_of_isIdentifier ctx hname] at h
  cases hresult : (expandName ctx.table ctx.limit maxDepth [] [] name).1 with
  | none =>
    rw [hresult] at h
    cases h
  | some r =>
    rw [hresult] at h
    exact congrArg some h

/-- The state in which a resolution has read some pieces of a literal. -/
def readPieces (ctx : Context) (ps : List Piece) : Progress :=
  ps.foldl (Progress.add ctx.limit (expandName ctx.table ctx.limit maxDepth [])) ⟨"", true, []⟩

/-- A token behind some pieces is replaced by a value: its symbol is expanded to it, it is put
behind what was read before, and the flag is left as it was. -/
structure Replaced (ctx : Context) (before : List Piece) (written name value : String) : Prop where
  expanded : (expandName ctx.table ctx.limit maxDepth [] (readPieces ctx before).cache name).1 =
    some ⟨value, true⟩
  value : (readPieces ctx (before ++ [.token written (some name)])).value =
    (readPieces ctx before).value ++ value
  resolved : (readPieces ctx (before ++ [.token written (some name)])).resolved =
    (readPieces ctx before).resolved

theorem resolve_of_quoted {ctx : Context} {expr : String} {body : List Char}
    (h : trim expr.toList = '"' :: (body ++ ['"'])) :
    resolve ctx expr =
      ⟨(readPieces ctx (piecesOf body)).value, (readPieces ctx (piecesOf body)).resolved⟩ := by
  simp only [resolve, unquote?_eq_some_iff.mpr h]
  simp only [expandBody, pieces, String.toList_ofList]
  rfl

section Tokens

variable {ctx : Context} {before after : List Piece} {written name value : String}

theorem readPieces_concat (ctx : Context) (ps : List Piece) (piece : Piece) :
    readPieces ctx (ps ++ [piece]) = (readPieces ctx ps).add ctx.limit
      (expandName ctx.table ctx.limit maxDepth []) piece :=
  List.foldl_concat _ _ _ _

theorem reliable_readPieces (ctx : Context) (ps : List Piece) :
    Cache.Reliable ctx.table ctx.limit (readPieces ctx ps).cache :=
  foldl_add_cache ctx.limit ps (fun _ name _ _ h => h.expandName maxDepth [] name)
    (Cache.reliable_nil ctx.table ctx.limit)

/-- What is read later is put behind what was read before. -/
theorem exists_value_readPieces_append (ctx : Context) (ps qs : List Piece) :
    ∃ rest, (readPieces ctx (ps ++ qs)).value = (readPieces ctx ps).value ++ rest := by
  induction qs using List.reverseRecOn with
  | nil => exact ⟨"", by simp⟩
  | append_singleton qs piece ih =>
    obtain ⟨rest, hrest⟩ := ih
    have hadd : ∃ more, (readPieces ctx (ps ++ (qs ++ [piece]))).value =
        (readPieces ctx (ps ++ qs)).value ++ more := by
      rw [← List.append_assoc, readPieces_concat]
      cases piece with
      | plain c => exact ⟨String.singleton c, rfl⟩
      | token written name =>
        cases name with
        | none => exact ⟨written, rfl⟩
        | some name =>
          rcases add_symbol_cases ctx.limit (expandName ctx.table ctx.limit maxDepth [])
            (readPieces ctx (ps ++ qs)) written name with
            ⟨-, hadd⟩ | ⟨-, -, hadd⟩ | ⟨inner, -, -, -, hadd⟩
          · exact ⟨written, congrArg Progress.value hadd⟩
          · exact ⟨written, congrArg Progress.value hadd⟩
          · exact ⟨inner.value, congrArg Progress.value hadd⟩
    obtain ⟨more, hmore⟩ := hadd
    exact ⟨rest ++ more, by rw [hmore, hrest, String.append_assoc]⟩

/-- A token is replaced by what its symbol is expanded to, if that fits. -/
theorem Replaced.of_expanded (written : String)
    (hexpanded : (expandName ctx.table ctx.limit maxDepth [] (readPieces ctx before).cache
      name).1 = some ⟨value, true⟩)
    (hroom : (readPieces ctx before).value.utf8ByteSize < ctx.limit)
    (hfits : (readPieces ctx before).value.utf8ByteSize + value.utf8ByteSize ≤ ctx.limit) :
    Replaced ctx before written name value := by
  have hadd := readPieces_concat ctx before (.token written (some name))
  rw [add_symbol_of_fits ctx.limit written hroom hexpanded hfits] at hadd
  refine ⟨hexpanded, congrArg Progress.value hadd, ?_⟩
  rw [hadd]
  exact Bool.and_true _

/-- Behind pieces that leave nothing unresolved that it reaches, a symbol is expanded as it is on
its own. -/
theorem expandName_behind
    (halone : (expandName ctx.table ctx.limit maxDepth [] [] name).1 = some ⟨value, true⟩)
    (h : ∀ other, ReflTransGen (Mentions ctx.table) name other →
      ∀ r, (readPieces ctx before).cache.lookup other = some r → r.resolved = true) :
    (expandName ctx.table ctx.limit maxDepth [] (readPieces ctx before).cache name).1 =
      some ⟨value, true⟩ := by
  have hahead : Cache.Ahead ctx.table ctx.limit
      {other | ReflTransGen (Mentions ctx.table) name other} [] (readPieces ctx before).cache :=
    ⟨Cache.reliable_nil _ _, reliable_readPieces ctx before, by simp, h⟩
  exact (expandName_follows (isClosed_reachedFrom ctx.table name) maxDepth [] hahead .refl halone
    rfl).1

/-- The pieces in front of a token leave nothing unresolved that its symbol reaches, if no trail
from them to it is too long. -/
theorem resolved_of_short_trails
    (halone : (expandName ctx.table ctx.limit maxDepth [] [] name).1 = some ⟨value, true⟩)
    (hshort : ∀ other, ReflTransGen (Mentions ctx.table) name other → ∀ trail,
      Trail ctx.table {root | ∃ written, .token written (some root) ∈ before} (other :: trail) →
        trail.length < maxDepth) {other : String}
    (hreach : ReflTransGen (Mentions ctx.table) name other) {r : Resolution}
    (hlookup : (readPieces ctx before).cache.lookup other = some r) : r.resolved = true := by
  have hknown := (Cache.reliable_nil ctx.table ctx.limit).expandName maxDepth [] name
  have hself := (expandName_remembers ctx.limit ctx.table maxDepth []).result [] name _ halone
  have hall : ∀ other ∈ {other | ReflTransGen (Mentions ctx.table) name other},
      ∃ r, (expandName ctx.table ctx.limit maxDepth [] [] name).2.lookup other = some r ∧
        r.resolved = true := fun other hother => hknown.settled.reached hself rfl hother
  have hwithin : Cache.Within {other | ReflTransGen (Mentions ctx.table) name other}
      (expandName ctx.table ctx.limit maxDepth [] [] name).2 (readPieces ctx before).cache := by
    refine foldl_add_cache ctx.limit before (fun written root hmem cache hcache => ?_) ?_
    · exact (expandName_within hknown hall (isClosed_reachedFrom ctx.table name) hshort
        (Nat.zero_add maxDepth) .nil ⟨written, hmem⟩ hcache).2
    · intro _ _ _ h
      cases h
  obtain ⟨s, hs, hflag⟩ := hall other hreach
  obtain rfl := Option.some.inj (hs.symm.trans (hwithin other hreach r hlookup))
  exact hflag

/-- **A token is replaced by what its symbol resolves to on its own** exactly if nothing that the
symbol reaches has been remembered unresolved. This is so, whatever the tokens in front of it are,
if no trail from them to a symbol that this one reaches has more than 32 symbols. -/
theorem token_replaced_iff {expr : String} {body : List Char}
    (hquoted : trim expr.toList = '"' :: (body ++ ['"']))
    (hpieces : piecesOf body = before ++ .token written (some name) :: after)
    (halone : resolve ctx name = ⟨value, true⟩)
    (hroom : (readPieces ctx before).value.utf8ByteSize < ctx.limit)
    (hfits : (readPieces ctx before).value.utf8ByteSize + value.utf8ByteSize ≤ ctx.limit) :
    (Replaced ctx before written name value ↔
      ∀ other, ReflTransGen (Mentions ctx.table) name other →
        ∀ r, (readPieces ctx before).cache.lookup other = some r → r.resolved = true) ∧
    ((∀ other, ReflTransGen (Mentions ctx.table) name other → ∀ trail,
        Trail ctx.table {root | ∃ written, .token written (some root) ∈ before} (other :: trail) →
          (other :: trail).length ≤ 32) →
      Replaced ctx before written name value) ∧
    (Replaced ctx before written name value →
      ∃ rest, (resolve ctx expr).value = (readPieces ctx before).value ++ value ++ rest) := by
  have hmem : name ∈ symbolsOf body := mem_symbolsOf_iff.mpr ⟨written, by rw [hpieces]; simp⟩
  have hexpanded := expandName_of_resolve (isIdentifier_of_mem_symbolsOf hmem) halone
  have hiff : Replaced ctx before written name value ↔
      ∀ other, ReflTransGen (Mentions ctx.table) name other →
        ∀ r, (readPieces ctx before).cache.lookup other = some r → r.resolved = true := by
    constructor
    · intro h other hreach r hlookup
      exact resolved_of_expandName (reliable_readPieces ctx before).settled h.expanded rfl hreach
        hlookup
    · intro h
      exact .of_expanded written (expandName_behind hexpanded h) hroom hfits
  refine ⟨hiff, ?_, ?_⟩
  · intro hshort
    apply hiff.mpr
    intro other hreach r hlookup
    exact resolved_of_short_trails hexpanded hshort hreach hlookup
  · intro h
    obtain ⟨rest, hrest⟩ := exists_value_readPieces_append ctx
      (before ++ [.token written (some name)]) after
    refine ⟨rest, ?_⟩
    rw [resolve_of_quoted hquoted, hpieces, ← h.value, ← hrest, List.append_assoc,
      List.singleton_append]

end Tokens

/-- A table of symbols each of which has the next one for its value; the value of the last one is
the letter x. -/
def staircase : List Char → Symbol.Table
  | [] => .empty
  | [last] => ⟨[(String.singleton last, "x")]⟩
  | step :: next :: steps =>
    ⟨(String.singleton step, String.ofList ['$', next]) :: (staircase (next :: steps)).bindings⟩

/-- Thirty-three symbols in a row. -/
def stairs : Context :=
  ⟨staircase "abcdefghijklmnopqrstuvwxyzABCDEFG".toList, "", 4096⟩

/-- The second of the symbols resolves on its own and in front of the first one, and it does not
resolve behind it. -/
theorem token_replaced_iff_stairs :
    resolve stairs "b" = ⟨"x", true⟩ ∧
    ¬ Replaced stairs [.token "$a" (some "a"), .plain '.'] "$b" "b" "x" ∧
    resolve stairs "\"$a.$b\"" = ⟨"$G.$G", false⟩ ∧
    Replaced stairs [] "$b" "b" "x" ∧
    resolve stairs "\"$b.$a\"" = ⟨"x.x", true⟩ := by
  have halone : resolve stairs "b" = ⟨"x", true⟩ := by decide +kernel
  have hquoted : trim "\"$a.$b\"".toList = '"' :: ("$a.$b".toList ++ ['"']) := by decide +kernel
  have hpieces : piecesOf "$a.$b".toList =
      [.token "$a" (some "a"), .plain '.'] ++ .token "$b" (some "b") :: [] := by decide +kernel
  obtain ⟨hvalue, hlookup⟩ :
      (readPieces stairs [.token "$a" (some "a"), .plain '.']).value = "$G." ∧
      (readPieces stairs [.token "$a" (some "a"), .plain '.']).cache.lookup "b" =
        some ⟨"$G", false⟩ := by decide +kernel
  obtain ⟨hbehind, -, -⟩ := token_replaced_iff hquoted hpieces halone
    (by rw [hvalue]; decide) (by rw [hvalue]; decide)
  have hquoted' : trim "\"$b.$a\"".toList = '"' :: ("$b.$a".toList ++ ['"']) := by decide +kernel
  have hpieces' : piecesOf "$b.$a".toList =
      [] ++ .token "$b" (some "b") :: [.plain '.', .token "$a" (some "a")] := by decide +kernel
  obtain ⟨-, hfront, -⟩ := token_replaced_iff hquoted' hpieces' halone (by decide) (by decide)
  have hnone : ∀ trail, Trail stairs.table
      {root | ∃ written, .token written (some root) ∈ ([] : List Piece)} trail → trail = [] := by
    intro trail htrail
    induction htrail with
    | nil => rfl
    | cons _ _ hleads ih =>
      subst ih
      obtain ⟨_, hmem⟩ := hleads
      cases hmem
  refine ⟨halone, fun h => ?_, by decide +kernel, hfront fun other _ trail htrail => ?_,
    by decide +kernel⟩
  · cases hbehind.mp h "b" .refl ⟨"$G", false⟩ hlookup
  · cases hnone _ htrail

end Telemetry.Template
