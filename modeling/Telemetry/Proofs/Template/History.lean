import Mathlib.Data.List.Perm.Subperm
import Telemetry.Proofs.Template.Steps

/-!
The course of a resolution.

A resolution keeps two things beside the value that it builds: the chain of the symbols under
expansion, and the cache. They change in two ways. When the value of a symbol is handed over to be
expanded, the symbol is put on the chain; when it has been expanded, the innermost symbol is taken
off the chain and the resolution is remembered. `history` lists these events of a resolution in
their order, and `replay` gives the chain and the cache after some of them.

* `State.Allows` — what has to hold for an event to happen; `Legal` says so of a list of events.
* `State.Valid` — the invariant of chain and cache; `State.Valid.after` keeps it in one event, and
  `Legal.valid_replay` over many.
* `nameEvents_follow` — the events of a symbol are legal, and after them the chain is what it was
  and the cache is the one that the expansion gives.
* `expansions_once` — so no symbol is expanded twice in one resolution.
-/

namespace Telemetry.Template

open Telemetry.Text

/-- An event of a resolution. -/
inductive Event where
  /-- The value of a symbol is handed over to be expanded. -/
  | enter (name : String)
  /-- The value of a symbol has been expanded. -/
  | leave (name : String) (r : Resolution)
  deriving DecidableEq, Repr

/-- The symbols under expansion, the innermost first, and those expanded before. -/
structure State where
  chain : List String
  cache : Cache
  deriving DecidableEq, Repr

/-- The state after an event. -/
def State.after (s : State) : Event → State
  | .enter name => ⟨name :: s.chain, s.cache⟩
  | .leave name r => ⟨s.chain.tail, (name, r) :: s.cache⟩

/-- The state after some events. -/
def replay (s : State) (events : List Event) : State :=
  events.foldl State.after s

/-- The symbols whose value is handed over, in order. -/
def entered (events : List Event) : List String :=
  events.filterMap fun
    | .enter name => some name
    | .leave _ _ => none

/-! ### The events of a resolution -/

/-- The events while a piece is read, where `events` gives those of a symbol. -/
def pieceEvents (limit : Nat) (events : Cache → String → List Event) (p : Progress) :
    Piece → List Event
  | .plain _ => []
  | .token _ none => []
  | .token _ (some name) => if limit ≤ p.value.utf8ByteSize then [] else events p.cache name

/-- The events while the rest of a body is read. -/
def bodyEvents (limit : Nat) (expand : Cache → String → Outcome)
    (events : Cache → String → List Event) : Progress → List Piece → List Event
  | _, [] => []
  | p, piece :: ps =>
    pieceEvents limit events p piece ++ bodyEvents limit expand events (p.add limit expand piece) ps

/-- The events while a symbol is expanded. -/
def nameEvents (table : Symbol.Table) (limit : Nat) :
    (room : Nat) → (chain : List String) → Cache → String → List Event
  | room, chain, cache, name =>
    match cache.lookup name with
    | some _ => []
    | none =>
      match room with
      | 0 => []
      | room + 1 =>
        if chain.contains name then []
        else
          match table.get? name with
          | none => []
          | some body =>
            let expand := expandName table limit room (name :: chain)
            let events := nameEvents table limit room (name :: chain)
            .enter name :: (bodyEvents limit expand events ⟨"", true, cache⟩ (pieces body) ++
              [.leave name (expandBody limit expand cache body).1])

/-- The events of the resolution of an expression. -/
def history (ctx : Context) (expr : String) : List Event :=
  let expr := trim expr.toList
  match unquote? expr with
  | some body =>
    bodyEvents ctx.limit (expandName ctx.table ctx.limit maxDepth [])
      (nameEvents ctx.table ctx.limit maxDepth []) ⟨"", true, []⟩ (pieces (String.ofList body))
  | none =>
    nameEvents ctx.table ctx.limit maxDepth [] [] (String.ofList (localName ctx.identifier expr))

/-- How many bodies are expanded: the one between the quotes of the expression, if it has quotes,
and the value of every symbol that is handed over. -/
def expansions (ctx : Context) (expr : String) : Nat :=
  (unquote? (trim expr.toList)).toList.length + (entered (history ctx expr)).length

/-! ### Legal events -/

/-- An event can happen: a symbol is handed over if it is bound, neither under expansion nor
expanded before, and not nested too deep; the innermost symbol is the one to be finished. -/
def State.Allows (table : Symbol.Table) (s : State) : Event → Prop
  | .enter name =>
    s.chain.length < maxDepth ∧ name ∉ s.chain ∧ s.cache.lookup name = none ∧
      (table.get? name).isSome = true
  | .leave name _ => s.chain.head? = some name

/-- Each of the events can happen after those before it. -/
inductive Legal (table : Symbol.Table) : State → List Event → Prop where
  | nil {s : State} : Legal table s []
  | cons {s : State} {e : Event} {events : List Event} (hallows : s.Allows table e)
      (hrest : Legal table (s.after e) events) : Legal table s (e :: events)

/-- The symbols under expansion are distinct, bound and not too many, and none of them is
remembered. -/
structure State.Valid (table : Symbol.Table) (s : State) : Prop where
  distinct : s.chain.Nodup
  bound : ∀ name ∈ s.chain, (table.get? name).isSome = true
  depth : s.chain.length ≤ maxDepth
  pending : ∀ name ∈ s.chain, s.cache.lookup name = none

section Events

variable {table : Symbol.Table} {s : State} {events events' : List Event}

theorem replay_append (s : State) (events events' : List Event) :
    replay s (events ++ events') = replay (replay s events) events' :=
  List.foldl_append

theorem Legal.append (h : Legal table s events) (h' : Legal table (replay s events) events') :
    Legal table s (events ++ events') := by
  induction h with
  | nil => exact h'
  | cons hallows _ ih => exact .cons hallows (ih h')

theorem Legal.of_append (h : Legal table s (events ++ events')) : Legal table s events := by
  induction events generalizing s with
  | nil => exact .nil
  | cons e events ih =>
    cases h with
    | cons hallows hrest => exact .cons hallows (ih hrest)

theorem State.valid_start (table : Symbol.Table) : State.Valid table ⟨[], []⟩ :=
  ⟨.nil, by simp, Nat.zero_le _, by simp⟩

/-- **An event keeps the invariant.** -/
theorem State.Valid.after {e : Event} (h : s.Valid table) (hallows : s.Allows table e) :
    (s.after e).Valid table := by
  cases e with
  | enter name =>
    obtain ⟨hroom, hnew, hlookup, hbound⟩ := hallows
    exact ⟨List.nodup_cons.mpr ⟨hnew, h.distinct⟩, List.forall_mem_cons.mpr ⟨hbound, h.bound⟩,
      hroom, List.forall_mem_cons.mpr ⟨hlookup, h.pending⟩⟩
  | leave name r =>
    obtain ⟨chain, cache⟩ := s
    obtain ⟨rest, rfl⟩ : ∃ rest, chain = name :: rest := List.head?_eq_some_iff.mp hallows
    obtain ⟨hnew, hdistinct⟩ := List.nodup_cons.mp h.distinct
    refine ⟨hdistinct, fun other hother => h.bound other (List.mem_cons_of_mem _ hother),
      Nat.le_of_succ_le h.depth, fun other hother => ?_⟩
    have hne : other ≠ name := ne_of_mem_of_not_mem hother hnew
    simp only [State.after, List.lookup_cons, beq_false_of_ne hne]
    exact h.pending other (List.mem_cons_of_mem _ hother)

/-- **Legal events keep the invariant.** -/
theorem Legal.valid_replay (h : Legal table s events) (hs : s.Valid table) :
    (replay s events).Valid table := by
  induction h with
  | nil => exact hs
  | cons hallows _ ih => exact ih (hs.after hallows)

/-- **No symbol is handed over twice**, nor one that is under expansion or remembered at the
start. -/
theorem Legal.entered_new (h : Legal table s events) :
    (entered events).Nodup ∧ ∀ name ∈ entered events,
      name ∉ s.chain ∧ s.cache.lookup name = none ∧ (table.get? name).isSome = true := by
  induction h with
  | nil => exact ⟨.nil, by simp [entered]⟩
  | @cons s e events hallows _ ih =>
    obtain ⟨hdistinct, hnew⟩ := ih
    cases e with
    | enter name =>
      obtain ⟨-, hopen, hlookup, hbound⟩ := hallows
      refine ⟨List.nodup_cons.mpr ⟨fun hmem => (hnew name hmem).1 List.mem_cons_self, hdistinct⟩,
        List.forall_mem_cons.mpr ⟨⟨hopen, hlookup, hbound⟩, fun other hother => ?_⟩⟩
      obtain ⟨hchain, hrest⟩ := hnew other hother
      exact ⟨fun hmem => hchain (List.mem_cons_of_mem _ hmem), hrest⟩
    | leave name r =>
      obtain ⟨chain, cache⟩ := s
      obtain ⟨rest, rfl⟩ : ∃ rest, chain = name :: rest := List.head?_eq_some_iff.mp hallows
      refine ⟨hdistinct, fun other hother => ?_⟩
      obtain ⟨hchain, hlookup, hbound⟩ := hnew other hother
      -- the symbol just finished is remembered from now on
      simp only [State.after, List.lookup_cons] at hlookup
      split at hlookup
      · cases hlookup
      · rename_i hne
        refine ⟨fun hmem => ?_, hlookup, hbound⟩
        rcases List.mem_cons.mp hmem with rfl | hmem
        · simp at hne
        · exact hchain hmem

end Events

/-! ### The course of an expansion -/

section Course

variable {table : Symbol.Table} (limit : Nat) {chain : List String}
  {expand : Cache → String → Outcome} {events : Cache → String → List Event}

/-- The events of a symbol are legal and lead to the cache that its expansion gives, with the chain
as it was. -/
def Follows (table : Symbol.Table) (chain : List String) (expand : Cache → String → Outcome)
    (events : Cache → String → List Event) : Prop :=
  ∀ cache name, Legal table ⟨chain, cache⟩ (events cache name) ∧
    replay ⟨chain, cache⟩ (events cache name) = ⟨chain, (expand cache name).2⟩

theorem pieceEvents_follow (h : Follows table chain expand events) (p : Progress) (piece : Piece) :
    Legal table ⟨chain, p.cache⟩ (pieceEvents limit events p piece) ∧
      replay ⟨chain, p.cache⟩ (pieceEvents limit events p piece) =
        ⟨chain, (p.add limit expand piece).cache⟩ := by
  cases piece with
  | plain c => exact ⟨.nil, rfl⟩
  | token written name =>
    cases name with
    | none => exact ⟨.nil, rfl⟩
    | some name =>
      obtain ⟨hlegal, hreplay⟩ := h p.cache name
      rw [pieceEvents]
      rcases add_symbol_cases limit expand p written name with
        ⟨hfull, hadd⟩ | ⟨hroom, -, hadd⟩ | ⟨inner, -, hroom, -, hadd⟩
      · rw [if_pos hfull, hadd]
        exact ⟨.nil, rfl⟩
      · rw [if_neg (Nat.not_le_of_lt hroom), hadd]
        exact ⟨hlegal, hreplay⟩
      · rw [if_neg (Nat.not_le_of_lt hroom), hadd]
        exact ⟨hlegal, hreplay⟩

/-- **The events of a body** are legal and lead to the cache after it, with the chain as it was. -/
theorem bodyEvents_follow (h : Follows table chain expand events) (ps : List Piece)
    (p : Progress) :
    Legal table ⟨chain, p.cache⟩ (bodyEvents limit expand events p ps) ∧
      replay ⟨chain, p.cache⟩ (bodyEvents limit expand events p ps) =
        ⟨chain, (ps.foldl (Progress.add limit expand) p).cache⟩ := by
  induction ps generalizing p with
  | nil => exact ⟨.nil, rfl⟩
  | cons piece ps ih =>
    obtain ⟨hlegal, hreplay⟩ := pieceEvents_follow limit h p piece
    obtain ⟨hrest, hend⟩ := ih (p.add limit expand piece)
    rw [bodyEvents, replay_append, hreplay, List.foldl_cons]
    exact ⟨hlegal.append (hreplay ▸ hrest), hend⟩

/-- **The events of a symbol**, at any depth: they are legal, every symbol that is put on the chain
is taken off again, and the cache afterwards is the one that the expansion gives. -/
theorem nameEvents_follow (table : Symbol.Table) (limit room : Nat) (chain : List String)
    (hroom : room + chain.length = maxDepth) :
    Follows table chain (expandName table limit room chain)
      (nameEvents table limit room chain) := by
  induction room generalizing chain with
  | zero =>
    intro cache name
    unfold nameEvents expandName
    cases cache.lookup name with
    | some r => exact ⟨.nil, rfl⟩
    | none => exact ⟨.nil, rfl⟩
  | succ room ih =>
    intro cache name
    unfold nameEvents expandName
    cases hlookup : cache.lookup name with
    | some r => exact ⟨.nil, rfl⟩
    | none =>
      by_cases hchain : chain.contains name = true
      · dsimp only
        rw [if_pos hchain, if_pos hchain]
        exact ⟨.nil, rfl⟩
      · dsimp only
        rw [if_neg hchain, if_neg hchain]
        cases hbound : table.get? name with
        | none => exact ⟨.nil, rfl⟩
        | some body =>
          have hinner := ih (name :: chain) (by rw [List.length_cons]; omega)
          obtain ⟨hlegal, hreplay⟩ :=
            bodyEvents_follow limit hinner (pieces body) ⟨"", true, cache⟩
          have henter : State.Allows table ⟨chain, cache⟩ (.enter name) :=
            ⟨by simp only; omega, by simpa using hchain, hlookup, by rw [hbound]; rfl⟩
          dsimp only
          constructor
          · exact .cons henter (hlegal.append (hreplay ▸ .cons rfl .nil))
          · change replay ⟨name :: chain, cache⟩ _ = _
            rw [replay_append, hreplay]
            rfl

end Course

/-! ### Name expressions -/

theorem legal_history (ctx : Context) (expr : String) :
    Legal ctx.table ⟨[], []⟩ (history ctx expr) := by
  have hsymbols := nameEvents_follow ctx.table ctx.limit maxDepth [] rfl
  simp only [history]
  cases unquote? (trim expr.toList) with
  | some body => exact (bodyEvents_follow ctx.limit hsymbols _ ⟨"", true, []⟩).1
  | none => exact (hsymbols [] _).1

/-- A bound symbol stands in the table. -/
theorem mem_names_of_isSome {table : Symbol.Table} {name : String}
    (h : (table.get? name).isSome = true) : name ∈ table.bindings.map (·.1) := by
  obtain ⟨bound, hbound⟩ := Option.isSome_iff_exists.mp h
  obtain ⟨front, back, hsplit, -⟩ := List.lookup_eq_some_iff.mp hbound
  rw [hsplit]
  simp

/-- Distinct bound symbols are no more than the table has. -/
theorem length_le_size_of_nodup {table : Symbol.Table} {names : List String} (h : names.Nodup)
    (hbound : ∀ name ∈ names, (table.get? name).isSome = true) : names.length ≤ table.size := by
  have hsubset : names ⊆ table.bindings.map (·.1) :=
    fun name hname => mem_names_of_isSome (hbound name hname)
  have hlength := (h.subperm hsubset).length_le
  rwa [List.length_map] at hlength

/-- **Each symbol is expanded at most once in a resolution.** No symbol is handed over twice. At
every moment the symbols on the chain are distinct and bound, at most 32, and not remembered; and
the expansion of a symbol, wherever it starts, leaves the chain as it was. So no more bodies are
expanded than there are symbols in the table, and one. -/
theorem expansions_once (ctx : Context) (expr : String) :
    (entered (history ctx expr)).Nodup ∧
    (∀ moment, moment <+: history ctx expr → (replay ⟨[], []⟩ moment).Valid ctx.table) ∧
    (∀ (chain : List String) (cache : Cache) (name : String), chain.length ≤ maxDepth →
      replay ⟨chain, cache⟩
          (nameEvents ctx.table ctx.limit (maxDepth - chain.length) chain cache name) =
        ⟨chain, (expandName ctx.table ctx.limit (maxDepth - chain.length) chain cache name).2⟩) ∧
    expansions ctx expr ≤ 1 + ctx.table.size := by
  have hlegal := legal_history ctx expr
  obtain ⟨hdistinct, hnew⟩ := hlegal.entered_new
  refine ⟨hdistinct, ?_, fun chain cache name hdepth => ?_, ?_⟩
  · rintro moment ⟨rest, hrest⟩
    rw [← hrest] at hlegal
    exact hlegal.of_append.valid_replay (State.valid_start ctx.table)
  · exact (nameEvents_follow _ _ _ _ (Nat.sub_add_cancel hdepth) cache name).2
  · have hsymbols := length_le_size_of_nodup hdistinct fun name hname => (hnew name hname).2.2
    have hliteral : (unquote? (trim expr.toList)).toList.length ≤ 1 := Option.length_toList_le
    exact Nat.add_le_add hliteral hsymbols

/-- Two symbols that refer to each other, the first of which is met again from the cache. -/
theorem expansions_once_cyclic :
    history ⟨⟨[("a", "$b-$b"), ("b", "$a")]⟩, "", 4096⟩ "\"$a$b$c\"" =
      [.enter "a", .enter "b", .leave "b" ⟨"$a", false⟩, .leave "a" ⟨"$a-$a", false⟩] ∧
    (replay ⟨[], []⟩ [.enter "a", .enter "b"]).Valid ⟨[("a", "$b-$b"), ("b", "$a")]⟩ ∧
    replay ⟨["a"], []⟩ (nameEvents ⟨[("a", "$b-$b"), ("b", "$a")]⟩ 4096 31 ["a"] [] "b") =
      ⟨["a"], [("b", ⟨"$a", false⟩)]⟩ := by
  have hhistory : history ⟨⟨[("a", "$b-$b"), ("b", "$a")]⟩, "", 4096⟩ "\"$a$b$c\"" =
      [.enter "a", .enter "b", .leave "b" ⟨"$a", false⟩, .leave "a" ⟨"$a-$a", false⟩] := by
    decide +kernel
  obtain ⟨-, hmoments, hchain, -⟩ :=
    expansions_once ⟨⟨[("a", "$b-$b"), ("b", "$a")]⟩, "", 4096⟩ "\"$a$b$c\""
  rw [hhistory] at hmoments
  refine ⟨hhistory, hmoments _ (by decide), ?_⟩
  exact (hchain ["a"] [] "b" (by decide)).trans (by decide +kernel)

end Telemetry.Template
