import Mathlib.Data.List.MinMax
import Mathlib.Order.Nat
import Telemetry.Proofs.Template.History
import Telemetry.Proofs.Template.Soundness
import Telemetry.Proofs.Text.Bytes

/-!
How large a resolution can be.

* `expandBody_size` — an expanded body has at most as many bytes as the limit and the body
  together, whatever expands its symbols. A token is replaced only if the value then fits the
  limit, and anything else that is added stands in the body.
* `size_of_leave` — so has the value that is remembered for a symbol, at any moment.
* `resolve_size` — so a resolution has at most as many bytes as the limit and the larger of the
  expression and the longest value in the table.
-/

namespace Telemetry.Symbol

/-- The values of the names of a table. -/
def Table.values (t : Table) : List String :=
  t.bindings.filterMap fun b => t.get? b.1

theorem Table.mem_values_iff {t : Table} {value : String} :
    value ∈ t.values ↔ ∃ name, t.get? name = some value := by
  rw [values, List.mem_filterMap]
  constructor
  · rintro ⟨b, -, hb⟩
    exact ⟨b.1, hb⟩
  · rintro ⟨name, hname⟩
    obtain ⟨front, back, hsplit, -⟩ := List.lookup_eq_some_iff.mp hname
    exact ⟨(name, value), by rw [hsplit]; simp, hname⟩

end Telemetry.Symbol

namespace Telemetry.Template

open Telemetry.Text

/-! ### The longest of some texts -/

/-- The number of bytes of the longest of some texts. -/
def longest (texts : List String) : Nat :=
  (texts.map String.utf8ByteSize).foldr max 0

theorem size_le_longest {texts : List String} {text : String} (h : text ∈ texts) :
    text.utf8ByteSize ≤ longest texts :=
  List.le_max_of_le (List.mem_map_of_mem h) (Nat.le_refl _)

theorem longest_le {texts : List String} {n : Nat} (h : ∀ text ∈ texts, text.utf8ByteSize ≤ n) :
    longest texts ≤ n := by
  refine List.max_le_of_forall_le _ n fun size hsize => ?_
  obtain ⟨text, htext, rfl⟩ := List.mem_map.mp hsize
  exact h text htext

section Size

variable {table : Symbol.Table} {limit : Nat}

/-! ### One body -/

/-- A token adds no more than it has bytes, or the value fits the limit. -/
theorem add_token_size (limit : Nat) (expand : Cache → String → Outcome) (p : Progress)
    (written : String) (name : Option String) :
    (p.add limit expand (.token written name)).value.utf8ByteSize ≤
      max limit (p.value.utf8ByteSize + written.utf8ByteSize) := by
  have hkeep : (p.value ++ written).utf8ByteSize ≤
      max limit (p.value.utf8ByteSize + written.utf8ByteSize) := by
    rw [String.utf8ByteSize_append]
    exact Nat.le_max_right _ _
  cases name with
  | none => exact hkeep
  | some name =>
    rcases add_symbol_cases limit expand p written name with
      ⟨-, hadd⟩ | ⟨-, -, hadd⟩ | ⟨inner, -, -, hfits, hadd⟩
    · rw [hadd]
      exact hkeep
    · rw [hadd]
      exact hkeep
    · rw [hadd, String.utf8ByteSize_append]
      exact le_max_of_le_left hfits

/-- **A body grows by no more than the limit**, whatever expands its symbols. -/
theorem expandBody_size (limit : Nat) (expand : Cache → String → Outcome) (cache : Cache)
    (body : String) :
    (expandBody limit expand cache body).1.value.utf8ByteSize ≤ limit + body.utf8ByteSize := by
  -- what has been built exceeds the limit by no more than what has been read
  have hread := foldl_pieces_induction (f := Progress.add limit expand)
    (motive := fun cs p q => ∀ read, p.value.utf8ByteSize ≤ limit + read →
      q.value.utf8ByteSize ≤ limit + (read + byteSize cs)) ?_ ?_ ?_
    body.toList ⟨"", true, cache⟩ 0 (Nat.zero_le _)
  · rwa [byteSize_toList, Nat.zero_add] at hread
  · intro p read h
    exact h
  · intro c cs p q _ ih read h
    have hvalue : (p.value.push c).utf8ByteSize ≤ limit + (read + c.utf8Size) := by
      rw [String.utf8ByteSize_push]
      omega
    rw [byteSize_cons, ← Nat.add_assoc read]
    exact ih (read + c.utf8Size) hvalue
  · intro cs inside rest written p q _ hcs ih read h
    have hadd := add_token_size limit expand p written (bracedName? inside)
    rw [hcs, byteSize_append, byteSize_toList, ← Nat.add_assoc read]
    apply ih
    omega

/-! ### What is remembered -/

/-- An event while a body is read is an event of one of its symbols. -/
theorem exists_of_mem_bodyEvents {expand : Cache → String → Outcome}
    {events : Cache → String → List Event} {ps : List Piece} {p : Progress} {e : Event}
    (h : e ∈ bodyEvents limit expand events p ps) : ∃ cache name, e ∈ events cache name := by
  induction ps generalizing p with
  | nil => cases h
  | cons piece ps ih =>
    rcases List.mem_append.mp h with hpiece | hrest
    · cases piece with
      | plain c => cases hpiece
      | token written name =>
        cases name with
        | none => cases hpiece
        | some name =>
          rw [pieceEvents] at hpiece
          split at hpiece
          · cases hpiece
          · exact ⟨p.cache, name, hpiece⟩
    · exact ih hrest

/-- **What is remembered for a symbol** is its value, expanded, and no larger. -/
theorem size_of_leave {room : Nat} {chain : List String} {cache : Cache} {symbol name : String}
    {r : Resolution} (h : .leave name r ∈ nameEvents table limit room chain cache symbol) :
    ∃ bound, table.get? name = some bound ∧
      r.value.utf8ByteSize ≤ limit + bound.utf8ByteSize := by
  induction room generalizing chain cache symbol with
  | zero =>
    unfold nameEvents at h
    split at h
    · cases h
    · cases h
  | succ room ih =>
    unfold nameEvents at h
    dsimp only at h
    split at h
    · cases h
    · split at h
      · cases h
      · split at h
        · cases h
        · rename_i bound hbound
          rcases List.mem_append.mp (List.mem_of_ne_of_mem (by simp) h) with hbody | hleave
          · obtain ⟨cache', symbol', hevent⟩ := exists_of_mem_bodyEvents hbody
            exact ih hevent
          · obtain ⟨rfl, rfl⟩ := Event.leave.inj (List.mem_singleton.mp hleave)
            exact ⟨bound, hbound, expandBody_size limit _ cache bound⟩

theorem mem_cache_of_replay {s : State} {events : List Event} {entry : String × Resolution}
    (h : entry ∈ (replay s events).cache) :
    entry ∈ s.cache ∨ .leave entry.1 entry.2 ∈ events := by
  induction events generalizing s with
  | nil => exact Or.inl h
  | cons e events ih =>
    rcases ih h with hs | hlater
    · cases e with
      | enter name => exact Or.inl hs
      | leave name r =>
        rcases List.mem_cons.mp hs with rfl | hs
        · exact Or.inr List.mem_cons_self
        · exact Or.inl hs
    · exact Or.inr (List.mem_cons_of_mem _ hlater)

end Size

/-! ### Name expressions -/

/-- The number of bytes by which a resolution may exceed the limit: those of the expression, or of
the longest value in the table. -/
def slack (ctx : Context) (expr : String) : Nat :=
  max expr.utf8ByteSize (longest ctx.table.values)

theorem size_le_slack {ctx : Context} {expr name bound : String}
    (h : ctx.table.get? name = some bound) : bound.utf8ByteSize ≤ slack ctx expr :=
  le_max_of_le_right (size_le_longest (Symbol.Table.mem_values_iff.mpr ⟨name, h⟩))

/-- **A resolution is bounded.** -/
theorem resolve_size (ctx : Context) (expr : String) :
    (resolve ctx expr).value.utf8ByteSize ≤ ctx.limit + slack ctx expr := by
  have hexpr : byteSize (trim expr.toList) ≤ slack ctx expr := by
    have htrim := byteSize_trim_le expr.toList
    rw [byteSize_toList] at htrim
    exact le_max_of_le_left htrim
  simp only [resolve]
  cases hquoted : unquote? (trim expr.toList) with
  | some body =>
    have hsize := expandBody_size ctx.limit (expandName ctx.table ctx.limit maxDepth []) []
      (String.ofList body)
    rw [unquote?_eq_some_iff.mp hquoted, byteSize_cons, byteSize_append] at hexpr
    rw [utf8ByteSize_ofList] at hsize
    dsimp only
    omega
  | none =>
    dsimp only
    rcases expandName_cases ctx.table ctx.limit maxDepth [] []
        (String.ofList (localName ctx.identifier (trim expr.toList))) with
      ⟨r, hlookup, -⟩ | ⟨-, -, hout⟩ | ⟨left, bound, -, -, -, hbound, hout⟩
    · cases hlookup
    · rw [hout]
      dsimp only
      rw [utf8ByteSize_ofList]
      exact Nat.le_add_left_of_le hexpr
    · rw [hout]
      have hsize := expandBody_size ctx.limit (expandName ctx.table ctx.limit left
        [String.ofList (localName ctx.identifier (trim expr.toList))]) [] bound
      exact hsize.trans (Nat.add_le_add_left (size_le_slack hbound) _)

/-- **What is remembered in a resolution is bounded**, at every moment. -/
theorem cache_size {ctx : Context} {expr : String} {moment : List Event}
    (hmoment : moment <+: history ctx expr) {entry : String × Resolution}
    (hentry : entry ∈ (replay ⟨[], []⟩ moment).cache) :
    entry.2.value.utf8ByteSize ≤ ctx.limit + slack ctx expr := by
  have hleave : .leave entry.1 entry.2 ∈ history ctx expr := by
    rcases mem_cache_of_replay hentry with hnone | hleave
    · cases hnone
    · exact hmoment.subset hleave
  have hsymbol : ∃ cache symbol, .leave entry.1 entry.2 ∈
      nameEvents ctx.table ctx.limit maxDepth [] cache symbol := by
    simp only [history] at hleave
    split at hleave
    · exact exists_of_mem_bodyEvents hleave
    · exact ⟨[], _, hleave⟩
  obtain ⟨cache, symbol, hevent⟩ := hsymbol
  obtain ⟨bound, hbound, hsize⟩ := size_of_leave hevent
  exact hsize.trans (Nat.add_le_add_left (size_le_slack hbound) _)

end Telemetry.Template
