import Telemetry.Proofs.Text.Reading
import Telemetry.Symbol.Table

/-!
What a table holds after it took over the overrides addressed to its file.

* `read_foldl` — of several writes, read at one place, the last one counts.
* `addressed?_eq_some_iff` — a key addresses a name in a file exactly if it is the identifier of the
  file, a dot and the name. A key is split at its first dot, so no key addresses a file whose
  identifier has a dot in it.
* `get?_override` — so a name has the value of its own key, or else the value that it had before.
* `override_congr` — a table is the same under overrides that agree on the keys of its file.
-/

namespace Telemetry.Symbol

open Telemetry.Text

/-- **The last write is read.** Each item may write the value that is read, and writes nothing else
to it. -/
theorem read_foldl {σ α β : Type} (read : σ → Option β) {step : σ → α → σ}
    {written : α → Option β} (hstep : ∀ s a, read (step s a) = (written a).or (read s))
    (items : List α) (s : σ) :
    read (items.foldl step s) = (items.filterMap written).getLast?.or (read s) := by
  induction items generalizing s with
  | nil => rfl
  | cons a items ih =>
    rw [List.foldl_cons, ih, hstep, List.filterMap_cons]
    cases written a with
    | none => rfl
    | some b =>
      simp only [Option.some_or, List.getLast?_cons]
      cases (items.filterMap written).getLast? with
      | none => rfl
      | some b' => rfl

theorem Table.get?_insert (t : Table) (name name' value : String) :
    (t.insert name value).get? name' = if name' = name then some value else t.get? name' := by
  have hfilter : ∀ bindings : List (String × String), name' ≠ name →
      (bindings.filter (·.1 != name)).lookup name' = bindings.lookup name' := by
    intro bindings hne
    induction bindings with
    | nil => rfl
    | cons b bindings ih =>
      obtain ⟨other, old⟩ := b
      by_cases hother : other = name
      · subst hother
        rw [List.filter_cons_of_neg (by simp), ih, List.lookup_cons, beq_false_of_ne hne]
      · rw [List.filter_cons_of_pos (by simpa using hother), List.lookup_cons, List.lookup_cons, ih]
  simp only [get?, insert, List.lookup_cons]
  split
  · rename_i heq
    rw [if_pos (beq_iff_eq.mp heq)]
  · rename_i hne
    have hne : name' ≠ name := by simpa using hne
    rw [if_neg hne, hfilter _ hne]

/-! ### Keys -/

section Keys

variable {file identifier key name : String}

theorem toList_key (file name : String) :
    (file ++ "." ++ name).toList = file.toList ++ '.' :: name.toList := by
  simp

/-- A key is split at its first dot. -/
theorem splitKey?_eq_some_iff :
    splitKey? key = some (file, name) ↔ key = file ++ "." ++ name ∧ '.' ∉ file.toList := by
  have hkey : key = file ++ "." ++ name ∧ '.' ∉ file.toList ↔
      key.toList.dropWhile (· != '.') = '.' :: name.toList ∧
        key.toList.takeWhile (· != '.') = file.toList := by
    rw [dropWhile_bne_eq_cons_iff, ← toList_key, String.toList_inj]
  rw [hkey, splitKey?]
  split
  · rename_i rest hrest
    simp only [hrest, Option.some.injEq, Prod.mk.injEq, List.cons.injEq, true_and,
      ← String.toList_inj, String.toList_ofList]
    exact and_comm
  · rename_i hrest
    simp only [reduceCtorEq, false_iff, not_and]
    exact fun h => absurd h (hrest _)

/-- **A key addresses a name in a file** exactly if it is made of the two. -/
theorem addressed?_eq_some_iff :
    addressed? identifier key = some name ↔
      key = identifier ++ "." ++ name ∧ '.' ∉ identifier.toList ∧ name ≠ "" := by
  unfold addressed?
  split
  · rename_i file name' hsplit
    obtain ⟨rfl, hdot⟩ := splitKey?_eq_some_iff.mp hsplit
    constructor
    · intro h
      split at h
      · rename_i hfile
        simp only [Bool.and_eq_true, decide_eq_true_eq] at hfile
        obtain rfl := Option.some.inj h
        exact ⟨by rw [hfile.1], hfile.1 ▸ hdot, hfile.2⟩
      · cases h
    · rintro ⟨hkey, hdot', hne⟩
      rw [splitKey?_eq_some_iff.mpr ⟨hkey, hdot'⟩] at hsplit
      obtain ⟨rfl, rfl⟩ := Prod.mk.inj (Option.some.inj hsplit)
      simp [hne]
  · rename_i hsplit
    simp only [reduceCtorEq, false_iff]
    rintro ⟨hkey, hdot, -⟩
    rw [splitKey?_eq_some_iff.mpr ⟨hkey, hdot⟩] at hsplit
    cases hsplit

end Keys

/-! ### Tables -/

section Override

variable {identifier name : String} {overrides : Overrides}

/-- What a single override does to a table. -/
def Table.takeOver (identifier : String) (t : Table) (entry : String × String) : Table :=
  match addressed? identifier entry.1 with
  | some name => t.insert name entry.2
  | none => t

theorem Table.override_eq_foldl (t : Table) :
    t.override identifier overrides = overrides.toList.foldl (takeOver identifier) t := rfl

theorem Table.get?_takeOver (t : Table) (entry : String × String) :
    (t.takeOver identifier entry).get? name =
      (if addressed? identifier entry.1 = some name then some entry.2 else none).or
        (t.get? name) := by
  unfold takeOver
  cases addressed? identifier entry.1 with
  | none => rfl
  | some name' =>
    rw [get?_insert]
    by_cases hname : name = name'
    · rw [if_pos hname, if_pos (congrArg some hname.symm), Option.some_or]
    · rw [if_neg hname, if_neg fun h => hname (Option.some.inj h).symm, Option.none_or]

/-- A list that holds at most one value ends with it. -/
theorem getLast?_eq_of_mem_iff {β : Type} {values : List β} {value : Option β}
    (h : ∀ b, b ∈ values ↔ value = some b) : values.getLast? = value := by
  cases hlast : values.getLast? with
  | none =>
    cases value with
    | none => rfl
    | some b =>
      have hmem := (h b).mpr rfl
      rw [List.getLast?_eq_none_iff.mp hlast] at hmem
      cases hmem
  | some b => exact ((h b).mp (List.mem_of_mem_getLast? hlast)).symm

/-- **A name has the value of its key**, or else the value that it had before. -/
theorem Table.get?_override (t : Table) :
    (t.override identifier overrides).get? name =
      (if '.' ∉ identifier.toList ∧ name ≠ "" then overrides[identifier ++ "." ++ name]?
        else none).or (t.get? name) := by
  rw [override_eq_foldl, read_foldl (fun t => get? t name) get?_takeOver]
  congr 1
  -- keys are distinct, so at most one override is addressed to the name
  refine getLast?_eq_of_mem_iff fun value => ?_
  simp only [List.mem_filterMap, Option.ite_none_right_eq_some, Option.some.injEq,
    addressed?_eq_some_iff]
  constructor
  · rintro ⟨⟨key, value'⟩, hmem, ⟨rfl, hdot, hne⟩, rfl⟩
    exact ⟨⟨hdot, hne⟩, Std.TreeMap.mem_toList_iff_getElem?_eq_some.mp hmem⟩
  · rintro ⟨⟨hdot, hne⟩, hvalue⟩
    exact ⟨⟨_, value⟩, Std.TreeMap.mem_toList_iff_getElem?_eq_some.mpr hvalue,
      ⟨rfl, hdot, hne⟩, rfl⟩

/-- Only the overrides that are addressed to the file count. -/
theorem Table.override_filter (t : Table) (overrides : Overrides) :
    t.override identifier (overrides.filter fun key _ => (addressed? identifier key).isSome) =
      t.override identifier overrides := by
  rw [override_eq_foldl, override_eq_foldl, Std.TreeMap.toList_filter, List.foldl_filter]
  congr 1
  funext t entry
  rw [takeOver]
  cases addressed? identifier entry.1 with
  | none => rfl
  | some name => rfl

/-- **A table depends on the overrides of its file alone.** -/
theorem Table.override_congr (t : Table) {overrides' : Overrides}
    (h : ∀ key, (addressed? identifier key).isSome = true → overrides[key]? = overrides'[key]?) :
    t.override identifier overrides = t.override identifier overrides' := by
  have hequiv : (overrides.filter fun key _ => (addressed? identifier key).isSome).Equiv
      (overrides'.filter fun key _ => (addressed? identifier key).isSome) := by
    refine .of_forall_constGet?_eq fun key => ?_
    rw [Std.TreeMap.getElem?_filter', Std.TreeMap.getElem?_filter']
    by_cases hkey : (addressed? identifier key).isSome = true
    · rw [h key hkey]
    · rw [Option.filter_eq_none_iff.mpr fun _ _ => hkey,
        Option.filter_eq_none_iff.mpr fun _ _ => hkey]
  rw [← override_filter t overrides, ← override_filter t overrides', override_eq_foldl,
    override_eq_foldl, Std.TreeMap.equiv_iff_toList_eq.mp hequiv]

/-- Overrides that are addressed to other files change nothing. -/
theorem Table.override_eq_self (t : Table)
    (h : ∀ key ∈ overrides, addressed? identifier key = none) :
    t.override identifier overrides = t := by
  have hempty : t.override identifier ∅ = t := rfl
  refine (t.override_congr fun key hkey => ?_).trans hempty
  rw [Std.TreeMap.getElem?_emptyc]
  refine Std.TreeMap.getElem?_eq_none fun hmem => ?_
  rw [h key hmem] at hkey
  cases hkey

end Override

end Telemetry.Symbol
