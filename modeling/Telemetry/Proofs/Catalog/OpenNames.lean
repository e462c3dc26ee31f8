import Mathlib.Data.String.Basic
import Telemetry.Proofs.Catalog.Aggregation

/-!
The list of the names that a catalogue leaves open.

`Findings.LeavesOpen` says of the findings of one file which names they leave open, entry by entry;
whether the catalogue keeps the entry plays no part in it. `Findings.Complete` says that they leave
none open.

* `pairwise_unresolved` — the list is in strict order, so no name stands in it twice.
* `mem_unresolved_iff` — it holds the names that some file leaves open, and no others.
* `hasUnresolved_eq_false_iff` — it is empty exactly if all findings are complete.
-/

namespace Telemetry

/-- The order by file, then name, then category. -/
def OpenName.Before (n n' : OpenName) : Prop :=
  n.sourceFile < n'.sourceFile ∨ n.sourceFile = n'.sourceFile ∧
    (n.name < n'.name ∨ n.name = n'.name ∧ n.category.rank < n'.category.rank)

/-- The findings of a file hold an entry of this category, with this name and source file, that is
not resolved. -/
inductive Findings.LeavesOpen (f : Findings) : OpenName → Prop where
  | meter {m : Meter} (hm : m ∈ f.meters) (hopen : m.resolved = false) :
      LeavesOpen f ⟨m.sourceFile, m.name, .meter⟩
  | event {e : Event} (he : e ∈ f.events) (hopen : e.resolved = false) :
      LeavesOpen f ⟨e.sourceFile, e.name, .event⟩

/-- Every entry of the findings is resolved. -/
structure Findings.Complete (f : Findings) : Prop where
  meters : ∀ m ∈ f.meters, m.resolved = true
  events : ∀ e ∈ f.events, e.resolved = true

theorem OpenName.compare_eq_lt_iff {n n' : OpenName} : n.compare n' = .lt ↔ n.Before n' := by
  simp only [OpenName.compare, compareLex, compareOn, Ordering.then_eq_lt, compare_lt_iff_lt,
    compare_eq_iff_eq, OpenName.Before]

theorem Findings.mem_openNames_iff {f : Findings} {n : OpenName} :
    n ∈ f.openNames ↔ f.LeavesOpen n := by
  simp only [openNames, List.mem_append, List.mem_filterMap, Meter.openName?, Event.openName?,
    Option.ite_none_left_eq_some, Bool.not_eq_true, Option.some.injEq]
  constructor
  · rintro (⟨m, hm, hopen, rfl⟩ | ⟨e, he, hopen, rfl⟩)
    · exact .meter hm hopen
    · exact .event he hopen
  · rintro (⟨hm, hopen⟩ | ⟨he, hopen⟩)
    · exact Or.inl ⟨_, hm, hopen, rfl⟩
    · exact Or.inr ⟨_, he, hopen, rfl⟩

/-- Findings are complete exactly if they leave no name open. -/
theorem Findings.complete_iff {f : Findings} : f.Complete ↔ ∀ n, ¬ f.LeavesOpen n := by
  constructor
  · rintro ⟨hmeters, hevents⟩ n (⟨hm, hopen⟩ | ⟨he, hopen⟩)
    · rw [hmeters _ hm] at hopen
      cases hopen
    · rw [hevents _ he] at hopen
      cases hopen
  · intro h
    exact ⟨fun m hm => Bool.not_eq_false _ |>.mp fun hopen => h _ (.meter hm hopen),
      fun e he => Bool.not_eq_false _ |>.mp fun hopen => h _ (.event he hopen)⟩

namespace Catalog

/-- **The names left open are listed in strict order.** -/
theorem pairwise_unresolved (c : Catalog) : c.unresolved.Pairwise OpenName.Before :=
  Std.ExtTreeSet.ordered_toList.imp OpenName.compare_eq_lt_iff.mp

/-- **The names left open are those that some file leaves open.** -/
theorem mem_unresolved_iff {fs : List Findings} {n : OpenName} :
    n ∈ (ofFindings fs).unresolved ↔ ∃ f ∈ fs, f.LeavesOpen n := by
  simp only [mem_unresolved_ofFindings, Findings.mem_openNames_iff]

/-- **No name is left open exactly if every entry of every file is resolved.** -/
theorem hasUnresolved_eq_false_iff {fs : List Findings} :
    (ofFindings fs).hasUnresolved = false ↔ ∀ f ∈ fs, f.Complete := by
  rw [hasUnresolved, Bool.not_eq_false', Std.ExtTreeSet.isEmpty_iff,
    Std.ExtTreeSet.eq_empty_iff_forall_not_mem]
  simp only [← Std.ExtTreeSet.mem_toList, Findings.complete_iff]
  change (∀ n, n ∉ (ofFindings fs).unresolved) ↔ _
  simp only [mem_unresolved_iff, not_exists, not_and]
  exact ⟨fun h f hf n => h n f hf, fun h n f hf => h f hf n⟩

end Catalog

end Telemetry
