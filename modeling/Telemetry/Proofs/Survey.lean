import Telemetry.Proofs.Symbol.Overrides
import Telemetry.Survey

/-!
Overrides stay with the files that they are addressed to.

`AgreeFor identifier overrides overrides'` says that two maps of overrides agree on every key whose
part before the first dot is the identifier. Keys of other files, and keys without a dot, may
differ.

* `AgreeFor.analyze_eq` — the findings of a file are the same under maps that agree for it: they
  reach the names through the table alone, and the table takes over nothing else.
* `survey_congr` — so is the catalogue of files, under maps that agree for each of them.
* `getElem?_mergeOverrides` — merging keeps the earlier value of every key that is not given again.
* `overrides_isolated` — so overrides of files that are not surveyed can come and go.
-/

namespace Telemetry

open Telemetry.Symbol

/-- Two maps of overrides agree on the keys whose part before the first dot is the identifier. -/
def AgreeFor (identifier : String) (overrides overrides' : Overrides) : Prop :=
  ∀ key name, splitKey? key = some (identifier, name) → overrides[key]? = overrides'[key]?

section Agree

variable {identifier file : String} {overrides overrides' : Overrides}

theorem AgreeFor.build_eq (h : AgreeFor identifier overrides overrides') (text : List Char) :
    Table.build text identifier overrides = Table.build text identifier overrides' := by
  refine Table.override_congr _ fun key hkey => ?_
  obtain ⟨name, hname⟩ := Option.isSome_iff_exists.mp hkey
  obtain ⟨heq, hdot, -⟩ := addressed?_eq_some_iff.mp hname
  exact h key name (splitKey?_eq_some_iff.mpr ⟨heq, hdot⟩)

/-- **The findings of a file depend on its own overrides alone.** -/
theorem AgreeFor.analyze_eq (h : AgreeFor (Path.identifier file) overrides overrides')
    (a : Analyzer) (text : List Char) :
    a.analyze file text overrides = a.analyze file text overrides' := by
  have hcontext : Analyzer.context file text overrides = Analyzer.context file text overrides' := by
    simp only [Analyzer.context, h.build_eq]
  simp only [Analyzer.analyze, Analyzer.findings, hcontext]

/-- **A catalogue depends on the overrides of its files alone.** -/
theorem survey_congr {c : Config} {files : List SourceFile}
    (h : ∀ f ∈ files, AgreeFor (Path.identifier f.name) c.overrides overrides) :
    survey c files = survey { c with overrides } files := by
  have hfindings : (files.map fun f => c.analyzer.analyze f.name f.text.toList c.overrides) =
      files.map fun f => c.analyzer.analyze f.name f.text.toList overrides :=
    List.map_congr_left fun f hf => (h f hf).analyze_eq _ _
  unfold survey
  rw [hfindings]
  rfl

end Agree

/-- **Merged overrides**: a later value counts, and without one the earlier. -/
theorem getElem?_mergeOverrides (earlier later : Overrides) (key : String) :
    (mergeOverrides earlier later)[key]? = later[key]?.or earlier[key]? := by
  have hinsert : ∀ (m : Overrides) (entry : String × String),
      (m.insert entry.1 entry.2)[key]? =
        (if entry.1 = key then some entry.2 else none).or m[key]? := by
    intro m entry
    simp only [Std.TreeMap.getElem?_insert, Std.LawfulEqOrd.compare_eq_iff_eq]
    split
    · rfl
    · rfl
  rw [mergeOverrides, read_foldl (fun m : Overrides => m[key]?) hinsert]
  congr 1
  refine getLast?_eq_of_mem_iff fun value => ?_
  simp only [List.mem_filterMap, Option.ite_none_right_eq_some, Option.some.injEq]
  constructor
  · rintro ⟨⟨key', value'⟩, hmem, rfl, rfl⟩
    exact Std.TreeMap.mem_toList_iff_getElem?_eq_some.mp hmem
  · intro hvalue
    exact ⟨(key, value), Std.TreeMap.mem_toList_iff_getElem?_eq_some.mpr hvalue, rfl, rfl⟩

/-- **Overrides of other files do not leak.** The findings of a file are the same under any two maps
of overrides that agree on the keys whose part before the first dot is the identifier of the file.
The catalogue of a list of files is the same under any two maps that agree so for each file; and it
does not change when overrides are added whose part before the first dot is the identifier of no
file in the list. -/
theorem overrides_isolated :
    (∀ (a : Analyzer) (file : String) (text : List Char) (overrides overrides' : Overrides),
      AgreeFor (Path.identifier file) overrides overrides' →
        a.analyze file text overrides = a.analyze file text overrides') ∧
    ∀ (c : Config) (files : List SourceFile),
      (∀ overrides, (∀ f ∈ files, AgreeFor (Path.identifier f.name) c.overrides overrides) →
        survey c files = survey { c with overrides } files) ∧
      ∀ added : Overrides,
        (∀ key ∈ added, ∀ f ∈ files, ∀ name, splitKey? key ≠ some (Path.identifier f.name, name)) →
          survey { c with overrides := mergeOverrides c.overrides added } files =
            survey c files := by
  refine ⟨fun a file text overrides overrides' h => h.analyze_eq a text,
    fun c files => ⟨fun overrides h => survey_congr h, fun added hadded => ?_⟩⟩
  refine (survey_congr fun f hf key name hkey => ?_).symm
  have hnot : key ∉ added := fun hmem => hadded key hmem f hf name hkey
  rw [getElem?_mergeOverrides, Std.TreeMap.getElem?_eq_none hnot, Option.none_or]

/-- An override of another file and one whose key has no dot, beside an override that is used. -/
theorem overrides_isolated_jobs :
    survey { Config.standard with
        overrides := mergeOverrides ((∅ : Overrides).insert "Jobs.p" "jobs")
          ((∅ : Overrides).insert "Tasks.p" "tasks") }
        [.at "src/Jobs.kt" "meterRegistry.counter(\"$p.hits\")"] =
      survey { Config.standard with overrides := (∅ : Overrides).insert "Jobs.p" "jobs" }
        [.at "src/Jobs.kt" "meterRegistry.counter(\"$p.hits\")"] ∧
    Analyzer.standard.analyze "Jobs.kt" "meterRegistry.counter(\"$p.hits\")".toList
        (((∅ : Overrides).insert "Jobs.p" "jobs").insert "Jobs" "p") =
      Analyzer.standard.analyze "Jobs.kt" "meterRegistry.counter(\"$p.hits\")".toList
        ((∅ : Overrides).insert "Jobs.p" "jobs") := by
  obtain ⟨hfindings, hcatalog⟩ := overrides_isolated
  constructor
  · refine (hcatalog { Config.standard with overrides := (∅ : Overrides).insert "Jobs.p" "jobs" }
      _).2 _ fun key hkey f hf name hsplit => ?_
    have hname : Path.identifier f.name = "Jobs" := by
      rw [List.mem_singleton.mp hf]
      decide +kernel
    have hkey : "Tasks.p" = key := by
      simpa [Std.TreeMap.mem_insert, Std.LawfulEqOrd.compare_eq_iff_eq] using hkey
    rw [hname, ← hkey, show splitKey? "Tasks.p" = some ("Tasks", "p") by decide +kernel] at hsplit
    simp at hsplit
  · refine hfindings _ _ _ _ _ fun key name hsplit => ?_
    have hkey : "Jobs" ≠ key := by
      rintro rfl
      rw [show splitKey? "Jobs" = none by decide +kernel] at hsplit
      cases hsplit
    simp [Std.TreeMap.getElem?_insert, hkey]

end Telemetry
