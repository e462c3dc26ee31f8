import Telemetry.Proofs.Command.Ending
import Telemetry.Proofs.FileTree.Writing

/-!
What a scan leaves behind.

A scan writes to the file tree only once its report is there, and behind that only the warnings are
left, for which the error stream may have no room. So a scan that fails has not touched the tree
unless it fails over its warnings, and no scan changes more than the file for its report.

* `scan_cases` — a scan fails and leaves the tree alone, or it fails over its warnings with the
  report in place, or it ends by its catalogue with the report in place.
* `scan_changes_only_output` — the frame of a scan, from the cases and the frame of a write.
* `not_forall_fails_tree` — a scan that fails over its warnings has replaced the report.
-/

namespace Telemetry.Command

open Telemetry.Text

/-- A command could not do its work. -/
def Ending.Fails (e : Ending) : Prop :=
  e = .exit .error ∨ (∃ reason, e = .failure reason) ∨ e = .abort

theorem fails_failure (reason : Failure) : (Ending.failure reason).Fails :=
  Or.inr (Or.inl ⟨reason, rfl⟩)

theorem not_fails_exit {code : ExitCode} (h : code ≠ .error) : ¬ (Ending.exit code).Fails := by
  rintro (hcode | ⟨reason, hfailure⟩ | habort)
  · cases hcode
    exact h rfl
  · cases hfailure
  · cases habort

theorem not_fails_scanEnding (strict : Bool) (c : Catalog) : ¬ (scanEnding strict c).Fails := by
  unfold scanEnding
  split
  · exact not_fails_exit (by decide)
  · exact not_fails_exit (by decide)

/-- The report of a scan stands in the file that is wanted for it, and the tree is else as it was:
every path shows what it showed before, unless it leads to that same file. -/
def ReportsTo (host : Host) (t : FileTree) (args : ScanArguments) (output : String)
    (t' : FileTree) : Prop :=
  ∃ format config catalog l, prepare t host.access args = .ok (format, config) ∧
    collect t host.access config args.path = .ok catalog ∧
    t'.locate output = .ok (l, .file (encode (format.render host.color catalog).toList)) ∧
    ∀ path, t'.look? path = t.look? path ∨
      t'.locate path = .ok (l, .file (encode (format.render host.color catalog).toList))

section Scan

variable {host : Host} {t t' : FileTree} {args : ScanArguments} {format : Report.Format}
  {config : Config} {files : List SourceFile}

/-- A report that is put where it is wanted leaves the tree as it was, or stands in its file. -/
theorem Reaches.tree_of_putReport (h : Reaches host t args format config files)
    (hput : putReport host t args.output (format.render host.color (survey config files)) =
      .ok t') :
    (args.output = none → t' = t) ∧
      ∀ output, args.output = some output → ReportsTo host t args output t' := by
  obtain ⟨hprepare, hselection, hfiles⟩ := h
  have hcollect := collect_eq_ok_iff.mpr ⟨_, _, hselection, hfiles, rfl⟩
  rcases putReport_eq_ok_iff.mp hput with ⟨hnone, -, htree⟩ | ⟨path, hsome, -, hwrite⟩
  · refine ⟨fun _ => htree, fun output houtput => ?_⟩
    rw [hnone] at houtput
    cases houtput
  · refine ⟨fun hnone => ?_, fun output houtput => ?_⟩
    · rw [hsome] at hnone
      cases hnone
    · obtain rfl : path = output := Option.some.inj (hsome.symm.trans houtput)
      obtain ⟨l, hlocate, hframe⟩ := FileTree.write_frame hwrite
      exact ⟨format, config, _, l, hprepare, hcollect, hlocate, hframe⟩

/-- The report of a scan is in its place. -/
def Placed (host : Host) (t : FileTree) (args : ScanArguments) : Prop :=
  (args.output = none → (scan host t args).tree = t) ∧
    ∀ output, args.output = some output → ReportsTo host t args output (scan host t args).tree

/-- The output of a scan is taken that gets as far as writing its report. -/
def Completes (host : Host) (t : FileTree) (args : ScanArguments) : Prop :=
  ∃ format config files, Reaches host t args format config files ∧
    Taken host t args format (survey config files)

theorem Reaches.eq {format' : Report.Format} {config' : Config} {files' : List SourceFile}
    (h : Reaches host t args format config files)
    (h' : Reaches host t args format' config' files') :
    format = format' ∧ config = config' ∧ files = files' := by
  obtain ⟨hprepare, hselection, hfiles⟩ := h
  obtain ⟨hprepare', hselection', hfiles'⟩ := h'
  obtain ⟨rfl, rfl⟩ := Prod.mk.inj (Except.ok.inj (hprepare.symm.trans hprepare'))
  obtain rfl := Except.ok.inj (hselection.symm.trans hselection')
  exact ⟨rfl, rfl, Except.ok.inj (hfiles.symm.trans hfiles')⟩

/-- **What a scan can do**: fail and leave the tree alone, fail over its warnings with the report in
place, or do its work. -/
theorem scan_cases (host : Host) (t : FileTree) (args : ScanArguments) :
    (¬ Completes host t args ∧ (scan host t args).ending.Fails ∧ (scan host t args).tree = t) ∨
    (¬ Completes host t args ∧ (∃ e, (scan host t args).ending = .failure (.stream e)) ∧
      host.stderr.takes (scan host t args).stderr = false ∧ Placed host t args) ∨
    (Completes host t args ∧ ¬ (scan host t args).ending.Fails ∧ Placed host t args) := by
  by_cases hreaches : ∃ format config files, Reaches host t args format config files
  · obtain ⟨format, config, files, h⟩ := hreaches
    have hcompletes : Completes host t args ↔ Taken host t args format (survey config files) := by
      refine ⟨?_, fun htaken => ⟨_, _, _, h, htaken⟩⟩
      rintro ⟨format', config', files', h', htaken⟩
      obtain ⟨rfl, rfl, rfl⟩ := h.eq h'
      exact htaken
    rw [hcompletes, Placed, h.scan_eq]
    rcases deliver_cases host t args format (survey config files) with
      ⟨htaken, hending, hput⟩ | ⟨htaken, htree, hbroken⟩ | ⟨htaken, hrefused, hending, hput⟩
    · refine Or.inr (Or.inr ⟨htaken, ?_, h.tree_of_putReport hput⟩)
      rw [hending]
      exact not_fails_scanEnding _ _
    · refine Or.inl ⟨htaken, ?_, htree⟩
      rcases hbroken with habort | ⟨reason, hfailure⟩
      · exact Or.inr (Or.inr habort)
      · exact Or.inr (Or.inl ⟨reason, hfailure⟩)
    · exact Or.inr (Or.inl ⟨htaken, hending, hrefused, h.tree_of_putReport hput⟩)
  · have hcompletes : ¬ Completes host t args := fun ⟨format, config, files, h, _⟩ =>
      hreaches ⟨format, config, files, h⟩
    rcases reaches_or host t args with h | ⟨htree, herror | habort | ⟨fault, hfault⟩⟩
    · exact absurd h hreaches
    · exact Or.inl ⟨hcompletes, Or.inl herror, htree⟩
    · exact Or.inl ⟨hcompletes, Or.inr (Or.inr habort), htree⟩
    · exact Or.inl ⟨hcompletes, Or.inr (Or.inl ⟨_, hfault⟩), htree⟩

/-- The report stays where it was put when the error stream does not take the warnings. -/
theorem deliver_of_refused {c : Catalog} (hnotice : host.stderr.takes (emptyWarning c) = true)
    (hput : putReport host t args.output (format.render host.color c) = .ok t')
    (hrefused : host.stderr.takes (warnings host args format c) = false) :
    (∃ e, (deliver host t args format c).ending = .failure (.stream e)) ∧
      (deliver host t args format c).tree = t' := by
  unfold deliver
  dsimp only
  rw [if_pos hnotice, hput]
  cases hwarned : host.stderr.refusal? (emptyWarning c ++
      openNamesWarning host.color format args.output c) with
  | none =>
    rw [warnings, Stream.takes_eq_true_iff.mpr hwarned] at hrefused
    cases hrefused
  | some e => exact ⟨⟨e, rfl⟩, rfl⟩

/-- A catalogue with an open name has a warning. -/
theorem warning_ne_empty {color : Bool} {c : Catalog} (h : c.hasUnresolved = true) :
    Report.Pretty.warning color c ≠ "" := by
  have hne : c.unresolved.isEmpty = false := by
    rw [Catalog.unresolved, Std.ExtTreeSet.isEmpty_toList]
    simpa [Catalog.hasUnresolved] using h
  rw [Report.Pretty.warning, Report.Pretty.warningLines, hne]
  simp [Report.Pretty.lines, String.join_cons]

end Scan

/-- **A scan changes nothing but the file for its report, and a scan that fails changes nothing**
unless it fails over its warnings. A scan fails exactly if it does not get as far as writing its
report or if its output is not taken, for whatever reason. Then the tree is the one before, unless
the reason is that the error stream does not take the warnings, which come behind the report. If the
report is wanted on the terminal, the tree is always the one before. If it is wanted in a file,
either nothing has changed, or the path for the report leads to a file with the whole report and
every other path shows what it showed before, unless it leads to that same file; the latter holds
whenever the scan does not fail. -/
theorem scan_changes_only_output (host : Host) (t : FileTree) (args : ScanArguments) :
    ((scan host t args).ending.Fails ↔ ¬ ∃ format config files,
      Reaches host t args format config files ∧ Taken host t args format (survey config files)) ∧
    ((scan host t args).ending.Fails → (scan host t args).tree = t ∨
      (∃ e, (scan host t args).ending = .failure (.stream e)) ∧
        host.stderr.takes (scan host t args).stderr = false) ∧
    (args.output = none → (scan host t args).tree = t) ∧
    (∀ output, args.output = some output →
      ((scan host t args).tree = t ∨ ReportsTo host t args output (scan host t args).tree) ∧
      (¬ (scan host t args).ending.Fails →
        ReportsTo host t args output (scan host t args).tree)) := by
  rcases scan_cases host t args with ⟨hnot, hfails, htree⟩ |
    ⟨hnot, ⟨e, hending⟩, hrefused, hnone, hsome⟩ | ⟨hcompletes, hworks, hnone, hsome⟩
  · exact ⟨iff_of_true hfails hnot, fun _ => Or.inl htree, fun _ => htree,
      fun output _ => ⟨Or.inl htree, fun hworks => absurd hfails hworks⟩⟩
  · have hfails : (scan host t args).ending.Fails := hending ▸ fails_failure _
    exact ⟨iff_of_true hfails hnot, fun _ => Or.inr ⟨⟨e, hending⟩, hrefused⟩, hnone,
      fun output houtput => ⟨Or.inr (hsome output houtput), fun _ => hsome output houtput⟩⟩
  · exact ⟨iff_of_false hworks (not_not_intro hcompletes), fun hfails => absurd hfails hworks,
      hnone, fun output houtput =>
        ⟨Or.inr (hsome output houtput), fun _ => hsome output houtput⟩⟩

/-- A report that is wanted under the path of a folder, and one that replaces the only source. -/
theorem scan_changes_only_output_folder :
    (scan .plain ⟨[("A.kt", .file [97]), ("out", .folder [])], []⟩
      ⟨"A.kt", none, "csv", some "out", [], false⟩).tree =
        ⟨[("A.kt", .file [97]), ("out", .folder [])], []⟩ ∧
    ReportsTo .plain ⟨[("A.kt", .file [97]), ("out", .folder [])], []⟩
      ⟨"A.kt", none, "csv", some "A.kt", [], false⟩ "A.kt"
      (scan .plain ⟨[("A.kt", .file [97]), ("out", .folder [])], []⟩
        ⟨"A.kt", none, "csv", some "A.kt", [], false⟩).tree := by
  constructor
  · have hending : (scan .plain ⟨[("A.kt", .file [97]), ("out", .folder [])], []⟩
        ⟨"A.kt", none, "csv", some "out", [], false⟩).ending =
          .failure (.create "out" .isDirectory) := by decide +kernel
    refine ((scan_changes_only_output _ _ _).2.1 (hending ▸ fails_failure _)).resolve_right ?_
    rintro ⟨⟨e, hstream⟩, -⟩
    rw [hending] at hstream
    cases hstream
  · have hending : (scan .plain ⟨[("A.kt", .file [97]), ("out", .folder [])], []⟩
        ⟨"A.kt", none, "csv", some "A.kt", [], false⟩).ending = .exit .success := by decide +kernel
    exact ((scan_changes_only_output _ _ _).2.2.2 "A.kt" rfl).2
      (hending ▸ not_fails_exit (by decide))

/-! ### A scan that fails over its warnings -/

/-- The catalogue of the source with a call whose name is left open. -/
def openCatalog : Catalog := survey .standard [.at "A.kt" openSource]

theorem hasUnresolved_openCatalog : openCatalog.hasUnresolved = true :=
  hasUnresolved_survey_iff.mpr ⟨_, List.mem_singleton_self _, leavesOpen_openSource⟩

theorem emptyWarning_openCatalog : emptyWarning openCatalog = "" := by
  have hfiles : openCatalog.files = 1 := (Catalog.ofFindings_spec _).2.2.2.2
  simp [emptyWarning, hfiles]

/-- The report on that catalogue takes the place of the empty file beside the source. -/
theorem exists_write_openTree :
    ∃ t', openTree.write "out" (encode (Report.Csv.render openCatalog).toList) = .ok t' ∧
      t' ≠ openTree := by
  have hlocation : openTree.fileLocation "out" = .ok ["out"] := by decide +kernel
  obtain ⟨t', hwrite⟩ : ∃ t',
      openTree.write "out" (encode (Report.Csv.render openCatalog).toList) = .ok t' := by
    rw [FileTree.write, hlocation]
    exact ⟨_, rfl⟩
  refine ⟨t', hwrite, fun htree => ?_⟩
  obtain ⟨l, hlocate, -⟩ := FileTree.write_frame hwrite
  have hbefore : openTree.locate "out" = .ok (["out"], .file []) := rfl
  rw [htree, hbefore] at hlocate
  have hempty := Entry.file.inj (Prod.mk.inj (Except.ok.inj hlocate)).2
  have hsize := congrArg List.length hempty.symm
  rw [length_encode] at hsize
  exact Report.Csv.render_ne_empty openCatalog
    (String.toList_eq_nil_iff.mp (byteSize_eq_zero_iff.mp hsize))

/-- The error stream may have no room for the warnings. A scan of a call whose name is left open then
fails with an error, and an empty file that stood at the path for its report holds the report. -/
theorem not_forall_fails_tree :
    ¬ ∀ (host : Host) (t : FileTree) (args : ScanArguments),
      ((scan host t args).ending = .exit .error ∨
        ∃ reason, (scan host t args).ending = .failure reason) → (scan host t args).tree = t := by
  intro h
  let full : Host := { Host.plain with stderr := .limited 0 .noSpace }
  let args : ScanArguments := ⟨"A.kt", none, "csv", some "out", [], false⟩
  have hscan : scan full openTree args = deliver full openTree args .csv openCatalog :=
    (reaches_openTree full rfl (some "out") false).scan_eq
  obtain ⟨t', hwrite, hne⟩ := exists_write_openTree
  have hnotice : full.stderr.takes (emptyWarning openCatalog) = true := by
    rw [emptyWarning_openCatalog, Stream.takes_empty]
  have hwarnings : warnings full args .csv openCatalog ≠ "" := by
    rw [warnings, emptyWarning_openCatalog, String.empty_append]
    exact warning_ne_empty hasUnresolved_openCatalog
  have hrefused : full.stderr.takes (warnings full args .csv openCatalog) = false :=
    Bool.eq_false_iff.mpr (mt Stream.takes_limited_zero_iff.mp hwarnings)
  have hput : putReport full openTree args.output
      (Report.Format.csv.render full.color openCatalog) = .ok t' :=
    putReport_eq_ok_iff.mpr (Or.inr ⟨"out", rfl, rfl, hwrite⟩)
  obtain ⟨⟨e, hfailure⟩, htree⟩ := deliver_of_refused hnotice hput hrefused
  rw [← hscan] at hfailure htree
  exact hne (htree.symm.trans (h full openTree args (Or.inr ⟨_, hfailure⟩)))

end Telemetry.Command
