import Telemetry.Command.Scan
import Telemetry.Proofs.Analysis
import Telemetry.Proofs.Catalog.OpenNames
import Telemetry.Proofs.Report.Csv

/-!
How a scan ends, and what its exit code says about the sources.

`Analyzer.LeavesOpen` says of a text that some call in it has a name that is left open, in terms of
the calls and of the resolution of their names. `Command.Reaches` says that a scan gets as far as
writing its report, and on which files, and `Command.Taken` that its report and its warnings are
taken.

* `complete_analyze_iff` — the findings of a text are complete exactly if no call in it has a name
  that is left open.
* `reaches_or`, `deliver_cases` — what a scan can do before its report and with it.
* `unresolved_exact` — the list of open names is exact, and so is the exit code of a strict scan.
* `not_forall_reaches_ending` — the exit code is not exact where the terminal refuses the report.
-/

namespace Telemetry

open Telemetry.Text

/-! ### Calls whose names are left open -/

namespace Analyzer

/-- A call in the text records something under a name that is left open. -/
inductive LeavesOpen (a : Analyzer) (file : String) (text : List Char)
    (overrides : Symbol.Overrides) : Prop where
  | meter {call : Call.Record} {expr : String}
      (hcall : call ∈ Call.calls (MeterKind.all.map (·.name)) text (a.meter.namesIn text))
      (hname : Call.meterName? call.args = some expr)
      (hopen : (Template.resolve (context file text overrides) expr).resolved = false)
  | event {call : Call.Record} {args : Call.EventArguments}
      (hcall : call ∈ Call.calls (Severity.all.map (·.name)) text (a.event.namesIn text))
      (hname : Call.eventArguments? call.args = some args)
      (hopen : (Template.resolve (context file text overrides) args.name).resolved = false)

section Findings

variable {r : Receiver} {ctx : Template.Context} {file : String} {text : List Char}

/-- All meters of a text are resolved if the names of all calls that have one are. -/
theorem meters_resolved_iff :
    (∀ m ∈ meters r ctx file text, m.resolved = true) ↔
      ∀ call ∈ Call.calls (MeterKind.all.map (·.name)) text (r.namesIn text), ∀ expr,
        Call.meterName? call.args = some expr → (Template.resolve ctx expr).resolved = true := by
  simp only [meters, List.mem_filterMap]
  constructor
  · intro h call hcall expr hexpr
    obtain ⟨hmethod, -⟩ := (Call.mem_recorded_iff (Or.inl rfl) r).mp hcall
    obtain ⟨kind, -, hkind⟩ := List.mem_map.mp hmethod
    have hmeter : meterOf? ctx file call = some
        ⟨(Template.resolve ctx expr).value, kind, file, (Template.resolve ctx expr).resolved⟩ := by
      rw [meterOf?, ← hkind, MeterKind.ofName?_name, hexpr]
      rfl
    exact h _ ⟨call, hcall, hmeter⟩
  · rintro h m ⟨call, hcall, hm⟩
    obtain ⟨kind, -, hm⟩ := Option.bind_eq_some_iff.mp hm
    obtain ⟨expr, hexpr, rfl⟩ := Option.map_eq_some_iff.mp hm
    exact h call hcall expr hexpr

/-- All events of a text are resolved if the names of all calls that have one are. -/
theorem events_resolved_iff :
    (∀ e ∈ events r ctx file text, e.resolved = true) ↔
      ∀ call ∈ Call.calls (Severity.all.map (·.name)) text (r.namesIn text), ∀ args,
        Call.eventArguments? call.args = some args →
          (Template.resolve ctx args.name).resolved = true := by
  simp only [events, List.mem_filterMap]
  constructor
  · intro h call hcall args hargs
    obtain ⟨hmethod, -⟩ := (Call.mem_recorded_iff (Or.inr rfl) r).mp hcall
    obtain ⟨severity, -, hseverity⟩ := List.mem_map.mp hmethod
    have hevent : eventOf? ctx file call = some
        ⟨(Template.resolve ctx args.name).value, severity,
          (args.value.map ValueType.classify).getD noValue, file,
          (Template.resolve ctx args.name).resolved⟩ := by
      rw [eventOf?, ← hseverity, Severity.ofName?_name, hargs]
      rfl
    exact h _ ⟨call, hcall, hevent⟩
  · rintro h e ⟨call, hcall, he⟩
    obtain ⟨severity, -, he⟩ := Option.bind_eq_some_iff.mp he
    obtain ⟨args, hargs, rfl⟩ := Option.map_eq_some_iff.mp he
    exact h call hcall args hargs

end Findings

/-- **The findings of a text are complete** exactly if no call in it leaves a name open. -/
theorem complete_analyze_iff {a : Analyzer} {file : String} {text : List Char}
    {overrides : Symbol.Overrides} :
    (a.analyze file text overrides).Complete ↔ ¬ a.LeavesOpen file text overrides := by
  rw [analyze_eq_findings]
  constructor
  · rintro ⟨hmeters, hevents⟩ (⟨hcall, hname, hopen⟩ | ⟨hcall, hname, hopen⟩)
    · have hresolved := meters_resolved_iff.mp hmeters _ hcall _ hname
      rw [hresolved] at hopen
      cases hopen
    · have hresolved := events_resolved_iff.mp hevents _ hcall _ hname
      rw [hresolved] at hopen
      cases hopen
  · intro h
    constructor
    · refine meters_resolved_iff.mpr fun call hcall expr hname => ?_
      exact Bool.not_eq_false _ |>.mp fun hopen => h (.meter hcall hname hopen)
    · refine events_resolved_iff.mpr fun call hcall args hname => ?_
      exact Bool.not_eq_false _ |>.mp fun hopen => h (.event hcall hname hopen)

end Analyzer

/-- **A catalogue has an open name** exactly if some call in its files leaves one open. -/
theorem hasUnresolved_survey_iff {c : Config} {files : List SourceFile} :
    (survey c files).hasUnresolved = true ↔
      ∃ f ∈ files, c.analyzer.LeavesOpen f.name f.text.toList c.overrides := by
  rw [← Bool.not_eq_false, survey, Catalog.hasUnresolved_eq_false_iff]
  simp only [List.forall_mem_map, Analyzer.complete_analyze_iff]
  simp

namespace Command

/-! ### What a stream takes -/

/-- A stream that takes a text takes what comes first in it. -/
theorem Stream.takes_of_append {s : Stream} {text more : String}
    (h : s.takes (text ++ more) = true) : s.takes text = true := by
  cases s with
  | unlimited => rfl
  | limited room error =>
    simp only [Stream.takes, Stream.refusal?, String.toList_append, encode_append,
      List.length_append] at h ⊢
    split
    · rename_i hroom
      rw [if_pos (by omega)] at h
      exact h
    · rfl

/-- A stream without room takes nothing but the empty text. -/
theorem Stream.takes_limited_zero_iff {e : StreamError} {text : String} :
    (Stream.limited 0 e).takes text = true ↔ text = "" := by
  rw [takes_eq_true_iff, refusal?, length_encode]
  constructor
  · intro h
    by_contra hne
    rw [if_pos (byteSize_pos (mt String.toList_eq_nil_iff.mp hne))] at h
    cases h
  · rintro rfl
    rfl

/-! ### Scans that write their report -/

/-- A scan gets as far as writing its report, on the given files: it is not refused, and the files
are found and read. -/
inductive Reaches (host : Host) (t : FileTree) (args : ScanArguments) (format : Report.Format)
    (config : Config) (files : List SourceFile) : Prop where
  | intro {selection : Selection}
      (hprepare : prepare t host.access args = .ok (format, config))
      (hselection : Selection.ofPatterns config.extensions config.excludedPaths = .ok selection)
      (hfiles : t.sourcesWith host.access selection args.path = .ok files)

/-- The warnings of a scan. -/
def warnings (host : Host) (args : ScanArguments) (format : Report.Format) (c : Catalog) : String :=
  emptyWarning c ++ openNamesWarning host.color format args.output c

/-- What a scan writes on a catalogue is taken: the report by the terminal, or by the file that is
wanted for it, and the warnings by the error stream. -/
structure Taken (host : Host) (t : FileTree) (args : ScanArguments) (format : Report.Format)
    (c : Catalog) : Prop where
  printed : args.output = none → host.stdout.takes (format.render host.color c) = true
  written : ∀ path, args.output = some path → host.access.writing path = none ∧
    ∃ t', t.write path (encode (format.render host.color c).toList) = .ok t'
  warned : host.stderr.takes (warnings host args format c) = true

section Scan

variable {host : Host} {t : FileTree} {args : ScanArguments} {format : Report.Format}
  {config : Config} {files : List SourceFile} {c : Catalog}

/-- A catalogue is collected exactly if the patterns can be read and the files are found. -/
theorem collect_eq_ok_iff {a : Access} {path : String} {catalog : Catalog} :
    collect t a config path = .ok catalog ↔
      ∃ selection files, Selection.ofPatterns config.extensions config.excludedPaths =
          .ok selection ∧
        t.sourcesWith a selection path = .ok files ∧ catalog = survey config files := by
  unfold collect
  cases Selection.ofPatterns config.extensions config.excludedPaths with
  | error fault => simp
  | ok selection =>
    cases hfiles : t.sourcesWith a selection path with
    | error fault => simp [hfiles]
    | ok files => simp [hfiles, eq_comm]

/-- A scan that gets so far reports on the catalogue of the files. -/
theorem Reaches.scan_eq (h : Reaches host t args format config files) :
    scan host t args = deliver host t args format (survey config files) := by
  obtain ⟨hprepare, hselection, hfiles⟩ := h
  have hcollect := collect_eq_ok_iff.mpr ⟨_, _, hselection, hfiles, rfl⟩
  simp only [scan, hprepare, hcollect]

/-- **What a scan can do before it writes its report**: get there, or end without it. -/
theorem reaches_or (host : Host) (t : FileTree) (args : ScanArguments) :
    (∃ format config files, Reaches host t args format config files) ∨
      (scan host t args).tree = t ∧ ((scan host t args).ending = .exit .error ∨
        (scan host t args).ending = .abort ∨
        ∃ fault, (scan host t args).ending = .failure (.walk fault)) := by
  unfold scan
  cases hprepare : prepare t host.access args with
  | error refusal =>
    refine Or.inr ⟨rfl, ?_⟩
    dsimp only [Ending.after]
    split
    · exact Or.inl rfl
    · exact Or.inr (Or.inl rfl)
  | ok prepared =>
    obtain ⟨format, config⟩ := prepared
    dsimp only
    cases hcollect : collect t host.access config args.path with
    | error fault => exact Or.inr ⟨rfl, Or.inr (Or.inr ⟨fault, rfl⟩)⟩
    | ok catalog =>
      obtain ⟨selection, files, hselection, hfiles, rfl⟩ := collect_eq_ok_iff.mp hcollect
      exact Or.inl ⟨format, config, files, hprepare, hselection, hfiles⟩

section Delivery

variable {t' : FileTree} {output : Option String} {report : String}

theorem putReport_eq_ok_iff :
    putReport host t output report = .ok t' ↔
      (output = none ∧ host.stdout.takes report = true ∧ t' = t) ∨
      ∃ path, output = some path ∧ host.access.writing path = none ∧
        t.write path (encode report.toList) = .ok t' := by
  cases output with
  | none =>
    rw [putReport, Stream.takes_eq_true_iff]
    cases host.stdout.refusal? report <;> simp [eq_comm]
  | some path =>
    have hgrant : putReport host t (some path) report = .ok t' ↔
        Access.grant (host.access.writing path) (t.write path (encode report.toList)) = .ok t' := by
      rw [putReport]
      cases Access.grant (host.access.writing path) (t.write path (encode report.toList)) <;> simp
    rw [hgrant, Access.grant_eq_ok_iff]
    simp

theorem taken_iff :
    Taken host t args format c ↔
      (∃ t', putReport host t args.output (format.render host.color c) = .ok t') ∧
        host.stderr.takes (warnings host args format c) = true := by
  simp only [putReport_eq_ok_iff]
  constructor
  · rintro ⟨hprinted, hwritten, hwarned⟩
    refine ⟨?_, hwarned⟩
    cases houtput : args.output with
    | none => exact ⟨t, Or.inl ⟨rfl, hprinted houtput, rfl⟩⟩
    | some path =>
      obtain ⟨hallowed, t', ht'⟩ := hwritten path houtput
      exact ⟨t', Or.inr ⟨path, rfl, hallowed, ht'⟩⟩
  · rintro ⟨⟨t', ⟨hnone, htakes, -⟩ | ⟨path, hsome, hallowed, ht'⟩⟩, hwarned⟩
    · exact ⟨fun _ => htakes, fun path hpath => by simp [hnone] at hpath, hwarned⟩
    · refine ⟨fun hnone => by simp [hsome] at hnone, fun path' hpath => ?_, hwarned⟩
      obtain rfl : path = path' := by simpa [hsome] using hpath
      exact ⟨hallowed, t', ht'⟩

/-- **What a scan can do when it reports**: report, break off with the tree as it was, or find with
the report in its place that the error stream does not take the warnings. -/
theorem deliver_cases (host : Host) (t : FileTree) (args : ScanArguments)
    (format : Report.Format) (c : Catalog) :
    (Taken host t args format c ∧
      (deliver host t args format c).ending = scanEnding args.strict c ∧
      putReport host t args.output (format.render host.color c) =
        .ok (deliver host t args format c).tree) ∨
    (¬ Taken host t args format c ∧ (deliver host t args format c).tree = t ∧
      ((deliver host t args format c).ending = .abort ∨
        ∃ reason, (deliver host t args format c).ending = .failure reason)) ∨
    (¬ Taken host t args format c ∧
      host.stderr.takes (deliver host t args format c).stderr = false ∧
      (∃ e, (deliver host t args format c).ending = .failure (.stream e)) ∧
      putReport host t args.output (format.render host.color c) =
        .ok (deliver host t args format c).tree) := by
  rw [taken_iff]
  unfold deliver
  dsimp only
  split
  · cases hput : putReport host t args.output (format.render host.color c) with
    | error reason => exact Or.inr (Or.inl ⟨by simp, rfl, Or.inr ⟨reason, rfl⟩⟩)
    | ok t' =>
      dsimp only
      cases hwarned : host.stderr.refusal? (emptyWarning c ++
          openNamesWarning host.color format args.output c) with
      | none => exact Or.inl ⟨⟨⟨t', rfl⟩, Stream.takes_eq_true_iff.mpr hwarned⟩, rfl, rfl⟩
      | some e =>
        have hrefused : host.stderr.takes (warnings host args format c) = false := by
          simp [Stream.takes, warnings, hwarned]
        exact Or.inr (Or.inr ⟨by simp [hrefused], hrefused, ⟨e, rfl⟩, rfl⟩)
  · rename_i hnotice
    have hrefused : ¬ host.stderr.takes (warnings host args format c) = true :=
      fun h => hnotice (Stream.takes_of_append h)
    exact Or.inr (Or.inl ⟨fun h => hrefused h.2, rfl, Or.inl rfl⟩)

/-- A scan whose output is taken ends by its catalogue. -/
theorem Taken.ending_eq (h : Taken host t args format c) :
    (deliver host t args format c).ending = scanEnding args.strict c := by
  rcases deliver_cases host t args format c with ⟨-, hending, -⟩ | ⟨hnot, -⟩ | ⟨hnot, -⟩
  · exact hending
  · exact absurd h hnot
  · exact absurd h hnot

/-- A scan whose output is not taken breaks off. -/
theorem ending_of_not_taken (h : ¬ Taken host t args format c) :
    (deliver host t args format c).ending = .abort ∨
      ∃ reason, (deliver host t args format c).ending = .failure reason := by
  rcases deliver_cases host t args format c with ⟨htaken, -⟩ | ⟨-, -, hbroken⟩ | ⟨-, -, ⟨e, he⟩, -⟩
  · exact absurd htaken h
  · exact hbroken
  · exact Or.inr ⟨_, he⟩

end Delivery

end Scan

/-- **The list of open names is exact, and a strict scan is sound and complete.** The names that a
catalogue leaves open are listed strictly by file, name and category, and they are exactly those
under which some file has an entry that is not resolved, kept or not; there are none exactly if
every entry of every file is resolved. So a scan that gets as far as writing its report, and whose
report and warnings are taken, ends with the exit code for open names exactly if it is strict and
some call in its files has a name that is left open, and with success otherwise; and a scan that does
not get so far, or whose output is not taken, ends with neither. -/
theorem unresolved_exact :
    (∀ fs : List Findings,
      (Catalog.ofFindings fs).unresolved.Pairwise OpenName.Before ∧
      (∀ n, n ∈ (Catalog.ofFindings fs).unresolved ↔ ∃ f ∈ fs, f.LeavesOpen n) ∧
      ((Catalog.ofFindings fs).hasUnresolved = false ↔ ∀ f ∈ fs, f.Complete)) ∧
    ∀ (host : Host) (t : FileTree) (args : ScanArguments),
      (∀ format config files, Reaches host t args format config files →
        (Taken host t args format (survey config files) →
          ((scan host t args).ending = .exit .unresolved ↔ args.strict = true ∧
            ∃ f ∈ files, config.analyzer.LeavesOpen f.name f.text.toList config.overrides) ∧
          ((scan host t args).ending = .exit .success ↔ ¬ (args.strict = true ∧
            ∃ f ∈ files, config.analyzer.LeavesOpen f.name f.text.toList config.overrides))) ∧
        (¬ Taken host t args format (survey config files) →
          (scan host t args).ending ≠ .exit .unresolved ∧
            (scan host t args).ending ≠ .exit .success)) ∧
      ((¬ ∃ format config files, Reaches host t args format config files) →
        (scan host t args).ending ≠ .exit .unresolved ∧
          (scan host t args).ending ≠ .exit .success) := by
  refine ⟨fun fs => ⟨Catalog.pairwise_unresolved _, fun n => Catalog.mem_unresolved_iff,
    Catalog.hasUnresolved_eq_false_iff⟩,
    fun host t args => ⟨fun format config files h => ⟨fun htaken => ?_, fun htaken => ?_⟩,
      fun h => ?_⟩⟩
  · rw [← hasUnresolved_survey_iff, ← Bool.and_eq_true, h.scan_eq, htaken.ending_eq, scanEnding]
    split
    · rename_i hopen
      simp [hopen]
    · rename_i hopen
      simp [hopen]
  · rw [h.scan_eq]
    rcases ending_of_not_taken htaken with hending | ⟨reason, hending⟩ <;> simp [hending]
  · rcases reaches_or host t args with hreaches | ⟨-, hending | hending | ⟨fault, hending⟩⟩
    · exact absurd hreaches h
    · simp [hending]
    · simp [hending]
    · simp [hending]

/-! ### A scan on a call whose name is left open -/

/-- A call whose name refers to an unknown symbol. -/
def openSource : String := "meterRegistry.counter(\"$p\")"

/-- A source with such a call, and an empty file beside it. -/
def openTree : FileTree := ⟨[("A.kt", .file (encode openSource.toList)), ("out", .file [])], []⟩

theorem leavesOpen_openSource :
    Config.standard.analyzer.LeavesOpen "A.kt" openSource.toList Config.standard.overrides := by
  have hsite : (⟨"counter", 21⟩ : Call.Site) ∈
      Call.memberSites (MeterKind.all.map (·.name)) openSource.toList
        (Source.Coverage.ofBytes (encode openSource.toList)) "meterRegistry".toList 0
        (byteSize openSource.toList) := by
    decide +kernel
  obtain ⟨hmethod, k, hsite, -⟩ :=
    (Call.mem_memberSites_iff (Call.isIdentifier_of_recorded (Or.inl rfl)) (by decide)
      (isWindow_whole _)).mp hsite
  have hcall : (⟨⟨"counter", 21⟩, ["\"$p\""]⟩ : Call.Record) ∈
      Call.calls (MeterKind.all.map (·.name)) openSource.toList
        (Receiver.meterDefault.namesIn openSource.toList) :=
    (Call.mem_recorded_iff (Or.inl rfl) _).mpr
      ⟨hmethod, ⟨"meterRegistry", by decide +kernel, .direct hsite⟩, by decide +kernel⟩
  have hname : Call.meterName? ["\"$p\""] = some "\"$p\"" := by decide +kernel
  exact .meter hcall hname (by decide +kernel)

theorem reaches_openTree (host : Host) (haccess : host.access = .full) (output : Option String)
    (strict : Bool) :
    Reaches host openTree ⟨"A.kt", none, "csv", output, [], strict⟩ .csv .standard
      [.at "A.kt" openSource] := by
  have hformat : Report.Format.ofName? "csv" = some .csv := by decide +kernel
  have hdiscover : discoverConfig openTree "." = none := by decide +kernel
  have hfault : Config.standard.fault? = none := by decide +kernel
  have hexists : openTree.exists? "A.kt" = true := by decide +kernel
  have hfiles : openTree.sourcesWith .full ⟨["kt", "kts"], fun _ => false⟩ "A.kt" =
      .ok [.at "A.kt" openSource] := by decide +kernel
  refine .intro ?_ rfl ?_
  · simp [prepare, scanConfig, baseConfig, hdiscover, hformat, hfault, hexists,
      Config.addOverrides]
  · rw [haccess]
    exact hfiles

/-- A strict scan of a file with such a call. -/
theorem unresolved_exact_strict :
    (scan .plain openTree ⟨"A.kt", none, "csv", none, [], true⟩).ending = .exit .unresolved := by
  have hreaches := reaches_openTree .plain rfl none true
  refine (((unresolved_exact.2 _ _ _).1 _ _ _ hreaches).1 ?_).1.mpr
    ⟨rfl, _, List.mem_singleton_self _, leavesOpen_openSource⟩
  exact ⟨fun _ => rfl, fun path hpath => (nomatch hpath), rfl⟩

/-- The terminal may have no room for the report. Then the same scan gets as far as writing it and
ends neither with success nor with the exit code for open names. -/
theorem not_forall_reaches_ending :
    ¬ ∀ (host : Host) (t : FileTree) (args : ScanArguments) (format : Report.Format)
        (config : Config) (files : List SourceFile), Reaches host t args format config files →
      ((scan host t args).ending = .exit .unresolved ↔ args.strict = true ∧
        ∃ f ∈ files, config.analyzer.LeavesOpen f.name f.text.toList config.overrides) ∧
      ((scan host t args).ending = .exit .success ↔ ¬ (args.strict = true ∧
        ∃ f ∈ files, config.analyzer.LeavesOpen f.name f.text.toList config.overrides)) := by
  intro h
  let full : Host := { Host.plain with stdout := .limited 0 .noSpace }
  have hreaches := reaches_openTree full rfl none true
  have hending := (h _ _ _ _ _ _ hreaches).1.mpr
    ⟨rfl, _, List.mem_singleton_self _, leavesOpen_openSource⟩
  rw [hreaches.scan_eq] at hending
  have hrefused : ¬ Taken full openTree ⟨"A.kt", none, "csv", none, [], true⟩ .csv
      (survey .standard [.at "A.kt" openSource]) := fun htaken =>
    Report.Csv.render_ne_empty _ (Stream.takes_limited_zero_iff.mp (htaken.printed rfl))
  rcases ending_of_not_taken hrefused with habort | ⟨reason, hfailure⟩
  · rw [habort] at hending
    cases hending
  · rw [hfailure] at hending
    cases hending

end Command

end Telemetry
