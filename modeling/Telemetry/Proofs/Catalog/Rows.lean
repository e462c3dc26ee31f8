import Mathlib.Data.String.Basic
import Telemetry.Proofs.Catalog.Aggregation
import Telemetry.Proofs.Sorting
import Telemetry.Report.Csv
import Telemetry.Report.Json

/-!
The rows of a report are a canonical listing.

The entries of a catalogue have pairwise different keys, and two entries that the report order puts
in one place have the same key. So sorting leaves no ties that the order of the files could break.

* `pairwise_firsts` — first entries have pairwise different keys.
* `Meter.compare_eq_lt_iff`, `Event.compare_eq_lt_iff` — the two report orders, written out on the
  rows.
* `Catalog.rows_canonical` — the rows of a catalogue are those of its meters and then those of its
  events, each in strict order, and they depend on nothing but which entries there are.
-/

namespace Telemetry

/-- First entries have pairwise different keys. -/
theorem pairwise_firsts {α β : Type} [DecidableEq β] {key : α → β} {xs : List α} :
    (firsts key xs).Pairwise fun a b => key a ≠ key b := by
  induction xs using List.reverseRecOn with
  | nil => exact .nil
  | append_singleton xs a ih =>
    rw [firsts_concat]
    split
    · exact ih
    · rename_i hnew
      refine List.pairwise_append.mpr ⟨ih, List.pairwise_singleton _ _, fun b hb c hc heq => ?_⟩
      obtain rfl := List.mem_singleton.mp hc
      exact hnew (exists_mem_firsts_iff.mp ⟨b, hb, heq⟩)

/-! ### The orders of a report -/

/-- The code points of a text. -/
def codePoints (s : String) : List Nat :=
  s.toList.map Char.toNat

/-- Texts are ordered by their code points. -/
theorem codePoints_lt_iff {s t : String} : codePoints s < codePoints t ↔ s < t := by
  have hchars : ∀ cs ds : List Char, cs.map Char.toNat < ds.map Char.toNat ↔ cs < ds := by
    intro cs
    induction cs with
    | nil => intro ds; cases ds <;> simp
    | cons c cs ih =>
      intro ds
      cases ds with
      | nil => simp
      | cons d ds =>
        rw [List.map_cons, List.map_cons, List.cons_lt_cons_iff, List.cons_lt_cons_iff, ih,
          Char.toNat_inj]
        rfl
  exact hchars s.toList t.toList

/-- The rank of a kind is its place in the declared order. -/
theorem MeterKind.all_rank (k : MeterKind) : MeterKind.all[k.rank]? = some k := by
  cases k <;> rfl

/-- The rank of a severity is its place in the declared order. -/
theorem Severity.all_rank (s : Severity) : Severity.all[s.rank]? = some s := by
  cases s <;> rfl

/-- The names of the kinds of meters, as they are declared. -/
def kindNames : List String := ["counter", "timer", "gauge", "summary", "rate", "throughput"]

/-- The names of the severities of events, as they are declared. -/
def severityNames : List String := ["trace", "debug", "info", "warn", "error"]

theorem idxOf_kindName (k : MeterKind) : kindNames.idxOf k.name = k.rank := by
  cases k <;> decide

theorem idxOf_severityName (s : Severity) : severityNames.idxOf s.name = s.rank := by
  cases s <;> decide

/-- The order of the rows of meters: by file, then name, then kind. -/
def Row.MeterBefore (r r' : Row) : Prop :=
  codePoints r.sourceFile < codePoints r'.sourceFile ∨ r.sourceFile = r'.sourceFile ∧
    (codePoints r.name < codePoints r'.name ∨ r.name = r'.name ∧
      kindNames.idxOf r.kind < kindNames.idxOf r'.kind)

/-- The order of the rows of events: by file, then name, then severity, then value type. -/
def Row.EventBefore (r r' : Row) : Prop :=
  codePoints r.sourceFile < codePoints r'.sourceFile ∨ r.sourceFile = r'.sourceFile ∧
    (codePoints r.name < codePoints r'.name ∨ r.name = r'.name ∧
      (severityNames.idxOf r.severity < severityNames.idxOf r'.severity ∨
        severityNames.idxOf r.severity = severityNames.idxOf r'.severity ∧
          codePoints r.valueType < codePoints r'.valueType))

instance : Std.TransCmp Meter.compare := by
  unfold Meter.compare; infer_instance

instance : Std.TransCmp Event.compare := by
  unfold Event.compare; infer_instance

theorem Meter.compare_eq_lt_iff {m m' : Meter} :
    m.compare m' = .lt ↔ m.row.MeterBefore m'.row := by
  simp only [Meter.compare, compareLex, compareOn, Ordering.then_eq_lt, compare_lt_iff_lt,
    compare_eq_iff_eq, Row.MeterBefore, Meter.row, codePoints_lt_iff, idxOf_kindName]

theorem Event.compare_eq_lt_iff {e e' : Event} :
    e.compare e' = .lt ↔ e.row.EventBefore e'.row := by
  simp only [Event.compare, compareLex, compareOn, Ordering.then_eq_lt, compare_lt_iff_lt,
    compare_eq_iff_eq, Row.EventBefore, Event.row, codePoints_lt_iff, idxOf_severityName]

/-- Meters in one place of the order have one key. -/
theorem Meter.key_eq_of_compare {m m' : Meter} (h : m.compare m' = .eq) : m.key = m'.key := by
  simp only [Meter.compare, compareLex, compareOn, Ordering.then_eq_eq, compare_eq_iff_eq] at h
  obtain ⟨-, hname, hrank⟩ := h
  have hkind : m.kind = m'.kind :=
    Option.some.inj (by rw [← m.kind.all_rank, hrank, m'.kind.all_rank])
  rw [Meter.key, Meter.key, hname, hkind]

/-- Events in one place of the order have one key. -/
theorem Event.key_eq_of_compare {e e' : Event} (h : e.compare e' = .eq) : e.key = e'.key := by
  simp only [Event.compare, compareLex, compareOn, Ordering.then_eq_eq, compare_eq_iff_eq] at h
  obtain ⟨-, hname, hrank, htype⟩ := h
  have hseverity : e.severity = e'.severity :=
    Option.some.inj (by rw [← e.severity.all_rank, hrank, e'.severity.all_rank])
  rw [Event.key, Event.key, hname, hseverity, htype]

namespace Catalog

/-! ### The rows -/

theorem pairwise_meters (fs : List Findings) :
    (ofFindings fs).meters.Pairwise fun m m' => m.compare m' ≠ .eq := by
  rw [(ofFindings_spec fs).2.1]
  exact pairwise_firsts.imp fun hkey heq => hkey (Meter.key_eq_of_compare heq)

theorem pairwise_events (fs : List Findings) :
    (ofFindings fs).events.Pairwise fun e e' => e.compare e' ≠ .eq := by
  rw [(ofFindings_spec fs).2.2.1]
  exact pairwise_firsts.imp fun hkey heq => hkey (Event.key_eq_of_compare heq)

/-- **The rows of a catalogue are a canonical, strictly sorted listing.** They are one row for each
meter and then one row for each event, with the contents of the entry; the rows of meters increase
strictly by file, name and kind, those of events by file, name, severity and value type. Catalogues
that hold the same entries, in whatever order these were added, have the same rows and the same
comma-separated report. The counts of a document add up to the number of its rows. -/
theorem rows_canonical (fs : List Findings) :
    (∃ meterRows eventRows : List Row, (ofFindings fs).rows = meterRows ++ eventRows ∧
      meterRows.Perm ((ofFindings fs).meters.map fun m =>
        ⟨.meter, m.name, m.kind.name, "", "", m.sourceFile⟩) ∧
      eventRows.Perm ((ofFindings fs).events.map fun e =>
        ⟨.event, e.name, "", e.severity.name, e.valueType, e.sourceFile⟩) ∧
      meterRows.Pairwise Row.MeterBefore ∧ eventRows.Pairwise Row.EventBefore) ∧
    (∀ gs, (∀ m, m ∈ (ofFindings gs).meters ↔ m ∈ (ofFindings fs).meters) →
      (∀ e, e ∈ (ofFindings gs).events ↔ e ∈ (ofFindings fs).events) →
      (ofFindings gs).rows = (ofFindings fs).rows ∧
        Report.Csv.render (ofFindings gs) = Report.Csv.render (ofFindings fs)) ∧
    (Report.Json.Summary.ofCatalog (ofFindings fs)).meterCount +
        (Report.Json.Summary.ofCatalog (ofFindings fs)).eventCount =
      (Report.Json.Summary.ofCatalog (ofFindings fs)).rows.length := by
  refine ⟨?_, fun gs hmeters hevents => ?_, ?_⟩
  · have hmeters := pairwise_mergeSort_lt (pairwise_meters fs)
    have hevents := pairwise_mergeSort_lt (pairwise_events fs)
    exact ⟨_, _, rfl, (List.mergeSort_perm _ _).map _, (List.mergeSort_perm _ _).map _,
      List.pairwise_map.mpr (hmeters.imp Meter.compare_eq_lt_iff.mp),
      List.pairwise_map.mpr (hevents.imp Event.compare_eq_lt_iff.mp)⟩
  · have hrows : (ofFindings gs).rows = (ofFindings fs).rows := by
      rw [rows, rows, mergeSort_eq_of_mem_iff (pairwise_meters gs) (pairwise_meters fs) hmeters,
        mergeSort_eq_of_mem_iff (pairwise_events gs) (pairwise_events fs) hevents]
    refine ⟨hrows, ?_⟩
    rw [Report.Csv.render, Report.Csv.render, hrows]
  · simp [Report.Json.Summary.ofCatalog, rows]

theorem rows_canonical_swapped :
    let zeta : Findings :=
      ⟨[⟨"zeta", .counter, "B.kt", false⟩, ⟨"zeta", .timer, "B.kt", true⟩],
        [⟨"say", .warn, "Int", "B.kt", true⟩]⟩
    let mid : Findings := ⟨[⟨"mid", .rate, "A.kt", true⟩], [⟨"say", .info, "none", "A.kt", true⟩]⟩
    (∀ m, m ∈ (ofFindings [mid, zeta]).meters ↔ m ∈ (ofFindings [zeta, mid]).meters) ∧
      (∀ e, e ∈ (ofFindings [mid, zeta]).events ↔ e ∈ (ofFindings [zeta, mid]).events) ∧
      (ofFindings [mid, zeta]).meters ≠ (ofFindings [zeta, mid]).meters ∧
      (ofFindings [mid, zeta]).rows = (ofFindings [zeta, mid]).rows ∧
      (ofFindings [zeta, mid]).rows =
        [⟨.meter, "mid", "rate", "", "", "A.kt"⟩, ⟨.meter, "zeta", "counter", "", "", "B.kt"⟩,
          ⟨.meter, "zeta", "timer", "", "", "B.kt"⟩, ⟨.event, "say", "", "info", "none", "A.kt"⟩,
          ⟨.event, "say", "", "warn", "Int", "B.kt"⟩] := by
  intro zeta mid
  have hmeters : (ofFindings [mid, zeta]).meters.Perm (ofFindings [zeta, mid]).meters := by
    decide +kernel
  have hevents : (ofFindings [mid, zeta]).events.Perm (ofFindings [zeta, mid]).events := by
    decide +kernel
  obtain ⟨-, hsame, -⟩ := rows_canonical [zeta, mid]
  have hrows := (hsame [mid, zeta] (fun m => hmeters.mem_iff) fun e => hevents.mem_iff).1
  have hmeters' : ((ofFindings [mid, zeta]).meters.mergeSort fun a b => (a.compare b).isLE) =
      (ofFindings [mid, zeta]).meters := List.mergeSort_of_pairwise (by decide +kernel)
  have hevents' : ((ofFindings [mid, zeta]).events.mergeSort fun a b => (a.compare b).isLE) =
      (ofFindings [mid, zeta]).events := List.mergeSort_of_pairwise (by decide +kernel)
  refine ⟨fun m => hmeters.mem_iff, fun e => hevents.mem_iff, by decide +kernel, hrows, ?_⟩
  rw [← hrows, rows, hmeters', hevents']
  decide +kernel

end Catalog

end Telemetry
