import Telemetry.Proofs.Analysis
import Telemetry.Proofs.Source.Arguments
import Telemetry.Proofs.Symbol.Declarations
import Telemetry.Proofs.Template.Size

/-!
How large the names are that the analysis of a file reports.

A name is the resolution of an expression against the table of the file, so its size is bounded by
the size limit and by the larger of the expression and the longest value in the table. Both the
expression and the value of a declaration are cut out of the text of the file, and cutting makes
nothing larger; only the value of an override may be.

* `exists_of_meterName?`, `exists_of_eventArguments?` — a name expression is no larger than one of
  the arguments of its call.
* `size_of_mem_calls` — an argument is no larger than the text.
* `get?_build_cases` — a value in the table of a file is the value of an override, or no larger than
  the text.
* `names_bounded` — so every name that is reported is bounded by the text and the overrides.
-/

namespace Telemetry

open Telemetry.Text Telemetry.Source

/-! ### Name expressions -/

namespace Call

variable {key arg expr name : String} {args : List String}

/-- The right-hand side of a named argument is a part of the argument. -/
theorem size_of_named? (h : named? key arg = some expr) :
    expr.utf8ByteSize ≤ arg.utf8ByteSize := by
  obtain ⟨rest, hrest, hread⟩ := Option.bind_eq_some_iff.mp h
  have hbehind : rest <:+ trimStart arg.toList :=
    ⟨key.toList, List.isPrefixOf?_eq_some_iff_append_eq.mp hrest⟩
  split at hread
  · cases hread
  · rename_i right _ hright
    obtain rfl := Option.some.inj hread
    have hpart : right <:+ arg.toList := calc
      right <:+ '=' :: right := List.suffix_cons _ _
      _ = trimStart rest := hright.symm
      _ <:+ rest := List.dropWhile_suffix _
      _ <:+ trimStart arg.toList := hbehind
      _ <:+ arg.toList := List.dropWhile_suffix _
    rw [utf8ByteSize_ofList, ← byteSize_toList arg]
    exact (byteSize_trim_le right).trans (byteSize_le_of_sublist hpart.sublist)
  · cases hread

theorem size_of_nonBlank? (h : nonBlank? expr = some name) :
    name.utf8ByteSize ≤ expr.utf8ByteSize := by
  unfold nonBlank? at h
  split at h
  · cases h
  · obtain rfl := Option.some.inj h
    rw [trimmed, utf8ByteSize_ofList, ← byteSize_toList expr]
    exact byteSize_trim_le _

/-- A name that is given as a named argument is no larger than the argument. -/
theorem exists_of_firstNamed? (hexpr : firstNamed? key args = some expr)
    (hname : nonBlank? expr = some name) :
    ∃ arg ∈ args, name.utf8ByteSize ≤ arg.utf8ByteSize := by
  obtain ⟨arg, harg, hnamed⟩ := List.exists_of_findSome?_eq_some hexpr
  exact ⟨arg, harg, (size_of_nonBlank? hname).trans (size_of_named? hnamed)⟩

/-- The name of a meter is no larger than one of the arguments. -/
theorem exists_of_meterName? (h : meterName? args = some name) :
    ∃ arg ∈ args, name.utf8ByteSize ≤ arg.utf8ByteSize := by
  unfold meterName? at h
  split at h
  · rename_i expr hexpr
    exact exists_of_firstNamed? hexpr h
  · split at h
    · exact ⟨_, by simp, size_of_nonBlank? h⟩
    · exact ⟨_, by simp, size_of_nonBlank? h⟩
    · cases h

/-- The name of an event is no larger than one of the arguments. -/
theorem exists_of_eventArguments? {found : EventArguments} (h : eventArguments? args = some found) :
    ∃ arg ∈ args, found.name.utf8ByteSize ≤ arg.utf8ByteSize := by
  unfold eventArguments? at h
  split at h
  · rename_i expr hexpr
    obtain ⟨name, hname, rfl⟩ := Option.map_eq_some_iff.mp h
    exact exists_of_firstNamed? hexpr hname
  · obtain ⟨name, hname, rfl⟩ := Option.map_eq_some_iff.mp h
    obtain ⟨arg, harg, hname⟩ := Option.bind_eq_some_iff.mp hname
    exact ⟨arg, List.mem_of_head? harg, size_of_nonBlank? hname⟩

/-- **An argument of a call is no larger than the text.** -/
theorem size_of_mem_calls {methods receivers : List String} {text : List Char} {c : Record}
    (hc : c ∈ calls methods text receivers) (harg : arg ∈ c.args) :
    arg.utf8ByteSize ≤ byteSize text := by
  obtain ⟨s, -, rfl⟩ := List.mem_map.mp hc
  obtain ⟨x, hx, rfl⟩ := List.mem_map.mp harg
  rw [utf8ByteSize_ofList]
  exact byteSize_le_of_sublist (sublist_of_mem_arguments hx)

end Call

/-! ### The values of a table -/

namespace Symbol

/-- The value of a declaration stands in it. -/
theorem isInfix_of_declaration {before : Option Char} {cs rest : List Char} {d : Declaration}
    (h : declaration before cs = some (d, rest)) : d.value <:+: cs := by
  obtain ⟨blanks, types, tail, -, rfl, hinitializer⟩ := exists_header_of_declaration h
  obtain ⟨space, line, -, -, -, rfl⟩ := exists_parts_of_initializer? hinitializer
  exact ⟨d.header blanks types ++ (space ++ ['"']), '"' :: (line ++ rest), by simp⟩

/-- **The value of a declaration is no larger than the text.** -/
theorem size_of_get?_ofSource {text : List Char} {name value : String}
    (h : (Table.ofSource text).get? name = some value) : value.utf8ByteSize ≤ byteSize text := by
  obtain ⟨earlier, o, later, hsplit, -, rfl, -⟩ := Table.get?_ofSource_eq_some_iff.mp h
  have ho : o ∈ declarations text := by simp [hsplit]
  obtain ⟨pre, cs, rest, rfl, -, hread, -, -⟩ :=
    exists_match_of_mem_occurrencesFrom (List.mem_of_mem_filter ho)
  rw [utf8ByteSize_ofList]
  exact byteSize_le_of_sublist
    ((isInfix_of_declaration hread).sublist.trans (List.sublist_append_right pre cs))

/-- The values of the overrides that are addressed to a file. -/
def overrideValues (identifier : String) (overrides : Overrides) : List String :=
  (overrides.toList.filter fun entry => (addressed? identifier entry.1).isSome).map (·.2)

/-- **A value in the table of a file** is the value of an override, or no larger than the text. -/
theorem Table.get?_build_cases {text : List Char} {identifier name value : String}
    {overrides : Overrides} (h : (Table.build text identifier overrides).get? name = some value) :
    value ∈ overrideValues identifier overrides ∨ value.utf8ByteSize ≤ byteSize text := by
  rw [build, get?_override, Option.or_eq_some_iff] at h
  rcases h with hoverride | ⟨-, hdeclared⟩
  · left
    obtain ⟨⟨hdot, hne⟩, hvalue⟩ := Option.ite_none_right_eq_some.mp hoverride
    refine List.mem_map.mpr ⟨(identifier ++ "." ++ name, value), List.mem_filter.mpr ⟨?_, ?_⟩, rfl⟩
    · exact Std.TreeMap.mem_toList_iff_getElem?_eq_some.mpr hvalue
    · rw [addressed?_eq_some_iff.mpr ⟨rfl, hdot, hne⟩]
      rfl
  · exact Or.inr (size_of_get?_ofSource hdeclared)

end Symbol

/-! ### Reported names -/

namespace Analyzer

open Telemetry.Template

/-- The number of bytes that no name in a file exceeds: the size limit, and the larger of the text
and the longest override of the file. -/
def nameBound (file : String) (text : List Char) (overrides : Symbol.Overrides) : Nat :=
  max (byteSize text) 4096 +
    max (byteSize text) (longest (Symbol.overrideValues (Path.identifier file) overrides))

variable {file : String} {text : List Char} {overrides : Symbol.Overrides}

/-- An expression that stands in the text of a file has a bounded resolution. -/
theorem resolve_size_le_nameBound {expr : String} (h : expr.utf8ByteSize ≤ byteSize text) :
    (resolve (context file text overrides) expr).value.utf8ByteSize ≤
      nameBound file text overrides := by
  have hvalues : longest (context file text overrides).table.values ≤
      max (byteSize text) (longest (Symbol.overrideValues (Path.identifier file) overrides)) := by
    refine longest_le fun value hvalue => ?_
    obtain ⟨name, hname⟩ := Symbol.Table.mem_values_iff.mp hvalue
    rcases Symbol.Table.get?_build_cases hname with hoverride | hdeclared
    · exact le_max_of_le_right (size_le_longest hoverride)
    · exact le_max_of_le_left hdeclared
  refine (resolve_size (context file text overrides) expr).trans (Nat.add_le_add_left ?_ _)
  exact max_le (le_max_of_le_left h) hvalues

theorem size_of_mem_meters {r : Receiver} {m : Meter}
    (hm : m ∈ meters r (context file text overrides) file text) :
    m.name.utf8ByteSize ≤ nameBound file text overrides := by
  obtain ⟨call, hcall, hmeter⟩ := List.mem_filterMap.mp hm
  obtain ⟨kind, -, hname⟩ := Option.bind_eq_some_iff.mp hmeter
  obtain ⟨expr, hexpr, rfl⟩ := Option.map_eq_some_iff.mp hname
  obtain ⟨arg, harg, hsize⟩ := Call.exists_of_meterName? hexpr
  exact resolve_size_le_nameBound (hsize.trans (Call.size_of_mem_calls hcall harg))

theorem size_of_mem_events {r : Receiver} {e : Event}
    (he : e ∈ events r (context file text overrides) file text) :
    e.name.utf8ByteSize ≤ nameBound file text overrides := by
  obtain ⟨call, hcall, hevent⟩ := List.mem_filterMap.mp he
  obtain ⟨severity, -, hname⟩ := Option.bind_eq_some_iff.mp hevent
  obtain ⟨found, hfound, rfl⟩ := Option.map_eq_some_iff.mp hname
  obtain ⟨arg, harg, hsize⟩ := Call.exists_of_eventArguments? hfound
  exact resolve_size_le_nameBound (hsize.trans (Call.size_of_mem_calls hcall harg))

/-- **Names are bounded.** The value of a resolution exceeds the limit by no more than the larger of
the expression and the longest value in the table, and so does, at every moment, every value that is
remembered. So a name that the analysis of a file reports exceeds the size limit by no more than the
larger of the text and the longest override of the file. -/
theorem names_bounded :
    (∀ (ctx : Template.Context) (expr : String),
      (resolve ctx expr).value.utf8ByteSize ≤
        ctx.limit + max expr.utf8ByteSize (longest ctx.table.values) ∧
      ∀ moment, moment <+: history ctx expr → ∀ entry ∈ (replay ⟨[], []⟩ moment).cache,
        entry.2.value.utf8ByteSize ≤
          ctx.limit + max expr.utf8ByteSize (longest ctx.table.values)) ∧
    ∀ (a : Analyzer) (file : String) (text : List Char) (overrides : Symbol.Overrides),
      (∀ m ∈ (a.analyze file text overrides).meters,
        m.name.utf8ByteSize ≤ nameBound file text overrides) ∧
      ∀ e ∈ (a.analyze file text overrides).events,
        e.name.utf8ByteSize ≤ nameBound file text overrides := by
  refine ⟨fun ctx expr => ⟨resolve_size ctx expr, fun moment hmoment entry hentry =>
    cache_size hmoment hentry⟩, fun a file text overrides => ?_⟩
  rw [analyze_eq_findings]
  exact ⟨fun m hm => size_of_mem_meters hm, fun e he => size_of_mem_events he⟩

/-- A value that outgrows its limit of four bytes by a token that is kept, and a file with a name
that an override gives. -/
theorem names_bounded_kept :
    (("a", ⟨"xyz$b", false⟩) ∈ (replay ⟨[], []⟩
        (history ⟨⟨[("a", "$b$b"), ("b", "xyz")]⟩, "", 4⟩ "\"$a$a\"")).cache ∧
      "xyz$b".utf8ByteSize ≤ 4 + max 6 4) ∧
    ⟨"jobs.hits", .counter, "Jobs.kt", true⟩ ∈ (standard.analyze "Jobs.kt"
        "meterRegistry.counter(\"$p.hits\")".toList
        ((∅ : Symbol.Overrides).insert "Jobs.p" "jobs")).meters ∧
      "jobs.hits".utf8ByteSize ≤ nameBound "Jobs.kt" "meterRegistry.counter(\"$p.hits\")".toList
        ((∅ : Symbol.Overrides).insert "Jobs.p" "jobs") := by
  obtain ⟨hresolve, hanalyze⟩ := names_bounded
  obtain ⟨-, hcache⟩ := hresolve ⟨⟨[("a", "$b$b"), ("b", "xyz")]⟩, "", 4⟩ "\"$a$a\""
  have hentry : ("a", ⟨"xyz$b", false⟩) ∈ (replay ⟨[], []⟩
      (history ⟨⟨[("a", "$b$b"), ("b", "xyz")]⟩, "", 4⟩ "\"$a$a\"")).cache := by decide +kernel
  have hcall : ⟨⟨"counter", 21⟩, ["\"$p.hits\""]⟩ ∈ Call.calls (MeterKind.all.map (·.name))
      "meterRegistry.counter(\"$p.hits\")".toList
      (standard.meter.namesIn "meterRegistry.counter(\"$p.hits\")".toList) :=
    Call.mem_recorded_of_mem_memberSites (Or.inl rfl) (r := "meterRegistry") (by decide +kernel)
      (s := ⟨"counter", 21⟩) (by decide +kernel)
  have hmeter : ⟨"jobs.hits", .counter, "Jobs.kt", true⟩ ∈ (standard.analyze "Jobs.kt"
      "meterRegistry.counter(\"$p.hits\")".toList
      ((∅ : Symbol.Overrides).insert "Jobs.p" "jobs")).meters := by
    rw [analyze_eq_findings]
    exact List.mem_filterMap.mpr ⟨_, hcall, by decide +kernel⟩
  exact ⟨⟨hentry, hcache _ List.prefix_rfl _ hentry⟩, hmeter,
    (hanalyze _ _ _ _).1 _ hmeter⟩

end Analyzer

end Telemetry
