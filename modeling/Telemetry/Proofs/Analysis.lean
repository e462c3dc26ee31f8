import Telemetry.Analysis
import Telemetry.Proofs.Call.Sites

/-!
The analysis settles most files by a search for the token and the type of either receiver. The
search is a shortcut and nothing else.

* `IsCall.mentions_receiver` — every call on a receiver mentions the name of the receiver.
* `calls_eq_nil_of_not_appearsIn` — so a text that mentions neither the token nor the type of a
  receiver has no calls on it.
* `analyze_eq_findings` — so the shortcut changes no findings, and what one receiver records does
  not depend on the other one.
-/

namespace Telemetry

open Telemetry.Text

section Calls

variable {text receiver : List Char} {s : Call.Site}

/-- A phrase that stands in a text is a part of it. -/
theorem Call.StandsAt.isInfix {phrase : List Char} {start closing : Nat}
    (h : Call.StandsAt text phrase start closing) : phrase <:+: text := by
  obtain ⟨⟨pre, post, rfl, -, -⟩, -, -⟩ := h
  exact ⟨pre, post, List.append_assoc _ _ _⟩

theorem Call.Member.startsWith_receiver {word phrase : List Char} {closer : Char}
    (h : Call.Member receiver word closer phrase) : receiver <+: phrase := by
  obtain ⟨_, _, _, _, -, -, -, -, rfl⟩ := h
  exact List.prefix_append _ _

/-- **A call on a receiver mentions it**, directly or at the opening of a block around the call. -/
theorem Call.IsCall.mentions_receiver (hreceiver : isIdentifier receiver = true)
    (h : Call.IsCall text receiver s) : receiver <:+: text := by
  have hblock : ∀ {b : Call.Scope}, b ∈ Call.scopes text receiver → receiver <:+: text := by
    intro b hb
    obtain ⟨_, phrase, _, hphrase, hstands, -, -⟩ := (Call.mem_scopes_iff hreceiver).mp hb
    exact hphrase.startsWith_receiver.isInfix.trans hstands.isInfix
  cases h with
  | direct hsite =>
    obtain ⟨phrase, hphrase, hstands⟩ := hsite
    exact hphrase.startsWith_receiver.isInfix.trans hstands.isInfix
  | parameter hb _ _ _ => exact hblock hb
  | implicit hb _ _ _ _ => exact hblock hb

/-- **A text that does not mention a receiver has no calls on it.** -/
theorem calls_eq_nil_of_not_appearsIn {methods : List String}
    (hmethods : methods = MeterKind.all.map (·.name) ∨ methods = Severity.all.map (·.name))
    {r : Receiver} (happears : r.appearsIn text = false) :
    Call.calls methods text (r.namesIn text) = [] := by
  refine List.eq_nil_iff_forall_not_mem.mpr fun c hc => ?_
  obtain ⟨-, ⟨name, hname, hcall⟩, -⟩ := (Call.mem_recorded_iff hmethods r).mp hc
  have hmentions := hcall.mentions_receiver (r.isIdentifier_of_mem_namesIn hname)
  rw [Receiver.appearsIn_of_mem_namesIn hname hmentions] at happears
  cases happears

end Calls

namespace Analyzer

variable {r : Receiver} {ctx : Template.Context} {file : String} {text : List Char}

theorem meters_eq_nil_of_not_appearsIn (h : r.appearsIn text = false) :
    meters r ctx file text = [] := by
  rw [meters, calls_eq_nil_of_not_appearsIn (Or.inl rfl) h, List.filterMap_nil]

theorem events_eq_nil_of_not_appearsIn (h : r.appearsIn text = false) :
    events r ctx file text = [] := by
  rw [events, calls_eq_nil_of_not_appearsIn (Or.inr rfl) h, List.filterMap_nil]

/-- **The shortcut changes nothing.** -/
theorem analyze_eq_findings (a : Analyzer) (file : String) (text : List Char)
    (overrides : Symbol.Overrides) :
    a.analyze file text overrides = a.findings file text overrides := by
  unfold analyze
  split
  · rfl
  · rename_i h
    simp only [Bool.or_eq_true, not_or, Bool.not_eq_true] at h
    rw [findings, meters_eq_nil_of_not_appearsIn h.1, events_eq_nil_of_not_appearsIn h.2]
    rfl

/-- **The shortcut is transparent, and the receivers do not interfere.** The findings are those of
the searches for both receivers, whatever the receivers are; the meters do not depend on the
receiver of events, nor the events on the receiver of meters. -/
theorem analyze_transparent (a : Analyzer) (file : String) (text : List Char)
    (overrides : Symbol.Overrides) :
    a.analyze file text overrides = a.findings file text overrides ∧
    (∀ event : Receiver, (Analyzer.analyze ⟨a.meter, event⟩ file text overrides).meters =
      (a.analyze file text overrides).meters) ∧
    ∀ meter : Receiver, (Analyzer.analyze ⟨meter, a.event⟩ file text overrides).events =
      (a.analyze file text overrides).events := by
  refine ⟨analyze_eq_findings a file text overrides, fun event => ?_, fun meter => ?_⟩
  · rw [analyze_eq_findings, analyze_eq_findings]
    rfl
  · rw [analyze_eq_findings, analyze_eq_findings]
    rfl

end Analyzer

end Telemetry
