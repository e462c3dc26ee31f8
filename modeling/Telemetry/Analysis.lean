import Telemetry.Call.Argument
import Telemetry.Call.Basic
import Telemetry.Entry
import Telemetry.Path
import Telemetry.Receiver
import Telemetry.Symbol.Declaration
import Telemetry.Template.Resolution
import Telemetry.ValueType

/-!
The analysis of one file: find the calls on the receivers, pick the name and the value out of their
arguments, resolve the name and guess the type of the value. A file that mentions neither receiver
is not looked into further.
-/

namespace Telemetry

open Telemetry.Text

structure Analyzer where
  meter : Receiver
  event : Receiver
  deriving DecidableEq, Repr

namespace Analyzer

def standard : Analyzer := ⟨.meterDefault, .eventDefault⟩

/-- What the names in a file are resolved against: its symbols and its identifier. The size limit
grows with the file. -/
def context (file : String) (text : List Char) (overrides : Symbol.Overrides) :
    Template.Context :=
  let identifier := Path.identifier file
  { table := .build text identifier overrides
    identifier
    limit := max (byteSize text) Template.defaultLimit }

/-- The meter that a call records, unless the call has no name. -/
def meterOf? (ctx : Template.Context) (file : String) (call : Call.Record) : Option Meter :=
  (MeterKind.ofName? call.method).bind fun kind =>
    (Call.meterName? call.args).map fun expr =>
      let name := Template.resolve ctx expr
      ⟨name.value, kind, file, name.resolved⟩

/-- The event that a call records, unless the call has no name. -/
def eventOf? (ctx : Template.Context) (file : String) (call : Call.Record) : Option Event :=
  (Severity.ofName? call.method).bind fun severity =>
    (Call.eventArguments? call.args).map fun args =>
      let name := Template.resolve ctx args.name
      let valueType := (args.value.map ValueType.classify).getD noValue
      ⟨name.value, severity, valueType, file, name.resolved⟩

def meters (receiver : Receiver) (ctx : Template.Context) (file : String) (text : List Char) :
    List Meter :=
  (Call.calls (MeterKind.all.map (·.name)) text (receiver.namesIn text)).filterMap
    (meterOf? ctx file)

def events (receiver : Receiver) (ctx : Template.Context) (file : String) (text : List Char) :
    List Event :=
  (Call.calls (Severity.all.map (·.name)) text (receiver.namesIn text)).filterMap
    (eventOf? ctx file)

/-- The findings of a text, whether it mentions a receiver or not. -/
def findings (a : Analyzer) (file : String) (text : List Char) (overrides : Symbol.Overrides) :
    Findings :=
  let ctx := context file text overrides
  ⟨meters a.meter ctx file text, events a.event ctx file text⟩

/-- The findings of a file. Most files mention no receiver and are settled at once. -/
def analyze (a : Analyzer) (file : String) (text : List Char) (overrides : Symbol.Overrides) :
    Findings :=
  if a.meter.appearsIn text || a.event.appearsIn text then a.findings file text overrides
  else .none

end Analyzer

end Telemetry
