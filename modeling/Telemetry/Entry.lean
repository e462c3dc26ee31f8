/-!
Catalogue entries: the meters and events that a source file records, with the kinds of meters and
the severities of events in the order in which reports list them.
-/

namespace Telemetry

inductive MeterKind where
  | counter
  | timer
  | gauge
  | summary
  | rate
  | throughput
  deriving DecidableEq, Repr

namespace MeterKind

def all : List MeterKind := [.counter, .timer, .gauge, .summary, .rate, .throughput]

/-- The name of a kind, which is also the method that records it. -/
def name : MeterKind → String
  | .counter => "counter"
  | .timer => "timer"
  | .gauge => "gauge"
  | .summary => "summary"
  | .rate => "rate"
  | .throughput => "throughput"

def ofName? (s : String) : Option MeterKind :=
  all.find? (·.name == s)

def rank : MeterKind → Nat
  | .counter => 0
  | .timer => 1
  | .gauge => 2
  | .summary => 3
  | .rate => 4
  | .throughput => 5

@[simp] theorem ofName?_name (k : MeterKind) : ofName? k.name = some k := by
  cases k <;> decide

end MeterKind

inductive Severity where
  | trace
  | debug
  | info
  | warn
  | error
  deriving DecidableEq, Repr

namespace Severity

def all : List Severity := [.trace, .debug, .info, .warn, .error]

/-- The name of a severity, which is also the method that records it. -/
def name : Severity → String
  | .trace => "trace"
  | .debug => "debug"
  | .info => "info"
  | .warn => "warn"
  | .error => "error"

def ofName? (s : String) : Option Severity :=
  all.find? (·.name == s)

def rank : Severity → Nat
  | .trace => 0
  | .debug => 1
  | .info => 2
  | .warn => 3
  | .error => 4

@[simp] theorem ofName?_name (s : Severity) : ofName? s.name = some s := by
  cases s <;> decide

end Severity

/-- A meter as one call records it. It is resolved if nothing in its name was left open. -/
structure Meter where
  name : String
  kind : MeterKind
  sourceFile : String
  resolved : Bool
  deriving DecidableEq, Repr

/-- An event as one call records it, with the label of the type of its value. -/
structure Event where
  name : String
  severity : Severity
  valueType : String
  sourceFile : String
  resolved : Bool
  deriving DecidableEq, Repr

/-- The label of the value of an event that carries none. -/
def noValue : String := "none"

structure Findings where
  meters : List Meter
  events : List Event
  deriving DecidableEq, Repr

def Findings.none : Findings := ⟨[], []⟩

/-- What makes two meters the same. -/
def Meter.key (m : Meter) : String × MeterKind :=
  (m.name, m.kind)

def Event.key (e : Event) : String × Severity × String :=
  (e.name, e.severity, e.valueType)

end Telemetry
