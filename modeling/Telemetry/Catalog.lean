import Std.Data.ExtTreeSet
import Telemetry.Entry

/-!
The catalogue of a set of files. Findings are added file by file; of the meters with one name and
kind, and of the events with one name, severity and value type, the first one is kept, with the
file it was found in; the keys that were seen are remembered beside the entries. Names that were
left open are remembered even where their entry is dropped.
`Catalog.rows` lists the entries in report order: the meters, then the events, each sorted by file,
name and kind or severity.
-/

namespace Telemetry

inductive Category where
  | meter
  | event
  deriving DecidableEq, Repr

namespace Category

def name : Category → String
  | .meter => "meter"
  | .event => "event"

def rank : Category → Nat
  | .meter => 0
  | .event => 1

end Category

structure OpenName where
  sourceFile : String
  name : String
  category : Category
  deriving DecidableEq, Repr

/-- The order of open names: by file, then name, then category. -/
def OpenName.compare : OpenName → OpenName → Ordering :=
  compareLex (compareOn OpenName.sourceFile)
    (compareLex (compareOn OpenName.name) (compareOn fun n => n.category.rank))

instance : Std.TransCmp OpenName.compare := by
  unfold OpenName.compare; infer_instance

/-- The order of meters in a report: by file, then name, then kind. -/
def Meter.compare : Meter → Meter → Ordering :=
  compareLex (compareOn Meter.sourceFile)
    (compareLex (compareOn Meter.name) (compareOn fun m => m.kind.rank))

/-- The order of events in a report: by file, then name, then severity, then value type. -/
def Event.compare : Event → Event → Ordering :=
  compareLex (compareOn Event.sourceFile)
    (compareLex (compareOn Event.name)
      (compareLex (compareOn fun e => e.severity.rank) (compareOn Event.valueType)))

/-- The entries of a set of files, in the order in which they were found, with the keys seen so far,
the names left open, and the number of files. -/
structure Catalog where
  meters : List Meter
  meterKeys : List (String × MeterKind)
  events : List Event
  eventKeys : List (String × Severity × String)
  openNames : Std.ExtTreeSet OpenName OpenName.compare
  files : Nat

/-- One line of a report. A field that does not apply to the category is empty. -/
structure Row where
  category : Category
  name : String
  kind : String
  severity : String
  valueType : String
  sourceFile : String
  deriving DecidableEq, Repr

def Meter.row (m : Meter) : Row :=
  ⟨.meter, m.name, m.kind.name, "", "", m.sourceFile⟩

def Event.row (e : Event) : Row :=
  ⟨.event, e.name, "", e.severity.name, e.valueType, e.sourceFile⟩

/-- Appends an entry unless its key was seen, and remembers the key. The keys seen so far stand
beside the entries kept. -/
def addFirst {α β : Type} [DecidableEq β] (key : α → β) (kept : List α × List β) (a : α) :
    List α × List β :=
  if key a ∈ kept.2 then kept else (kept.1 ++ [a], key a :: kept.2)

namespace Catalog

def empty : Catalog := ⟨[], [], [], [], ∅, 0⟩

def addMeter (c : Catalog) (m : Meter) : Catalog :=
  let kept := addFirst Meter.key (c.meters, c.meterKeys) m
  { c with
    meters := kept.1
    meterKeys := kept.2
    openNames := if m.resolved then c.openNames
      else c.openNames.insert ⟨m.sourceFile, m.name, .meter⟩ }

def addEvent (c : Catalog) (e : Event) : Catalog :=
  let kept := addFirst Event.key (c.events, c.eventKeys) e
  { c with
    events := kept.1
    eventKeys := kept.2
    openNames := if e.resolved then c.openNames
      else c.openNames.insert ⟨e.sourceFile, e.name, .event⟩ }

def add (c : Catalog) (f : Findings) : Catalog :=
  let c := f.events.foldl addEvent (f.meters.foldl addMeter c)
  { c with files := c.files + 1 }

def ofFindings (fs : List Findings) : Catalog :=
  fs.foldl add empty

def unresolved (c : Catalog) : List OpenName :=
  c.openNames.toList

def hasUnresolved (c : Catalog) : Bool :=
  !c.openNames.isEmpty

def rows (c : Catalog) : List Row :=
  (c.meters.mergeSort fun a b => (a.compare b).isLE).map Meter.row ++
    (c.events.mergeSort fun a b => (a.compare b).isLE).map Event.row

end Catalog

end Telemetry
