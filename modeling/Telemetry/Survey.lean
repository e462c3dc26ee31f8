import Telemetry.Analysis
import Telemetry.Catalog
import Telemetry.Config.Basic
import Telemetry.FileTree.Walk

/-!
The catalogue of a set of source files: every file is analyzed on its own, and the findings are
added in the order of the files.
-/

namespace Telemetry

/-- Overrides in which later ones take the place of earlier ones with the same key. -/
def mergeOverrides (earlier later : Symbol.Overrides) : Symbol.Overrides :=
  later.toList.foldl (fun m (key, value) => m.insert key value) earlier

def Config.analyzer (c : Config) : Analyzer :=
  ⟨c.meterReceiver, c.eventReceiver⟩

def survey (c : Config) (files : List SourceFile) : Catalog :=
  Catalog.ofFindings
    (files.map fun f => c.analyzer.analyze f.name f.text.toList c.overrides)

end Telemetry
