import CodeGraph.Smell.Cycle
import CodeGraph.Smell.GodObject
import CodeGraph.Smell.Shotgun

/-!
# Detection

Runs the detectors of the requested smells over one graph, each under a context
that names it. All requests are checked before anything runs.
-/

namespace CodeGraph

/-- The smells to look for, each once; absent means all. -/
def Smell.readList (v : Value) : Except Failure (List Smell) :=
  match v with
  | .null => .ok Tagged.choices
  | v => do
    let smells ← (← v.elements).mapM (Tagged.coerceOr .unsupportedSmell)
    return smells.foldl (fun seen s => if seen.contains s then seen else seen ++ [s]) []

def Smell.severityOf (smell : Smell) (t : Thresholds) (evidence : Value) :
    Except Failure (Option Severity) :=
  match smell with
  | .godObject => GodObject.severityOf t evidence
  | .cyclicDependencies => .ok none
  | .shotgunSurgery => Shotgun.severityOf t evidence

abbrev Findings := List (Smell × List Finding)

def Findings.toValue (findings : Findings) : Value :=
  .record (findings.map fun (smell, found) =>
    (Tagged.tag smell, .list (found.map Finding.toValue)))

namespace Detection

def run (g : Graph) (s : MetricSettings) (t : Thresholds) : Smell → Detecting (List Finding)
  | .godObject => GodObject.detect g s t
  | .cyclicDependencies => (Cycle.detect g t : Logged _)
  | .shotgunSurgery => Shotgun.detect g s t

def logger : String := "cpgscope.detectors.engine"

/-- Run one detector, recording how it went. -/
def supervised (g : Graph) (s : MetricSettings) (t : Thresholds) (smell : Smell) :
    Detecting (List Finding) :=
  Logged.within [("detector", .str smell.detector)] do
    Logged.info logger s!"Running detector: {smell.detector}" []
    let findings ← Logged.onFailure (run g s t smell) fun f =>
      Logged.write .error logger s!"Detector failed: {smell.detector}"
        [("error", .str f.message), ("duration_seconds", Logged.noTime)] (some f.message)
    Logged.info logger s!"Detector complete: {smell.detector}"
      [("findings_count", .int findings.length), ("duration_seconds", Logged.noTime)]
    return findings

end Detection

/-- Detect smells with metrics that may be known already; with nothing to look for, nothing
is checked. -/
def Graph.detectSharing (g : Graph) (s : MetricSettings) (t : Thresholds) (smells : Value) :
    Detecting Findings := do
  let smells ← Smell.readList smells
  if smells.isEmpty then return []
  (g.check : Logged Unit)
  let findings ← smells.mapM fun smell => do
    return (smell, ← Detection.supervised g s t smell)
  Logged.info Detection.logger "All detectors complete"
    [("total_findings", .int (addAll (findings.map fun entry => entry.2.length))),
      ("detectors_run", .int smells.length)]
  return findings

def Detecting.alone {α : Type} (x : Detecting α) : Logged α :=
  ExceptT.mk fun journal =>
    let ((result, _), journal) := x.run {} journal
    (result, journal)

def Graph.detect (g : Graph) (s : MetricSettings) (t : Thresholds) (smells : Value) :
    Logged Findings :=
  (g.detectSharing s t smells).alone

end CodeGraph
