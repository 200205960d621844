import CodeGraph.Impact
import CodeGraph.Smell
import CodeGraph.Smell.Metrics
import CodeGraph.Smell.Thresholds

/-!
# Shotgun surgery

A node whose change ripples into many nodes spread over several communities, so
that a single edit forces further edits all over the code.
-/

namespace CodeGraph.Shotgun

/-- Twice a threshold; texts and lists are repeated. -/
def doubled : Value → Except Failure Value
  | .bool b => .ok (.int (if b then 2 else 0))
  | .int n => .ok (.int (2 * n))
  | .float x => .ok (.float (2 * x))
  | .str s => .ok (.str (s ++ s))
  | .list items => .ok (.list (items ++ items))
  | v => .error (.wrongType (.operands "*" "int" v.typeName))

/-- High when both figures exceed twice their bounds. -/
def severity (t : Thresholds) (communities downstream : Value) : Except Failure Severity := do
  if !(← communities.gt (← doubled t.communitySpread)) then return .medium
  if ← downstream.gt (← doubled t.fanout) then return .high
  return .medium

def severityOf (t : Thresholds) (evidence : Value) : Except Failure (Option Severity) := do
  let evidence ← evidence.fieldsOr "get"
  let count (name : String) := (evidence.get? name).getD (.int 0)
  return some (← severity t (count "community_count") (count "downstream_count"))

/-- Whether a change stays within one of the bounds. -/
def harmless (t : Thresholds) (communities downstream : Value) : Except Failure Bool := do
  if ← communities.le t.communitySpread then return true
  downstream.le t.fanout

def advice : String :=
  "Consolidate the behaviour its dependents rely on:\n" ++
    "1. Introduce a facade so dependents use one stable entry point\n" ++
    "2. Move code that always changes together into the same module\n" ++
    "3. Hide volatile details behind an interface"

def effort (downstream : Nat) : String :=
  if 50 ≤ downstream then "Large (1-2 weeks)"
  else if 20 ≤ downstream then "Medium (3-5 days)"
  else "Small (1-2 days)"

def report (t : Thresholds) (node : Node) (impact : Impact) (severity : Severity) : Finding :=
  let communities := impact.affected.length
  let downstream := impact.downstream.length
  { smell := .shotgunSurgery
    title := s!"Shotgun surgery risk: {node.id.text}"
    description := s!"Changing {node.kind.text} '{node.id.text}' affects {downstream} nodes " ++
      s!"across {communities} communities within {t.impactDepth.text} hops."
    node := node.id
    severity := some severity
    evidence := .record
      [("impact_analysis", impact.toValue), ("community_count", .int communities),
        ("downstream_count", .int downstream)]
    fix := some advice
    effort := some (effort downstream) }

def finding? (t : Thresholds) (node : Node) (impact : Impact) :
    Except Failure (Option Finding) := do
  let communities : Value := .int impact.affected.length
  let downstream : Value := .int impact.downstream.length
  if ← harmless t communities downstream then return none
  return some (report t node impact (← severity t communities downstream))

def query (t : Thresholds) (communities : List CodeCommunity) : ImpactQuery :=
  { ImpactQuery.default with
    depth := t.impactDepth
    known := some (communities.map CodeCommunity.membership) }

def judge (g : Graph) (s : MetricSettings) (t : Thresholds) (v : Fin g.order) :
    Detecting (Option Finding) := do
  let communities ← Metrics.getCommunities g s
  let impact ← (g.impactOf Float (g.name v) (.ok v) (query t communities) : Logged Impact)
  (finding? t (g.nodeAt v) impact : Except Failure _)

/-- One finding for each node whose change reaches beyond both bounds, in node order. -/
def detect (g : Graph) (s : MetricSettings) (t : Thresholds) : Detecting (List Finding) := do
  let findings ← g.vertices.filterMapM (judge g s t)
  Logged.debug "cpgscope.detectors.shotgun_surgery"
    s!"ShotgunSurgeryDetector found {findings.length} nodes" []
  return findings

end CodeGraph.Shotgun
