import CodeGraph.Community
import CodeGraph.Config
import CodeGraph.Smell

/-!
# Validation of a configuration

Whether the options can be used. A configuration that can be used may still
deserve warnings. Sections are looked at in order, and the first option that
cannot be used decides.
-/

namespace CodeGraph

/-- Problems end a validation, warnings add up. -/
abbrev Validation := StateT (List String) (Except Failure)

namespace Validation

def warn (text : String) : Validation Unit :=
  modify (· ++ [text])

def refuse (problem : ConfigProblem) : Validation Unit :=
  throw (.config problem)

/-- Between zero and one; the upper end is compared only if the lower one holds. -/
def unit (option : String) (v : Value) : Validation Unit := do
  if !(← (Value.float 0).le v) then refuse (.outsideUnit option)
  else if !(← v.le (.float 1)) then refuse (.outsideUnit option)

def atLeast (bound : Int) (problem : ConfigProblem) (v : Value) : Validation Unit := do
  if ← v.lt (.int bound) then refuse problem

/-- Like `atLeast`, for an option that may be absent. -/
def atLeastIfGiven (bound : Int) (problem : ConfigProblem) (v : Value) : Validation Unit := do
  if !v.isNull then atLeast bound problem v

def centrality (o : CentralityOptions) : Validation Unit := do
  unit "centrality.damping" o.damping
  atLeast 1 (.belowOne "centrality.max_iterations") o.maxIterations
  if ← o.tolerance.le (.int 0) then refuse (.notPositive "centrality.tolerance")
  atLeastIfGiven 1 (.belowOne "centrality.max_workers") o.maxWorkers
  atLeast 0 (.belowZero "centrality.top_n") o.topCount

def isCost : Value → Except Failure Bool
  | .bool _ => .ok true
  | .int n => do
    discard (Value.doubleOfInt n)
    return 0 ≤ n
  | .float x => .ok (!x.isNaN && !(x < 0))
  | _ => .ok false

def costs (option : String) (v : Value) : Validation Unit := do
  let table ← v.entriesOr "items"
  table.forM fun (key, cost) => do
    if !(← isCost cost) then refuse (.badCost s!"{option}.{key.text}")

/-- Beyond this depth a search for critical paths is slow. -/
def slowDepth : Value := .int 20

def goal (v : Value) : Validation Unit := do
  if v.isNull then return
  v.hashable
  if (goalModel? v).isNone then
    warn s!"paths.goal {v.shown} has no preset; neutral weights will be used"

def paths (o : PathOptions) : Validation Unit := do
  atLeastIfGiven 0 (.belowZero "paths.max_depth") o.maxDepth
  atLeast 0 (.belowZero "paths.critical_path_max_depth") o.criticalMaxDepth
  atLeast 1 (.belowOne "paths.max_candidate_paths") o.maxCandidates
  if ← o.criticalMaxDepth.gt slowDepth then
    warn (s!"paths.critical_path_max_depth={o.criticalMaxDepth.text} may make " ++
      "critical path enumeration very slow on dense graphs")
  goal o.goal
  costs "paths.node_type_penalties" o.penalties
  costs "paths.edge_type_costs" o.costs

def kindNames : List String :=
  (Tagged.tags EdgeKind).mergeSort fun a b => a ≤ b

def edgeKinds (option : String) (v : Value) : Validation Unit := do
  if v.isNull then return
  let kinds ← v.elements
  kinds.forM fun kind => do
    kind.hashable
    if !kind.isAmong (kindNames.map .str) then refuse (.unknownEdgeKind option kind kindNames)

/-- Beyond this depth an impact reaches most of a graph. -/
def wideDepth : Value := .int 10

def impact (o : ImpactOptions) : Validation Unit := do
  atLeast 0 (.belowZero "impact.depth") o.depth
  if ← o.depth.gt wideDepth then
    warn s!"impact.depth={o.depth.text} reaches most of a typical graph"
  edgeKinds "impact.dependency_types" o.dependencyKinds

def oneOf (option : String) (choices : List String) (v : Value) : Validation Unit :=
  if v.isAmong (choices.map .str) then return else refuse (.notAmong option choices)

def communities (o : CommunityOptions) : Validation Unit := do
  oneOf "communities.algorithm" (Tagged.tags CommunityAlgorithm) o.algorithm
  atLeast 1 (.belowOne "communities.max_iterations") o.maxIterations

def enabled (v : Value) : Validation Unit := do
  if v.isNull then return
  let smells ← v.elements
  smells.forM fun smell => do
    if !smell.isAmong ((Tagged.tags Smell).map .str) then
      refuse (.unknownSmell smell (Tagged.tags Smell))
  if !v.truthy then warn "detectors.enabled is empty; no smells will be detected"

/-- Compared one after the other, up to the first that is below zero. -/
def anyBelowZero : List Value → Except Failure Bool
  | [] => .ok false
  | v :: rest => do
    if ← v.lt (.int 0) then return true
    anyBelowZero rest

def thresholds (t : Thresholds) : Validation Unit := do
  unit "detectors.thresholds.degree_high" t.degreeHigh
  unit "detectors.thresholds.degree_medium" t.degreeMedium
  unit "detectors.thresholds.betweenness_high" t.betweennessHigh
  unit "detectors.thresholds.betweenness_medium" t.betweennessMedium
  if ← t.degreeMedium.gt t.degreeHigh then
    warn "detectors.thresholds.degree_medium is above degree_high"
  if ← t.betweennessMedium.gt t.betweennessHigh then
    warn "detectors.thresholds.betweenness_medium is above betweenness_high"
  if ← anyBelowZero [t.communitySpread, t.fanout, t.impactDepth] then
    refuse (.belowZero "detectors.thresholds community_spread, fanout and impact_depth")
  edgeKinds "detectors.thresholds.cycle_edge_kinds" t.cycleEdgeKinds

def logFormats : List String :=
  ["human", "json"]

def logging (o : LoggingOptions) : Validation Unit := do
  match o.level with
  | .str level => oneOf "logging.level" (Level.all.map Level.name) (.str (Text.upper level))
  | v => throw (.noMember v.typeName "upper")
  oneOf "logging.format" logFormats o.format

def all (c : Config) : Validation Unit := do
  centrality c.centrality
  paths c.paths
  impact c.impact
  communities c.communities
  enabled c.detectors.enabled
  match c.detectors.thresholds with
  | .known t => thresholds t
  | .other v => throw (.noMember v.typeName "degree_high")
  logging c.logging

end Validation

/-- The warnings about a configuration that can be used. -/
def Config.validate (c : Config) : Except Failure (List String) := do
  let (_, warnings) ← (Validation.all c).run []
  return warnings

end CodeGraph
