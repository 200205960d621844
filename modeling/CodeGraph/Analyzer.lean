import CodeGraph.Centrality.Statistics
import CodeGraph.Community.Modularity
import CodeGraph.Config
import CodeGraph.Path.Critical
import CodeGraph.Path.Shortest
import CodeGraph.Smell.Detection

/-!
# Analyses by configuration

An analyzer runs every analysis with the options of a configuration where the
caller states none. The full analysis runs all of them on one graph, with the
metrics computed once and shared by the detectors.
-/

namespace CodeGraph

structure Analyzer where
  config : Config

namespace Analyzer

variable (a : Analyzer) (g : Graph)

def orConfigured (given configured : Value) : Value :=
  if given.isNull then configured else given

def pagerankSettings : PageRank.Settings :=
  let o := a.config.centrality
  ⟨o.damping, o.maxIterations, o.tolerance⟩

def betweenness : Logged (Scores Float) :=
  g.betweenness a.config.centrality.maxWorkers

def pagerank : Logged (Scores Float) :=
  g.pagerank a.pagerankSettings

def semanticWeighing : Except Failure Weighing := do
  let context ← a.config.paths.costContext
  return context.model.edgeCost g

/-- The shortest path; without a weighing of its own a semantic one uses the configured costs.
The configured depth applies when none is stated, and a stated `null` is no bound. -/
def shortestPath (source target : Value) (weigh : Option Weighing) (maxDepth : Option Value)
    (semantic : Bool) : Logged (List Value) := do
  let weigh ←
    if semantic && weigh.isNone then do pure (some (← a.semanticWeighing g)) else pure weigh
  g.shortestPath source target weigh (maxDepth.getD a.config.paths.maxDepth)

def criticalPath (source target : Value) (costs : Option (Except Failure CostModel))
    (pathType : Value) (maxDepth : Option Value) : Logged (CriticalPath Float) := do
  let model ←
    match costs with
    | some model => pure model
    | none => do pure (.ok (← a.config.paths.costContext).model)
  let o := a.config.paths
  g.criticalPath source target model
    ⟨pathType, maxDepth.getD o.criticalMaxDepth, o.maxCandidates⟩

def impact (node depth kinds : Value) (known : Option (List Membership)) : Logged Impact :=
  let o := a.config.impact
  g.impact node
    ⟨orConfigured depth o.depth, orConfigured kinds o.dependencyKinds,
      a.config.communities.algorithm, known⟩

def communities (algorithm : Value) : Logged (List CodeCommunity) :=
  let o := a.config.communities
  g.communities (orConfigured algorithm o.algorithm) o.maxIterations

def thresholdsFor (thresholds : Value) : Except Failure Thresholds :=
  if thresholds.isNull then a.config.detectors.thresholds.read else Thresholds.read thresholds

def communityAlgorithm : Except Failure CommunityAlgorithm :=
  Tagged.coerce a.config.communities.algorithm

def detect (smells thresholds : Value) : Logged Findings := do
  let thresholds ← a.thresholdsFor thresholds
  let algorithm ← a.communityAlgorithm
  let settings : MetricSettings :=
    { algorithm := Tagged.value algorithm, workers := a.config.centrality.maxWorkers }
  g.detect settings thresholds (orConfigured smells a.config.detectors.enabled)

end Analyzer

/-! ## Full analysis -/

structure ByCentrality (α : Type) where
  degree : α
  betweenness : α
  pagerank : α

structure Report where
  summary : Summary
  componentCount : Nat
  cycleCount : Nat
  largestCycle : Nat
  statistics : ByCentrality Statistics
  topNodes : ByCentrality (List Value)
  communities : List CodeCommunity
  modularity : Float
  smells : Findings

def ByCentrality.toValue {α : Type} (f : α → Value) (x : ByCentrality α) : Value :=
  .record [("degree", f x.degree), ("betweenness", f x.betweenness), ("pagerank", f x.pagerank)]

def Report.toValue (r : Report) : Value :=
  .record [("summary", r.summary.toValue),
    ("components", .record
      [("count", .int r.componentCount), ("cyclic", .int r.cycleCount),
        ("largest_cycle", .int r.largestCycle)]),
    ("centrality", r.statistics.toValue Statistics.toValue),
    ("top_nodes", r.topNodes.toValue .list),
    ("communities", .list (r.communities.map CodeCommunity.toValue)),
    ("modularity", .float r.modularity),
    ("smells", r.smells.toValue)]

namespace Analyzer

variable (a : Analyzer) (g : Graph)

def logger : String := "cpgscope.analyzer"

def metricSettings (algorithm : CommunityAlgorithm) : MetricSettings :=
  let s := a.pagerankSettings
  { algorithm := Tagged.value algorithm
    rounds := a.config.communities.maxIterations
    workers := a.config.centrality.maxWorkers
    pagerank := .record
      [("damping", s.damping), ("max_iterations", s.maxIterations), ("tolerance", s.tolerance)] }

/-- Detect the configured smells with metrics at hand. -/
def detectSharing (s : MetricSettings) : Detecting Findings := do
  let thresholds ← a.config.detectors.thresholds.read
  discard (a.communityAlgorithm : Except Failure _)
  g.detectSharing s thresholds a.config.detectors.enabled

def statisticsOf (scores : Scores Float) : Statistics :=
  Statistics.ofScores (scores.map Prod.snd)

def topOf (scores : Scores Float) : Except Failure (List Value) :=
  CodeGraph.topNodes (scores.map fun (id, x) => (id, .float x)) a.config.centrality.topCount

def survey (s : MetricSettings) : Detecting Report := do
  Logged.info logger "Starting full graph analysis" []
  let components ← (g.components .null : Logged _)
  let cycles ← (g.cyclicComponents Cycle.leastSize .null : Logged _)
  let communities ← Metrics.getCommunities g s
  let smells ← a.detectSharing g s
  let summary ← (g.summary : Logged Summary)
  let degree ← Metrics.getDegree g
  let betweenness ← Metrics.getBetweenness g s
  let pagerank ← Metrics.getPagerank g s
  let top : ByCentrality (List Value) := ⟨← a.topOf degree, ← a.topOf betweenness, ← a.topOf pagerank⟩
  let modularity ← (g.modularity (.list (communities.map fun c => .list c.members)) : Logged Float)
  Logged.info logger "Full graph analysis complete"
    [("communities", .int communities.length), ("cycles", .int cycles.length),
      ("findings", .int (addAll (smells.map fun entry => entry.2.length))),
      ("duration_seconds", Logged.noTime)]
  return {
    summary := summary
    componentCount := components.length
    cycleCount := cycles.length
    largestCycle := (cycles.head?.map List.length).getD 0
    statistics := ⟨statisticsOf degree, statisticsOf betweenness, statisticsOf pagerank⟩
    topNodes := top
    communities := communities
    modularity := modularity
    smells := smells }

def fullAnalysis : Logged Report :=
  Detecting.alone <| Logged.operation logger (.str "full_analysis") do
    (g.check : Logged Unit)
    let algorithm ← a.communityAlgorithm
    Logged.within [("node_count", .int g.nodes.length), ("edge_count", .int g.edges.length)]
      (a.survey g (a.metricSettings algorithm))

end Analyzer

end CodeGraph
