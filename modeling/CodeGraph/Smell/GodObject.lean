import CodeGraph.Smell
import CodeGraph.Smell.Metrics
import CodeGraph.Smell.Thresholds

/-!
# God objects

A node that the rest of the graph is funnelled through: it is coupled to a large
share of all nodes, or lies on a large share of all shortest paths.
-/

namespace CodeGraph.GodObject

/-- Whether either figure exceeds its bound; the second is compared only if it has to be. -/
def exceeds (degree betweenness degreeBound betweennessBound : Value) : Except Failure Bool := do
  if ← degree.gt degreeBound then return true
  betweenness.gt betweennessBound

/-- Severity of two figures, `none` when neither is remarkable. -/
def severity (t : Thresholds) (degree betweenness : Value) : Except Failure (Option Severity) := do
  if ← exceeds degree betweenness t.degreeHigh t.betweennessHigh then return some .high
  if ← exceeds degree betweenness t.degreeMedium t.betweennessMedium then return some .medium
  return none

def severityOf (t : Thresholds) (evidence : Value) : Except Failure (Option Severity) := do
  let evidence ← evidence.fieldsOr "get"
  let scores ← ((evidence.get? "centrality_scores").getD (.record [])).fieldsOr "get"
  let figure (name : String) := (scores.get? name).getD (.float 0)
  severity t (figure "degree") (figure "betweenness")

def splitAdvice : String :=
  "Split responsibilities: group the incident edges by the feature they serve " ++
    "and extract each group into its own module"

def bottleneckAdvice : String :=
  "Remove the bottleneck: let callers depend on narrow interfaces " ++
    "instead of routing every interaction through this node"

/-- Advice for each figure beyond its medium bound, numbered. -/
def advice (t : Thresholds) (degree betweenness : Value) : Except Failure String := do
  let coupled ← degree.gt t.degreeMedium
  let central ← betweenness.gt t.betweennessMedium
  let items := (if coupled then [splitAdvice] else []) ++ if central then [bottleneckAdvice] else []
  return "\n".intercalate (items.zipIdx.map fun (item, i) => s!"{i + 1}. {item}")

def effort : Severity → String
  | .high => "Large (1-2 weeks)"
  | _ => "Medium (3-5 days)"

structure Figures where
  degree : Float
  betweenness : Float
  rawDegree : Nat
  betweennessRaw : Float
  pagerank : Float

def report (t : Thresholds) (node : Node) (severity : Severity) (x : Figures) :
    Except Failure Finding := do
  let shownDegree := Decimal.fixed 2 x.degree
  let shownBetweenness := Decimal.fixed 2 x.betweenness
  return {
    smell := .godObject
    title := s!"God object: {node.id.text}"
    description := s!"{node.kind.text} '{node.id.text}' has {x.rawDegree} incident edges " ++
      s!"(normalized degree {shownDegree}) and normalized betweenness {shownBetweenness}. " ++
      "Too much of the graph depends on or flows through it."
    node := node.id
    severity := some severity
    evidence := .record
      [("centrality_scores", .record
          [("degree", .float x.degree), ("betweenness", .float x.betweenness),
            ("betweenness_raw", .float x.betweennessRaw), ("pagerank", .float x.pagerank)]),
        ("raw_degree", .int x.rawDegree), ("ast_kind", node.kind)]
    fix := some (← advice t (.float x.degree) (.float x.betweenness))
    effort := some (effort severity) }

def finding (g : Graph) (s : MetricSettings) (t : Thresholds) (v : Fin g.order)
    (degree betweenness : Float) (severity : Severity) : Detecting Finding := do
  let rawDegree := ((← Metrics.getRawDegree g).at v).toUInt64.toNat
  let betweennessRaw := (← Metrics.getBetweennessRaw g s).at v
  let pagerank := (← Metrics.getPagerank g s).at v
  (report t (g.nodeAt v) severity ⟨degree, betweenness, rawDegree, betweennessRaw, pagerank⟩ :
    Except Failure _)

/-- The finding about a node with given degree and betweenness, if it is remarkable. -/
def judge (g : Graph) (s : MetricSettings) (t : Thresholds) (degrees betweennesses : Scores Float)
    (v : Fin g.order) : Detecting (Option Finding) := do
  let degree := degrees.at v
  let betweenness := betweennesses.at v
  match ← (severity t (.float degree) (.float betweenness) : Except Failure _) with
  | none => return none
  | some severity => return some (← finding g s t v degree betweenness severity)

def detect (g : Graph) (s : MetricSettings) (t : Thresholds) : Detecting (List Finding) := do
  if g.nodes.isEmpty then return []
  let degrees ← Metrics.getDegree g
  let betweennesses ← Metrics.getBetweenness g s
  let findings ← g.vertices.filterMapM (judge g s t degrees betweennesses)
  Logged.debug "cpgscope.detectors.god_object"
    s!"GodObjectDetector flagged {findings.length} nodes" []
  return findings

end CodeGraph.GodObject
