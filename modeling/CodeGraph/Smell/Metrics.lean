import CodeGraph.Centrality.Betweenness
import CodeGraph.Centrality.PageRank
import CodeGraph.Community

/-!
# Shared metrics

The detectors of one run share the metrics they need. A metric is computed when
it is first asked for and kept, so that it is reported once; one that fails is
not kept. What has been computed stays when a later step fails.
-/

namespace CodeGraph

structure MetricSettings where
  algorithm : Value := .str "louvain"
  rounds : Value := Graph.defaultRounds
  workers : Value := .null
  /-- Settings of the rank, as named arguments. -/
  pagerank : Value := .null

structure Metrics where
  degree : Option (Scores Float) := none
  rawDegree : Option (Scores Float) := none
  betweennessRaw : Option (Scores Float) := none
  betweenness : Option (Scores Float) := none
  pagerank : Option (Scores Float) := none
  communities : Option (List CodeCommunity) := none

def Metrics.known (m : Metrics) : List String :=
  [("betweenness", m.betweenness.isSome), ("betweenness_raw", m.betweennessRaw.isSome),
    ("communities", m.communities.isSome), ("degree", m.degree.isSome),
    ("pagerank", m.pagerank.isSome), ("raw_degree", m.rawDegree.isSome)]
    |>.filterMap fun (name, known) => if known then some name else none

/-- Computations that share metrics; journal and metrics outlive a failure. -/
abbrev Detecting := ExceptT Failure (StateT Metrics (StateM Journal))

instance : MonadLift Logged Detecting where
  monadLift x := ExceptT.mk fun metrics => do return (← x.run, metrics)

/-- What is kept, or else what is computed, which is kept then. -/
def keptOr {α : Type} (keep : α → Metrics → Metrics) (compute : Detecting α) :
    Option α → Detecting α
  | some x => return x
  | none => do
    let x ← compute
    modifyThe Metrics (keep x)
    return x

/-- Take what is kept, or compute and keep it. -/
def remembered {α : Type} (kept : Metrics → Option α) (keep : α → Metrics → Metrics)
    (compute : Detecting α) : Detecting α := do
  keptOr keep compute (kept (← getThe Metrics))

/-- Settings of the rank given by name; other names are refused. -/
def PageRank.Settings.read (v : Value) : Except Failure PageRank.Settings :=
  if !v.truthy then .ok .default
  else
    match v with
    | .record fields => ofFields fields
    | v => .error (.wrongType (.notMapping v.typeName))
where
  ofFields (fields : Fields) : Except Failure PageRank.Settings :=
    match (fields.without ["damping", "max_iterations", "tolerance"]).head? with
    | some (name, _) => .error (.wrongType (.unexpectedArgument name))
    | none =>
      let get (name : String) (default : Value) := (fields.get? name).getD default
      let d := PageRank.Settings.default
      .ok ⟨get "damping" d.damping, get "max_iterations" d.maxIterations,
        get "tolerance" d.tolerance⟩

namespace Metrics

variable (g : Graph) (s : MetricSettings)

def getDegree : Detecting (Scores Float) :=
  remembered Metrics.degree (fun x m => { m with degree := some x })
    (g.degree (.str "total") true : Logged _)

def getRawDegree : Detecting (Scores Float) :=
  remembered Metrics.rawDegree (fun x m => { m with rawDegree := some x })
    (g.degree (.str "total") false : Logged _)

def getBetweennessRaw : Detecting (Scores Float) :=
  remembered Metrics.betweennessRaw (fun x m => { m with betweennessRaw := some x })
    (g.betweenness s.workers : Logged _)

def getBetweenness : Detecting (Scores Float) :=
  remembered Metrics.betweenness (fun x m => { m with betweenness := some x }) do
    return (← getBetweennessRaw g s).normalizeBetweenness

def getPagerank : Detecting (Scores Float) :=
  remembered Metrics.pagerank (fun x m => { m with pagerank := some x })
    (do g.pagerank (← PageRank.Settings.read s.pagerank) : Logged _)

def getCommunities : Detecting (List CodeCommunity) :=
  remembered Metrics.communities (fun x m => { m with communities := some x })
    (g.communities s.algorithm s.rounds : Logged _)

end Metrics

end CodeGraph
