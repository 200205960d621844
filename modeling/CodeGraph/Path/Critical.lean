import CodeGraph.Cost
import CodeGraph.Path.Budget
import CodeGraph.Graph.Query
import CodeGraph.Decimal.Written

/-!
# Critical paths

The critical path between two nodes is the simple path of greatest cost under a
cost model. Simple paths are listed depth first, arcs in edge order, up to a
number of candidates and within a budget of edges; the costliest wins, among
equals the one with fewer edges, then the one listed first.

A listing notes when the budget cut it off: when a path that has used up the
budget could have gone on to a vertex not on it.
-/

namespace CodeGraph

inductive PathType where
  | any
  | execution
  | dataDependency
deriving DecidableEq, Repr

instance : Tagged PathType where
  choices := [.any, .execution, .dataDependency]
  tag
    | .any => "any"
    | .execution => "execution"
    | .dataDependency => "data_dependency"

def PathType.edgeKinds : PathType → KindFilter
  | .any => none
  | .execution => some [.callGraph, .controlFlow]
  | .dataDependency => some [.dataFlow]

namespace Critical

variable {n : Nat} {α : Type} [Priced α]

/-- Paths listed so far, and whether the budget cut the listing off. -/
structure Listing (n : Nat) where
  paths : List (List (Arc n))
  cut : Bool

/-- List the simple paths that go on from `v` with at most `left` more arcs. `visited` holds
the vertices up to and including `v`, `trail` the arcs so far. -/
def extend (out : Fin n → List (Arc n)) (target : Fin n) (limit : Nat) :
    Nat → Fin n → List (Fin n) → List (Arc n) → Listing n → Listing n
  | 0, v, visited, _, listing =>
    if listing.paths.length < limit && (out v).any fun arc => !visited.contains arc.target then
      { listing with cut := true }
    else listing
  | left + 1, v, visited, trail, listing =>
    (out v).foldl
      (fun listing arc =>
        if limit ≤ listing.paths.length || visited.contains arc.target then listing
        else if arc.target = target then
          { listing with paths := listing.paths ++ [trail ++ [arc]] }
        else extend out target limit left arc.target (arc.target :: visited) (trail ++ [arc]) listing)
      listing

/-- The first `limit` simple paths from `source` to another vertex; without a budget the number
of vertices is more than enough. -/
def list (index : Index n) (source target : Fin n) (budget : Option Nat) (limit : Nat) :
    Listing n :=
  extend index.out target limit (budget.getD n) source [source] [] ⟨[], false⟩

/-! ## Scoring -/

structure Factors (α : Type) where
  edgeCosts : List (String × α)
  penalties : List (String × α)
  defaultCost : α

def Factors.zero : Factors α := ⟨[], [], 0⟩

def addTo (name : String) (x : α) : List (String × α) → List (String × α)
  | [] => [(name, 0 + x)]
  | (key, y) :: rest => if key == name then (key, y + x) :: rest else (key, y) :: addTo name x rest

def addPenalty (amounts : List (String × α)) (entry : String × Value) :
    Except Failure (List (String × α)) := do
  return addTo entry.1 (← Priced.part entry.2) amounts

def Factors.add (f : Factors α) (b : Breakdown) : Except Failure (Factors α) := do
  let base ← Priced.part b.base
  let penalties ← b.penalties.foldlM addPenalty f.penalties
  match b.matched with
  | some subkind => return { f with edgeCosts := addTo subkind base f.edgeCosts, penalties := penalties }
  | none => return { f with defaultCost := f.defaultCost + base, penalties := penalties }

def addArc (m : CostModel) (g : Graph) (total : α × Factors α) (arc : Arc n) :
    Except Failure (α × Factors α) := do
  let b ← m.breakdown g arc.edge
  let factors ← total.2.add b
  return (total.1 + (← Priced.whole b), factors)

def score (m : CostModel) (g : Graph) (path : List (Arc n)) : Except Failure (α × Factors α) :=
  path.foldlM (addArc m g) (0, Factors.zero)

structure Candidate (n : Nat) (α : Type) where
  arcs : List (Arc n)
  cost : α
  factors : Factors α

/-- Costlier, or as costly and shorter. -/
def Candidate.beats (a b : Candidate n α) : Bool :=
  b.cost < a.cost || (a.cost == b.cost && a.arcs.length < b.arcs.length)

def best : List (Candidate n α) → Option (Candidate n α)
  | [] => none
  | c :: rest => some (rest.foldl (fun best c => if c.beats best then c else best) c)

def candidates (m : CostModel) (g : Graph) (paths : List (List (Arc n))) :
    Except Failure (List (Candidate n α)) :=
  paths.mapM fun arcs => do
    let (cost, factors) ← score m g arcs
    return ⟨arcs, cost, factors⟩

end Critical

structure CriticalPath (α : Type) where
  path : List Value
  edges : List Value
  cost : α
  factors : Critical.Factors α
  considered : Nat

namespace CriticalPath

def hops {α : Type} (p : CriticalPath α) : Nat :=
  p.path.length - 1

def toFields (p : CriticalPath Float) : Fields :=
  [("path", .list p.path), ("edge_ids", .list p.edges), ("total_cost", .float p.cost),
    ("contributing_factors", .record
      [("edge_type_costs", .record (numbers p.factors.edgeCosts)),
        ("node_type_penalties", .record (numbers p.factors.penalties)),
        ("default_edge_cost", .float p.factors.defaultCost)]),
    ("candidates_considered", .int p.considered)]

def toValue (p : CriticalPath Float) : Value :=
  .record p.toFields

end CriticalPath

structure CriticalQuery where
  pathType : Value
  maxDepth : Value
  maxCandidates : Value

def CriticalQuery.default : CriticalQuery :=
  ⟨.str "any", .int 10, .int 64⟩

/-- A number of candidates that no graph at hand exceeds. -/
def manyCandidates : Nat := Nat.pow 2 64

/-- How many candidates are listed; not-a-number admits none. -/
def candidateLimit (v : Value) : Nat :=
  match v with
  | .float x => if x.isNaN then 0 else (stepsOfFloat true x).getD manyCandidates
  | v => (v.asInt?.map Int.toNat).getD manyCandidates

/-- Report the winner of a listing, or why there is none. -/
def Critical.conclude {n : Nat} {α : Type} [Priced α] (source target : Value) (pathType : PathType)
    (limit : Value) (listing : Listing n) (winner : Option (Candidate n α)) :
    Logged (CriticalPath α) := do
  match winner with
  | none =>
    if listing.cut then throw (.depthReached source target limit)
    else throw (.noPath source target)
  | some winner =>
    let result : CriticalPath α :=
      { path := source :: winner.arcs.map fun arc => arc.edge.target
        edges := winner.arcs.map fun arc => arc.edge.id
        cost := winner.cost
        factors := winner.factors
        considered := listing.paths.length }
    let shownCost := Decimal.fixed 2 (Scalar.toFloat result.cost)
    Logged.debug "cpgscope.semantic.critical_path"
      s!"Critical path {source.text} -> {target.text}: {result.hops} hops, cost {shownCost}"
      [("candidates", .int listing.paths.length), ("path_type", Tagged.value pathType)]
    return result

namespace Graph

/-- Costs may be counted in numbers of any sort; critical paths are asked for over doubles. -/
def criticalPathIn (α : Type) [Priced α] (g : Graph) (source target : Value)
    (model : Except Failure CostModel) (query : CriticalQuery) : Logged (CriticalPath α) := do
  let pathType : PathType ← Tagged.coerce query.pathType
  checkBudget "max_depth" query.maxDepth
  if ← query.maxCandidates.lt (.int 1) then
    throw (.argument (.belowOne "max_candidate_paths" query.maxCandidates))
  let model ← model
  let index ← g.index pathType.edgeKinds.keeps
  let s ← g.find source
  let t ← g.find target
  if s = t then return ⟨[source], [], 0, .zero, 1⟩
  let listing := Critical.list index s t (budgetSteps false g.order query.maxDepth)
    (candidateLimit query.maxCandidates)
  let candidates ← Critical.candidates model g listing.paths
  Critical.conclude source target pathType query.maxDepth listing (Critical.best candidates)

def criticalPath (g : Graph) (source target : Value) (model : Except Failure CostModel)
    (query : CriticalQuery) : Logged (CriticalPath Float) :=
  g.criticalPathIn Float source target model query

end Graph

end CodeGraph
