import CodeGraph.Path.Budget
import CodeGraph.Path.Search
import CodeGraph.Graph.Query

/-!
# Shortest paths

The shortest path between two nodes by number of edges, or by cost when edges
are weighed, within an optional budget of edges.

A path by cost has the source as asked for and then the ends that its edges
name. One by number of edges is read off backwards from the target as asked for,
from a node to the one it was met from, and ends where there is none; a node
with the identifier `null` counts as none.
-/

namespace CodeGraph

abbrev Weighing := Edge → Except Failure Value

def Weighing.double (weigh : Weighing) (e : Edge) : Except Failure Float := do
  (← weigh e).toDouble

namespace Graph

def hopNames {n : Nat} (source target : Value) (path : List (Arc n)) : List Value :=
  let onTheWay := source :: path.dropLast.map fun arc => arc.edge.target
  (onTheWay.reverse.takeWhile fun id => !id.isNull).reverse ++ [target]

def costNames {n : Nat} (source : Value) (path : List (Arc n)) : List Value :=
  source :: path.map fun arc => arc.edge.target

/-- An outcome in terms of the identifiers asked for. -/
def resolve {n : Nat} {α : Type} [Scalar α] (names : List (Arc n) → List Value)
    (source target limit : Value) : Path.Outcome n α → Except Failure (List Value × α)
  | .found path cost => .ok (names path, cost)
  | .beyondBudget => .error (.depthReached source target limit)
  | .unreachable => .error (.noPath source target)
  | .badWeight e w => .error (.invalidWeight e.id (.float (Scalar.toFloat w)))
  | .failed f => .error f

/-! ## Under a measure of edges

Costs may be numbers of any sort; the paths asked for in practice are those over doubles. -/

section Measured

variable {α : Type} [Scalar α]

/-- Path and cost; a node reaches itself at no cost. -/
def shortestUnder (g : Graph) (source target : Value) (measure : Option (Edge → Except Failure α))
    (limit : Value) : Logged (List Value × α) := do
  checkBudget "max_depth" limit
  let index ← g.index keepAll
  let s ← g.find source
  let t ← g.find target
  if s = t then return ([source], 0)
  let budget := budgetSteps true g.order limit
  match measure with
  | none =>
    resolve (hopNames source target) source target limit (Path.byHops index s t budget)
  | some measure =>
    resolve (costNames source) source target limit (Path.byCost index measure s t budget)

def shortestPathUnder (g : Graph) (source target : Value)
    (measure : Option (Edge → Except Failure α)) (limit : Value) : Logged (List Value) := do
  let (path, cost) ← g.shortestUnder source target measure limit
  Logged.debug "cpgscope.algorithms.shortest_path"
    s!"Shortest path {source.text} -> {target.text}: {path.length - 1} hops"
    [("cost", .float (Scalar.toFloat cost)), ("weighted", .bool measure.isSome)]
  return path

def shortestLengthUnder (g : Graph) (source target : Value)
    (measure : Option (Edge → Except Failure α)) (limit : Value) : Logged α := do
  return (← g.shortestUnder source target measure limit).2

end Measured

def shortestPath (g : Graph) (source target : Value) (weigh : Option Weighing) (limit : Value) :
    Logged (List Value) :=
  g.shortestPathUnder source target (weigh.map Weighing.double) limit

def shortestPathLength (g : Graph) (source target : Value) (weigh : Option Weighing)
    (limit : Value) : Logged Float :=
  g.shortestLengthUnder source target (weigh.map Weighing.double) limit

end Graph

end CodeGraph
