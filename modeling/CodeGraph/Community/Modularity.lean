import CodeGraph.Community.Network
import CodeGraph.Graph.Query

/-!
# Modularity

How much more weight lies inside communities than their degrees would lead one
to expect, in the undirected view of a graph. A graph without edges between
different nodes has modularity zero.
-/

namespace CodeGraph

namespace Index

variable {n : Nat} (α : Type) [Scalar α]

def ties (index : Index n) (v : Fin n) : Nat :=
  addAll ((List.finRange n).map (index.weights.between v))

/-- Twice the number of edges between different vertices. -/
def totalTies (index : Index n) : Nat :=
  addAll ((List.finRange n).map index.ties)

def innerTies (index : Index n) (group : List (Fin n)) : Nat :=
  let weights := index.weights
  addAll (group.map fun v =>
    addAll (((List.finRange n).filter group.contains).map (weights.between v)))

/-- What one community adds to the modularity, as a share of the total weight. -/
def modularityOf (index : Index n) (total : α) (group : List (Fin n)) : α :=
  let expected := Scalar.ofNat (addAll (group.map index.ties)) / total
  Scalar.ofNat (index.innerTies group) / total - expected * expected

def modularity (index : Index n) (groups : List (List (Fin n))) : α :=
  let total := index.totalTies
  if total = 0 then 0 else Scalar.sum (groups.map (index.modularityOf α (Scalar.ofNat total)))

end Index

namespace Graph

def member (g : Graph) (id : Value) : Except Failure (Fin g.order) :=
  match g.vertex? id with
  | some v => .ok v
  | none => .error (.missingKey id)

def readGroup (g : Graph) (v : Value) : Except Failure (List (Fin g.order)) := do
  let ids ← v.elements
  ids.forM Value.hashable
  ids.mapM g.member

/-- Modularity of communities given by identifiers, which are not looked at when the graph has
no edges between different nodes. -/
def modularityIn (α : Type) [Scalar α] (g : Graph) (communities : Value) : Logged α := do
  let index ← g.index keepAll
  if index.totalTies = 0 then return 0
  let communities ← communities.elements
  let groups ← communities.mapM fun v => (g.readGroup v : Except Failure _)
  return index.modularity α groups

def modularity (g : Graph) (communities : Value) : Logged Float :=
  g.modularityIn Float communities

end Graph

end CodeGraph
