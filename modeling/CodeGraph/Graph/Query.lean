import CodeGraph.Graph.Index
import CodeGraph.Value.Sorting

/-!
# Queries on a graph

Neighbours and incident edges of a node, nodes and edges by an attribute, and
the counts that describe a graph's shape.

An edge may spell the identifier of its end otherwise than the node does (`1`
for `1.0`). A vertex that an answer comes to along an edge has the name that the
edge gives it.
-/

namespace CodeGraph

inductive Direction where
  | out
  | into
  | both
deriving DecidableEq, Repr

instance : Tagged Direction where
  choices := [.out, .into, .both]
  tag
    | .out => "out"
    | .into => "in"
    | .both => "both"

/-- Count one more item, under the first of those that are the same. -/
def countItem (counts : List (Value × Nat)) (item : Value) : List (Value × Nat) :=
  if counts.any fun entry => entry.1.same item then
    counts.map fun entry => if entry.1.same item then (entry.1, entry.2 + 1) else entry
  else counts ++ [(item, 1)]

/-- Tally values in order of first occurrence. -/
def tally (items : List Value) : List (Value × Nat) :=
  items.foldl countItem []

/-- A vertex with the name that an edge gives it. -/
abbrev End (n : Nat) := Fin n × Value

def Arc.endAt {n : Nat} (forward : Bool) (arc : Arc n) : End n :=
  (arc.tip forward, if forward then arc.edge.target else arc.edge.source)

def firstEnds {n : Nat} (ends : List (End n)) : List (End n) :=
  ends.foldl (fun seen e => if seen.any fun other => other.1 = e.1 then seen else seen ++ [e]) []

namespace Index

variable {n : Nat}

/-- The ends of the arcs leaving `v`, or the starts of those entering it. -/
def ends (index : Index n) (forward : Bool) (v : Fin n) : List (End n) :=
  (index.onward forward v).map (Arc.endAt forward)

/-- The ends of the arcs leaving `v`, without repetition and without `v` itself. -/
def distinctEnds (index : Index n) (v : Fin n) : List (End n) :=
  firstEnds ((index.ends true v).filter fun e => e.1 ≠ v)

/-- One entry for each arc in one direction; in both directions each neighbour once. -/
def neighbors (index : Index n) (v : Fin n) : Direction → List (End n)
  | .out => index.ends true v
  | .into => index.ends false v
  | .both => firstEnds (index.ends true v ++ index.ends false v)

/-- In both directions a loop counts twice. -/
def incident (index : Index n) (v : Fin n) : Direction → List (Arc n)
  | .out => index.out v
  | .into => index.into v
  | .both => index.out v ++ index.into v

end Index

namespace Graph

def names (g : Graph) (vs : List (Fin g.order)) : List Value :=
  vs.map g.name

/-- The name of a vertex among the ties of `a`: an arc that leaves `a` gives its end a name, and
one that enters `a` comes from a node by its own name. -/
def tieName (g : Graph) (a : Fin g.order) (tie : Tie g.order) : Value :=
  if tie.first.source = a then tie.first.edge.target else g.name tie.other

def undirectedWeights (g : Graph) (index : Index g.order) : Value :=
  let weights := index.weights
  .mapping (g.vertices.map fun a => (g.name a, .mapping ((weights.get a).map fun tie =>
    (g.tieName a tie, .float (Decimal.ofInt tie.weight)))))

def neighbors (g : Graph) (id direction : Value) : Logged (List Value) := do
  let direction : Direction ← Tagged.coerce direction
  let v ← g.find id
  let index ← g.index keepAll
  return (index.neighbors v direction).map Prod.snd

def incidentEdges (g : Graph) (id direction : Value) : Logged (List Edge) := do
  let direction : Direction ← Tagged.coerce direction
  let v ← g.find id
  let index ← g.index keepAll
  return (index.incident v direction).map Arc.edge

def nodesByKind (g : Graph) (kind : Value) : List Value :=
  (g.nodes.filter fun node => node.kind.same kind).map Node.id

def nodesByLine (g : Graph) (line : Value) : List Value :=
  (g.nodes.filter fun node => node.metadata.line.same line).map Node.id

def nodesByCategory (g : Graph) (category : Value) : List Value :=
  (g.nodes.filter fun node => category.isAmong node.metadata.categories).map Node.id

def edgesByKind (g : Graph) (kind : Value) : Except Failure (List Edge) := do
  let kind : EdgeKind ← Tagged.coerce kind
  return g.edges.filter fun e => e.kind = kind

end Graph

/-! ## Summary -/

structure Summary where
  nodeCount : Nat
  edgeCount : Nat
  nodesByKind : List (Value × Nat)
  edgesByKind : List (Value × Nat)
  selfLoops : Nat
  isolatedNodes : Nat

def tallyEntries (counts : List (Value × Nat)) : Entries :=
  counts.map fun (item, count) => (item, .int count)

def Summary.toValue (s : Summary) : Value :=
  .record [("node_count", .int s.nodeCount), ("edge_count", .int s.edgeCount),
    ("nodes_by_kind", .mapping (tallyEntries s.nodesByKind)),
    ("edges_by_kind", .mapping (tallyEntries s.edgesByKind)),
    ("self_loops", .int s.selfLoops), ("isolated_nodes", .int s.isolatedNodes)]

def Graph.summary (g : Graph) : Logged Summary := do
  let index ← g.index keepAll
  let kinds := g.nodes.map Node.kind
  kinds.forM fun kind => (kind.hashable : Except Failure Unit)
  return {
    nodeCount := g.nodes.length
    edgeCount := g.edges.length
    nodesByKind := tally kinds
    edgesByKind := tally (g.edges.map fun e => Tagged.value e.kind)
    selfLoops := g.edges.countP Edge.isSelfLoop
    isolatedNodes := g.vertices.countP fun v => (index.out v).isEmpty && (index.into v).isEmpty }

end CodeGraph
