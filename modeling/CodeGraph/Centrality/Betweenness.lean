import CodeGraph.Centrality.Degree
import CodeGraph.Traversal

/-!
# Betweenness centrality

Brandes' accumulation. A breadth-first traversal from a source gives distances;
the number of shortest paths to a vertex is the sum over its predecessors one
step closer, and the dependency of the source on a vertex is gathered from the
vertices one step further, farthest first. The betweenness of a vertex is the sum
of the dependencies of all other sources on it. Parallel arcs count as one and
loops not at all.
-/

namespace CodeGraph

namespace Betweenness

variable {n : Nat} {α : Type} [Scalar α]

/-- The vertices met from a source, each with its distance, in order of discovery. -/
def sweep (adjacent : Fin n → List (Fin n)) (source : Fin n) : List (Fin n × Nat) :=
  (source, 0) ::
    (Traversal.within (fun v => (adjacent v).map fun w => ((), w)) source n).map fun d =>
      (d.vertex, d.distance)

/-- Whether a shortest path may go from the first vertex directly to the second. -/
def leads (adjacent : Fin n → List (Fin n)) (a b : Fin n × Nat) : Bool :=
  a.2 + 1 == b.2 && (adjacent a.1).contains b.1

/-- Numbers of shortest paths from the source to the vertices of a sweep, nearest first. -/
def pathCounts (adjacent : Fin n → List (Fin n)) (source : Fin n) (order : List (Fin n × Nat)) :
    Table n α :=
  order.foldl
    (fun counts w =>
      if w.1 = source then counts.set w.1 1
      else counts.set w.1 (Scalar.sum ((order.filter (leads adjacent · w)).map fun v =>
        counts.get v.1)))
    (Vector.replicate n 0)

/-- Dependencies of the source on the vertices of a sweep, farthest first. -/
def dependencies (adjacent : Fin n → List (Fin n)) (counts : Table n α)
    (order : List (Fin n × Nat)) : Table n α :=
  order.reverse.foldl
    (fun shares v =>
      shares.set v.1 (Scalar.sum ((order.reverse.filter (leads adjacent v)).map fun w =>
        counts.get v.1 * ((1 + shares.get w.1) / counts.get w.1))))
    (Vector.replicate n 0)

/-- What one source adds to every vertex; nothing to itself. -/
def fromSource (adjacent : Fin n → List (Fin n)) (source : Fin n) : Table n α :=
  let order := sweep adjacent source
  (dependencies adjacent (pathCounts adjacent source order) order).set source 0

def chunkSize : Nat := 64

/-- Consecutive pieces of `size + 1` items. -/
def chunks {β : Type} (size : Nat) (items : List β) : List (List β) :=
  match items with
  | [] => []
  | item :: rest => (item :: rest.take size) :: chunks size (rest.drop size)
termination_by items.length
decreasing_by
  simp only [List.length_drop, List.length_cons]
  omega

/-- The sum over all sources, by chunks of `size + 1` of them. -/
def scores (size : Nat) (adjacent : Fin n → List (Fin n)) : Table n α :=
  let table : Table n (Table n α) := Vector.ofFn (fromSource adjacent)
  let pieces := chunks size (List.finRange n)
  Vector.ofFn fun v =>
    Scalar.sum (pieces.map fun piece => Scalar.sum (piece.map fun s => (table.get s).get v))

def normalized (nodes : Nat) (score : α) : α :=
  if nodes ≤ 2 then 0 else score / Scalar.ofNat ((nodes - 1) * (nodes - 2))

end Betweenness

def Index.betweenness {n : Nat} (α : Type) [Scalar α] (index : Index n) : Table n α :=
  let adjacent : Table n (List (Fin n)) := Vector.ofFn index.distinctSuccessors
  Betweenness.scores (Betweenness.chunkSize - 1) adjacent.get

/-- The number of workers changes nothing but the record of the run; it has to be comparable
with one. -/
def Graph.betweennessIn (α : Type) [Scalar α] (g : Graph) (workers : Value) :
    Logged (Scores α) := do
  let index ← g.index keepAll
  if g.order = 0 then return []
  if workers.truthy then discard (workers.gt (.int 1) : Except Failure Bool)
  let scores := index.betweenness α
  Logged.debug "cpgscope.algorithms.centrality"
    s!"Calculated betweenness centrality for {g.order} nodes"
    [("chunks", .int ((g.order + Betweenness.chunkSize - 1) / Betweenness.chunkSize : Nat)),
      ("max_workers", if workers.truthy then workers else .int 1)]
  return g.score scores.get

def Graph.betweenness (g : Graph) (workers : Value) : Logged (Scores Float) :=
  g.betweennessIn Float workers

def Scores.normalizeBetweenness {α : Type} [Scalar α] (scores : Scores α) : Scores α :=
  scores.map fun (id, x) => (id, Betweenness.normalized scores.length x)

/-- Normalise scores given as data; up to two entries are not looked at, being zero anyway, so
that their keys alone would do. -/
def normalizeTable (scores : Value) : Except Failure (Scores Float) := do
  let keys ← scores.elements
  if keys.length ≤ 2 then
    keys.forM Value.hashable
    return (Value.withoutRepeats keys).map fun id => (id, 0)
  let entries ← scores.entriesOr "items"
  let scores ← entries.mapM fun (id, v) => do return (id, ← v.addend)
  return Scores.normalizeBetweenness scores

end CodeGraph
