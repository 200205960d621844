import CodeGraph.Graph.Query
import CodeGraph.Scalar

/-!
# Degree centrality

The number of edges at a node, parallel edges counted singly and a loop once at
each end. Normalised, it is the share of the other nodes, at most one.
-/

namespace CodeGraph

/-- A score for every node, in node order. -/
abbrev Scores (α : Type) := List (Value × α)

def Scores.toValue (scores : Scores Float) : Value :=
  .mapping (scores.map fun (id, x) => (id, .float x))

def Scores.at (scores : Scores Float) (position : Nat) : Float :=
  (scores[position]?.map Prod.snd).getD 0

inductive DegreeDirection where
  | total
  | into
  | out
deriving DecidableEq, Repr

instance : Tagged DegreeDirection where
  choices := [.total, .into, .out]
  tag
    | .total => "total"
    | .into => "in"
    | .out => "out"

def Index.degree {n : Nat} (index : Index n) (v : Fin n) : DegreeDirection → Nat
  | .out => (index.out v).length
  | .into => (index.into v).length
  | .total => (index.out v).length + (index.into v).length

def Graph.score {α : Type} (g : Graph) (f : Fin g.order → α) : Scores α :=
  g.vertices.map fun v => (g.name v, f v)

def degreeShare (nodes : Nat) (degree : Float) : Float :=
  let share := degree / Scalar.ofNat (max 1 (nodes - 1))
  if share < 1 then share else 1

def Graph.degree (g : Graph) (direction : Value) (normalize : Bool) : Logged (Scores Float) := do
  let direction : DegreeDirection ← Tagged.coerce direction
  let index ← g.index keepAll
  return g.score fun v =>
    let degree : Float := Scalar.ofNat (index.degree v direction)
    if normalize then degreeShare g.order degree else degree

end CodeGraph
