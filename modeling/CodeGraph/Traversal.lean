import CodeGraph.Graph.Index

/-!
# Breadth-first traversal

A traversal meets vertices layer by layer. Within a layer it follows the order
in which the previous layer was met and, from each vertex, the order of its
steps; the step that meets a vertex first is the one that is remembered. Impact
analysis, unweighted paths and betweenness are read off the same list of
discoveries.
-/

namespace CodeGraph

/-- How a vertex was met: from where, by which step, and how far from the start. -/
structure Discovery (n : Nat) (β : Type) where
  vertex : Fin n
  parent : Fin n
  via : β
  distance : Nat

namespace Traversal

variable {n : Nat} {β : Type}

/-- The start is known from the outset, the others once met. -/
def known (start : Fin n) (met : List (Discovery n β)) (v : Fin n) : Bool :=
  v = start || met.any fun d => d.vertex = v

/-- Take one step out of `v`, noting its end if it is new. -/
def meet (start v : Fin n) (distance : Nat) (met : List (Discovery n β)) (step : β × Fin n) :
    List (Discovery n β) :=
  if known start met step.2 then met else met ++ [⟨step.2, v, step.1, distance⟩]

/-- Take all steps out of a layer. -/
def expand (steps : Fin n → List (β × Fin n)) (start : Fin n) (distance : Nat)
    (layer : List (Fin n)) (met : List (Discovery n β)) : List (Discovery n β) :=
  layer.foldl (fun met v => (steps v).foldl (meet start v distance) met) met

/-- At most `left` further layers after a given one. -/
def layers (steps : Fin n → List (β × Fin n)) (start : Fin n) :
    Nat → Nat → List (Fin n) → List (Discovery n β) → List (Discovery n β)
  | 0, _, _, met => met
  | _ + 1, _, [], met => met
  | left + 1, distance, v :: layer, met =>
    let next := expand steps start (distance + 1) (v :: layer) met
    layers steps start left (distance + 1) ((next.drop met.length).map Discovery.vertex) next

/-- Every vertex other than the start within `limit` steps of it, in order of discovery. -/
def within (steps : Fin n → List (β × Fin n)) (start : Fin n) (limit : Nat) :
    List (Discovery n β) :=
  layers steps start limit 0 [start] []

end Traversal

/-- The arcs of an index as steps, along their direction or against it. -/
def Index.steps {n : Nat} (index : Index n) (forward : Bool) (v : Fin n) :
    List (Arc n × Fin n) :=
  (index.onward forward v).map fun arc => (arc, arc.tip forward)

end CodeGraph
