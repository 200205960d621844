import CodeGraph.Community.Network

/-!
# Communities by label propagation

Every node starts with its own label. In each round the nodes, in the order of
their identifiers, take the label that most edges to their neighbours lead to, of
several the label whose identifier is least. The search ends with the first round that changes
nothing, or when the rounds are used up.
-/

namespace CodeGraph.Propagation

variable {n : Nat}

abbrev Links (n : Nat) := Table n (Table n Nat)

def Links.ofIndex (index : Index n) (vs : List (Fin n)) : Links vs.length :=
  let weights := index.weights
  Vector.ofFn fun i => Vector.ofFn fun j => weights.between (vs.get i) (vs.get j)

/-- The number of edges from a position to those that carry a label. -/
def support (links : Links n) (labels : Labelling n) (i c : Fin n) : Nat :=
  addAll (((List.finRange n).filter fun j => labels.get j = c).map (links.get i).get)

def options (links : Links n) (labels : Labelling n) (i : Fin n) : List (Fin n) :=
  let near := (List.finRange n).filter fun j => (links.get i).get j ≠ 0
  (List.finRange n).filter (near.map labels.get).contains

/-- The better of the standing choice, with its support, and another label, where `below` compares
labels. -/
def consider (links : Links n) (below : Fin n → Fin n → Bool) (labels : Labelling n) (i : Fin n)
    (standing : Fin n × Nat) (c : Fin n) : Fin n × Nat :=
  let count := support links labels i c
  if standing.2 < count || (standing.2 = count && below c standing.1) then (c, count) else standing

/-- The least label with the most support; a position without neighbours keeps its own. -/
def choose (links : Links n) (below : Fin n → Fin n → Bool) (labels : Labelling n) (i : Fin n) :
    Fin n :=
  ((options links labels i).foldl (consider links below labels i) (labels.get i, 0)).1

def visit (links : Links n) (below : Fin n → Fin n → Bool) (labels : Labelling n) (i : Fin n) :
    Labelling n :=
  labels.set i (choose links below labels i)

def round (links : Links n) (below : Fin n → Fin n → Bool) (labels : Labelling n) : Labelling n :=
  (List.finRange n).foldl (visit links below) labels

/-- The labels after at most the given number of rounds, with the number of rounds run. -/
def rounds (links : Links n) (below : Fin n → Fin n → Bool) :
    Nat → Labelling n → Nat × Labelling n
  | 0, labels => (0, labels)
  | left + 1, labels =>
    let next := round links below labels
    if next = labels then (1, next)
    else
      let (count, final) := rounds links below left next
      (count + 1, final)

end CodeGraph.Propagation

namespace CodeGraph.Graph

def propagate (g : Graph) (index : Index g.order) (vs : List (Fin g.order)) (limit : Nat) :
    Nat × List (List (Fin g.order)) :=
  let below i j := (g.name (vs.get i)).precedes (g.name (vs.get j))
  let (count, labels) :=
    Propagation.rounds (Propagation.Links.ofIndex index vs) below limit
      (Labelling.singletons vs.length)
  (count, (groupsOf labels.get).map fun group => group.map vs.get)

def labelPropagation (g : Graph) (maxRounds : Value) : Logged (List (List (Fin g.order))) := do
  if ← maxRounds.lt (.int 1) then throw (.argument (.belowOne "max_iterations" maxRounds))
  let index ← g.index keepAll
  let vs ← g.byName
  match maxRounds.asInt? with
  | none => throw (.wrongType (.notInteger maxRounds.typeName))
  | some limit =>
    let (rounds, found) := g.propagate index vs limit.toNat
    let groups ← g.arrange found
    Logged.debug "cpgscope.algorithms.community"
      s!"Label propagation found {groups.length} communities after {rounds} rounds" []
    return groups

end CodeGraph.Graph
