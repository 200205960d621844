import CodeGraph.Graph.Index
import CodeGraph.Scalar
import CodeGraph.Value.Sorting

/-!
# Networks

The undirected view of a graph that communities are found in: direction is
dropped, parallel edges add up, and loops of the graph play no part. Positions
of a network are the nodes in the order of their identifiers, so that whatever a
search does "in order" depends on the identifiers alone and not on how the graph
was listed.

A labelling puts every position into a community. Contracting a labelling makes
each community a position of a smaller network: weight between communities adds
up, and weight inside one becomes its loop, every inner pair counted once.
-/

namespace CodeGraph

/-- Weights between positions and the weight each position has with itself. -/
structure Network (n : Nat) (α : Type) where
  weight : Table n (Table n α)
  loop : Table n α

namespace Network

variable {n : Nat} {α : Type} [Scalar α]

def between (net : Network n α) (i j : Fin n) : α :=
  (net.weight.get i).get j

def neighbours (net : Network n α) (i : Fin n) : List (Fin n) :=
  (List.finRange n).filter fun j => net.between i j != 0

/-- All weight at a position, a loop counted at both of its ends. -/
def degree (net : Network n α) (i : Fin n) : α :=
  Scalar.sum ((net.neighbours i).map (net.between i)) + Scalar.ofNat 2 * net.loop.get i

/-- The undirected view of a graph on some of its vertices. -/
def ofIndex (index : Index n) (vs : List (Fin n)) : Network vs.length α :=
  let weights := index.weights
  { weight := Vector.ofFn fun i => Vector.ofFn fun j =>
      Scalar.ofNat (weights.between (vs.get i) (vs.get j))
    loop := Vector.replicate vs.length 0 }

end Network

/-- The community of every position, named by a label. -/
abbrev Labels (n : Nat) (β : Type) := Table n β

namespace Labels

variable {n : Nat} {β : Type} [DecidableEq β]

/-- The labels in use, in order of first occurrence. -/
def used (labels : Labels n β) : List β :=
  firstOccurrences ((List.finRange n).map labels.get)

theorem get_mem_used (labels : Labels n β) (i : Fin n) : labels.get i ∈ labels.used :=
  mem_firstOccurrences.mpr (List.mem_map_of_mem (List.mem_finRange i))

/-- Communities numbered in order of first occurrence. -/
def number (labels : Labels n β) (i : Fin n) : Fin labels.used.length :=
  ⟨labels.used.idxOf (labels.get i), List.idxOf_lt_length_of_mem (labels.get_mem_used i)⟩

def members (labels : Labels n β) : Table labels.used.length (List (Fin n)) :=
  Vector.ofFn fun c => (List.finRange n).filter fun i => labels.get i = labels.used.get c

end Labels

/-- The community of every position, named by a position. -/
abbrev Labelling (n : Nat) := Labels n (Fin n)

def Labelling.singletons (n : Nat) : Labelling n :=
  Vector.ofFn id

namespace Network

variable {n : Nat} {α : Type} [Scalar α] {β : Type} [DecidableEq β]

def across (net : Network n α) (here there : List (Fin n)) : α :=
  Scalar.sum (here.map fun i => Scalar.sum (there.map fun j => net.between i j))

def contract (net : Network n α) (labels : Labels n β) : Network labels.used.length α :=
  let members := labels.members
  { weight := Vector.ofFn fun a => Vector.ofFn fun b =>
      if a = b then 0 else net.across (members.get a) (members.get b)
    loop := Vector.ofFn fun a =>
      Scalar.sum ((members.get a).map net.loop.get)
        + net.across (members.get a) (members.get a) / Scalar.ofNat 2 }

end Network

/-! ## From labels to communities of nodes -/

/-- Positions with the same label, groups in order of their first position. -/
def groupsOf {n : Nat} {β : Type} [DecidableEq β] (label : Fin n → β) : List (List (Fin n)) :=
  let firsts := (List.finRange n).filter fun i =>
    (List.finRange n).all fun j => i ≤ j || label j != label i
  firsts.map fun i => (List.finRange n).filter fun j => label j = label i

def Graph.byName (g : Graph) : Except Failure (List (Fin g.order)) :=
  Value.sortOn g.name g.vertices

/-- Groups with their members in the order of their identifiers, in the order of their first
members. -/
def Graph.arrange (g : Graph) (groups : List (List (Fin g.order))) :
    Except Failure (List (List (Fin g.order))) := do
  let groups ← groups.mapM (Value.sortOn g.name)
  Value.sortOn (fun members => (members.head?.map g.name).getD .null) groups

end CodeGraph
