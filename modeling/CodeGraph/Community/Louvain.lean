import CodeGraph.Community.Network

/-!
# Communities by modularity

Communities grow greedily. Positions are visited in order, and each moves to the
neighbouring community where it gains most modularity, if it gains enough; ties
go to the least label. Visits are repeated until a whole sweep moves nothing.
Then every community is contracted to a position, and the search goes on in the
smaller network until no position moves at all.
-/

namespace CodeGraph.Louvain

variable {n : Nat} {α : Type} [Scalar α]

def leastGain : Float := 1e-12

def maxSweeps : Nat := 1000

/-- Communities so far, and the sum of degrees in each of them. -/
structure State (n : Nat) (α : Type) where
  labels : Labelling n
  totals : Table n α

/-- What stays fixed while positions move. -/
structure Setting (n : Nat) (α : Type) where
  net : Network n α
  degree : Table n α
  total : α

def Setting.ofNetwork (net : Network n α) : Setting n α :=
  let degree := Vector.ofFn net.degree
  ⟨net, degree, Scalar.sum degree.toList⟩

def pull (net : Network n α) (labels : Labelling n) (i c : Fin n) : α :=
  Scalar.sum (((net.neighbours i).filter fun j => labels.get j = c).map (net.between i))

/-- Labels of the neighbours of a position, in increasing order. -/
def options (net : Network n α) (labels : Labelling n) (i : Fin n) : List (Fin n) :=
  let near := (net.neighbours i).map labels.get
  (List.finRange n).filter near.contains

/-- What a position gains by being in a community, up to what is the same for all of them;
`totals` leaves the position itself out. -/
def gain (s : Setting n α) (labels : Labelling n) (totals : Table n α) (i c : Fin n) : α :=
  pull s.net labels i c - totals.get c * s.degree.get i / s.total

/-- The better of the standing choice, with its gain, and another community. -/
def consider (s : Setting n α) (labels : Labelling n) (totals : Table n α) (i : Fin n)
    (standing : Fin n × α) (c : Fin n) : Fin n × α :=
  if c = labels.get i then standing
  else
    let g := gain s labels totals i c
    if standing.2 + Scalar.ofFloat leastGain < g then (c, g) else standing

/-- The best community for a position with what it gains there. The position stays where it is
unless it gains enough. -/
def choose (s : Setting n α) (labels : Labelling n) (totals : Table n α) (i : Fin n) : Fin n × α :=
  let current := labels.get i
  (options s.net labels i).foldl (consider s labels totals i)
    (current, gain s labels totals i current)

def best (s : Setting n α) (labels : Labelling n) (totals : Table n α) (i : Fin n) : Fin n :=
  (choose s labels totals i).1

def State.without (state : State n α) (s : Setting n α) (i : Fin n) : Table n α :=
  let current := state.labels.get i
  state.totals.set current (state.totals.get current - s.degree.get i)

/-- Take a position out of its community and put it where it is best. -/
def visit (s : Setting n α) (state : State n α) (i : Fin n) : State n α :=
  let rest := state.without s i
  let choice := best s state.labels rest i
  ⟨state.labels.set i choice, rest.set choice (rest.get choice + s.degree.get i)⟩

def sweep (s : Setting n α) (state : State n α) : State n α :=
  (List.finRange n).foldl (visit s) state

/-- Sweep until nothing moves, at most the given number of times. -/
def sweeps (s : Setting n α) : Nat → State n α → State n α
  | 0, state => state
  | left + 1, state =>
    let next := sweep s state
    if next.labels = state.labels then next else sweeps s left next

def start (s : Setting n α) : State n α :=
  ⟨Labelling.singletons n, s.degree⟩

/-- The communities that positions settle in, `none` when none of them moves. -/
def settle (net : Network n α) : Option (Labelling n) :=
  let s := Setting.ofNetwork net
  if s.total == 0 then none
  else
    let first := sweep s (start s)
    if first.labels = (start s).labels then none
    else some (sweeps s (maxSweeps - 1) first).labels

/-- The number of contractions and the final community of every position. Positions that moved
leave some label unused, so that every contraction is smaller. -/
def levels {n : Nat} (net : Network n α) : Nat × Table n Nat :=
  match settle net with
  | none => (0, Vector.ofFn Fin.val)
  | some labels =>
    if labels.used.length < n then
      let (count, communities) := levels (net.contract labels)
      (count + 1, Vector.ofFn fun i => communities.get (labels.number i))
    else (0, Vector.ofFn Fin.val)
termination_by n

end CodeGraph.Louvain

namespace CodeGraph.Graph

def louvainLevels (α : Type) [Scalar α] (g : Graph) (index : Index g.order)
    (vs : List (Fin g.order)) : Nat × List (List (Fin g.order)) :=
  let net : Network vs.length α := Network.ofIndex index vs
  let (count, communities) := Louvain.levels net
  (count, (groupsOf communities.get).map fun group => group.map vs.get)

/-- Communities of nodes; a graph without nodes has none, and nothing is reported. -/
def louvainIn (α : Type) [Scalar α] (g : Graph) : Logged (List (List (Fin g.order))) := do
  let index ← g.index keepAll
  let vs ← g.byName
  if vs.isEmpty then return []
  let (levels, found) := g.louvainLevels α index vs
  let groups ← g.arrange found
  Logged.debug "cpgscope.algorithms.community"
    s!"Louvain found {groups.length} communities in {levels} levels" []
  return groups

def louvain (g : Graph) : Logged (List (List (Fin g.order))) :=
  g.louvainIn Float

end CodeGraph.Graph
