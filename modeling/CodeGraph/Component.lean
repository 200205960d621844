import CodeGraph.Graph.Query

/-!
# Strongly connected components

Tarjan's search: vertices are numbered in the order of discovery and kept on a
stack until their component is complete. `visit` answers the least number on the
stack that its vertex reaches through the vertices discovered from it; if that is
the vertex's own number, the vertex and all above it on the stack are a
component.

The search deepens by one undiscovered vertex at a time, so the number of
vertices bounds its depth. Two things could go wrong with the stack: that a
vertex to be closed is not on it, and that it is not empty at the end. Both are
answered by `unbalancedStack`; neither happens.
-/

namespace CodeGraph

namespace Component

variable {n : Nat}

structure Search (n : Nat) where
  number : Table n (Option Nat)
  /-- How many vertices have a number. -/
  count : Nat
  /-- Vertices whose component is open, the newest first. -/
  stack : List (Fin n)
  /-- Complete components, each from its oldest vertex on. -/
  closed : List (List (Fin n))

def Search.start : Search n :=
  ⟨Vector.replicate n none, 0, [], []⟩

def Search.discover (s : Search n) (v : Fin n) : Search n :=
  { s with number := s.number.set v (some s.count), count := s.count + 1, stack := v :: s.stack }

/-- The stack down to `v` inclusive, and what lies below. -/
def popThrough (v : Fin n) : List (Fin n) → Option (List (Fin n) × List (Fin n))
  | [] => none
  | w :: rest =>
    if w = v then some ([w], rest)
    else (popThrough v rest).map fun (members, below) => (w :: members, below)

def Search.close (s : Search n) (v : Fin n) : Option (Search n) :=
  (popThrough v s.stack).map fun (members, below) =>
    { s with stack := below, closed := s.closed ++ [members.reverse] }

/-- Look at one successor, going `deeper` into it if it is new; an open one lowers the low
number. -/
def scan (deeper : Fin n → Search n → Option (Nat × Search n)) :
    Nat × Search n → Fin n → Option (Nat × Search n)
  | (low, s), w =>
    match s.number.get w with
    | none => (deeper w s).map fun (lowW, s) => (min low lowW, s)
    | some number => some (if s.stack.contains w then min low number else low, s)

/-- Discover `v` and all that is reached from it; the answer is its low number. -/
def visit (succ : Fin n → List (Fin n)) : Nat → Fin n → Search n → Option (Nat × Search n)
  | 0, _, _ => none
  | depth + 1, v, s => do
    let own := s.count
    let (low, s) ← (succ v).foldlM (scan (visit succ depth)) (own, s.discover v)
    if low = own then return (low, ← s.close v)
    else return (low, s)

/-- Start at `v` unless it is discovered already. -/
def root (succ : Fin n → List (Fin n)) (s : Search n) (v : Fin n) : Option (Search n) :=
  match s.number.get v with
  | none => (visit succ n v s).map Prod.snd
  | some _ => some s

def search (succ : Fin n → List (Fin n)) : Option (Search n) :=
  (List.finRange n).foldlM (root succ) Search.start

/-- All components, each complete before those from which it is reached. -/
def components (succ : Fin n → List (Fin n)) : Except Failure (List (List (Fin n))) :=
  match search succ with
  | some s => if s.stack.isEmpty then .ok s.closed else .error .unbalancedStack
  | none => .error .unbalancedStack

/-! ## Names

The search starts at a vertex by the name of its node, and comes to all others
along an edge, by the name that the edge gives them. -/

abbrev Named (n : Nat) := Table n (Option Value)

def nameFrom (out : Fin n → List (Arc n)) : Nat → Fin n → Named n → Named n
  | 0, _, named => named
  | depth + 1, v, named =>
    (out v).foldl
      (fun named arc =>
        match named.get arc.target with
        | some _ => named
        | none => nameFrom out depth arc.target (named.set arc.target (some arc.edge.target)))
      named

def nameAll (out : Fin n → List (Arc n)) (own : Fin n → Value) : Named n :=
  (List.finRange n).foldl
    (fun named v =>
      match named.get v with
      | some _ => named
      | none => nameFrom out n v (named.set v (some (own v))))
    (Vector.replicate n none)

/-- Those with at least `minSize` members, larger ones first, then by their least member. -/
def largest (minSize : Value) (found : List (List Value)) : Except Failure (List (List Value)) := do
  let large ← found.filterM fun members => minSize.le (.int members.length)
  let keyed ← large.mapM fun members => do
    return (Value.list [.int (-(members.length : Int)), ← Value.least members], members)
  return (← Value.sortOn Prod.fst keyed).map Prod.snd

end Component

namespace Graph

def searchName (g : Graph) (index : Index g.order) : Fin g.order → Value :=
  let named := Component.nameAll index.out g.name
  fun v => (named.get v).getD (g.name v)

def componentVertices (g : Graph) (index : Index g.order) : Logged (List (List (Fin g.order))) := do
  let found ← Component.components index.successors
  Logged.debug "cpgscope.algorithms.scc"
    s!"SCC complete: {found.length} components over {g.order} nodes"
    [("cyclic_components", .int (found.countP fun members => 1 < members.length))]
  return found

def components (g : Graph) (kinds : Value) : Logged (List (List Value)) := do
  let filter ← KindFilter.read kinds
  let index ← g.index filter.keeps
  let name := g.searchName index
  return (← g.componentVertices index).map fun members => members.map name

/-- Components with at least `minSize` nodes, larger ones first, then by their least node. -/
def cyclicComponents (g : Graph) (minSize kinds : Value) : Logged (List (List Value)) := do
  let found ← g.components kinds
  Component.largest minSize found

end Graph

end CodeGraph
