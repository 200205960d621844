import CodeGraph.Graph
import CodeGraph.Journal
import CodeGraph.Table

/-!
# Index of a graph

Algorithms work on vertices, the positions `Fin n` of the nodes, and on arcs,
the edges with both ends found. An edge whose end is missing is dangling, and a
graph with dangling edges has no index: `Graph.index` refuses it, also when the
dangling edges would not be kept. An `Index` lists the kept arcs leaving and
entering every vertex, in edge order: each arc is put last at both of its ends.

Without directions, arcs are `Weights`: going through the arcs vertex by vertex,
each raises the weight of its ends for each other. Loops have no weight.
-/

namespace CodeGraph

structure Arc (n : Nat) where
  edge : Edge
  source : Fin n
  target : Fin n

def Arc.tip {n : Nat} (forward : Bool) (arc : Arc n) : Fin n :=
  if forward then arc.target else arc.source

structure Index (n : Nat) where
  leaving : Table n (List (Arc n))
  entering : Table n (List (Arc n))

namespace Index

variable {n : Nat}

def out (index : Index n) (v : Fin n) : List (Arc n) :=
  index.leaving.get v

def into (index : Index n) (v : Fin n) : List (Arc n) :=
  index.entering.get v

def empty : Index n where
  leaving := Vector.replicate n []
  entering := Vector.replicate n []

/-- List an arc last where it leaves and where it enters. -/
def add (index : Index n) (arc : Arc n) : Index n where
  leaving := Table.set index.leaving arc.source (index.out arc.source ++ [arc])
  entering := Table.set index.entering arc.target (index.into arc.target ++ [arc])

theorem out_add (index : Index n) (arc : Arc n) (v : Fin n) :
    (index.add arc).out v = index.out v ++ if arc.source = v then [arc] else [] := by
  rw [out, add, Table.get_set]
  split
  · next h => rw [h]
  · exact (List.append_nil _).symm

theorem into_add (index : Index n) (arc : Arc n) (v : Fin n) :
    (index.add arc).into v = index.into v ++ if arc.target = v then [arc] else [] := by
  rw [into, add, Table.get_set]
  split
  · next h => rw [h]
  · exact (List.append_nil _).symm

def ofArcs (arcs : List (Arc n)) : Index n :=
  arcs.foldl add empty

def onward (index : Index n) (forward : Bool) (v : Fin n) : List (Arc n) :=
  if forward then index.out v else index.into v

/-- Ends of the arcs leaving `v`, one for each arc. -/
def successors (index : Index n) (v : Fin n) : List (Fin n) :=
  (index.out v).map Arc.target

/-- Starts of the arcs entering `v`, one for each arc. -/
def predecessors (index : Index n) (v : Fin n) : List (Fin n) :=
  (index.into v).map Arc.source

end Index

/-- An item goes last unless it has been seen. -/
def seeItem {β : Type} [DecidableEq β] (seen : List β) (x : β) : List β :=
  if seen.contains x then seen else seen ++ [x]

theorem nodup_seeItem {β : Type} [DecidableEq β] {seen : List β} (h : seen.Nodup) (x : β) :
    (seeItem seen x).Nodup := by
  rw [seeItem]
  split
  · exact h
  · next hx =>
    refine List.nodup_append.mpr ⟨h, by simp, fun y hy z hz => ?_⟩
    rw [List.mem_singleton.mp hz]
    rintro rfl
    exact hx (List.contains_iff_mem.mpr hy)

/-- Keep the first occurrence of every item. -/
def firstOccurrences {β : Type} [DecidableEq β] (xs : List β) : List β :=
  xs.foldl seeItem []

theorem mem_firstOccurrences {β : Type} [DecidableEq β] {xs : List β} {x : β} :
    x ∈ firstOccurrences xs ↔ x ∈ xs := by
  suffices ∀ seen : List β, x ∈ xs.foldl seeItem seen ↔ x ∈ seen ∨ x ∈ xs by
    simpa [firstOccurrences] using this []
  induction xs with
  | nil => simp
  | cons y rest ih =>
    intro seen
    rw [List.foldl_cons, ih, seeItem]
    by_cases hy : y ∈ seen
    · simp only [List.contains_iff_mem, hy, if_true, List.mem_cons]
      constructor
      · rintro (hx | hx)
        · exact .inl hx
        · exact .inr (.inr hx)
      · rintro (hx | rfl | hx)
        · exact .inl hx
        · exact .inl hy
        · exact .inr hx
    · simp [hy, or_assoc]

/-- Successors without repetition and without `v` itself. -/
def Index.distinctSuccessors {n : Nat} (index : Index n) (v : Fin n) : List (Fin n) :=
  firstOccurrences ((index.successors v).filter (· ≠ v))

/-! ## Weights -/

/-- Another vertex, the arc by which it was first come upon, and the number of arcs to and from
it. -/
structure Tie (n : Nat) where
  other : Fin n
  first : Arc n
  weight : Nat

namespace Tie

variable {n : Nat}

/-- One more arc to or from a vertex; a vertex that is new goes last. -/
def raise (arc : Arc n) (other : Fin n) : List (Tie n) → List (Tie n)
  | [] => [⟨other, arc, 1⟩]
  | tie :: rest =>
    if tie.other = other then { tie with weight := tie.weight + 1 } :: rest
    else tie :: raise arc other rest

def weight? (other : Fin n) : List (Tie n) → Option Nat
  | [] => none
  | tie :: rest => if tie.other = other then some tie.weight else weight? other rest

end Tie

/-- The ties of every vertex, in the order in which they were come upon. -/
abbrev Weights (n : Nat) := Table n (List (Tie n))

namespace Weights

variable {n : Nat}

def empty : Weights n :=
  Vector.replicate n []

def raise (weights : Weights n) (arc : Arc n) (v other : Fin n) : Weights n :=
  Table.set weights v (Tie.raise arc other (weights.get v))

/-- Count an arc that leaves `v` at both of its ends, if they are two. -/
def addArc (v : Fin n) (weights : Weights n) (arc : Arc n) : Weights n :=
  if arc.target = v then weights
  else (weights.raise arc v arc.target).raise arc arc.target v

def listed? (weights : Weights n) (a b : Fin n) : Option Nat :=
  Tie.weight? b (weights.get a)

/-- The weight of two vertices for each other, zero without an entry. -/
def between (weights : Weights n) (a b : Fin n) : Nat :=
  (weights.listed? a b).getD 0

end Weights

namespace Index

variable {n : Nat}

def weigh (index : Index n) (weights : Weights n) (v : Fin n) : Weights n :=
  (index.out v).foldl (Weights.addArc v) weights

def weights (index : Index n) : Weights n :=
  (List.finRange n).foldl index.weigh Weights.empty

/-- The number of kept arcs between two different vertices, in either direction. -/
def multiplicity (index : Index n) (a b : Fin n) : Nat :=
  index.weights.between a b

end Index

namespace Graph

def order (g : Graph) : Nat :=
  g.nodes.length

def nodeAt (g : Graph) (v : Fin g.order) : Node :=
  g.nodes.get v

def name (g : Graph) (v : Fin g.order) : Value :=
  (g.nodeAt v).id

def vertices (g : Graph) : List (Fin g.order) :=
  List.finRange g.order

def vertex? (g : Graph) (id : Value) : Option (Fin g.order) :=
  g.nodes.findFinIdx? fun node => node.id.same id

def arc? (g : Graph) (e : Edge) : Option (Arc g.order) := do
  return ⟨e, ← g.vertex? e.source, ← g.vertex? e.target⟩

/-- The arcs of the kept edges, in edge order. -/
def arcs (g : Graph) (keep : Edge → Bool) : List (Arc g.order) :=
  (g.edges.filter keep).filterMap g.arc?

def isDangling (g : Graph) (e : Edge) : Bool :=
  (g.arc? e).isNone

def dangling (g : Graph) : List Edge :=
  g.edges.filter g.isDangling

/-- No edge has a missing end. -/
def Closed (g : Graph) : Prop :=
  g.dangling = []

/-- An end that cannot be an identifier is a fault of its own; the far end is looked at only
when the near one is there. -/
def checkEnds (g : Graph) (e : Edge) : Except Failure Unit := do
  e.source.hashable
  if (g.vertex? e.source).isSome then e.target.hashable

/-- Refuse a graph with dangling edges, naming them. -/
def check (g : Graph) : Logged Unit := do
  g.edges.forM fun e => (g.checkEnds e : Except Failure Unit)
  let dangling := g.dangling
  if !dangling.isEmpty then
    Logged.warning "cpgscope.validation" s!"Rejecting graph with {dangling.length} dangling edges" []
    throw (← Failure.ofDangling (dangling.map Edge.id))

def index (g : Graph) (keep : Edge → Bool) : Logged (Index g.order) := do
  g.check
  return Index.ofArcs (g.arcs keep)

def find (g : Graph) (id : Value) : Except Failure (Fin g.order) := do
  id.hashable
  match g.vertex? id with
  | some v => .ok v
  | none => .error (.nodeNotFound id)

end Graph

/-! ## Choosing edges by kind -/

/-- The kinds to keep, `none` for all of them. -/
abbrev KindFilter := Option (List EdgeKind)

def KindFilter.read : Value → Except Failure KindFilter
  | .null => .ok none
  | v => do
    let kinds ← v.elements
    return some (← kinds.mapM Tagged.coerce)

def KindFilter.keeps (kinds : KindFilter) (e : Edge) : Bool :=
  match kinds with
  | none => true
  | some kinds => kinds.contains e.kind

def keepAll (_ : Edge) : Bool := true

end CodeGraph
