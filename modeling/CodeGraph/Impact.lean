import CodeGraph.Community
import CodeGraph.Path.Budget
import CodeGraph.Traversal
import CodeGraph.Scalar

/-!
# Change impact

What a change to a node affects: the nodes downstream, within some number of
steps along dependency edges; the nodes from which it is reached itself are
listed too. Each downstream node counts with the strength of the edge it was
first met by, all of it in the direct score when it is one step away, and in the
transitive score divided by its distance.
-/

namespace CodeGraph

def EdgeKind.strength : EdgeKind → Float
  | .callGraph => 1
  | .moduleDependency => 1
  | .dataFlow => 0.8
  | .reference => 0.6
  | .controlFlow => 0.5
  | .astStructural => 0.3

structure ImpactIn (α : Type) where
  node : Value
  downstream : List Value
  /-- The nodes from which this one is reached. -/
  reaching : List Value
  direct : α
  transitive : α
  affected : List Value

abbrev Impact := ImpactIn Float

def ImpactIn.toFields (i : Impact) : Fields :=
  [("node_id", i.node), ("downstream_nodes", .list i.downstream),
    ("upstream_nodes", .list i.reaching), ("direct_impact_score", .float i.direct),
    ("transitive_impact_score", .float i.transitive), ("affected_communities", .list i.affected)]

def ImpactIn.toValue (i : Impact) : Value :=
  .record i.toFields

namespace Impact

variable {n : Nat} (α : Type) [Scalar α]

/-- The nodes met within a number of steps, with the arcs they were met by. -/
abbrev Reach (n : Nat) := List (Discovery n (Arc n))

def reach (index : Index n) (forward : Bool) (start : Fin n) (depth : Nat) : Reach n :=
  Traversal.within (index.steps forward) start depth

def reached (forward : Bool) (met : Reach n) : List Value :=
  met.map fun d => (d.via.endAt forward).2

def strength (d : Discovery n (Arc n)) : α :=
  Scalar.ofFloat d.via.edge.kind.strength

def directScore (met : Reach n) : α :=
  Scalar.sum ((met.filter fun d => d.distance = 1).map (strength α))

def transitiveScore (met : Reach n) : α :=
  Scalar.sum (met.map fun d => strength α d / Scalar.ofNat d.distance)

end Impact

/-! ## Affected communities -/

/-- What is known of a community beforehand: its identifier and its members. -/
structure Membership where
  community : Value
  members : List Value

def CodeCommunity.membership (c : CodeCommunity) : Membership :=
  ⟨c.id, c.members⟩

/-- The last community that lists a node is the node's community. -/
def communityOf? (memberships : List Membership) (id : Value) : Option Value :=
  (memberships.reverse.find? fun m => id.isAmong m.members).map Membership.community

def distinct (items : List Value) : List Value :=
  (tally items).map Prod.fst

/-- The communities of some nodes, each once, in order. -/
def communitiesOf (memberships : List Membership) (ids : List Value) :
    Except Failure (List Value) := do
  memberships.forM fun m => m.members.forM Value.hashable
  let found := ids.filterMap (communityOf? memberships)
  found.forM Value.hashable
  Value.sorted (distinct found)

/-! ## Analysis -/

structure ImpactQuery where
  depth : Value
  kinds : Value
  algorithm : Value
  /-- Communities of the same graph, when they are known already. -/
  known : Option (List Membership)

def ImpactQuery.default : ImpactQuery :=
  ⟨.int 3, .null, .str "louvain", none⟩

def ImpactQuery.memberships (q : ImpactQuery) (g : Graph) : Logged (List Membership) :=
  match q.known with
  | some memberships => return memberships
  | none => do
    return (← g.communities q.algorithm Graph.defaultRounds).map CodeCommunity.membership

/-- The communities of the nodes downstream, which are looked for only if there are any. -/
def ImpactQuery.affected (q : ImpactQuery) (g : Graph) (down : Impact.Reach g.order) :
    Logged (List Value) :=
  if down.isEmpty then return []
  else do communitiesOf (← q.memberships g) (Impact.reached true down)

def Impact.report (α : Type) [Scalar α] {n : Nat} (id depth : Value) (down up : Impact.Reach n)
    (affected : List Value) : Logged (ImpactIn α) := do
  Logged.debug "cpgscope.semantic.impact"
    s!"Impact of {id.text}: {down.length} downstream, {up.length} upstream"
    [("depth", depth), ("communities", .int affected.length)]
  return {
    node := id
    downstream := Impact.reached true down
    reaching := Impact.reached false up
    direct := Impact.directScore α down
    transitive := Impact.transitiveScore α down
    affected := affected }

/-- A depth as a number of steps; here there has to be one. -/
def impactDepth (order : Nat) (v : Value) : Except Failure Nat :=
  match budgetSteps true order v with
  | some steps => .ok steps
  | none => .error (.wrongType (.unordered ">=" "int" v.typeName))

/-- The impact of the node `id`, which `locate` finds. -/
def Graph.impactOf (α : Type) [Scalar α] (g : Graph) (id : Value)
    (locate : Except Failure (Fin g.order)) (q : ImpactQuery) : Logged (ImpactIn α) := do
  checkBudget "depth" q.depth
  let _ : CommunityAlgorithm ← Tagged.coerce q.algorithm
  let kinds ← KindFilter.read q.kinds
  let index ← g.index kinds.keeps
  let start ← locate
  let depth ← impactDepth g.order q.depth
  let down := Impact.reach index true start depth
  let up := Impact.reach index false start depth
  Impact.report α id q.depth down up (← q.affected g down)

def Graph.impactIn (α : Type) [Scalar α] (g : Graph) (id : Value) (q : ImpactQuery) :
    Logged (ImpactIn α) :=
  g.impactOf α id (g.find id) q

def Graph.impact (g : Graph) (id : Value) (q : ImpactQuery) : Logged Impact :=
  g.impactIn Float id q

end CodeGraph
