import CodeGraph.Tag

/-!
# Code property graphs

A graph is a snapshot: nodes in a fixed order under distinct identifiers, and
edges in a fixed order, which is the order in which every traversal meets them.
Identifiers, kinds of syntax and annotations are free-form data; the kinds of
edges are a closed choice. The engine reads snapshots and never changes them.
-/

namespace CodeGraph

/-- The relationship layers overlaid in one graph. -/
inductive EdgeKind where
  | callGraph
  | dataFlow
  | controlFlow
  | moduleDependency
  | astStructural
  | reference
deriving DecidableEq, Repr

instance : Tagged EdgeKind where
  choices := [.callGraph, .dataFlow, .controlFlow, .moduleDependency, .astStructural, .reference]
  tag
    | .callGraph => "call_graph"
    | .dataFlow => "data_flow"
    | .controlFlow => "control_flow"
    | .moduleDependency => "module_dependency"
    | .astStructural => "ast_structural"
    | .reference => "reference"

/-- What is known about a node besides its identity; `extra` is passed through unread. -/
structure NodeMetadata where
  line : Value
  complexity : Option Float
  categories : List Value
  extra : Fields
deriving Inhabited

def NodeMetadata.empty : NodeMetadata := ⟨.null, none, [], []⟩

structure Node where
  id : Value
  kind : Value
  sourceRef : Value
  metadata : NodeMetadata
deriving Inhabited

/-- What is known about an edge; a builder may suggest a weight. -/
structure EdgeMetadata where
  weightHint : Option Float
  extra : Fields
deriving Inhabited

def EdgeMetadata.empty : EdgeMetadata := ⟨none, []⟩

structure Edge where
  id : Value
  source : Value
  target : Value
  kind : EdgeKind
  subkind : Value
  metadata : EdgeMetadata

def Edge.isSelfLoop (e : Edge) : Bool :=
  e.source.same e.target

structure Graph where
  nodes : List Node
  edges : List Edge
  /-- Results that a caller attached; never read. -/
  cache : Entries
  metadata : Fields

/-! ## Graphs as data -/

/-- The annotations that have fields of their own; what is absent is left out. -/
def NodeMetadata.known (m : NodeMetadata) : Fields :=
  (if m.line.isNull then [] else [("line", m.line)]) ++
    (match m.complexity with
      | none => []
      | some x => [("complexity_score", .float x)]) ++
    (if m.categories.isEmpty then [] else [("node_category", .list m.categories)])

def NodeMetadata.toFields (m : NodeMetadata) : Fields :=
  m.extra ++ m.known

def Node.toValue (node : Node) : Value :=
  .record [("id", node.id), ("ast_kind", node.kind), ("source_ref", node.sourceRef),
    ("metadata", .record node.metadata.toFields)]

def EdgeMetadata.known (m : EdgeMetadata) : Fields :=
  match m.weightHint with
  | none => []
  | some x => [("weight_hint", .float x)]

def EdgeMetadata.toFields (m : EdgeMetadata) : Fields :=
  m.extra ++ m.known

def Edge.toValue (e : Edge) : Value :=
  .record [("id", e.id), ("from_node_id", e.source), ("to_node_id", e.target),
    ("kind", Tagged.value e.kind), ("subkind", e.subkind),
    ("metadata", .record e.metadata.toFields)]

def Graph.toFields (g : Graph) : Fields :=
  [("nodes", .list (g.nodes.map Node.toValue)), ("edges", .list (g.edges.map Edge.toValue)),
    ("metadata", .record g.metadata)]

def Graph.toValue (g : Graph) : Value :=
  .record g.toFields

end CodeGraph
