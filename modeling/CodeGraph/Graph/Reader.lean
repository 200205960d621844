import CodeGraph.Graph

/-!
# Reading graph descriptions

A description lists its nodes, or maps identifiers to them, and lists its edges.
Nodes are read before edges, each in order, and the first fault ends the
reading: an entry of the wrong shape, a missing or repeated identifier, an
unknown kind of edge, or a number that does not read as one.
-/

namespace CodeGraph

def NodeMetadata.keys : List String :=
  ["line", "complexity_score", "node_category"]

/-- A single category may stand without a list. -/
def readCategories : Value → Except Failure (List Value)
  | .null => .ok []
  | .str s => .ok [.str s]
  | v => v.elements

def NodeMetadata.read (data : Value) : Except Failure NodeMetadata := do
  if !data.truthy then return .empty
  let fields ← data.fieldsOr "get"
  let categories ← readCategories (fields.get "node_category")
  let complexity ← (fields.get "complexity_score").toDouble?
  return ⟨fields.get "line", complexity, categories, fields.without NodeMetadata.keys⟩

def EdgeMetadata.keys : List String :=
  ["weight_hint", "weight"]

/-- A weight may come under either of two keys; the first named wins, even when it is null. -/
def EdgeMetadata.read (data : Value) : Except Failure EdgeMetadata := do
  if !data.truthy then return .empty
  let fields ← data.fieldsOr "get"
  let hint ← ((fields.get? "weight_hint").getD (fields.get "weight")).toDouble?
  return ⟨hint, fields.without EdgeMetadata.keys⟩

def Node.readFields (fields : Fields) : Except Failure Node := do
  let id ←
    match fields.get? "id" with
    | some id => .ok id
    | none => .error (.missingKey (.str "id"))
  let metadata ← NodeMetadata.read (fields.get "metadata")
  return ⟨id, (fields.get? "ast_kind").getD (.str "unknown"), fields.get "source_ref", metadata⟩

def Node.read : Value → Except Failure Node
  | .record fields => Node.readFields fields
  | v => .error (.wrongType (.notSubscriptable v.typeName))

/-- Kinds of edges are spelled exactly. -/
def EdgeKind.read (v : Value) : Except Failure EdgeKind :=
  let found : Option EdgeKind :=
    match v with
    | .str s => Tagged.ofTag? s
    | _ => none
  match found with
  | some kind => .ok kind
  | none => .error (.unsupportedKind v (Tagged.tags EdgeKind))

/-- An edge without an identifier is named after its position and its ends. -/
def Edge.nameAt (index source target : Value) : Value :=
  .str s!"edge_{index.text}_{source.text}_{target.text}"

def Edge.read (data index : Value) : Except Failure Edge := do
  let fields ← data.fieldsOr "get"
  let source := (fields.get? "from_node_id").getD (fields.get "from")
  let target := (fields.get? "to_node_id").getD (fields.get "to")
  let given := fields.get "id"
  let id := if given.truthy then given else Edge.nameAt index source target
  let kind ← EdgeKind.read ((fields.get? "kind").getD (Tagged.value EdgeKind.astStructural))
  let metadata ← EdgeMetadata.read (fields.get "metadata")
  return ⟨id, source, target, kind, fields.get "subkind", metadata⟩

/-! ## Whole graphs -/

/-- Node descriptions in order; a mapping gives each its key for identifier, which the
description may override. -/
def nodeEntries : Value → Except Failure (List Value)
  | .record fields =>
    fields.mapM fun
      | (key, .record node) => .ok (.record (Fields.update [("id", .str key)] node))
      | (_, v) => .error (.wrongType (.notMapping v.typeName))
  | v => v.elements

/-- Put a node behind those `seen` so far, refusing a repeated identifier. -/
def appendNode (seen : List Node) (node : Node) : Except Failure (List Node) := do
  node.id.hashable
  if seen.any fun other => other.id.same node.id then
    throw (.argument (.duplicateNode node.id))
  return seen ++ [node]

def readNodes (seen : List Node) : List Value → Except Failure (List Node)
  | [] => .ok seen
  | entry :: rest => do
    let node ← Node.read entry
    let seen ← appendNode seen node
    readNodes seen rest

def readEdges (index : Nat) : List Value → Except Failure (List Edge)
  | [] => .ok []
  | entry :: rest => do
    let edge ← Edge.read entry (.int index)
    return edge :: (← readEdges (index + 1) rest)

def reservedMetadata : List String :=
  ["cls", "nodes", "edges"]

def checkMetadata (fields : Fields) : Except Failure Fields :=
  match fields.keys.find? reservedMetadata.contains with
  | some name => .error (.wrongType (.repeatedArgument name))
  | none => .ok fields

def readMetadata : Value → Except Failure Fields
  | .record fields => checkMetadata fields
  | v => .error (.wrongType (.notMapping v.typeName))

def Graph.ofParts (nodes : List Node) (edges : List Edge) (metadata : Value) :
    Except Failure Graph := do
  let metadata ← readMetadata metadata
  let nodes ← nodes.foldlM appendNode []
  return ⟨nodes, edges, [], metadata⟩

def Graph.read (data : Value) : Except Failure Graph := do
  let fields ← data.fieldsOr "get"
  let nodeData ← nodeEntries ((fields.get? "nodes").getD (.list []))
  let edgeData ← ((fields.get? "edges").getD (.list [])).elements
  let metadata ← readMetadata ((fields.get? "metadata").getD (.record []))
  let nodes ← readNodes [] nodeData
  let edges ← readEdges 0 edgeData
  let cache := fields.get "result_cache"
  let cache ← if cache.truthy then cache.toTable else .ok []
  return ⟨nodes, edges, cache, metadata⟩

end CodeGraph
