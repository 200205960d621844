import CodeGraph.Community.Louvain
import CodeGraph.Community.Propagation
import CodeGraph.Centrality.Statistics

/-!
# Code communities

A community of closely related code is described by the kinds of its members:
how many there are of each, the commonest first and equal ones by name.
-/

namespace CodeGraph

inductive CommunityAlgorithm where
  | louvain
  | labelPropagation
deriving DecidableEq, Repr

instance : Tagged CommunityAlgorithm where
  choices := [.louvain, .labelPropagation]
  tag
    | .louvain => "louvain"
    | .labelPropagation => "label_propagation"

structure CodeCommunity where
  id : Value
  members : List Value
  kinds : List Value
  description : String

namespace CodeCommunity

def size (c : CodeCommunity) : Nat :=
  c.members.length

def toFields (c : CodeCommunity) : Fields :=
  [("community_id", c.id), ("member_nodes", .list c.members),
    ("dominant_node_types", .list c.kinds), ("description_summary", .str c.description)]

def toValue (c : CodeCommunity) : Value :=
  .record c.toFields

end CodeCommunity

/-! ## Description -/

/-- Readable words for the common kinds; other kinds stand for themselves. -/
def kindNouns : List (String × String) :=
  [("function_def", "function"), ("method_def", "method"), ("module_def", "module"),
    ("class_def", "class"), ("call_site", "call site"), ("variable", "variable"),
    ("parameter", "parameter"), ("literal", "literal"), ("block", "block"),
    ("statement", "statement"), ("expression", "expression")]

def nounOf : Value → Value
  | .str kind => .str ((kindNouns.lookup kind).getD kind)
  | v => v

def pluralOf (noun : String) : String :=
  if ["s", "x", "ch", "sh"].any (fun ending => noun.endsWith ending) then noun ++ "es" else noun ++ "s"

/-- Only a text has a plural. -/
def plural : Value → Except Failure String
  | .str noun => .ok (pluralOf noun)
  | v => .error (.noMember v.typeName "endswith")

def describeKind (kind count : Value) : Except Failure String := do
  let noun := nounOf kind
  let word ← if count.same (.int 1) then .ok noun.text else plural noun
  return s!"{count.text} {word}"

/-- Kinds with their counts, the commonest first. -/
def describeRanked (ranked : Entries) : Except Failure String := do
  let parts ← ranked.mapM fun (kind, count) => describeKind kind count
  match ranked with
  | [] => throw .outOfRange
  | (kind, _) :: _ => return s!"{listing parts}; dominated by {kind.text}"

/-- Kinds with their counts, or the kinds themselves, to be counted. -/
def readCounts : Value → Except Failure Entries
  | .null => .ok []
  | v =>
    match v.entries? with
    | some counts => .ok counts
    | none => do
      let kinds ← v.elements
      kinds.forM Value.hashable
      return tallyEntries (tally kinds)

def describeCommunity (counts : Value) : Except Failure String := do
  describeRanked (← rankEntries (← readCounts counts))

/-! ## Identification -/

namespace Graph

def describeGroup (g : Graph) (id : Nat) (group : List (Fin g.order)) :
    Except Failure CodeCommunity := do
  let kinds := group.map fun v => (g.nodeAt v).kind
  kinds.forM Value.hashable
  let ranked ← rankEntries (tallyEntries (tally kinds))
  let description ← describeRanked ranked
  return ⟨.int id, g.names group, ranked.map Prod.fst, description⟩

def groups (g : Graph) (algorithm : CommunityAlgorithm) (maxRounds : Value) :
    Logged (List (List (Fin g.order))) :=
  match algorithm with
  | .louvain => g.louvain
  | .labelPropagation => g.labelPropagation maxRounds

def defaultRounds : Value := .int 100

/-- Communities numbered in order of their least member. -/
def communities (g : Graph) (algorithm maxRounds : Value) : Logged (List CodeCommunity) := do
  let algorithm : CommunityAlgorithm ← Tagged.coerce algorithm
  let groups ← g.groups algorithm maxRounds
  let communities ← groups.zipIdx.mapM fun (group, id) =>
    (g.describeGroup id group : Except Failure CodeCommunity)
  Logged.debug "cpgscope.semantic.communities"
    s!"Identified {communities.length} code communities"
    [("algorithm", Tagged.value algorithm), ("nodes", .int g.nodes.length)]
  return communities

end Graph

end CodeGraph
