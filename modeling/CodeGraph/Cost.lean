import CodeGraph.Graph.Index
import CodeGraph.Scalar

/-!
# Semantic costs

A cost model says what it means in code to traverse an edge: a cost for the
edge's refinement, and a penalty for every category of the node it lands on. An
edge without a configured cost takes the weight its builder suggested, or one.
Goals name ready-made models.
-/

namespace CodeGraph

/-- Costs by edge refinement and penalties by node category, as numbers of either sort. -/
structure CostModel where
  penalties : Fields
  costs : Fields

namespace CostModel

def neutral : CostModel := ⟨[], []⟩

/-- Read a table of numbers; an absent one is empty. -/
def readTable (v : Value) : Except Failure Fields :=
  if v.truthy then do
    let fields ← v.fieldsOr "items"
    fields.mapM fun (key, x) => do return (key, .float (← x.toDouble))
  else .ok []

def readTables (fields : Fields) : Except Failure CostModel := do
  return ⟨← readTable (fields.get "node_type_penalties"), ← readTable (fields.get "edge_type_costs")⟩

def wrapper : String := "weights"

def occursIn (word : List Char) : List Char → Bool
  | [] => word.isEmpty
  | c :: rest => word.isPrefixOf (c :: rest) || occursIn word rest

mutual

/-- Nothing is the neutral model; a record holds two tables, or a model under `weights`. -/
def read : Value → Except Failure CostModel
  | .null => .ok neutral
  | .record fields => (readWrapped fields).getD (readTables fields)
  | .list items =>
    if (Value.str wrapper).isAmong items then .error (.wrongType (.notSubscriptable "list"))
    else .error (.noMember "list" "get")
  | .str s =>
    if occursIn wrapper.toList s.toList then .error (.wrongType (.notSubscriptable "str"))
    else .error (.noMember "str" "get")
  | v => .error (.wrongType (.notIterable v.typeName))

def readWrapped : List (String × Value) → Option (Except Failure CostModel)
  | [] => none
  | (key, v) :: rest => if key == wrapper then some (read v) else readWrapped rest

end

end CostModel

/-! ## Goals -/

/-- What an analysis is for, with the costs that serve it. -/
structure CostContext where
  goal : Value
  model : CostModel

def numbers (entries : List (String × Float)) : Fields :=
  entries.map fun (key, x) => (key, .float x)

def goalModels : List (String × CostModel) :=
  [("performance",
      ⟨numbers [("io_operation", 5), ("db_operation", 8), ("network_operation", 6), ("computation", 2)],
       numbers [("direct_call", 1), ("dynamic_call", 2), ("message_send", 3), ("loop_back", 4)]⟩),
    ("security",
      ⟨numbers [("external_input", 8), ("db_operation", 5), ("file_operation", 4), ("io_operation", 3)],
       numbers [("parameter", 2), ("return_value", 1.5), ("assignment", 1)]⟩),
    ("maintainability",
      ⟨numbers [("high_complexity", 4), ("side_effect", 2)],
       numbers [("dynamic_call", 3), ("direct_call", 1)]⟩)]

def goalModel? : Value → Option CostModel
  | .str goal => goalModels.lookup goal
  | _ => none

/-- The context of a goal; an unknown one has neutral costs. -/
def CostContext.forGoal (goal : Value) : Except Failure CostContext := do
  goal.hashable
  return ⟨goal, (goalModel? goal).getD .neutral⟩

def CostContext.general : CostContext :=
  ⟨.str "general", .neutral⟩

def CostContext.toValue (c : CostContext) : Value :=
  .record [("goal", c.goal), ("node_type_penalties", .record c.model.penalties),
    ("edge_type_costs", .record c.model.costs)]

/-! ## The cost of an edge

Costs are added as they are given: integers exactly, and as doubles from the
first double on. `Priced` reads them as numbers of some sort. -/

/-- The parts of an edge's cost: the refinement whose cost applies, if any, that cost or the
default, and the penalties of the categories it lands on, each category once. -/
structure Breakdown where
  matched : Option String
  base : Value
  penalties : Fields

def Breakdown.total (b : Breakdown) : Except Failure Value := do
  let penalties ← b.penalties.foldlM (fun sum entry => sum.plus entry.2) (.int 0)
  b.base.plus penalties

/-- Numbers in which costs can be counted. -/
class Priced (α : Type) extends Scalar α where
  /-- A part of a cost as it adds to others. -/
  part : Value → Except Failure α
  /-- The whole cost of an edge. -/
  whole : Breakdown → Except Failure α

instance : Priced Float where
  part := Value.addend
  whole b := do (← b.total).addend

/-- Without rounding, every part counts with its exact value. -/
instance : Priced Rat where
  part := Value.exact
  whole b := do
    let penalties ← b.penalties.mapM fun entry => entry.2.exact
    return (← b.base.exact) + Scalar.sum penalties

namespace CostModel

/-- The cost of an edge for which neither the model nor the builder has one. -/
def defaultCost : Float := 1

def match? (m : CostModel) (e : Edge) : Except Failure (Option (String × Value)) := do
  e.subkind.hashable
  match e.subkind with
  | .str subkind => return (m.costs.get? subkind).map (subkind, ·)
  | _ => return none

def penaltiesOf (m : CostModel) : List Value → Fields → Except Failure Fields
  | [], found => .ok found
  | category :: rest, found => do
    category.hashable
    match category with
    | .str name =>
      match m.penalties.get? name with
      | some penalty => m.penaltiesOf rest (found.put name penalty)
      | none => m.penaltiesOf rest found
    | _ => m.penaltiesOf rest found

def breakdown (m : CostModel) (g : Graph) (e : Edge) : Except Failure Breakdown := do
  e.target.hashable
  match g.vertex? e.target with
  | none => throw (← Failure.ofDangling [e.id])
  | some v =>
    let matched ← m.match? e
    let base :=
      match matched with
      | some (_, cost) => cost
      | none => .float (e.metadata.weightHint.getD defaultCost)
    let penalties ← m.penaltiesOf (g.nodeAt v).metadata.categories []
    return ⟨matched.map Prod.fst, base, penalties⟩

def edgeCost (m : CostModel) (g : Graph) (e : Edge) : Except Failure Value := do
  (← m.breakdown g e).total

end CostModel

end CodeGraph
