import CodeGraph.Value.Sorting

/-!
# Detection thresholds

When a smell is reported and how severe it is. Thresholds are kept as they are
given; comparing a figure with one that is no number fails then.
-/

namespace CodeGraph

structure Thresholds where
  degreeHigh : Value := .float 0.8
  degreeMedium : Value := .float 0.5
  betweennessHigh : Value := .float 0.7
  betweennessMedium : Value := .float 0.5
  communitySpread : Value := .int 2
  fanout : Value := .int 5
  impactDepth : Value := .int 3
  /-- Kinds of edges that make up cycles, absent for all kinds. -/
  cycleEdgeKinds : Value := .null

namespace Thresholds

def toFields (t : Thresholds) : Fields :=
  [("degree_high", t.degreeHigh), ("degree_medium", t.degreeMedium),
    ("betweenness_high", t.betweennessHigh), ("betweenness_medium", t.betweennessMedium),
    ("community_spread", t.communitySpread), ("fanout", t.fanout),
    ("impact_depth", t.impactDepth), ("cycle_edge_kinds", t.cycleEdgeKinds)]

def toValue (t : Thresholds) : Value :=
  .record t.toFields

def names : List String :=
  (toFields {}).keys

/-- Thresholds from fields, defaults where a field is missing. -/
def ofFields (fields : Fields) : Thresholds :=
  let get (name : String) (default : Value) := (fields.get? name).getD default
  let d : Thresholds := {}
  { degreeHigh := get "degree_high" d.degreeHigh
    degreeMedium := get "degree_medium" d.degreeMedium
    betweennessHigh := get "betweenness_high" d.betweennessHigh
    betweennessMedium := get "betweenness_medium" d.betweennessMedium
    communitySpread := get "community_spread" d.communitySpread
    fanout := get "fanout" d.fanout
    impactDepth := get "impact_depth" d.impactDepth
    cycleEdgeKinds := get "cycle_edge_kinds" d.cycleEdgeKinds }

def checkNames (given : List Value) : Except Failure Unit := do
  let unknown ← Value.unknownNames names given
  if !unknown.isEmpty then throw (.argument (.unknownThresholds unknown))

/-- The kinds of edges, when given, as a list of items. -/
def listKinds (v : Value) : Except Failure Value :=
  if v.isNull then .ok v else v.elements.map Value.list

def read (v : Value) : Except Failure Thresholds := do
  if !v.truthy then return {}
  checkNames (← v.elements)
  let t := ofFields (Value.textFields (← v.toTable))
  return { t with cycleEdgeKinds := ← listKinds t.cycleEdgeKinds }

end Thresholds

end CodeGraph
