import CodeGraph.Tag

/-!
# Architectural smells

A finding names a smell, the nodes concerned, the figures that gave it away and
what to do about it. Cycles have no severity: a cycle is a structural fact.
-/

namespace CodeGraph

inductive Severity where
  | critical
  | high
  | medium
  | low
  | info
deriving DecidableEq, Repr

instance : Tagged Severity where
  choices := [.critical, .high, .medium, .low, .info]
  tag
    | .critical => "critical"
    | .high => "high"
    | .medium => "medium"
    | .low => "low"
    | .info => "info"

inductive Smell where
  | godObject
  | cyclicDependencies
  | shotgunSurgery
deriving DecidableEq, Repr

instance : Tagged Smell where
  choices := [.godObject, .cyclicDependencies, .shotgunSurgery]
  tag
    | .godObject => "god_object"
    | .cyclicDependencies => "cyclic_dependencies"
    | .shotgunSurgery => "shotgun_surgery"

/-- The name under which findings and records refer to the detector of a smell. -/
def Smell.detector : Smell → String
  | .godObject => "GodObjectDetector"
  | .cyclicDependencies => "CyclicDependencyDetector"
  | .shotgunSurgery => "ShotgunSurgeryDetector"

structure Finding where
  smell : Smell
  title : String
  description : String
  node : Value := .null
  cycle : List Value := []
  severity : Option Severity := none
  evidence : Value
  fix : Option String := none
  effort : Option String := none

def Finding.toValue (f : Finding) : Value :=
  .record [("smell", Tagged.value f.smell), ("detector", .str f.smell.detector),
    ("title", .str f.title), ("description", .str f.description), ("node_id", f.node),
    ("nodes_in_cycle", .list f.cycle), ("cycle_size", .int f.cycle.length),
    ("severity", .ofOption (f.severity.map Tagged.value)), ("evidence", f.evidence),
    ("suggested_fix", .ofOption (f.fix.map Value.str)),
    ("estimated_effort", .ofOption (f.effort.map Value.str))]

end CodeGraph
