import CodeGraph.Component
import CodeGraph.Smell
import CodeGraph.Smell.Thresholds

/-!
# Cyclic dependencies

Two or more nodes that depend on each other in a circle, over the edges of the
kinds that count for cycles.
-/

namespace CodeGraph.Cycle

def membersShown : Nat := 5

def preview (members : List String) : String :=
  let named := " -> ".intercalate (members.take membersShown)
  if membersShown < members.length then s!"{named} ... ({members.length} nodes total)" else named

def advice (size : Nat) : String :=
  if 5 ≤ size then
    "Large circular dependency detected. Consider:\n" ++
      "1. Extract shared interfaces/types into a separate module\n" ++
      "2. Use dependency injection to break tight coupling\n" ++
      "3. Refactor into layers with clear dependency direction\n" ++
      "4. Apply the Dependency Inversion Principle"
  else
    "Small circular dependency. Consider:\n" ++
      "1. Merge the circular modules if they're tightly coupled\n" ++
      "2. Extract common dependencies to a third module\n" ++
      "3. Replace one direction of the call with a callback or event"

def effort (size : Nat) : String :=
  if 10 ≤ size then "Large (2-4 days)"
  else if 5 ≤ size then "Medium (1-2 days)"
  else "Small (2-4 hours)"

def finding (cycle : List Value) : Except Failure Finding := do
  let members ← Value.sorted cycle
  let named ← Value.texts (members.take membersShown)
  let size := members.length
  let rest := (members.drop membersShown).map Value.text
  return {
    smell := .cyclicDependencies
    title := s!"Circular dependency involving {size} nodes"
    description := s!"Found circular dependency chain: {preview (named ++ rest)}"
    cycle := members
    evidence := .record [("cycle_length", .int size)]
    fix := some (advice size)
    effort := some (effort size) }

def leastSize : Value := .int 2

/-- One finding for each cycle, larger ones first. -/
def detect (g : Graph) (t : Thresholds) : Logged (List Finding) := do
  let cycles ← g.cyclicComponents leastSize t.cycleEdgeKinds
  let findings ← cycles.mapM fun cycle => (finding cycle : Except Failure Finding)
  Logged.debug "cpgscope.detectors.cyclic_dependency"
    s!"CyclicDependencyDetector found {findings.length} cycles" []
  return findings

end CodeGraph.Cycle
