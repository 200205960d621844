import CodeGraph.Value.Reading

/-!
# Depth budgets

The number of edges that a search may go, or no bound at all. A budget given as
a fraction is rounded to whole steps: up where a search stops at the first
number of steps that is not below it, down where no path may be longer. One that
no number of steps exceeds is the number of nodes, which no simple path reaches.
-/

namespace CodeGraph

def checkBudget (name : String) (v : Value) : Except Failure Unit := do
  if v.isNull then return
  if ← v.lt (.int 0) then throw (.argument (.belowZero name v))

/-- The whole steps that a double amounts to, `none` when it is not finite. -/
def stepsOfFloat (up : Bool) (x : Float) : Option Nat :=
  match Decimal.Binary.ofFloat x with
  | .finite d =>
    if d.negative then some 0
    else
      let (num, den) := d.fraction
      some ((if up then num + den - 1 else num) / den)
  | _ => none

/-- A checked bound as a number of steps in a graph with `order` nodes; `none` for no bound. -/
def budgetSteps (up : Bool) (order : Nat) (v : Value) : Option Nat :=
  match v with
  | .null => none
  | .float x => some ((stepsOfFloat up x).getD order)
  | v => some ((v.asInt?.map Int.toNat).getD order)

end CodeGraph
