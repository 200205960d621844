import CodeGraph.Centrality.Degree

/-!
# PageRank

The stationary distribution of a walk that follows a random leaving arc with
probability `damping` and otherwise jumps anywhere. A vertex without leaving arcs
spreads its rank over all vertices, so the ranks keep summing to one. Iteration
stops when the total change falls below a tolerance or the rounds are used up.
-/

namespace CodeGraph

namespace PageRank

variable {n : Nat} {α : Type} [Scalar α]

/-- What a vertex sends along each of its leaving arcs. -/
def share (index : Index n) (ranks : Table n α) (v : Fin n) : α :=
  let degree := (index.out v).length
  ranks.get v / (if degree = 0 then 1 else Scalar.ofNat degree)

def flow (index : Index n) (ranks : Table n α) (v : Fin n) : α :=
  Scalar.sum ((index.into v).map fun arc => share index ranks arc.source)

def strandedRank (index : Index n) (ranks : Table n α) : α :=
  Scalar.balancedSum (((List.finRange n).filter fun v => (index.out v).isEmpty).map ranks.get)

def update (index : Index n) (damping : α) (ranks : Table n α) : Table n α :=
  let size : α := Scalar.ofNat n
  let stranded := strandedRank index ranks
  Vector.ofFn fun v =>
    damping * (flow index ranks v + stranded / size) + (1 - damping) / size

def change (before after : Table n α) : α :=
  Scalar.balancedSum ((List.finRange n).map fun v => Scalar.abs (after.get v - before.get v))

structure Outcome (n : Nat) (α : Type) where
  ranks : Table n α
  rounds : Nat
  change : α

/-- At least one round, and at most `left` more after it. -/
def rounds (index : Index n) (damping : α) (tolerance : Float) :
    Nat → Nat → Table n α → Outcome n α
  | left, done, ranks =>
    let updated := update index damping ranks
    let moved := change ranks updated
    match left with
    | 0 => ⟨updated, done + 1, moved⟩
    | left + 1 =>
      if Scalar.below moved tolerance then ⟨updated, done + 1, moved⟩
      else rounds index damping tolerance left (done + 1) updated

def uniform (n : Nat) (α : Type) [Scalar α] : Table n α :=
  Vector.replicate n (1 / Scalar.ofNat n)

/-- The ranks after at most `maxRounds` rounds, of which there is at least one. -/
def run (index : Index n) (damping : α) (tolerance : Float) (maxRounds : Nat) : Outcome n α :=
  rounds index damping tolerance (maxRounds - 1) 0 (uniform n α)

/-- Settings as given, each converted when the computation first needs it. -/
structure Settings where
  damping : Value
  maxIterations : Value
  tolerance : Value

def Settings.default : Settings :=
  ⟨.float 0.85, .int 100, .float 1e-6⟩

def Settings.readDamping (s : Settings) : Except Failure Float := do
  if (← (Value.float 0).le s.damping) && (← s.damping.le (.float 1)) then s.damping.toDouble
  else throw (.argument (.dampingOutside s.damping))

def Settings.checkIterations (s : Settings) : Except Failure Unit := do
  if ← s.maxIterations.lt (.int 1) then
    throw (.argument (.belowOne "max_iterations" s.maxIterations))

def Settings.roundLimit (s : Settings) : Except Failure Nat :=
  match s.maxIterations.asInt? with
  | some n => .ok n.toNat
  | none => .error (.wrongType (.notInteger s.maxIterations.typeName))

/-- The tolerance as a double; integers beyond the range stand for an infinite one. -/
def Settings.readTolerance (s : Settings) : Except Failure Float :=
  match s.tolerance with
  | .float x => .ok x
  | v =>
    match v.asInt? with
    | some n => .ok (Decimal.ofInt n)
    | none => .error (.wrongType (.unordered "<" "float" v.typeName))

end PageRank

namespace Graph

def pagerankIn (α : Type) [Scalar α] (g : Graph) (settings : PageRank.Settings) :
    Logged (Scores α) := do
  let damping ← settings.readDamping
  settings.checkIterations
  let index ← g.index keepAll
  if g.order = 0 then return []
  let limit ← settings.roundLimit
  let tolerance ← settings.readTolerance
  let outcome : PageRank.Outcome g.order α :=
    PageRank.run index (Scalar.ofFloat damping) tolerance limit
  Logged.debug "cpgscope.algorithms.centrality"
    s!"PageRank finished after {outcome.rounds} iterations"
    [("l1_change", .float (Scalar.toFloat outcome.change)),
      ("converged", .bool (Scalar.below outcome.change tolerance))]
  return g.score outcome.ranks.get

def pagerank (g : Graph) (settings : PageRank.Settings) : Logged (Scores Float) :=
  g.pagerankIn Float settings

end Graph

end CodeGraph
