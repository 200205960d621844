import CodeGraph.Centrality.Degree
import CodeGraph.Value.Sorting

/-!
# Statistics of scores

Extremes, mean and population deviation of a table of scores, and its highest
entries. A not-a-number score makes every figure not a number.
-/

namespace CodeGraph

structure Statistics where
  min : Float
  max : Float
  mean : Float
  deviation : Float
  count : Nat

namespace Statistics

def extreme (replaces : Float → Float → Bool) (xs : List Float) : Float :=
  match xs with
  | [] => 0
  | x :: rest =>
    rest.foldl
      (fun best y => if best.isNaN then best else if y.isNaN || replaces y best then y else best) x

def ofScores (xs : List Float) : Statistics :=
  if xs.isEmpty then ⟨0, 0, 0, 0, 0⟩
  else
    let size : Float := Scalar.ofNat xs.length
    let mean := Scalar.balancedSum xs / size
    let squares := xs.map fun x => (x - mean) * (x - mean)
    { min := extreme (fun y best => y < best) xs
      max := extreme (fun y best => best < y) xs
      mean := mean
      deviation := (Scalar.balancedSum squares / size).sqrt
      count := xs.length }

def toValue (s : Statistics) : Value :=
  .record [("min", .float s.min), ("max", .float s.max), ("mean", .float s.mean),
    ("stdev", .float s.deviation), ("count", .int s.count)]

end Statistics

/-- The first `limit` items; a negative limit leaves out that many at the end, and none
leaves out nothing. -/
def upTo {β : Type} (limit : Value) (items : List β) : Except Failure (List β) :=
  match limit with
  | .null => .ok items
  | v =>
    match v.asInt? with
    | some (.ofNat k) => .ok (items.take k)
    | some (.negSucc k) => .ok (items.take (items.length - (k + 1)))
    | none => .error (.wrongType (.notInteger v.typeName))

/-- Entries in falling order of their values, equal ones in the order of their keys. -/
def rankEntries (entries : Entries) : Except Failure Entries := do
  let keyed ← entries.mapM fun (key, v) => do
    return (Value.list [← v.negated, key], key, v)
  return (← Value.sortOn Prod.fst keyed).map Prod.snd

/-- The highest scores first, equal ones by identifier. -/
def topNodes (scores : Entries) (limit : Value) : Except Failure (List Value) := do
  let ranked ← rankEntries scores
  return (← upTo limit ranked).map fun (id, score) => .record [("node_id", id), ("score", score)]

/-! ## Scores given as data -/

/-- A score as a figure: one that is absent is not a number. -/
def figure : Value → Except Failure Float
  | .null => .ok (0 / 0)
  | .list _ => .error (.argument (.stated "setting an array element with a sequence."))
  | v => v.toDouble

/-- Statistics of a table of scores; nothing at all counts as an empty one. -/
def Statistics.read (scores : Value) : Except Failure Statistics := do
  if !scores.truthy then return .ofScores []
  let entries ← scores.entriesOr "values"
  return .ofScores (← entries.mapM fun entry => figure entry.2)

def readTopNodes (scores limit : Value) : Except Failure (List Value) := do
  topNodes (← scores.entriesOr "items") limit

end CodeGraph
