import CodeGraph.Failure

/-!
# Equality and order of values

Numbers are compared by exact value across integers, doubles and truth values
(`true` is one); texts by code point; lists item by item. Mappings are equal
when they hold equal values under equal keys, in any order, and have no order.
Values of other shapes cannot be put in order, which is a failure and not an
answer.
-/

namespace CodeGraph.Value

/-- How two numbers, texts or lists stand; a not-a-number stands in no relation to anything. -/
inductive Relation where
  | less
  | equal
  | greater
  | unordered
deriving DecidableEq, Repr

def Relation.ofOrdering : Ordering → Relation
  | .lt => .less
  | .eq => .equal
  | .gt => .greater

def Relation.flip : Relation → Relation
  | .less => .greater
  | .greater => .less
  | r => r

/-- Truth values count as zero and one. -/
def asInt? : Value → Option Int
  | bool b => some (if b then 1 else 0)
  | int n => some n
  | _ => none

def relateFloats (x y : Float) : Relation :=
  if x < y then .less else if y < x then .greater else if x == y then .equal else .unordered

def relateIntFloat (n : Int) (x : Float) : Relation :=
  match Decimal.Binary.ofFloat x with
  | .nan => .unordered
  | .infinite negative => if negative then .greater else .less
  | .finite d => if (n : Rat) < d.toRat then .less else if d.toRat < (n : Rat) then .greater else .equal

/-- The relation of two numbers, `none` when one of the values is not a number. -/
def relateNumbers? (a b : Value) : Option Relation :=
  match a, b with
  | float x, float y => some (relateFloats x y)
  | float x, b => b.asInt?.map fun n => (relateIntFloat n x).flip
  | a, float y => a.asInt?.map fun n => relateIntFloat n y
  | a, b => do return Relation.ofOrdering (compare (← a.asInt?) (← b.asInt?))

mutual

/-- Equality of data: numbers by value, mappings up to the order of their entries. -/
def same : Value → Value → Bool
  | null, null => true
  | str s, str t => s == t
  | list xs, list ys => sameItems xs ys
  | record xs, record ys => xs.length == ys.length && sameFields xs ys
  | table xs, table ys => xs.length == ys.length && sameEntries xs ys
  | a, b => relateNumbers? a b == some .equal

def sameItems : List Value → List Value → Bool
  | [], [] => true
  | x :: xs, y :: ys => same x y && sameItems xs ys
  | _, _ => false

def sameFields : List (String × Value) → List (String × Value) → Bool
  | [], _ => true
  | (key, x) :: rest, ys =>
    (match Fields.get? ys key with
      | some y => same x y
      | none => false) && sameFields rest ys

def sameEntries : List (Value × Value) → List (Value × Value) → Bool
  | [], _ => true
  | (key, x) :: rest, ys =>
    (ys.any fun entry => same key entry.1 && same x entry.2) && sameEntries rest ys

end

mutual

/-- Answers `none` when the shapes have no order between them. -/
def relate? : Value → Value → Option Relation
  | str s, str t => some (Relation.ofOrdering (compare s t))
  | list xs, list ys => relateItems? xs ys
  | a, b => relateNumbers? a b

/-- The first items that differ decide; a list that ends first comes first. -/
def relateItems? : List Value → List Value → Option Relation
  | [], [] => some .equal
  | [], _ :: _ => some .less
  | _ :: _, [] => some .greater
  | x :: xs, y :: ys => if same x y then relateItems? xs ys else relate? x y

end

mutual

/-- The parts of two values on which their comparison fails: in lists, the first items that
differ. -/
def clash : Value → Value → Value × Value
  | list xs, list ys => clashItems xs ys
  | a, b => (a, b)

def clashItems : List Value → List Value → Value × Value
  | x :: xs, y :: ys => if same x y then clashItems xs ys else clash x y
  | xs, ys => (list xs, list ys)

end

/-- Ask for a relation, failing when there is none; `symbol` is how the question was written. -/
def relation (symbol : String) (a b : Value) : Except Failure Relation :=
  match relate? a b with
  | some r => .ok r
  | none =>
    let (x, y) := clash a b
    .error (.wrongType (.unordered symbol x.typeName y.typeName))

def lt (a b : Value) : Except Failure Bool :=
  (relation "<" a b).map (· == .less)

def gt (a b : Value) : Except Failure Bool :=
  (relation ">" a b).map (· == .greater)

def le (a b : Value) : Except Failure Bool :=
  (relation "<=" a b).map fun r => r == .less || r == .equal

/-- Membership up to `same`. -/
def isAmong (a : Value) (items : List Value) : Bool :=
  items.any (same a ·)

end CodeGraph.Value
