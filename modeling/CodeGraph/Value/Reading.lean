import CodeGraph.Value.Entries
import CodeGraph.Decimal.Reader

/-!
# Reading values

The conversions by which free-form data becomes numbers, lists and identifiers.
Each says what it accepts; anything else is a failure that names the shape.
-/

namespace CodeGraph.Value

/-- From this magnitude on, rounding to a double leads beyond all of them. -/
def beyondDoubles : Nat := Nat.pow 2 1024 - Nat.pow 2 970

/-- Integers beyond the range of doubles have no double. -/
def doubleOfInt (n : Int) : Except Failure Float :=
  if beyondDoubles ≤ n.natAbs then .error (.overflow "int too large to convert to float")
  else .ok (Decimal.ofInt n)

/-- A number, or a text that spells one. -/
def toDouble : Value → Except Failure Float
  | bool b => .ok (if b then 1 else 0)
  | int n => doubleOfInt n
  | float x => .ok x
  | str s =>
    match Decimal.readDouble s with
    | some x => .ok x
    | none => .error (.argument (.unreadableNumber s))
  | v => .error (.wrongType (.notReal v.typeName))

def toDouble? : Value → Except Failure (Option Float)
  | null => .ok none
  | v => v.toDouble.map some

/-- A number that takes part in an addition to a double. -/
def addend : Value → Except Failure Float
  | bool b => .ok (if b then 1 else 0)
  | int n => doubleOfInt n
  | float x => .ok x
  | v => .error (.wrongType (.operands "+" "float" v.typeName))

/-- The sum of two numbers: exact among integers, else that of doubles. -/
def plus (a b : Value) : Except Failure Value :=
  match a.asInt?, b.asInt? with
  | some m, some n => .ok (int (m + n))
  | _, _ =>
    match a.addend, b.addend with
    | .ok x, .ok y => .ok (float (x + y))
    | .error (.overflow message), .ok _ | .ok _, .error (.overflow message) =>
      .error (.overflow message)
    | _, _ => .error (.wrongType (.operands "+" a.typeName b.typeName))

def exact : Value → Except Failure Rat
  | bool b => .ok (if b then 1 else 0)
  | int n => .ok n
  | float x =>
    match Decimal.Binary.ofFloat x with
    | .finite d => .ok d.toRat
    | _ => .error (.overflow "not a finite number")
  | v => .error (.wrongType (.notReal v.typeName))

/-- What a listing goes through: items, keys, or the letters of a text. -/
def elements : Value → Except Failure (List Value)
  | list items => .ok items
  | str s => .ok ((Text.letters s).map str)
  | record fields => .ok (fields.map fun entry => str entry.1)
  | table entries => .ok (entries.map Prod.fst)
  | v => .error (.wrongType (.notIterable v.typeName))

/-- The entries of a mapping that a text can look up. -/
def textFields (entries : Entries) : Fields :=
  entries.filterMap fun
    | (str key, v) => some (key, v)
    | _ => none

/-- Fields of a mapping; anything else has no such member. -/
def fieldsOr (member : String) : Value → Except Failure Fields
  | record fields => .ok fields
  | table entries => .ok (textFields entries)
  | v => .error (.noMember v.typeName member)

def entriesOr (member : String) (v : Value) : Except Failure Entries :=
  match v.entries? with
  | some entries => .ok entries
  | none => .error (.noMember v.typeName member)

/-- A value fit to be looked up. -/
def hashable (v : Value) : Except Failure Unit :=
  if v.isScalar then .ok () else .error (.wrongType (.notHashable v.typeName))

/-- One entry of a table given as a list of pairs. -/
def toPair (position : Nat) (v : Value) : Except Failure (Value × Value) :=
  match v.elements with
  | .ok [key, value] => do
    key.hashable
    return (key, value)
  | .ok items => .error (.argument (.pairLength position items.length))
  | .error _ => .error (.wrongType (.pairShape position))

/-- A table: a mapping, or a list of pairs of which later ones win. -/
def toTable (v : Value) : Except Failure Entries :=
  match v.entries? with
  | some entries => .ok entries
  | none => do
    let items ← v.elements
    let pairs ← items.zipIdx.mapM fun (item, position) => toPair position item
    return Entries.update [] pairs

end CodeGraph.Value
