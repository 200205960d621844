import CodeGraph.Value.Reading
import CodeGraph.Runs

/-!
# Sorting by values

`sortOn` sorts stably by a key. Among texts, among numbers, and among lists that
hold such keys place by place, any two keys have an order, and the order alone
decides the outcome. Where keys are of mixed sorts, or not a number, the outcome
is that of sorting by natural runs, which fails on the first pair it meets that
has no order.
-/

namespace CodeGraph.Value

def isText : Value → Bool
  | str _ => true
  | _ => false

def isOrderedNumber : Value → Bool
  | bool _ => true
  | int _ => true
  | float x => !x.isNaN
  | _ => false

/-- Keys of one sort, of which any two have an order. -/
def alike (keys : List Value) : Bool :=
  keys.all isText || keys.all isOrderedNumber

/-- Rows of one length with alike keys in every place. -/
def alikeRows : Nat → List (List Value) → Bool
  | 0, rows => rows.all List.isEmpty
  | width + 1, rows =>
    alike (rows.filterMap List.head?) && rows.all (fun row => !row.isEmpty) &&
      alikeRows width (rows.map List.tail)

def items? : Value → Option (List Value)
  | list items => some items
  | _ => none

/-- Keys of which any two have an order, by their sorts alone. -/
def orderly (keys : List Value) : Bool :=
  alike keys ||
    match keys.mapM items? with
    | some (row :: rows) => alikeRows row.length (row :: rows)
    | _ => false

/-- Whether a key may stand before another. -/
def before (a b : Value) : Bool :=
  relate? a b != some .greater

/-- Whether a key has to stand before another. -/
def precedes (a b : Value) : Bool :=
  relate? a b == some .less

def sortOn {β : Type} (key : β → Value) (items : List β) : Except Failure (List β) :=
  if orderly (items.map key) then .ok (items.mergeSort fun a b => before (key a) (key b))
  else Runs.sort (fun a b => (key a).lt (key b)) items

def sorted (items : List Value) : Except Failure (List Value) :=
  sortOn id items

def withoutRepeats : List Value → List Value
  | [] => []
  | v :: rest => v :: (withoutRepeats rest).filter fun w => !v.same w

/-- The given names that are not among the known ones, each once and in order. -/
def unknownNames (known : List String) (given : List Value) : Except Failure (List String) := do
  given.forM hashable
  let unknown := given.filter fun v => !v.isAmong (known.map str)
  texts (← sorted (withoutRepeats unknown))

/-- The first of the least values. -/
def least : List Value → Except Failure Value
  | [] => .error (.argument (.stated "min() arg is an empty sequence"))
  | a :: rest => rest.foldlM (fun best b => do return if ← b.lt best then b else best) a

def negated : Value → Except Failure Value
  | bool b => .ok (int (if b then -1 else 0))
  | int n => .ok (int (-n))
  | float x => .ok (float (-x))
  | v => .error (.wrongType (.notSigned v.typeName))

end CodeGraph.Value
