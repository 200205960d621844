/-!
# Values

Free-form data: what a graph description, a configuration document or a log
field may hold. A record keeps its fields in arrival order, because that order
is visible wherever a record is listed, and looks a key up by its first
occurrence. Nearly all mappings have texts for keys; one that does not is a
`table`, and `Value.mapping` decides which of the two it takes. Integers and
doubles are separate constructors: `1` and `1.0` are the same number
(`Value.same`, in `CodeGraph.Value.Order`) but different texts.

Two limits that an interpreter sets are left out. Integers may have any number of
digits where they are written; only documents keep to `Decimal.digitLimit` digits
when they are read. And values nest to any depth, where a stack would end the
recursion.
-/

namespace CodeGraph

inductive Value where
  | null
  | bool (b : Bool)
  | int (n : Int)
  | float (x : Float)
  | str (s : String)
  | list (items : List Value)
  | record (fields : List (String × Value))
  /-- A mapping of which some key is not a text. -/
  | table (entries : List (Value × Value))
deriving Inhabited, Repr

/-- Named values in arrival order. -/
abbrev Fields := List (String × Value)

/-- Values under keys of any sort, in arrival order. -/
abbrev Entries := List (Value × Value)

namespace Fields

def get? (fields : Fields) (key : String) : Option Value :=
  fields.lookup key

/-- The value under `key`, `null` when there is none. -/
def get (fields : Fields) (key : String) : Value :=
  (fields.get? key).getD .null

def has (fields : Fields) (key : String) : Bool :=
  (fields.get? key).isSome

def keys (fields : Fields) : List String :=
  fields.map Prod.fst

/-- A known key keeps its place, a new one goes last. -/
def put (key : String) (value : Value) : Fields → Fields
  | [] => [(key, value)]
  | (k, v) :: rest => if k == key then (k, value) :: rest else (k, v) :: put key value rest

def update (base changes : Fields) : Fields :=
  changes.foldl (fun fields entry => put entry.1 entry.2 fields) base

def without (fields : Fields) (names : List String) : Fields :=
  fields.filter fun entry => !names.contains entry.1

def entries (fields : Fields) : Entries :=
  fields.map fun (key, v) => (.str key, v)

end Fields

namespace Value

/-- The name by which messages refer to the shape of a value. -/
def typeName : Value → String
  | null => "NoneType"
  | bool _ => "bool"
  | int _ => "int"
  | float _ => "float"
  | str _ => "str"
  | list _ => "list"
  | record _ => "dict"
  | table _ => "dict"

def isNull : Value → Bool
  | null => true
  | _ => false

/-- Absent, false, zero and empty values do not count as given. -/
def truthy : Value → Bool
  | null => false
  | bool b => b
  | int n => n != 0
  | float x => x != 0
  | str s => s != ""
  | list items => !items.isEmpty
  | record fields => !fields.isEmpty
  | table entries => !entries.isEmpty

/-- Lists and mappings cannot serve as identifiers. -/
def isScalar : Value → Bool
  | list _ => false
  | record _ => false
  | table _ => false
  | _ => true

def ofOption : Option Value → Value
  | none => null
  | some v => v

/-- The fields of entries that all have texts for keys. -/
def textKeyed? (entries : Entries) : Option Fields :=
  entries.mapM fun
    | (str key, v) => some (key, v)
    | _ => none

def mapping (entries : Entries) : Value :=
  match textKeyed? entries with
  | some fields => record fields
  | none => table entries

def entries? : Value → Option Entries
  | record fields => some (Fields.entries fields)
  | table entries => some entries
  | _ => none

def strings (items : List String) : Value :=
  list (items.map str)

end Value

end CodeGraph
