import CodeGraph.Value.Order

/-!
# Entries

Mappings whose keys are values. Two keys are one when they are the `same`, so
`1`, `1.0` and `true` share an entry; the key that came first is the one that
stays. A not-a-number is no key's equal, its own included.
-/

namespace CodeGraph.Entries

def get? (entries : Entries) (key : Value) : Option Value :=
  (entries.find? fun entry => entry.1.same key).map Prod.snd

def has (entries : Entries) (key : Value) : Bool :=
  (entries.get? key).isSome

def keys (entries : Entries) : List Value :=
  entries.map Prod.fst

/-- A known key keeps its spelling and its place, a new one goes last. -/
def put (key value : Value) : Entries → Entries
  | [] => [(key, value)]
  | (k, v) :: rest => if k.same key then (k, value) :: rest else (k, v) :: put key value rest

def update (base changes : Entries) : Entries :=
  changes.foldl (fun entries entry => put entry.1 entry.2 entries) base

end CodeGraph.Entries
