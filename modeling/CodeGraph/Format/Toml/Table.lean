import CodeGraph.Value

/-!
# Tables of TOML

A document is a table of tables and values. A key may be set once and a table may
be defined once, by a header or by dotted keys; being part of the name of another
does not define a table. Values that are written out, inline tables and arrays
among them, are closed: nothing can be added to them. Where a path goes through
an array of tables, it means the last one.
-/

namespace CodeGraph.Toml

/-- A key, with the tables that lead to it. -/
structure Key where
  parents : List String
  name : String

namespace Key

def path (key : Key) : List String :=
  key.parents ++ [key.name]

def under (part : String) (key : Key) : Key :=
  { key with parents := part :: key.parents }

end Key

/-! ## Changing a table -/

/-- Change the table at a path, opening those on the way that are missing. -/
def updateAt (change : Fields → Option Fields) : List String → Fields → Option Fields
  | [], fields => change fields
  | key :: rest, fields =>
    match fields.get? key with
    | none => (updateAt change rest []).map fun inner => fields ++ [(key, .record inner)]
    | some (.record inner) =>
      (updateAt change rest inner).map fun inner => fields.put key (.record inner)
    | some (.list tables) =>
      match tables.getLast? with
      | some (.record inner) =>
        (updateAt change rest inner).map fun inner =>
          fields.put key (.list (tables.dropLast ++ [.record inner]))
      | _ => none
    | some _ => none

def setNew (key : String) (v : Value) (fields : Fields) : Option Fields :=
  if fields.has key then none else some (fields ++ [(key, v)])

/-- Add a table to an array of tables, which may have to be opened. -/
def addTable (key : String) (fields : Fields) : Option Fields :=
  match fields.get? key with
  | none => some (fields ++ [(key, .list [.record []])])
  | some (.list tables) => some (fields.put key (.list (tables ++ [.record []])))
  | some _ => none

/-! ## Documents -/

def isCompound : Value → Bool
  | .record _ | .list _ => true
  | _ => false

structure Document where
  content : Fields
  /-- The table that keys go to. -/
  table : List String
  /-- Tables that are defined and cannot be opened again. -/
  defined : List (List String)
  /-- Tables that dotted keys define; they are open up to the next header. -/
  pending : List (List String)
  /-- Inline tables and arrays. -/
  closed : List (List String)

namespace Document

def empty : Document := ⟨[], [], [], [], []⟩

/-- Whether a path leads to a closed value or into one. -/
def isClosed (d : Document) (path : List String) : Bool :=
  d.closed.any fun outer => outer.isPrefixOf path

/-- A header ends the section in which dotted keys may return to the tables they define. -/
def endSection (d : Document) : Document :=
  { d with defined := d.defined ++ d.pending, pending := [] }

def openTable (d : Document) (key : Key) : Option Document :=
  let d := d.endSection
  if d.defined.contains key.path || d.isClosed key.path then none
  else
    (updateAt some key.path d.content).map fun content =>
      { d with content := content, table := key.path, defined := d.defined ++ [key.path] }

/-- Go on in a new table of an array of tables. Nothing in it is defined or closed yet. -/
def openNext (d : Document) (key : Key) : Option Document :=
  let d := d.endSection
  let elsewhere := fun path => !key.path.isPrefixOf path
  if d.isClosed key.path then none
  else
    (updateAt (addTable key.name) key.parents d.content).map fun content =>
      { d with
        content := content
        table := key.path
        defined := d.defined.filter elsewhere ++ [key.path]
        closed := d.closed.filter elsewhere }

/-- Set a key. The tables that lead to it may be neither closed nor defined in another section. -/
def assign (d : Document) (key : Key) (v : Value) : Option Document :=
  let passed := (List.range key.parents.length).map fun k => d.table ++ key.parents.take (k + 1)
  let parents := d.table ++ key.parents
  if passed.any d.defined.contains || d.isClosed parents then none
  else
    (updateAt (setNew key.name v) parents d.content).map fun content =>
      { d with
        content := content
        pending := d.pending ++ passed
        closed := if isCompound v then d.closed ++ [parents ++ [key.name]] else d.closed }

end Document

end CodeGraph.Toml
