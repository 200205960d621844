import CodeGraph.Format.Yaml.Node
import CodeGraph.Value.Sorting

/-!
# YAML documents

What the nodes of a document stand for. Mappings may take on the entries of
others, keys may be any scalars, and of equal keys the last value counts.

Collections are filled level by level, from the outside to the inside. When a
document holds several things that have no value, the one that comes to light
first in this order is the document's fault.

Values have no place for dates, which become texts, nor for binary data and nodes
that contain themselves, which are refused. The digits of an integer are limited,
the depth of a document is not.
-/

namespace CodeGraph.Yaml

/-! ## Merging -/

mutual

/-- The entries that a mapping takes on, and its own. A mark for the value of a mapping is a
text where it is a key. -/
def taken : List (Node × Node) → Reading (List (Node × Node) × List (Node × Node))
  | [] => .ok ([], [])
  | (key, value) :: rest =>
    if key.tag == Tag.merge then do
      let found ← source value
      let (merged, own) ← taken rest
      return (found ++ merged, own)
    else do
      let (merged, own) ← taken rest
      return (merged, (asText key, value) :: own)
where
  asText : Node → Node
    | .scalar tag text => .scalar (if tag == Tag.value then Tag.str else tag) text
    | key => key

/-- What a mapping takes on: the entries of another, or of several, of which the first wins. -/
def source : Node → Reading (List (Node × Node))
  | .mapping _ entries => do
    let (merged, own) ← taken entries
    return merged ++ own
  | .sequence _ items => do return (← sources items).reverse.flatten
  | .scalar _ _ => .error .malformed

def sources : List Node → Reading (List (List (Node × Node)))
  | [] => .ok []
  | .mapping _ entries :: rest => do
    let (merged, own) ← taken entries
    return (merged ++ own) :: (← sources rest)
  | _ :: _ => .error .malformed

end

/-- The entries of a mapping, those that it takes on first. -/
def allEntries (entries : List (Node × Node)) : Reading (List (Node × Node)) := do
  let (merged, own) ← taken entries
  return merged ++ own

/-! ## Scalars -/

mutual

/-- The text that a node is read from as a scalar: a mapping may have one marked as its value. -/
def scalarText : Node → Reading String
  | .scalar _ text => .ok text
  | .mapping _ entries => markedText entries
  | .sequence _ _ => .error .malformed

def markedText : List (Node × Node) → Reading String
  | [] => .error .malformed
  | (key, value) :: rest => if key.tag == Tag.value then scalarText value else markedText rest

end

/-! ## Values -/

/-- The value of a node and the faults below it, each with the level at which it shows. -/
structure Built where
  value : Value
  faults : List (Nat × Fault)

def Built.ofReading (level : Nat) : Reading Value → Built
  | .ok v => ⟨v, []⟩
  | .error fault => ⟨.null, [(level, fault)]⟩

def Built.fault? (b : Built) : Option Fault :=
  let first := b.faults.foldl
    (fun best fault =>
      match best with
      | none => some fault
      | some known => if fault.1 < known.1 then some fault else some known)
    none
  first.map Prod.snd

def isNan : Value → Bool
  | .float x => x.isNaN
  | _ => false

/-- Set the value of a key. A key that came before keeps its spelling; here all that are not a
number are one. -/
def putEntry (key value : Value) : Entries → Entries
  | [] => [(key, value)]
  | (k, v) :: rest =>
    if k.same key || (isNan k && isNan key) then (k, value) :: rest
    else (k, v) :: putEntry key value rest

mutual

def Node.depth : Node → Nat
  | .scalar _ _ => 0
  | .sequence _ items => depthOfItems items + 1
  | .mapping _ entries => depthOfEntries entries + 1

def Node.depthOfItems : List Node → Nat
  | [] => 0
  | item :: rest => max item.depth (depthOfItems rest)

def Node.depthOfEntries : List (Node × Node) → Nat
  | [] => 0
  | (key, value) :: rest => max (max key.depth value.depth) (depthOfEntries rest)

end

structure BuiltEntries where
  entries : Entries
  faults : List (Nat × Fault)

/-- Build the entries of a mapping at a level; a key has to be a scalar. -/
def buildEntries (build : Nat → Node → Built) (level : Nat) (entries : List (Node × Node)) :
    BuiltEntries :=
  entries.foldl
    (fun built (key, value) =>
      let key := build level key
      let value := build level value
      let hashed := if key.value.isScalar then [] else [(level, Fault.malformed)]
      ⟨putEntry key.value value.value built.entries,
        built.faults ++ key.faults ++ hashed ++ value.faults⟩)
    ⟨[], []⟩

def onlyEntry? : Node → Option (Node × Node)
  | .mapping _ [entry] => some entry
  | _ => none

/-- Build the items of a list of pairs, each of which is a mapping with one entry. -/
def buildPairs (build : Nat → Node → Built) (level : Nat) (items : List Node) : Built :=
  let pairs := items.map fun item =>
    match onlyEntry? item with
    | none => ⟨.null, [(level, .malformed)]⟩
    | some (key, value) =>
      let key := build level key
      let value := build level value
      (⟨.list [key.value, value.value], key.faults ++ value.faults⟩ : Built)
  ⟨.list (pairs.map Built.value), pairs.flatMap Built.faults⟩

/-- Build a collection by its tag, its content a level below. -/
def buildCollection (build : Nat → Node → Built) (level : Nat) (node : Node) : Built :=
  let malformed : Built := ⟨.list [], [(level + 1, .malformed)]⟩
  let withEntries (entries : List (Node × Node)) (f : Entries → Value) : Built :=
    match allEntries entries with
    | .error fault => ⟨.list [], [(level + 1, fault)]⟩
    | .ok entries =>
      let built := buildEntries build (level + 1) entries
      ⟨f built.entries, built.faults⟩
  let tag := node.tag
  match node with
  | .sequence _ items =>
    if tag == Tag.seq then
      let items := items.map (build (level + 1))
      ⟨.list (items.map Built.value), items.flatMap Built.faults⟩
    else if tag == Tag.orderedMap || tag == Tag.pairs then buildPairs build (level + 1) items
    else malformed
  | .mapping _ entries =>
    if tag == Tag.map then withEntries entries Value.mapping
    else if tag == Tag.set then
      withEntries entries fun entries =>
        .list ((Value.sorted entries.keys).toOption.getD entries.keys)
    else malformed
  | .scalar _ _ => malformed

def collectionTags : List String :=
  [Tag.seq, Tag.map, Tag.set, Tag.orderedMap, Tag.pairs]

/-- Build a node at a level; `fuel` bounds the depth. -/
def build (fuel level : Nat) (node : Node) : Built :=
  match fuel with
  | 0 => ⟨.null, [(level, .malformed)]⟩
  | fuel + 1 =>
    match scalarReader? node.tag with
    | some read => .ofReading level (do read (← scalarText node))
    | none =>
      if collectionTags.contains node.tag then buildCollection (build fuel) level node
      else ⟨.null, [(level, .malformed)]⟩

/-- The value of a document; an empty text stands for nothing. -/
def read (text : String) : Reading Value := do
  match ← Node.ofTokens (← tokens text) with
  | none => return .null
  | some node =>
    let built := build (node.depth + 1) 0 node
    match built.fault? with
    | some fault => throw fault
    | none => return built.value

end CodeGraph.Yaml
