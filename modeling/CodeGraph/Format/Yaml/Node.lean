import CodeGraph.Format.Yaml.Lexer
import CodeGraph.Format.Yaml.Scalar

/-!
# Nodes of a YAML document

A document is one node: a scalar, a sequence or a mapping, each with a tag that
says what it stands for. A tag that is not written follows from the node. A node
with an anchor can be referred to further on, and stands there again.
-/

namespace CodeGraph.Yaml

inductive Node where
  | scalar (tag text : String)
  | sequence (tag : String) (items : List Node)
  | mapping (tag : String) (entries : List (Node × Node))

def Node.tag : Node → String
  | scalar tag _ => tag
  | sequence tag _ => tag
  | mapping tag _ => tag

def Node.empty : Node :=
  .scalar Tag.null ""

/-- What a document declares and what its anchors stand for; a node that is still being read is
absent. -/
structure Scope where
  handles : List (String × String)
  anchors : List (String × Option Node)

namespace Scope

def defaultHandles : List (String × String) :=
  [("!", "!"), ("!!", Tag.common)]

def initial : Scope := ⟨defaultHandles, []⟩

/-- The full text of a tag; an abbreviation has to be declared. -/
def expand (s : Scope) (name : TagName) : Reading String :=
  match name.handle with
  | none => .ok name.suffix
  | some handle =>
    match s.handles.lookup handle with
    | some expansion => .ok (expansion ++ name.suffix)
    | none => .error .malformed

/-- Announce an anchor; a name stands for one node only. -/
def announce (s : Scope) (anchor : Option String) : Reading Scope :=
  match anchor with
  | none => .ok s
  | some name =>
    if (s.anchors.lookup name).isSome then .error .malformed
    else .ok { s with anchors := (name, none) :: s.anchors }

def record (s : Scope) (anchor : Option String) (node : Node) : Scope :=
  match anchor with
  | none => s
  | some name => { s with anchors := (name, some node) :: s.anchors }

/-- The node that a name refers to, which has to be complete. -/
def resolve (s : Scope) (name : String) : Reading Node :=
  match s.anchors.lookup name with
  | some (some node) => .ok node
  | _ => .error .malformed

end Scope

namespace Node

/-! ## Properties -/

def properties (tokens : List Token) : Option String × Option TagName × List Token :=
  match tokens with
  | .anchor name :: .tag tag :: rest => (some name, some tag, rest)
  | .tag tag :: .anchor name :: rest => (some name, some tag, rest)
  | .anchor name :: rest => (some name, none, rest)
  | .tag tag :: rest => (none, some tag, rest)
  | rest => (none, none, rest)

/-- A tag that leaves it to the node to say what it is. -/
def isOpen (tag : Option String) : Bool :=
  tag.isNone || tag == some "!"

/-- The tag of a scalar: of one that is not written, what its text says; quoted texts are just
texts, unless the tag leaves it open. -/
def scalarTag (tag : Option String) (plain : Bool) (text : String) : String :=
  match tag with
  | none => if plain then Tag.ofPlain text else Tag.str
  | some "!" => Tag.ofPlain text
  | some tag => tag

def collectionTag (tag : Option String) (usual : String) : String :=
  if isOpen tag then usual else tag.getD usual

/-! ## Reading -/

/-- Between two entries in brackets there is a comma. -/
def afterComma (first : Bool) (tokens : List Token) : Reading (List Token) :=
  match first, tokens with
  | true, tokens => .ok tokens
  | false, .flowEntry :: rest => .ok rest
  | false, _ => .error .malformed

abbrev Parsed (α : Type) := α × Scope × List Token

mutual

/-- Read a node. Only in a block (`block`) can it be indented, and only as the key or the value
of a mapping (`aligned`) can it be a sequence that is not indented further. -/
def read (fuel : Nat) (block aligned : Bool) (s : Scope) (tokens : List Token) : Reading (Parsed Node) := do
  match fuel with
  | 0 => throw .malformed
  | fuel + 1 =>
    match tokens with
    | .reference name :: rest => return (← s.resolve name, s, rest)
    | tokens =>
      let (anchor, name, tokens) := properties tokens
      let tag ← name.mapM s.expand
      let s ← s.announce anchor
      let (node, s, rest) ←
        match tokens with
        | .scalar plain text :: rest => pure (Node.scalar (scalarTag tag plain text) text, s, rest)
        | .flowSequence :: rest => do
          let (items, s, rest) ← flowItems fuel true s rest
          pure (Node.sequence (collectionTag tag Tag.seq) items, s, rest)
        | .flowMapping :: rest => do
          let (entries, s, rest) ← flowEntries fuel true s rest
          pure (Node.mapping (collectionTag tag Tag.map) entries, s, rest)
        | .blockEntry :: rest =>
          if aligned then do
            let (items, s, rest) ← alignedItems fuel s (.blockEntry :: rest)
            pure (Node.sequence (collectionTag tag Tag.seq) items, s, rest)
          else absent anchor tag s (.blockEntry :: rest)
        | .blockSequence :: rest =>
          if block then do
            let (items, s, rest) ← blockItems fuel s rest
            pure (Node.sequence (collectionTag tag Tag.seq) items, s, rest)
          else absent anchor tag s (.blockSequence :: rest)
        | .blockMapping :: rest =>
          if block then do
            let (entries, s, rest) ← blockEntries fuel s rest
            pure (Node.mapping (collectionTag tag Tag.map) entries, s, rest)
          else absent anchor tag s (.blockMapping :: rest)
        | rest => absent anchor tag s rest
      return (node, s.record anchor node, rest)
where
  /-- A node of which nothing but its anchor or tag is written. -/
  absent (anchor tag : Option String) (s : Scope) (rest : List Token) : Reading (Parsed Node) :=
    if anchor.isNone && tag.isNone then .error .malformed
    else
      .ok (Node.scalar (if isOpen tag then Tag.null else tag.getD Tag.null) "", s, rest)

def blockItems (fuel : Nat) (s : Scope) (tokens : List Token) : Reading (Parsed (List Node)) := do
  match fuel with
  | 0 => throw .malformed
  | fuel + 1 =>
    match tokens with
    | .blockEnd :: rest => return ([], s, rest)
    | .blockEntry :: rest =>
      let (item, s, rest) ←
        match rest with
        | .blockEntry :: _ | .blockEnd :: _ => pure (Node.empty, s, rest)
        | _ => read fuel true false s rest
      let (items, s, rest) ← blockItems fuel s rest
      return (item :: items, s, rest)
    | _ => throw .malformed

/-- A sequence that is not indented ends with its last entry. -/
def alignedItems (fuel : Nat) (s : Scope) (tokens : List Token) : Reading (Parsed (List Node)) := do
  match fuel with
  | 0 => throw .malformed
  | fuel + 1 =>
    match tokens with
    | .blockEntry :: rest =>
      let (item, s, rest) ←
        match rest with
        | .blockEntry :: _ | .key :: _ | .value :: _ | .blockEnd :: _ => pure (Node.empty, s, rest)
        | _ => read fuel true false s rest
      let (items, s, rest) ← alignedItems fuel s rest
      return (item :: items, s, rest)
    | rest => return ([], s, rest)

def blockEntries (fuel : Nat) (s : Scope) (tokens : List Token) :
    Reading (Parsed (List (Node × Node))) := do
  match fuel with
  | 0 => throw .malformed
  | fuel + 1 =>
    match tokens with
    | .blockEnd :: rest => return ([], s, rest)
    | .key :: rest =>
      let (key, s, rest) ← blockPart fuel s rest
      let (value, s, rest) ←
        match rest with
        | .value :: rest => blockPart fuel s rest
        | rest => pure (Node.empty, s, rest)
      let (entries, s, rest) ← blockEntries fuel s rest
      return ((key, value) :: entries, s, rest)
    | _ => throw .malformed

def blockPart (fuel : Nat) (s : Scope) (tokens : List Token) : Reading (Parsed Node) := do
  match fuel with
  | 0 => throw .malformed
  | fuel + 1 =>
    match tokens with
    | .key :: _ | .value :: _ | .blockEnd :: _ => return (Node.empty, s, tokens)
    | _ => read fuel true true s tokens

/-- The items of a sequence in brackets; `first` says that no comma is due. -/
def flowItems (fuel : Nat) (first : Bool) (s : Scope) (tokens : List Token) :
    Reading (Parsed (List Node)) := do
  match fuel with
  | 0 => throw .malformed
  | fuel + 1 =>
    match tokens with
    | .flowSequenceEnd :: rest => return ([], s, rest)
    | tokens =>
      match ← afterComma first tokens with
      | .flowSequenceEnd :: rest => return ([], s, rest)
      | .key :: rest =>
        let (key, s, rest) ← flowPart fuel s rest
        let (value, s, rest) ←
          match rest with
          | .value :: rest => flowPart fuel s rest
          | rest => pure (Node.empty, s, rest)
        let (items, s, rest) ← flowItems fuel false s rest
        return (Node.mapping Tag.map [(key, value)] :: items, s, rest)
      | rest =>
        let (item, s, rest) ← read fuel false false s rest
        let (items, s, rest) ← flowItems fuel false s rest
        return (item :: items, s, rest)

/-- The entries of a mapping in brackets; one without a key mark is a key without a value. -/
def flowEntries (fuel : Nat) (first : Bool) (s : Scope) (tokens : List Token) :
    Reading (Parsed (List (Node × Node))) := do
  match fuel with
  | 0 => throw .malformed
  | fuel + 1 =>
    match tokens with
    | .flowMappingEnd :: rest => return ([], s, rest)
    | tokens =>
      match ← afterComma first tokens with
      | .flowMappingEnd :: rest => return ([], s, rest)
      | .key :: rest =>
        let (key, s, rest) ← flowPart fuel s rest
        let (value, s, rest) ←
          match rest with
          | .value :: rest => flowPart fuel s rest
          | rest => pure (Node.empty, s, rest)
        let (entries, s, rest) ← flowEntries fuel false s rest
        return ((key, value) :: entries, s, rest)
      | rest =>
        let (key, s, rest) ← read fuel false false s rest
        let (entries, s, rest) ← flowEntries fuel false s rest
        return ((key, Node.empty) :: entries, s, rest)

def flowPart (fuel : Nat) (s : Scope) (tokens : List Token) : Reading (Parsed Node) := do
  match fuel with
  | 0 => throw .malformed
  | fuel + 1 =>
    match tokens with
    | .value :: _ | .flowEntry :: _ | .flowSequenceEnd :: _ | .flowMappingEnd :: _ =>
      return (Node.empty, s, tokens)
    | _ => read fuel false false s tokens

end

/-! ## Documents -/

def declarations (version : Bool) (declared : List (String × String)) :
    List Token → Reading (List (String × String) × List Token)
  | .version major :: rest =>
    if version || major != 1 then .error .malformed else declarations true declared rest
  | .tagPrefix handle expansion :: rest =>
    if (declared.lookup handle).isSome then .error .malformed
    else declarations version ((handle, expansion) :: declared) rest
  | .reserved :: rest => declarations version declared rest
  | rest => .ok (declared, rest)

/-- The node of a document whose beginning is marked; it may be left out. -/
def content (fuel : Nat) (s : Scope) (tokens : List Token) : Reading (Parsed Node) :=
  match tokens with
  | .version _ :: _ | .tagPrefix _ _ :: _ | .reserved :: _ | .documentStart :: _
  | .documentEnd :: _ | .streamEnd :: _ => .ok (Node.empty, s, tokens)
  | tokens => read fuel true false s tokens

def isDocumentEnd : Token → Bool
  | .documentEnd => true
  | _ => false

/-- Nothing but marks for the end of the document may follow it. -/
def ended (tokens : List Token) : Reading Unit :=
  match tokens.dropWhile isDocumentEnd with
  | [.streamEnd] => .ok ()
  | _ => .error .malformed

/-- The one document of a text; an empty text has none. -/
def ofTokens (tokens : List Token) : Reading (Option Node) := do
  let fuel := 4 * tokens.length + 4
  match tokens with
  | [.streamEnd] => return none
  | .version _ :: _ | .tagPrefix _ _ :: _ | .reserved :: _ | .documentStart :: _ =>
    let (declared, rest) ← declarations false [] tokens
    match rest with
    | .documentStart :: rest =>
      let (node, _, rest) ← content fuel ⟨declared ++ Scope.defaultHandles, []⟩ rest
      ended rest
      return some node
    | _ => throw .malformed
  | tokens =>
    let (node, _, rest) ← read fuel true false .initial tokens
    ended rest
    return some node

end Node

end CodeGraph.Yaml
