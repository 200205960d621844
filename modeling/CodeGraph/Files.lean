import CodeGraph.Failure

/-!
# Files

A tree of files below a root directory. A location is made of the names on the way
down from the root. A path is what callers give: it may step upwards, and it may
lead out of the tree, where nothing but directories above it is known.

A path is followed name by name, and every name but the last has to be that of a
directory.
-/

namespace CodeGraph

/-- Names on the way from the root to a file or directory. -/
abbrev Location := List String

namespace Location

/-- A location and those above it, up to the root. -/
def upwards (location : Location) : List Location :=
  (List.range (location.length + 1)).reverse.map location.take

end Location

inductive Entry where
  | file (bytes : ByteArray)
  | directory

structure Files where
  /-- The path by which the root directory is written. -/
  root : String
  entries : List (Location × Entry)

namespace Files

/-! ## Paths -/

structure Path where
  /-- The slashes that a path out of the tree begins with; absent when it begins at the root. -/
  outside : Option String
  names : List String

namespace Path

/-- The names in a text; empty ones and single points do not count. -/
def namesIn (text : String) : List String :=
  (text.splitOn "/").filter fun name => name != "" && name != "."

def ofLocation (location : Location) : Path :=
  ⟨none, location⟩

def name (path : Path) : String :=
  path.names.getLastD ""

def below (path : Path) (location : Location) : Path :=
  { path with names := path.names ++ location }

def parent (path : Path) : Path :=
  { path with names := path.names.dropLast }

/-- The part of a name from its last point on, unless the name begins or ends there. -/
def suffix (path : Path) : String :=
  let cs := path.name.toList
  let extension := (cs.reverse.takeWhile (· != '.')).reverse
  if extension.isEmpty || cs.length ≤ extension.length + 1 then ""
  else String.ofList ('.' :: extension)

end Path

/-- The path that a text names, seen from the root. A text that begins with the root's own path
is taken from there, and any other that begins with a slash leads out of the tree. -/
def path (files : Files) (text : String) : Path :=
  if text == files.root then ⟨none, []⟩
  else if (files.root ++ "/").toList.isPrefixOf text.toList then
    ⟨none, Path.namesIn (String.ofList (text.toList.drop (files.root.length + 1)))⟩
  else
    match (text.toList.takeWhile (· == '/')).length with
    | 0 => ⟨none, Path.namesIn text⟩
    | 2 => ⟨some "//", Path.namesIn text⟩
    | _ => ⟨some "/", Path.namesIn text⟩

def shown (files : Files) (path : Path) : String :=
  match path.outside with
  | none => "/".intercalate (files.root :: path.names)
  | some slashes => slashes ++ "/".intercalate path.names

/-! ## Looking up -/

/-- What is at a location; directories are there when anything lies below them. -/
def at? (files : Files) (location : Location) : Option Entry :=
  match files.entries.find? fun entry => entry.1 == location with
  | some (_, entry) => some entry
  | none =>
    if location.isEmpty || files.entries.any fun entry => location.isPrefixOf entry.1 then
      some .directory
    else none

inductive Spot where
  | inside (location : Location)
  /-- A directory that is not part of the tree. -/
  | elsewhere
deriving DecidableEq

def nameLimit : Nat := 255

def isTooLong (name : String) : Bool :=
  nameLimit < ((Text.bytes? name).map List.length).getD 0

/-- Go on from a spot, which has to be a directory. -/
def step (files : Files) (spot : Spot) (name : String) : Except FileProblem Spot :=
  match spot with
  | .elsewhere =>
    if name == ".." then .ok .elsewhere
    else if isTooLong name then .error .nameTooLong
    else .error .missing
  | .inside location =>
    match files.at? location with
    | none => .error .missing
    | some (.file _) => .error .notDirectory
    | some .directory =>
      if name == ".." then .ok (if location.isEmpty then .elsewhere else .inside location.dropLast)
      else if isTooLong name then .error .nameTooLong
      else .ok (.inside (location ++ [name]))

/-- Follow a path; what it ends in need not be there. -/
def follow (files : Files) (path : Path) : Except FileProblem Spot := do
  if path.names.any fun name => (Text.bytes? name).isNone then throw .unencodable
  path.names.foldlM files.step (if path.outside.isNone then .inside [] else .elsewhere)

def lookup (files : Files) (path : Path) : Except FileProblem Entry := do
  match ← files.follow path with
  | .elsewhere => return .directory
  | .inside location =>
    match files.at? location with
    | some entry => return entry
    | none => throw .missing

/-- Where a path leads by its names alone, whatever is there. -/
def resolve (path : Path) : Spot :=
  path.names.foldl
    (fun spot name =>
      match spot with
      | .elsewhere => .elsewhere
      | .inside location =>
        if name != ".." then .inside (location ++ [name])
        else if location.isEmpty then .elsewhere
        else .inside location.dropLast)
    (if path.outside.isNone then .inside [] else .elsewhere)

def checkDirectory (files : Files) (path : Path) : Except Failure Unit :=
  match files.lookup path with
  | .ok .directory => .ok ()
  | .ok (.file _) => .error (.file .notDirectory (files.shown path))
  | .error problem => .error (.file problem (files.shown path))

/-! ## Making -/

def put (files : Files) (location : Location) (entry : Entry) : Files :=
  if files.entries.any fun known => known.1 == location then
    { files with
      entries := files.entries.map fun known =>
        if known.1 == location then (location, entry) else known }
  else { files with entries := files.entries ++ [(location, entry)] }

def makeChild (files : Files) (path : Path) : Except FileProblem Files := do
  match ← files.follow path with
  | .elsewhere => throw .alreadyThere
  | .inside location =>
    match files.at? location with
    | some _ => throw .alreadyThere
    | none => return files.put location .directory

/-- Make a directory with all those above it; one that is there already will do. `depth` bounds
the number of directories to make. -/
def makeDirectory (files : Files) (path : Path) (depth : Nat) : Except Failure Files :=
  let refuse (problem : FileProblem) : Except Failure Files :=
    .error (.file problem (files.shown path))
  let settle (files : Files) (problem : FileProblem) : Except Failure Files :=
    match files.lookup path with
    | .ok .directory => .ok files
    | _ => refuse problem
  match files.makeChild path with
  | .ok files => .ok files
  | .error .missing =>
    match depth with
    | 0 => refuse .missing
    | depth + 1 => do
      let files ← files.makeDirectory path.parent depth
      match files.makeChild path with
      | .ok files => .ok files
      | .error problem => settle files problem
  | .error problem => settle files problem

/-- Open a file for writing at its end; it comes into being, with the directories above it, if it
is not there. A file out of the tree is opened, but not kept. -/
def openForAppend (files : Files) (path : Path) : Except Failure (Files × Spot) := do
  let files ← files.makeDirectory path.parent path.names.length
  let spot := resolve path
  match spot with
  | .elsewhere => return (files, spot)
  | .inside location =>
    match files.lookup (.ofLocation location) with
    | .ok .directory => throw (.file .isDirectory (files.shown path))
    | .ok (.file _) => return (files, spot)
    | .error .missing => return (files.put location (.file .empty), spot)
    | .error problem => throw (.file problem (files.shown path))

def append (files : Files) (location : Location) (bytes : ByteArray) : Files :=
  match files.at? location with
  | some (.file before) => files.put location (.file (before ++ bytes))
  | _ => files.put location (.file bytes)

/-! ## Texts -/

/-- Every line break becomes a single line feed. -/
def plainBreaks : List Char → List Char
  | [] => []
  | '\r' :: '\n' :: rest => '\n' :: plainBreaks rest
  | '\r' :: rest => '\n' :: plainBreaks rest
  | c :: rest => c :: plainBreaks rest

def decode (bytes : ByteArray) : Except Failure String :=
  match String.fromUTF8? bytes with
  | some s => .ok (Text.ofChars (plainBreaks s.toList))
  | none => .error .malformedText

/-- The bytes that stand for a text; surrogates have none. -/
def encode? (text : String) : Option ByteArray :=
  (Text.chars? text).map fun cs => (String.ofList cs).toUTF8

end Files

/-! ## Questions about files -/

/-- What a system answers when it is asked about files. It may fail to answer. -/
structure Disk where
  /-- A path as it is written. -/
  shown : Files.Path → String
  isFile : Files.Path → Except Failure Bool
  /-- Whether a path leads to anything. -/
  leads : Files.Path → Except Failure Bool
  /-- The bytes of a file, or why they cannot be read. -/
  bytes : Files.Path → Except String ByteArray

namespace Files

/-- An answer about what is at a path: nothing is there if it cannot be followed, but a name that
is too long cannot be asked for. -/
def ask (files : Files) (path : Path) (question : Entry → Bool) : Except Failure Bool :=
  match files.lookup path with
  | .ok entry => .ok (question entry)
  | .error .nameTooLong => .error (.file .nameTooLong (files.shown path))
  | .error _ => .ok false

def bytesAt (files : Files) (path : Path) : Except String ByteArray :=
  match files.lookup path with
  | .ok (.file bytes) => .ok bytes
  | .ok .directory => .error (FileProblem.isDirectory.message (files.shown path))
  | .error problem => .error (problem.message (files.shown path))

def disk (files : Files) : Disk where
  shown := files.shown
  isFile path := files.ask path fun entry =>
    match entry with
    | .file _ => true
    | .directory => false
  leads path := files.ask path fun _ => true
  bytes := files.bytesAt

end Files

end CodeGraph
