import CodeGraph.Config.Merge
import CodeGraph.Files
import CodeGraph.Format.Json
import CodeGraph.Format.Toml
import CodeGraph.Format.Yaml
import CodeGraph.Journal
import CodeGraph.Text.Case

/-!
# Loading a configuration

A configuration comes from a file, which is named or looked for, with variables
of the environment laid over its logging section. A search goes from a directory
up to the root and ends in the home directory.

What files there are, and what documents say, is asked of others: of a `Disk`, and
of `Readers`. They may answer as they like, or not at all.
-/

namespace CodeGraph.Config

def logger : String := "cpgscope.config"

/-- The names of configuration files, in order of preference. -/
def fileNames : List String :=
  [".cpgscoperc", "cpgscope.toml"]

def homePlaces : List Location :=
  [[".cpgscoperc"], [".config", "cpgscope.toml"]]

/-- The directories that a search goes through: none when it starts out of the tree. -/
def searched : Files.Spot → List Location
  | .inside start => start.upwards
  | .elsewhere => []

def places (start : Files.Spot) : List Files.Path :=
  (searched start).flatMap fun directory =>
    fileNames.map fun name => .ofLocation (directory ++ [name])

/-- The first place where there is a file: in a directory, above it, or else at home. -/
def findFile? (disk : Disk) (home : Except Failure Files.Path) (start : Except Failure Files.Spot) :
    Except Failure (Option Files.Path) := do
  match ← (places (← start)).findM? disk.isFile with
  | some path => return some path
  | none => (homePlaces.map (← home).below).findM? disk.isFile

def find (disk : Disk) (home : Except Failure Files.Path) (start : Except Failure Files.Spot) :
    Logged (Option Files.Path) := do
  match ← findFile? disk home start with
  | some path =>
    Logged.info logger s!"Found config file: {disk.shown path}" []
    return some path
  | none =>
    Logged.debug logger "No config file found" []
    return none

/-! ## Files -/

/-- How the text of a document is read in each format. The top of a TOML document is a table. -/
structure Readers where
  toml : String → Reading Fields
  json : String → Reading Value
  yaml : String → Reading Value

def Readers.standard : Readers :=
  ⟨Toml.read, Json.read, Yaml.read⟩

/-- Documents that say nothing stand for no fields. -/
def orEmpty (v : Value) : Value :=
  if v.truthy then v else .record []

def takeToml (path : String) (said : Reading Fields) : Logged Value := do
  match said with
  | .error .malformed => throw (.config (.malformedToml path))
  | .error (.failure cause) => throw cause
  | .ok fields =>
    Logged.debug logger s!"Loaded TOML config from {path}" []
    return .record fields

def takeJson (path : String) (said : Reading Value) : Logged Value := do
  match said with
  | .error .malformed => throw (.config (.malformedJson path))
  | .error (.failure cause) => throw cause
  | .ok v =>
    Logged.debug logger s!"Loaded JSON config from {path}" []
    return orEmpty v

/-- A YAML document has to be a mapping, or say nothing at all. -/
def takeYaml (path : String) (said : Reading Value) : Logged Value := do
  match said with
  | .error .malformed => throw (.config (.malformedYaml path))
  | .error (.failure cause) => throw cause
  | .ok v =>
    if v.isNull || v.entries?.isSome then loaded v
    else throw (.config (.documentNotMapping path))
where
  loaded (v : Value) : Logged Value := do
    Logged.debug logger s!"Loaded YAML config from {path}" []
    return orEmpty v

inductive Format where
  | toml
  | json
  | yaml
deriving DecidableEq

def format? (path : Files.Path) : Option Format :=
  if path.suffix == ".toml" then some .toml
  else if path.suffix == ".json" then some .json
  else if path.name == ".cpgscoperc" || [".yaml", ".yml"].contains path.suffix then some .yaml
  else none

def readDocument (readers : Readers) (path : Files.Path) (shown text : String) : Logged Value :=
  match format? path with
  | some .toml => takeToml shown (readers.toml text)
  | some .json => takeJson shown (readers.json text)
  | some .yaml => takeYaml shown (readers.yaml text)
  | none => throw (.config (.unsupportedFormat shown))

def fileText (disk : Disk) (path : Files.Path) : Except Failure String := do
  if !(← disk.leads path) then throw (.config (.fileMissing (disk.shown path)))
  match disk.bytes path with
  | .error reason => throw (.config (.fileUnreadable (disk.shown path) reason))
  | .ok bytes => Files.decode bytes

def loadFile (disk : Disk) (readers : Readers) (path : Files.Path) : Logged Value := do
  readDocument readers path (disk.shown path) (← fileText disk path)

/-! ## The environment -/

def given? (env : Variables) (name : String) : Option String :=
  (env.lookup name).filter (· != "")

def loggingFields (env : Variables) : Fields :=
  let entry (key : String) (v : Option String) : Fields :=
    match v with
    | some s => [(key, .str s)]
    | none => []
  entry "level" ((given? env "CPGSCOPE_LOG_LEVEL").map Text.upper) ++
    entry "format" ((given? env "CPGSCOPE_LOG_FORMAT").map Text.lower) ++
    entry "file" (given? env "CPGSCOPE_LOG_FILE")

/-- The home directory that a variable names. A tilde stands for the home directory itself, and
says nothing about where that is. -/
def homeOf (files : Files) (env : Variables) : Except Failure Files.Path :=
  match (env.lookup "HOME").getD "" with
  | "" => .ok (files.path "/")
  | text => if text.toList.head? == some '~' then .error .homeless else .ok (files.path text)

def ofVariables (env : Variables) : Fields :=
  match loggingFields env with
  | [] => []
  | fields => [("logging", .record fields)]

/-! ## Loading -/

/-- Where a configuration is to come from. -/
structure Source where
  disk : Disk
  readers : Readers
  env : Variables
  home : Except Failure Files.Path
  /-- Where a search starts. -/
  start : Except Failure Files.Spot
  /-- The file to read, if it is named. -/
  file : Option Files.Path
  useEnv : Bool

def Source.locate (s : Source) : Logged (Option Files.Path) :=
  match s.file with
  | some path => return some path
  | none => find s.disk s.home s.start

def Source.fromFile (s : Source) : Logged Value := do
  match ← s.locate with
  | none => return .record []
  | some path =>
    let merged ← deepMerge (.record []) (← loadFile s.disk s.readers path)
    Logged.info logger s!"Loaded configuration from {s.disk.shown path}" []
    return merged

def Source.withVariables (s : Source) (data : Value) : Logged Value := do
  let overrides := ofVariables s.env
  if !s.useEnv || overrides.isEmpty then return data
  Logged.debug logger "Loaded logging configuration from environment variables" []
  deepMerge data (.record overrides)

def load (s : Source) : Logged Config := do
  let data ← s.fromFile
  let data ← s.withVariables data
  read s.env data

end CodeGraph.Config
