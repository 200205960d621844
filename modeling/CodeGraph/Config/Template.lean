import CodeGraph.Config
import CodeGraph.Format.Json

/-!
# Configuration templates

The default configuration as a document to start from, in each of the formats
that can be read.
-/

namespace CodeGraph.Config

def defaults : Fields :=
  toFields {}

/-! ## YAML -/

/-- A double; an exponent is written after a point. -/
def yamlFloat (x : Float) : String :=
  let cs := (Decimal.written x).toList
  if cs.contains '.' then String.ofList cs
  else String.ofList (cs.flatMap fun c => if c == 'e' then ['.', '0', 'e'] else [c])

def yamlScalar : Value → String
  | .float x => yamlFloat x
  | .str s => s
  | v => Json.writeScalar v

mutual

def yamlField (depth : Nat) (key : String) : Value → List String
  | .record (entry :: rest) =>
    (margin depth ++ key ++ ":") :: yamlFields (depth + 1) (entry :: rest)
  | v => [margin depth ++ key ++ ": " ++ yamlScalar v]
where
  margin (depth : Nat) : String :=
    String.ofList (List.replicate (2 * depth) ' ')

def yamlFields (depth : Nat) : List (String × Value) → List String
  | [] => []
  | (key, v) :: rest => yamlField depth key v ++ yamlFields depth rest

end

def yamlHeading : List String :=
  ["# cpgscope Configuration File (.cpgscoperc)",
    "#",
    "# This file configures cpgscope's analysis defaults. It can be placed:",
    "# - In your project root: .cpgscoperc",
    "# - In your home directory: ~/.cpgscoperc",
    "# - In your config directory: ~/.config/cpgscope.toml",
    "#",
    "# Environment variables can be referenced using $\x7bVAR_NAME\x7d syntax.",
    ""]

def yamlTemplate : String :=
  "\n".intercalate (yamlHeading ++ yamlFields 0 defaults ++ [""])

/-! ## JSON -/

def jsonHeading : Fields :=
  [("_comment", .str "cpgscope Configuration File (.cpgscoperc)"),
    ("_note", .str "Environment variables can be referenced using $\x7bVAR_NAME\x7d syntax")]

def jsonTemplate : String :=
  Json.indented 0 (.record (jsonHeading ++ defaults))

/-! ## TOML -/

def tomlValue : Value → String
  | .bool b => if b then "true" else "false"
  | .int n => Value.intText n
  | .float x => Decimal.written x
  | v => Json.write v

mutual

/-- The lines of a table: its own options first, then the tables inside it. -/
def tomlTable (name : String) : List (String × Value) → List String × List String
  | [] => ([], [])
  | (key, v) :: rest =>
    let (options, tables) := tomlTable name rest
    let (option, table) := tomlEntry name key v
    (option ++ options, table ++ tables)

/-- A line for an option, or the lines of a table inside; absent options are left out. -/
def tomlEntry (name key : String) : Value → List String × List String
  | .null => ([], [])
  | .record fields =>
    let (options, tables) := tomlTable (name ++ "." ++ key) fields
    ([], ["", "[" ++ name ++ "." ++ key ++ "]"] ++ options ++ tables)
  | v => ([key ++ " = " ++ tomlValue v], [])

end

def tomlSection (name : String) (v : Value) : List String :=
  match v with
  | .record fields =>
    let (options, tables) := tomlTable name fields
    ["", "[" ++ name ++ "]"] ++ options ++ tables
  | _ => []

def tomlHeading : List String :=
  ["# cpgscope Configuration File (cpgscope.toml)",
    "#",
    "# Environment variables can be referenced using $\x7bVAR_NAME\x7d syntax."]

def tomlTemplate : String :=
  "\n".intercalate (tomlHeading ++ defaults.flatMap fun (name, v) => tomlSection name v)

def template (format : Value) : Except Failure String :=
  match format with
  | .str "yaml" => .ok yamlTemplate
  | .str "json" => .ok jsonTemplate
  | .str "toml" => .ok tomlTemplate
  | format => .error (.argument (.unsupportedTemplate format))

end CodeGraph.Config
