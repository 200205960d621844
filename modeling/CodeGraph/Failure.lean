import CodeGraph.Value.Text

/-!
# Failures

Every way in which an operation can end without a result, by cause. Analysis
failures carry a stable `code` and often a suggestion; configuration problems
and unusable arguments have types of their own; the remaining causes concern
data of the wrong shape. All wording is in the `message` functions.
-/

namespace CodeGraph

def listing (names : List String) : String :=
  ", ".intercalate names

/-- Data whose shape an operation cannot take, named by the shapes involved. -/
inductive WrongType where
  | notIterable (shape : String)
  | notHashable (shape : String)
  | notReal (shape : String)
  | notInteger (shape : String)
  | notSigned (shape : String)
  | notMapping (shape : String)
  | notCallable (shape : String)
  | notSubscriptable (shape : String)
  | notText (position : Nat) (shape : String)
  | unordered (relation left right : String)
  | operands (symbol left right : String)
  | repeatedArgument (name : String)
  | unexpectedArgument (name : String)
  | surplusArguments
  | missingArguments
  | pairShape (position : Nat)

def WrongType.message : WrongType → String
  | notIterable shape => s!"'{shape}' object is not iterable"
  | notHashable shape => s!"unhashable type: '{shape}'"
  | notReal shape => s!"float() argument must be a string or a real number, not '{shape}'"
  | notInteger shape => s!"'{shape}' object cannot be interpreted as an integer"
  | notSigned shape => s!"bad operand type for unary -: '{shape}'"
  | notMapping shape => s!"argument after ** must be a mapping, not {shape}"
  | notCallable shape => s!"'{shape}' object is not callable"
  | notSubscriptable shape => s!"'{shape}' object is not subscriptable"
  | notText position shape => s!"sequence item {position}: expected str instance, {shape} found"
  | unordered relation left right =>
    s!"'{relation}' not supported between instances of '{left}' and '{right}'"
  | operands symbol left right =>
    s!"unsupported operand type(s) for {symbol}: '{left}' and '{right}'"
  | repeatedArgument name => s!"got multiple values for keyword argument '{name}'"
  | unexpectedArgument name => s!"got an unexpected keyword argument '{name}'"
  | surplusArguments => "not all arguments converted during string formatting"
  | missingArguments => "not enough arguments for format string"
  | pairShape position =>
    s!"cannot convert dictionary update sequence element #{position} to a sequence"

/-- Why a configuration cannot be read, found or used. -/
inductive ConfigProblem where
  | unknownSections (names : List String)
  | sectionNotMapping (name shape : String)
  | detectorsNotMapping
  | unknownKeys (name : String) (keys : List String)
  | badThresholds (reason : String)
  | fileMissing (path : String)
  | fileUnreadable (path reason : String)
  | malformedToml (path : String)
  | malformedJson (path : String)
  | malformedYaml (path : String)
  | documentNotMapping (path : String)
  | unsupportedFormat (path : String)
  | outsideUnit (option : String)
  | belowOne (option : String)
  | belowZero (option : String)
  | notPositive (option : String)
  | badCost (option : String)
  | unknownEdgeKind (option : String) (kind : Value) (choices : List String)
  | unknownSmell (smell : Value) (choices : List String)
  | notAmong (option : String) (choices : List String)

def ConfigProblem.message : ConfigProblem → String
  | unknownSections names => s!"Unknown config sections: {listing names}"
  | sectionNotMapping name shape => s!"Config section '{name}' must be a mapping, got {shape}"
  | detectorsNotMapping => "Config section 'detectors' must be a mapping"
  | unknownKeys name keys => s!"Unknown keys in config section '{name}': {listing keys}"
  | badThresholds reason => s!"Invalid detector thresholds: {reason}"
  | fileMissing path => s!"Config file not found: {path}"
  | fileUnreadable path reason => s!"Failed to read config file {path}: {reason}"
  | malformedToml path => s!"Failed to parse TOML config {path}"
  | malformedJson path => s!"Failed to parse JSON config {path}"
  | malformedYaml path => s!"Failed to parse {path} as YAML or JSON"
  | documentNotMapping path => s!"Config file {path} must contain a mapping"
  | unsupportedFormat path => s!"Unsupported config file format: {path}"
  | outsideUnit option => s!"{option} must be between 0.0 and 1.0"
  | belowOne option => s!"{option} must be >= 1"
  | belowZero option => s!"{option} must be >= 0"
  | notPositive option => s!"{option} must be positive"
  | badCost option => s!"{option} must be a non-negative number"
  | unknownEdgeKind option kind choices =>
    s!"{option} contains unknown edge kind {kind.shown}; use one of: {listing choices}"
  | unknownSmell smell choices =>
    s!"detectors.enabled contains unknown smell {smell.shown}; use one of: {listing choices}"
  | notAmong option choices => s!"{option} must be one of: {listing choices}"

/-- Arguments of the right shape with an unusable value. -/
inductive ArgumentProblem where
  | duplicateNode (id : Value)
  | belowZero (name : String) (value : Value)
  | belowOne (name : String) (value : Value)
  | dampingOutside (value : Value)
  | unknownThresholds (names : List String)
  | unreadableNumber (text : String)
  | unsupportedTemplate (format : Value)
  | unknownLevel (level : String)
  | pairLength (position length : Nat)
  | invalidChoice (value : Value) (what : String)
  | stated (message : String)

def ArgumentProblem.message : ArgumentProblem → String
  | duplicateNode id => s!"Duplicate node id: {id.shown}"
  | belowZero name value => s!"{name} must be >= 0, got {value.text}"
  | belowOne name value => s!"{name} must be >= 1, got {value.text}"
  | dampingOutside value => s!"damping must be in [0, 1], got {value.text}"
  | unknownThresholds names => s!"Unknown smell thresholds: {listing names}"
  | unreadableNumber text => s!"could not convert string to float: {Text.quoted text}"
  | unsupportedTemplate format =>
    s!"Unsupported format: {format.text}. Use 'yaml', 'json', or 'toml'"
  | unknownLevel level => s!"Unknown level: {Text.quoted level}"
  | pairLength position length =>
    s!"dictionary update sequence element #{position} has length {length}; 2 is required"
  | invalidChoice value what => s!"{value.shown} is not a valid {what}"
  | stated message => message

inductive FileProblem where
  | missing
  | isDirectory
  | notDirectory
  | alreadyThere
  | nameTooLong
  | unencodable

def FileProblem.message (path : String) : FileProblem → String
  | missing => s!"[Errno 2] No such file or directory: {Text.quoted path}"
  | isDirectory => s!"[Errno 21] Is a directory: {Text.quoted path}"
  | notDirectory => s!"[Errno 20] Not a directory: {Text.quoted path}"
  | alreadyThere => s!"[Errno 17] File exists: {Text.quoted path}"
  | nameTooLong => s!"[Errno 36] File name too long: {Text.quoted path}"
  | unencodable => "surrogates not allowed"

inductive Failure where
  | nodeNotFound (id : Value)
  | invalidGraph (edges : List String)
  | noPath (source target : Value)
  | depthReached (source target limit : Value)
  | invalidWeight (edge weight : Value)
  | unsupportedKind (kind : Value) (supported : List String)
  | unsupportedSmell (smell : Value) (supported : List String)
  | unsupportedAlgorithm (algorithm : Value) (supported : List String)
  /-- A failure in a caller's own words: what it says, what it suggests, and both together. -/
  | analysis (summary suggestion : Value) (text : String)
  | config (problem : ConfigProblem)
  | argument (problem : ArgumentProblem)
  | missingKey (key : Value)
  | wrongType (problem : WrongType)
  | noMember (shape member : String)
  /-- A position that a list or a text does not have. -/
  | outOfRange
  /-- A search that came to the end without an answer. -/
  | exhausted
  | file (problem : FileProblem) (path : String)
  /-- A date that a calendar of limited size does not have. -/
  | beyondCalendar
  | malformedText
  /-- A text that has no bytes. -/
  | unencodable
  | homeless
  | overflow (message : String)
  | unbalancedStack

namespace Failure

def code? : Failure → Option String
  | nodeNotFound _ => some "node_not_found"
  | invalidGraph _ => some "invalid_graph"
  | noPath _ _ => some "no_path_found"
  | depthReached _ _ _ => some "max_depth_reached"
  | invalidWeight _ _ => some "invalid_weight"
  | unsupportedKind _ _ => some "unsupported_edge_kind"
  | unsupportedSmell _ _ => some "unsupported_smell"
  | unsupportedAlgorithm _ _ => some "unsupported_algorithm"
  | analysis _ _ _ => some "analysis_error"
  | _ => none

/-- At most this many dangling edges are named. -/
def danglingShown : Nat := 5

def danglingText (edges : List String) : String :=
  let named := listing (edges.take danglingShown)
  if danglingShown < edges.length then s!"{named} ... ({edges.length} edges total)" else named

def summary : Failure → String
  | nodeNotFound id => s!"Node not found in graph: {id.shown}"
  | invalidGraph edges => s!"Graph has edges referencing missing nodes: {danglingText edges}"
  | noPath source target => s!"No path from {source.shown} to {target.shown}"
  | depthReached source target limit =>
    s!"Search from {source.shown} to {target.shown} exhausted max_depth={limit.text}"
  | invalidWeight edge weight =>
    s!"Weight function returned negative weight {weight.text} for edge {edge.shown}"
  | unsupportedKind kind _ => s!"Unsupported edge kind: {kind.shown}"
  | unsupportedSmell smell _ => s!"Unsupported smell: {smell.shown}"
  | unsupportedAlgorithm algorithm _ => s!"Unsupported algorithm: {algorithm.shown}"
  | analysis summary _ _ => summary.text
  | config problem => problem.message
  | argument problem => problem.message
  | missingKey key => key.shown
  | wrongType problem => problem.message
  | noMember shape member => s!"'{shape}' object has no attribute '{member}'"
  | outOfRange => "list index out of range"
  | exhausted => ""
  | file problem path => problem.message path
  | beyondCalendar => "[Errno 75] Value too large for defined data type"
  | malformedText => "invalid start byte"
  | unencodable => "surrogates not allowed"
  | homeless => "Could not determine home directory."
  | overflow message => message
  | unbalancedStack => "Tarjan stack must be empty after the final root"

def suggestion? : Failure → Option String
  | nodeNotFound _ => some "Check the node id against CPGData.nodes for this snapshot"
  | invalidGraph _ => some "Rebuild the CPG snapshot; every edge endpoint must be present in nodes"
  | depthReached _ _ _ => some "Retry with a larger max_depth"
  | invalidWeight _ _ => some "Dijkstra requires non-negative edge weights"
  | unsupportedKind _ supported =>
    some s!"Map builder-specific kinds onto one of: {listing supported}; keep the original label in subkind"
  | unsupportedSmell _ supported => some s!"Use one of: {listing supported}"
  | unsupportedAlgorithm _ supported => some s!"Use one of: {listing supported}"
  | _ => none

def suggestionText (hint : String) : String :=
  s!"\n\nSuggestion: {hint}"

def message (f : Failure) : String :=
  match f with
  | analysis _ _ text => text
  | f =>
    match f.suggestion? with
    | none => f.summary
    | some hint => f.summary ++ suggestionText hint

/-- A failure in a caller's own words. A suggestion is put behind a text; behind a list it goes
letter by letter. -/
def stated (summary suggestion : Value) : Except Failure Failure :=
  if !suggestion.truthy then .ok (.analysis summary suggestion summary.text)
  else
    let hint := suggestionText suggestion.text
    match summary with
    | .str s => .ok (.analysis summary suggestion (s ++ hint))
    | .list items =>
      let items := .list (items ++ (Text.letters hint).map .str)
      .ok (.analysis items suggestion items.shown)
    | v => .error (.wrongType (.operands "+" v.typeName "str"))

def parts (f : Failure) : Value × Value × String :=
  match f with
  | analysis summary suggestion text => (summary, suggestion, text)
  | f => (.str f.summary, .ofOption (f.suggestion?.map Value.str), f.message)

end Failure

def Value.texts (items : List Value) : Except Failure (List String) :=
  (items.zipIdx).mapM fun
    | (str s, _) => .ok s
    | (v, position) => .error (.wrongType (.notText position v.typeName))

/-- The edges that a failure names: the first ones have to be texts. -/
def Failure.ofDangling (edges : List Value) : Except Failure Failure := do
  let named ← Value.texts (edges.take danglingShown)
  return .invalidGraph (named ++ (edges.drop danglingShown).map Value.text)

end CodeGraph
