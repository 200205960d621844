import CodeGraph.Config.Expansion
import CodeGraph.Cost
import CodeGraph.Smell.Thresholds

/-!
# Configuration

The options of all analyses, in sections. Options keep the values they were
given; `Config.validate` (in `CodeGraph.Config.Validation`) says which values
can be used. Reading a configuration refuses sections and options that do not
exist, and fills in the defaults of those that are missing.
-/

namespace CodeGraph

structure CentralityOptions where
  damping : Value := .float 0.85
  maxIterations : Value := .int 100
  tolerance : Value := .float 1e-6
  maxWorkers : Value := .null
  topCount : Value := .int 10

structure PathOptions where
  maxDepth : Value := .null
  criticalMaxDepth : Value := .int 10
  maxCandidates : Value := .int 64
  /-- A goal with a ready-made cost model; penalties and costs are laid over it. -/
  goal : Value := .null
  penalties : Value := .record []
  costs : Value := .record []

structure ImpactOptions where
  depth : Value := .int 3
  dependencyKinds : Value := .null

structure CommunityOptions where
  algorithm : Value := .str "louvain"
  maxIterations : Value := .int 100

/-- Thresholds, or what was put in their place as it is. -/
inductive ThresholdOption where
  | known (t : Thresholds)
  | other (v : Value)

structure DetectorOptions where
  /-- The smells to look for, absent for all of them. -/
  enabled : Value := .null
  thresholds : ThresholdOption := .known {}

structure LoggingOptions where
  level : Value := .str "INFO"
  format : Value := .str "human"
  file : Value := .null

structure Config where
  centrality : CentralityOptions := {}
  paths : PathOptions := {}
  impact : ImpactOptions := {}
  communities : CommunityOptions := {}
  detectors : DetectorOptions := {}
  logging : LoggingOptions := {}

/-! ## Configurations as data -/

def CentralityOptions.toFields (o : CentralityOptions) : Fields :=
  [("damping", o.damping), ("max_iterations", o.maxIterations), ("tolerance", o.tolerance),
    ("max_workers", o.maxWorkers), ("top_n", o.topCount)]

def PathOptions.toFields (o : PathOptions) : Fields :=
  [("max_depth", o.maxDepth), ("critical_path_max_depth", o.criticalMaxDepth),
    ("max_candidate_paths", o.maxCandidates), ("goal", o.goal),
    ("node_type_penalties", o.penalties), ("edge_type_costs", o.costs)]

def ImpactOptions.toFields (o : ImpactOptions) : Fields :=
  [("depth", o.depth), ("dependency_types", o.dependencyKinds)]

def CommunityOptions.toFields (o : CommunityOptions) : Fields :=
  [("algorithm", o.algorithm), ("max_iterations", o.maxIterations)]

def ThresholdOption.toValue : ThresholdOption → Value
  | .known t => t.toValue
  | .other v => v

def ThresholdOption.read : ThresholdOption → Except Failure Thresholds
  | .known t => .ok t
  | .other v => Thresholds.read v

def DetectorOptions.toFields (o : DetectorOptions) : Fields :=
  [("enabled", o.enabled), ("thresholds", o.thresholds.toValue)]

def LoggingOptions.toFields (o : LoggingOptions) : Fields :=
  [("level", o.level), ("format", o.format), ("file", o.file)]

def Config.toFields (c : Config) : Fields :=
  [("centrality", .record c.centrality.toFields), ("paths", .record c.paths.toFields),
    ("impact", .record c.impact.toFields), ("communities", .record c.communities.toFields),
    ("detectors", .record c.detectors.toFields), ("logging", .record c.logging.toFields)]

def Config.toValue (c : Config) : Value :=
  .record c.toFields

/-! ## Sections from fields -/

def option (fields : Fields) (name : String) (default : Value) : Value :=
  (fields.get? name).getD default

def CentralityOptions.ofFields (fields : Fields) : CentralityOptions :=
  let d : CentralityOptions := {}
  ⟨option fields "damping" d.damping, option fields "max_iterations" d.maxIterations,
    option fields "tolerance" d.tolerance, option fields "max_workers" d.maxWorkers,
    option fields "top_n" d.topCount⟩

def PathOptions.ofFields (fields : Fields) : PathOptions :=
  let d : PathOptions := {}
  ⟨option fields "max_depth" d.maxDepth,
    option fields "critical_path_max_depth" d.criticalMaxDepth,
    option fields "max_candidate_paths" d.maxCandidates, option fields "goal" d.goal,
    option fields "node_type_penalties" d.penalties, option fields "edge_type_costs" d.costs⟩

def ImpactOptions.ofFields (fields : Fields) : ImpactOptions :=
  let d : ImpactOptions := {}
  ⟨option fields "depth" d.depth, option fields "dependency_types" d.dependencyKinds⟩

def CommunityOptions.ofFields (fields : Fields) : CommunityOptions :=
  let d : CommunityOptions := {}
  ⟨option fields "algorithm" d.algorithm, option fields "max_iterations" d.maxIterations⟩

def LoggingOptions.ofFields (fields : Fields) : LoggingOptions :=
  let d : LoggingOptions := {}
  ⟨option fields "level" d.level, option fields "format" d.format, option fields "file" d.file⟩

/-! ## Reading -/

namespace Config

def unknownIn (known : List String) (fields : Fields) : List String :=
  (fields.keys.filter fun key => !known.contains key).mergeSort fun a b => a ≤ b

/-- The fields of a section, all of them known; an absent section has none. -/
def sectionFields (name : String) (known : List String) (v : Value) : Except Failure Fields :=
  match v with
  | .null => .ok []
  | .record fields => checked fields
  | .table entries => .error (unnamed entries)
  | v => .error (.config (.sectionNotMapping name v.typeName))
where
  /-- Keys that are no names cannot even be listed. -/
  unnamed (entries : Entries) : Failure :=
    match Value.unknownNames known entries.keys with
    | .ok unknown => .config (.unknownKeys name unknown)
    | .error f => f
  checked (fields : Fields) : Except Failure Fields :=
    match unknownIn known fields with
    | [] => .ok fields
    | unknown => .error (.config (.unknownKeys name unknown))

def readThresholds (v : Value) : Except Failure Thresholds :=
  match Thresholds.read v with
  | .error (.wrongType problem) => .error (.config (.badThresholds problem.message))
  | .error (.argument problem) => .error (.config (.badThresholds problem.message))
  | result => result

def readDetectors (v : Value) : Except Failure DetectorOptions :=
  match v with
  | .null => .ok {}
  | .record fields => ofFields fields
  | .table entries => ofEntries entries
  | _ => .error (.config .detectorsNotMapping)
where
  ofFields (fields : Fields) : Except Failure DetectorOptions := do
    let thresholds ← readThresholds (fields.get "thresholds")
    let rest ← sectionFields "detectors" ["enabled"] (.record (fields.without ["thresholds"]))
    return ⟨option rest "enabled" .null, .known thresholds⟩
  ofEntries (entries : Entries) : Except Failure DetectorOptions := do
    discard (readThresholds ((Value.textFields entries).get "thresholds"))
    discard (sectionFields "detectors" ["enabled", "thresholds"] (.table entries))
    return {}

def sectionNames : List String :=
  (toFields {}).keys

def ofFields (fields : Fields) : Except Failure Config := do
  let d : Config := {}
  let centrality ← sectionFields "centrality" d.centrality.toFields.keys (fields.get "centrality")
  let paths ← sectionFields "paths" d.paths.toFields.keys (fields.get "paths")
  let impact ← sectionFields "impact" d.impact.toFields.keys (fields.get "impact")
  let communities ←
    sectionFields "communities" d.communities.toFields.keys (fields.get "communities")
  let detectors ← readDetectors (fields.get "detectors")
  let logging ← sectionFields "logging" d.logging.toFields.keys (fields.get "logging")
  return {
    centrality := .ofFields centrality
    paths := .ofFields paths
    impact := .ofFields impact
    communities := .ofFields communities
    detectors := detectors
    logging := .ofFields logging }

/-- Sections by name, as far as the data lists names at all. -/
def checkSections (v : Value) : Except Failure Unit := do
  let unknown ← Value.unknownNames sectionNames (← v.elements)
  if !unknown.isEmpty then throw (.config (.unknownSections unknown))

def readExpanded (data : Value) : Except Failure Config := do
  checkSections data
  ofFields (← data.fieldsOr "get")

/-- Read a configuration after expanding variables; nothing at all is the default one. -/
def read (env : Variables) (data : Value) : Except Failure Config := do
  readExpanded (← Expansion.expand env (if data.truthy then data else .record []))

/-- Set one option as it is; options that do not exist have no effect. -/
def withOption (c : Config) (sectionName key : String) (v : Value) : Except Failure Config :=
  match sectionName with
  | "centrality" => .ok { c with centrality := .ofFields (c.centrality.toFields.put key v) }
  | "paths" => .ok { c with paths := .ofFields (c.paths.toFields.put key v) }
  | "impact" => .ok { c with impact := .ofFields (c.impact.toFields.put key v) }
  | "communities" => .ok { c with communities := .ofFields (c.communities.toFields.put key v) }
  | "detectors" =>
    match key with
    | "enabled" => .ok { c with detectors := { c.detectors with enabled := v } }
    | "thresholds" => .ok { c with detectors := { c.detectors with thresholds := .other v } }
    | _ => .ok c
  | "logging" => .ok { c with logging := .ofFields (c.logging.toFields.put key v) }
  | name => .error (.noMember "config" name)

end Config

def unpacked (v : Value) : Except Failure Fields :=
  match v with
  | .record fields => .ok fields
  | v => .error (.wrongType (.notMapping v.typeName))

def PathOptions.costContext (o : PathOptions) : Except Failure CostContext := do
  let base ← if o.goal.truthy then CostContext.forGoal o.goal else .ok .general
  let penalties ← unpacked o.penalties
  let costs ← unpacked o.costs
  return ⟨base.goal, ⟨base.model.penalties.update penalties, base.model.costs.update costs⟩⟩

end CodeGraph
