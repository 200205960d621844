import CodeGraph.Failure

/-!
# Catalog of public names

What callers can look up by name: the parts that are offered to them, the modules
that these parts come from, and what the catalog says of itself.
-/

namespace CodeGraph.Catalog

def version : String := "0.1.0"

/-- The name of the whole, which the names of its modules begin with. -/
def package : String := "cpgscope"

def modules : List String :=
  ["models", "validation", "graph", "algorithms", "semantic", "detectors", "analyzer", "config",
    "logging_config"]

def moduleName (name : String) : String :=
  package ++ "." ++ name

/-- The parts on offer, each with the module that it comes from. -/
def offered : List (String × String) :=
  [("CPGData", "models"), ("CPGEdge", "models"), ("CPGNode", "models"), ("EdgeKind", "models"),
    ("GraphAnalyzer", "analyzer"), ("CPGScopeConfig", "config"), ("load_config", "config"),
    ("CPGAnalysisError", "validation"), ("SemanticContext", "semantic"),
    ("semantic_critical_path", "semantic"), ("dependency_impact_analysis", "semantic"),
    ("identify_code_communities", "semantic"), ("detect_architectural_smells", "detectors"),
    ("configure_logging", "logging_config")]

def listed : List String :=
  "__version__" :: offered.map Prod.fst

def summary : String :=
  "\n".intercalate
    ["",
      "cpgscope - Code Property Graph Analysis Engine",
      "",
      "Computes structural and semantic metrics over a code property graph:",
      "strongly connected components, centrality, shortest and critical paths,",
      "change impact, code communities and architectural smells.",
      ""]

def ownEntries : Fields :=
  [("__version__", .str version), ("__name__", .str package), ("__package__", .str package),
    ("__doc__", .str summary), ("__all__", Value.strings listed),
    ("_EXPORTS", .record (offered.map fun (name, source) => (name, .str (moduleName source)))),
    ("__class__", .str "module"), ("__annotations__", .record [])]

/-- What everything that can be looked up can do; each stands for its own name. -/
def commonNames : List String :=
  ["__getattr__", "__delattr__", "__dir__", "__eq__", "__format__", "__ge__", "__getattribute__",
    "__getstate__", "__gt__", "__hash__", "__init__", "__init_subclass__", "__le__", "__lt__",
    "__ne__", "__new__", "__reduce__", "__reduce_ex__", "__repr__", "__setattr__", "__sizeof__",
    "__str__", "__subclasshook__"]

/-- What a name stands for: a part or an ability for its name, a module for its full name. -/
def find (name : String) : Except Failure Value :=
  match ownEntries.get? name with
  | some v => .ok v
  | none =>
    if (offered.lookup name).isSome || commonNames.contains name then .ok (.str name)
    else if modules.contains name then .ok (.str (moduleName name))
    else .error (.noMember "module" name)

end CodeGraph.Catalog
