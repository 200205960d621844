import CodeGraph.Failure

/-!
# Faults of documents
-/

namespace CodeGraph

/-- Why a document has no value: it breaks the rules of its format, or it keeps them and states
something that cannot be had. -/
inductive Fault where
  | malformed
  | failure (cause : Failure)

abbrev Reading := Except Fault

/-- What there is, or else a breach of the rules. -/
def Reading.ofOption {α : Type} : Option α → Reading α
  | some x => .ok x
  | none => .error .malformed

end CodeGraph
