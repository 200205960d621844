import CodeGraph.Value.Reading
import CodeGraph.Text.Case

/-!
# Tags

Closed choices that data spells as a word: kinds of edges, directions,
algorithms. A tag is recognised in any case when it comes as an argument.
-/

namespace CodeGraph

class Tagged (α : Type) where
  choices : List α
  tag : α → String

namespace Tagged

variable {α : Type} [Tagged α]

def tags (α : Type) [Tagged α] : List String :=
  (choices : List α).map tag

def ofTag? (word : String) : Option α :=
  choices.find? fun choice => tag choice == word

/-- Recognise a word in any case; `unknown` says what else is wrong. -/
def coerceOr (unknown : Value → List String → Failure) (v : Value) : Except Failure α :=
  let found : Option α :=
    match v with
    | .str s => ofTag? (Text.lower s)
    | _ => none
  match found with
  | some choice => .ok choice
  | none => .error (unknown v (tags α))

def coerce (v : Value) : Except Failure α :=
  coerceOr .unsupportedAlgorithm v

/-- Recognise a word as it stands; `what` names the choice. -/
def exact (what : String) (v : Value) : Except Failure α :=
  let found : Option α :=
    match v with
    | .str s => ofTag? s
    | _ => none
  match found with
  | some choice => .ok choice
  | none => .error (.argument (.invalidChoice v what))

def value (choice : α) : Value :=
  .str (tag choice)

end Tagged

end CodeGraph
