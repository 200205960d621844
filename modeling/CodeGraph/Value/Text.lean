import CodeGraph.Value
import CodeGraph.Decimal.Written
import CodeGraph.Text.Quoted

/-!
# Values as text

`shown` is the form used inside other values and messages, where a text carries
its quotes; `text` is the form of a value standing alone, where it does not. An
integer has all its digits (`intText`), however many these are.
-/

namespace CodeGraph.Value

def intText (n : Int) : String :=
  if n < 0 then "-" ++ toString n.natAbs else toString n.natAbs

mutual

def shown : Value → String
  | null => "None"
  | bool b => if b then "True" else "False"
  | int n => intText n
  | float x => Decimal.written x
  | str s => Text.quoted s
  | list items => "[" ++ ", ".intercalate (shownItems items) ++ "]"
  | record fields => "\x7b" ++ ", ".intercalate (shownFields fields) ++ "\x7d"
  | table entries => "\x7b" ++ ", ".intercalate (shownEntries entries) ++ "\x7d"

def shownItems : List Value → List String
  | [] => []
  | v :: rest => shown v :: shownItems rest

def shownFields : List (String × Value) → List String
  | [] => []
  | (key, v) :: rest => (Text.quoted key ++ ": " ++ shown v) :: shownFields rest

def shownEntries : List (Value × Value) → List String
  | [] => []
  | (key, v) :: rest => (shown key ++ ": " ++ shown v) :: shownEntries rest

end

def text : Value → String
  | str s => s
  | v => shown v

end CodeGraph.Value
