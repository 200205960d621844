import CodeGraph.Text.Point
import CodeGraph.Text.Printable
import CodeGraph.Text.Radix

/-!
# Quoted text

How messages show a text: in single quotes, or in double quotes when it holds a
single quote and no double one. The used quote and the backslash are escaped,
line breaks and tabs by letter, and anything else that is hidden by its number.
-/

namespace CodeGraph.Text

def escapeNumber (n : Nat) : List Char :=
  if n < 0x100 then '\\' :: 'x' :: hex 2 n
  else if n < 0x10000 then '\\' :: 'u' :: hex 4 n
  else '\\' :: 'U' :: hex 8 n

def escapePoint (quote : Char) (p : Point) : List Char :=
  match p with
  | .surrogate _ => escapeNumber p.code
  | .char c =>
    if c == quote || c == '\\' then ['\\', c]
    else if c == '\n' then ['\\', 'n']
    else if c == '\r' then ['\\', 'r']
    else if c == '\t' then ['\\', 't']
    else if isPrintable c then [c]
    else escapeNumber c.toNat

def quoteFor (cs : List Char) : Char :=
  if cs.contains '\'' && !cs.contains '"' then '"' else '\''

def quoted (s : String) : String :=
  let cs := s.toList
  let quote := quoteFor cs
  String.ofList (quote :: (points cs).flatMap (escapePoint quote) ++ [quote])

end CodeGraph.Text
