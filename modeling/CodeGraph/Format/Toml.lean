import CodeGraph.Format.Toml.Scalar
import CodeGraph.Format.Toml.Table

/-!
# TOML documents

A document is a list of statements, one to a line: headers, which open a table or
add one to an array of tables, and keys with their values. The digits of an integer
are limited, the depth of a document is not.
-/

namespace CodeGraph.Toml

def skip (cs : List Char) : List Char :=
  cs.dropWhile isSpace

def skipComment (cs : List Char) : Reading (List Char) :=
  match cs with
  | '#' :: rest =>
    if (rest.takeWhile (· != '\n')).any isControl then .error .malformed
    else .ok (rest.dropWhile (· != '\n'))
  | cs => .ok cs

/-- A statement ends at the end of its line, with at most a comment before it. -/
def endOfLine (cs : List Char) : Reading (List Char) := do
  match ← skipComment (skip cs) with
  | [] => return []
  | '\n' :: rest => return rest
  | _ => throw .malformed

/-- Pass blanks, line breaks and comments. Every comment takes a character, so the length of
the text is enough `fuel`. -/
def skipLines (fuel : Nat) (cs : List Char) : Reading (List Char) :=
  match fuel with
  | 0 => .error .malformed
  | fuel + 1 =>
    match cs.dropWhile isSpaceOrBreak with
    | '#' :: rest => do skipLines fuel (← skipComment ('#' :: rest))
    | rest => .ok rest

/-! ## Keys -/

def isBare (c : Char) : Bool :=
  c.isAlphanum || c == '_' || c == '-'

def keyPart (cs : List Char) : Option (String × List Char) :=
  match cs.takeWhile isBare with
  | [] => shortText? cs
  | bare => some (String.ofList bare, cs.dropWhile isBare)

/-- A key: parts with points between them. Every part takes a character, so the length of the
text is enough `fuel`. -/
def key? (fuel : Nat) (cs : List Char) : Option (Key × List Char) :=
  match fuel with
  | 0 => none
  | fuel + 1 => do
    let (part, rest) ← keyPart (skip cs)
    match skip rest with
    | '.' :: rest =>
      let (key, after) ← key? fuel rest
      return (key.under part, after)
    | rest => return (⟨[], part⟩, rest)

def equals : List Char → Reading (List Char)
  | '=' :: rest => .ok (skip rest)
  | _ => .error .malformed

/-! ## Values -/

mutual

/-- One value; every step inwards takes a character, so the length of the text is enough
`fuel`. -/
def value (fuel : Nat) (cs : List Char) : Reading (Value × List Char) :=
  match fuel with
  | 0 => .error .malformed
  | fuel + 1 =>
    match cs with
    | '[' :: rest => do
      let (vs, after) ← items fuel [] (← skipLines (fuel + 1) rest)
      return (.list vs, after)
    | '\x7b' :: rest => do
      match skip rest with
      | '\x7d' :: after => return (.record [], after)
      | rest =>
        let (fields, after) ← members fuel .empty rest
        return (.record fields, after)
    | cs => scalar cs

def items (fuel : Nat) (seen : List Value) (cs : List Char) : Reading (List Value × List Char) :=
  match fuel with
  | 0 => .error .malformed
  | fuel + 1 =>
    match cs with
    | ']' :: rest => .ok (seen, rest)
    | cs => do
      let (v, rest) ← value fuel cs
      match ← skipLines (fuel + 1) rest with
      | ',' :: rest => items fuel (seen ++ [v]) (← skipLines (fuel + 1) rest)
      | ']' :: rest => return (seen ++ [v], rest)
      | _ => throw .malformed

def members (fuel : Nat) (seen : Document) (cs : List Char) : Reading (Fields × List Char) :=
  match fuel with
  | 0 => .error .malformed
  | fuel + 1 => do
    let (key, rest) ← Reading.ofOption (key? (fuel + 1) cs)
    let rest ← equals rest
    let (v, rest) ← value fuel rest
    let seen ← Reading.ofOption (seen.assign key v)
    match skip rest with
    | ',' :: rest => members fuel seen (skip rest)
    | '\x7d' :: rest => return (seen.content, rest)
    | _ => throw .malformed

end

/-! ## Statements -/

def header (fuel : Nat) (d : Document) (cs : List Char) : Reading (Document × List Char) := do
  match cs with
  | '[' :: rest =>
    let (key, rest) ← Reading.ofOption (key? fuel rest)
    let d ← Reading.ofOption (d.openNext key)
    match rest with
    | ']' :: ']' :: after => return (d, after)
    | _ => throw .malformed
  | cs =>
    let (key, rest) ← Reading.ofOption (key? fuel cs)
    let d ← Reading.ofOption (d.openTable key)
    match rest with
    | ']' :: after => return (d, after)
    | _ => throw .malformed

def assignment (fuel : Nat) (d : Document) (cs : List Char) : Reading (Document × List Char) := do
  let (key, rest) ← Reading.ofOption (key? fuel cs)
  let rest ← equals rest
  let (v, rest) ← value fuel rest
  return (← Reading.ofOption (d.assign key v), rest)

/-- Statements to the end; every statement takes a character, so the length of the text is
enough `fuel`. -/
def statements (fuel : Nat) (d : Document) (cs : List Char) : Reading Document :=
  match fuel with
  | 0 => .error .malformed
  | fuel + 1 => do
    match ← skipLines (fuel + 1) cs with
    | [] => return d
    | '[' :: rest =>
      let (d, rest) ← header fuel d rest
      statements fuel d (← endOfLine rest)
    | cs =>
      let (d, rest) ← assignment fuel d cs
      statements fuel d (← endOfLine rest)

def read (s : String) : Reading Fields := do
  let cs := s.toList
  return (← statements (2 * cs.length + 2) .empty cs).content

end CodeGraph.Toml
