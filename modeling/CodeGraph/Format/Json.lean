import CodeGraph.Value.Text
import CodeGraph.Decimal.Reader
import CodeGraph.Format.Fault

/-!
# JSON

`Json.read` reads one document into a value, keeping the order of fields; a
repeated key keeps its first place and its last value. `NaN` and the infinities
are accepted as numbers. `Json.write` writes on one line with a blank after each
comma and colon, and everything beyond ASCII by number; `Json.indented` spreads a
document over lines.

The digits of an integer are limited, the depth of a document is not.
-/

namespace CodeGraph.Json

/-! ## Reading -/

def isSpace (c : Char) : Bool :=
  c == ' ' || c == '\t' || c == '\n' || c == '\r'

def skip (cs : List Char) : List Char :=
  cs.dropWhile isSpace

/-- A part of a text: a character that stands for itself, or a code unit that is given by its
number. -/
inductive Part where
  | plain (c : Char)
  | unit (n : Nat)

def escaped? : Char → Option Char
  | '"' => some '"'
  | '\\' => some '\\'
  | '/' => some '/'
  | 'b' => some '\x08'
  | 'f' => some '\x0c'
  | 'n' => some '\n'
  | 'r' => some '\r'
  | 't' => some '\t'
  | _ => none

/-- The parts of a text up to its closing quote, and what follows. -/
def textParts : List Char → Option (List Part × List Char)
  | [] => none
  | '"' :: rest => some ([], rest)
  | '\\' :: 'u' :: a :: b :: c :: d :: rest => do
    let n ← Text.numberIn? 16 [a, b, c, d]
    let (parts, after) ← textParts rest
    return (.unit n :: parts, after)
  | '\\' :: c :: rest => do
    let c ← escaped? c
    let (parts, after) ← textParts rest
    return (.plain c :: parts, after)
  | c :: rest =>
    if c == '\\' || c.toNat < 32 then none
    else do
      let (parts, after) ← textParts rest
      return (.plain c :: parts, after)

def isHigh (n : Nat) : Bool := 0xD800 ≤ n && n < 0xDC00

def isLow (n : Nat) : Bool := 0xDC00 ≤ n && n < 0xE000

/-- The spelling of parts. Two surrogates that are given one after the other make one character;
one that stands alone stays what it is. -/
def joinParts : List Part → List Char
  | .unit high :: .unit low :: rest =>
    if isHigh high && isLow low then
      Char.ofNat (0x10000 + (high - 0xD800) * 0x400 + (low - 0xDC00)) :: joinParts rest
    else (Text.Point.ofCode high).spelling ++ joinParts (.unit low :: rest)
  | .unit n :: rest => (Text.Point.ofCode n).spelling ++ joinParts rest
  | .plain c :: rest => c :: joinParts rest
  | [] => []

def text (cs : List Char) : Option (String × List Char) := do
  let (parts, after) ← textParts cs
  return (String.ofList (joinParts parts), after)

def fieldName? : List Char → Option (String × List Char)
  | '"' :: rest => do
    let (key, rest) ← text rest
    match skip rest with
    | ':' :: rest => return (key, rest)
    | _ => none
  | _ => none

/-- The digits, point and exponent of a number without sign, whether it is whole, and what
follows. A zero is not followed by more digits. -/
def numberBody (cs : List Char) : Option (List Char × Bool × List Char) :=
  let whole := cs.takeWhile Char.isDigit
  let rest := cs.dropWhile Char.isDigit
  if whole.isEmpty || (whole.head? == some '0' && 1 < whole.length) then none
  else
    let (fraction, rest) :=
      match rest with
      | '.' :: c :: more =>
        if c.isDigit then
          ('.' :: c :: more.takeWhile Char.isDigit, more.dropWhile Char.isDigit)
        else ([], rest)
      | _ => ([], rest)
    let (power, rest) :=
      match rest with
      | e :: more =>
        let sign := (more.take 1).filter fun c => c == '+' || c == '-'
        let more := more.drop sign.length
        let ds := more.takeWhile Char.isDigit
        if (e == 'e' || e == 'E') && !ds.isEmpty then
          (e :: sign ++ ds, more.dropWhile Char.isDigit)
        else ([], rest)
      | [] => ([], rest)
    some (whole ++ fraction ++ power, fraction.isEmpty && power.isEmpty, rest)

def number (negative : Bool) (cs : List Char) : Reading (Value × List Char) := do
  let (body, whole, after) ← Reading.ofOption (numberBody cs)
  if whole then
    if Decimal.digitLimit < body.length then
      throw (.failure (Decimal.tooManyDigits body.length))
    let n : Int := Decimal.natOfDigits body
    return (.int (if negative then -n else n), after)
  else
    let scaled ← Reading.ofOption (Decimal.unsignedDecimal body)
    return (.float (Decimal.signed negative scaled.toFloat), after)

def startsWith (word : String) (cs : List Char) : Option (List Char) :=
  if word.toList.isPrefixOf cs then some (cs.drop word.length) else none

def infinity : Float := 1.0 / 0.0

def word? (cs : List Char) : Option (Value × List Char) :=
  (startsWith "null" cs).map (Value.null, ·) <|>
  (startsWith "true" cs).map (Value.bool true, ·) <|>
  (startsWith "false" cs).map (Value.bool false, ·) <|>
  (startsWith "NaN" cs).map (Value.float (0.0 / 0.0), ·) <|>
  (startsWith "Infinity" cs).map (Value.float infinity, ·) <|>
  (startsWith "-Infinity" cs).map (Value.float (-infinity), ·)

def scalar (cs : List Char) : Reading (Value × List Char) :=
  match word? cs, cs with
  | some found, _ => .ok found
  | none, '-' :: rest => number true rest
  | none, cs => number false cs

mutual

/-- One value; every step inwards takes at least one character, so the length of the text
is enough `fuel`. -/
def value (fuel : Nat) (cs : List Char) : Reading (Value × List Char) :=
  match fuel with
  | 0 => .error .malformed
  | fuel + 1 =>
    match cs with
    | '"' :: rest => (Reading.ofOption (text rest)).map fun (s, after) => (.str s, after)
    | '[' :: rest =>
      match skip rest with
      | ']' :: after => .ok (.list [], after)
      | rest => (items fuel rest).map fun (vs, after) => (.list vs, after)
    | '\x7b' :: rest =>
      match skip rest with
      | '\x7d' :: after => .ok (.record [], after)
      | rest => (members fuel [] rest).map fun (fields, after) => (.record fields, after)
    | _ => scalar cs

def items (fuel : Nat) (cs : List Char) : Reading (List Value × List Char) :=
  match fuel with
  | 0 => .error .malformed
  | fuel + 1 => do
    let (v, rest) ← value fuel (skip cs)
    match skip rest with
    | ',' :: rest =>
      let (vs, after) ← items fuel rest
      return (v :: vs, after)
    | ']' :: after => return ([v], after)
    | _ => throw .malformed

def members (fuel : Nat) (seen : Fields) (cs : List Char) : Reading (Fields × List Char) :=
  match fuel with
  | 0 => .error .malformed
  | fuel + 1 => do
    let (key, rest) ← Reading.ofOption (fieldName? (skip cs))
    let (v, rest) ← value fuel (skip rest)
    let seen := seen.put key v
    match skip rest with
    | ',' :: rest => members fuel seen rest
    | '\x7d' :: after => return (seen, after)
    | _ => throw .malformed

end

/-- A document is one value with nothing but blanks around it. -/
def read (s : String) : Reading Value := do
  let cs := s.toList
  let (v, rest) ← value (2 * cs.length + 2) (skip cs)
  if (skip rest).isEmpty then return v else throw .malformed

/-! ## Writing -/

def unitEscape (n : Nat) : List Char :=
  '\\' :: 'u' :: Text.hex 4 n

/-- The escape of a code point by its number, in two units beyond the first 65536. -/
def numberEscape (n : Nat) : List Char :=
  if n < 0x10000 then unitEscape n
  else
    let n := n - 0x10000
    unitEscape (0xD800 + n / 0x400) ++ unitEscape (0xDC00 + n % 0x400)

def escapePoint (p : Text.Point) : List Char :=
  match p with
  | .surrogate _ => numberEscape p.code
  | .char c =>
    if c == '"' then ['\\', '"']
    else if c == '\\' then ['\\', '\\']
    else if c == '\n' then ['\\', 'n']
    else if c == '\r' then ['\\', 'r']
    else if c == '\t' then ['\\', 't']
    else if c == '\x08' then ['\\', 'b']
    else if c == '\x0c' then ['\\', 'f']
    else if 32 ≤ c.toNat && c.toNat < 127 then [c]
    else numberEscape c.toNat

def writeText (s : String) : String :=
  String.ofList ('"' :: (Text.points s.toList).flatMap escapePoint ++ ['"'])

def writeFloat (x : Float) : String :=
  match Decimal.Binary.ofFloat x with
  | .nan => "NaN"
  | .infinite negative => if negative then "-Infinity" else "Infinity"
  | .finite _ => Decimal.written x

def writeScalar : Value → String
  | .null => "null"
  | .bool b => if b then "true" else "false"
  | .int n => Value.intText n
  | .float x => writeFloat x
  | .str s => writeText s
  | .list _ => "[]"
  | .record _ | .table _ => "\x7b\x7d"

/-- Keys are texts; the key of a table is spelled as the value it is. -/
def keyText : Value → String
  | .str s => s
  | v => writeScalar v

mutual

def write : Value → String
  | .list vs => "[" ++ ", ".intercalate (writeItems vs) ++ "]"
  | .record fields => "\x7b" ++ ", ".intercalate (writeFields fields) ++ "\x7d"
  | .table entries => "\x7b" ++ ", ".intercalate (writeEntries entries) ++ "\x7d"
  | v => writeScalar v

def writeItems : List Value → List String
  | [] => []
  | v :: rest => write v :: writeItems rest

def writeFields : List (String × Value) → List String
  | [] => []
  | (key, v) :: rest => (writeText key ++ ": " ++ write v) :: writeFields rest

def writeEntries : List (Value × Value) → List String
  | [] => []
  | (key, v) :: rest => (writeText (keyText key) ++ ": " ++ write v) :: writeEntries rest

end

def margin (depth : Nat) : String :=
  "\n" ++ String.ofList (List.replicate (2 * depth) ' ')

mutual

/-- One entry a line, two blanks deeper at each level; empty lists and records stay closed. -/
def indented (depth : Nat) : Value → String
  | .list (v :: vs) =>
    "[" ++ margin (depth + 1) ++ ("," ++ margin (depth + 1)).intercalate (indentedItems (depth + 1) (v :: vs)) ++
      margin depth ++ "]"
  | .record (field :: fields) =>
    "\x7b" ++ margin (depth + 1) ++
      ("," ++ margin (depth + 1)).intercalate (indentedFields (depth + 1) (field :: fields)) ++
      margin depth ++ "\x7d"
  | .table (entry :: entries) =>
    "\x7b" ++ margin (depth + 1) ++
      ("," ++ margin (depth + 1)).intercalate (indentedEntries (depth + 1) (entry :: entries)) ++
      margin depth ++ "\x7d"
  | v => writeScalar v

def indentedItems (depth : Nat) : List Value → List String
  | [] => []
  | v :: rest => indented depth v :: indentedItems depth rest

def indentedFields (depth : Nat) : List (String × Value) → List String
  | [] => []
  | (key, v) :: rest => (writeText key ++ ": " ++ indented depth v) :: indentedFields depth rest

def indentedEntries (depth : Nat) : List (Value × Value) → List String
  | [] => []
  | (key, v) :: rest =>
    (writeText (keyText key) ++ ": " ++ indented depth v) :: indentedEntries depth rest

end

end CodeGraph.Json
