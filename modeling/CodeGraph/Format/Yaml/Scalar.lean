import CodeGraph.Decimal.Reader
import CodeGraph.Format.Yaml.Timestamp
import CodeGraph.Text.Case

/-!
# YAML scalars

A plain scalar has a tag by what its text looks like: nothing, a truth value, a
number, a date, a mark with a meaning of its own or, failing all these, a text.
Whole numbers may be written in base two, eight, sixteen and sixty, and a number
with an exponent needs a point and a sign before the exponent. A scalar's tag then
says how its text is read, also when the tag was written and the text does not
look like it.
-/

namespace CodeGraph.Yaml

/-! ## Tags -/

namespace Tag

/-- What the usual tags begin with. -/
def common : String := "tag:yaml.org,2002:"

def null : String := common ++ "null"
def bool : String := common ++ "bool"
def int : String := common ++ "int"
def float : String := common ++ "float"
def str : String := common ++ "str"
def seq : String := common ++ "seq"
def map : String := common ++ "map"
def set : String := common ++ "set"
def orderedMap : String := common ++ "omap"
def pairs : String := common ++ "pairs"
def timestamp : String := common ++ "timestamp"

/-- A key under which a mapping takes on the entries of others. -/
def merge : String := common ++ "merge"

/-- A key under which a mapping has the scalar that it stands for. -/
def value : String := common ++ "value"

end Tag

/-! ## What texts look like -/

def nullWords : List String :=
  ["", "~", "null", "Null", "NULL"]

def boolWords : List String :=
  ["yes", "Yes", "YES", "no", "No", "NO", "true", "True", "TRUE", "false", "False", "FALSE",
    "on", "On", "ON", "off", "Off", "OFF"]

def infinityWords : List String :=
  [".inf", ".Inf", ".INF"]

def nanWords : List String :=
  [".nan", ".NaN", ".NAN"]

/-- Digits of some kind and underscores, at least one of either. -/
def isDigits (p : Char → Bool) (cs : List Char) : Bool :=
  !cs.isEmpty && cs.all fun c => p c || c == '_'

def isDigitOrLine (c : Char) : Bool :=
  c.isDigit || c == '_'

/-- Groups of a number in base sixty, each behind a colon, and what follows them. -/
def sixties (fuel : Nat) (cs : List Char) : Nat × List Char :=
  match fuel, cs with
  | fuel + 1, ':' :: a :: b :: rest =>
    if '0' ≤ a && a ≤ '5' && b.isDigit then next fuel rest
    else if a.isDigit then next fuel (b :: rest)
    else (0, cs)
  | _, [':', a] => if a.isDigit then (1, []) else (0, cs)
  | _, cs => (0, cs)
where
  next (fuel : Nat) (rest : List Char) : Nat × List Char :=
    let (count, after) := sixties fuel rest
    (count + 1, after)

def isSixties (cs : List Char) : Bool :=
  let (count, after) := sixties cs.length cs
  0 < count && after.isEmpty

def looksInt : List Char → Bool
  | '0' :: 'b' :: rest => isDigits (fun c => c == '0' || c == '1') rest
  | '0' :: 'x' :: rest => isDigits isHexDigit rest
  | ['0'] => true
  | '0' :: rest => isDigits (fun c => '0' ≤ c && c ≤ '7') rest
  | c :: rest =>
    c.isDigit &&
      (let after := rest.dropWhile isDigitOrLine
      after.isEmpty || isSixties after)
  | [] => false

def isExponent : List Char → Bool
  | [] => true
  | e :: sign :: digit :: rest =>
    (e == 'e' || e == 'E') && (sign == '+' || sign == '-') && (digit :: rest).all Char.isDigit
  | _ => false

/-- A decimal fraction without its sign: a point behind digits, or before one. -/
def looksFraction (signed : Bool) : List Char → Bool
  | '.' :: c :: rest => !signed && c.isDigit && isExponent (rest.dropWhile isDigitOrLine)
  | c :: rest =>
    c.isDigit &&
      match rest.dropWhile isDigitOrLine with
      | '.' :: rest => isExponent (rest.dropWhile isDigitOrLine)
      | after =>
        match sixties after.length after with
        | (_ + 1, '.' :: rest) => rest.all isDigitOrLine
        | _ => false
  | [] => false

def looksFloat (cs : List Char) : Bool :=
  let (_, body) := Decimal.splitSign cs
  looksFraction (body.length < cs.length) body || infinityWords.contains (String.ofList body) ||
    nanWords.contains (String.ofList cs)

def Tag.ofPlain (text : String) : String :=
  let cs := text.toList
  if boolWords.contains text then Tag.bool
  else if looksFloat cs then Tag.float
  else if looksInt (Decimal.splitSign cs).2 then Tag.int
  else if text == "<<" then Tag.merge
  else if nullWords.contains text then Tag.null
  else if looksTimestamp cs then Tag.timestamp
  else if text == "=" then Tag.value
  else Tag.str

/-! ## What texts are read as -/

def invalidInt (base : Nat) (text : String) : Fault :=
  .failure (.argument (.stated s!"invalid literal for int() with base {base}: {Text.quoted text}"))

/-- The letter that may mark the digits of a base. -/
def baseLetter (base : Nat) : Option Char :=
  if base = 2 then some 'b' else if base = 8 then some 'o' else if base = 16 then some 'x' else none

def unmarked (base : Nat) (cs : List Char) : List Char :=
  match cs with
  | '0' :: letter :: rest =>
    if baseLetter base == some letter.toLower then rest else cs
  | cs => cs

/-- A whole number in digits of a base, with a sign and blanks around it. -/
def wholeIn (base : Nat) (cs : List Char) : Reading Int :=
  let text := String.ofList cs
  let (negative, body) := Decimal.splitSign ((Text.trim cs).map Text.plainDigit)
  let ds := unmarked base body
  match Text.numberIn? base ds with
  | some n =>
    if ds.isEmpty then .error (invalidInt base text)
    else if base = 10 && Decimal.digitLimit < ds.length then
      .error (.failure (Decimal.tooManyDigits ds.length))
    else .ok (if negative then -(n : Int) else n)
  | none => .error (invalidInt base text)

/-- The sign of a number as written, and what follows it; there has to be something. -/
def signedBody (cs : List Char) : Reading (Bool × List Char) :=
  if cs.isEmpty then .error (.failure .outOfRange) else .ok (Decimal.splitSign cs)

def signedInt (negative : Bool) (n : Int) : Value :=
  .int (if negative then -n else n)

def readInt (text : String) : Reading Value := do
  let (negative, body) ← signedBody (text.toList.filter (· != '_'))
  let whole (base : Nat) (cs : List Char) : Reading Value := do
    return signedInt negative (← wholeIn base cs)
  match body with
  | ['0'] => return .int 0
  | '0' :: 'b' :: rest => whole 2 rest
  | '0' :: 'x' :: rest => whole 16 rest
  | '0' :: _ => whole 8 body
  | [] => throw (.failure .outOfRange)
  | body =>
    if body.contains ':' then
      let groups ← (String.ofList body).splitOn ":" |>.mapM fun part => wholeIn 10 part.toList
      return signedInt negative (groups.foldl (fun n group => 60 * n + group) 0)
    else whole 10 body

def readFraction (cs : List Char) : Reading Float :=
  match Decimal.readDouble (String.ofList cs) with
  | some x => .ok x
  | none => .error (.failure (.argument (.unreadableNumber (String.ofList cs))))

/-- A sum of groups in base sixty, the last group first. -/
def sumOfSixties (groups : List Float) : Float :=
  (groups.reverse.zipIdx.foldl
    (fun sum (group, place) => sum + group * Decimal.ofInt (Nat.pow 60 place)) 0.0)

def readFloat (text : String) : Reading Value := do
  let (negative, body) ← signedBody ((Text.lower text).toList.filter (· != '_'))
  let signed (x : Float) : Value := .float (if negative then -1.0 * x else x)
  if body == ".inf".toList then return signed (1.0 / 0.0)
  if body == ".nan".toList then return .float (0.0 / 0.0)
  if body.contains ':' then
    let groups ← (String.ofList body).splitOn ":" |>.mapM fun part => readFraction part.toList
    return signed (sumOfSixties groups)
  return signed (← readFraction body)

def truthWords : List (String × Bool) :=
  [("yes", true), ("no", false), ("true", true), ("false", false), ("on", true), ("off", false)]

def readBool (text : String) : Reading Value :=
  match truthWords.lookup (Text.lower text) with
  | some b => .ok (.bool b)
  | none => .error (.failure (.missingKey (.str (Text.lower text))))

def readTimestamp (text : String) : Reading Value := do
  match timestamp? 1 text.toList with
  | some t =>
    match t.check with
    | .ok () => return .str t.text
    | .error cause => throw (.failure cause)
  | none => throw (.failure (.noMember "NoneType" "groupdict"))

/-- How a scalar is read, by its tag; absent for tags that are not those of scalars. -/
def scalarReader? (tag : String) : Option (String → Reading Value) :=
  [(Tag.null, fun _ => .ok .null), (Tag.bool, readBool), (Tag.int, readInt),
    (Tag.float, readFloat), (Tag.str, fun text => .ok (.str text)),
    (Tag.timestamp, readTimestamp)].lookup tag

end CodeGraph.Yaml
