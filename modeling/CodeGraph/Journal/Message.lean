import CodeGraph.Decimal.Figures
import CodeGraph.Text.Radix
import CodeGraph.Value.Reading

/-!
# Messages with arguments

A message may leave places for arguments. A place begins with a percent sign and
ends with a letter that says how its argument is written; in between stand, in
this order, a name in brackets, flags, a width, a precision and a size mark that
means nothing. A star takes the width or the precision from the arguments.

Arguments are taken in order. A mapping by itself also gives them by name: a
place with a name has the value under that name for its only argument.
-/

namespace CodeGraph.Message

/-! ## Arguments -/

structure Arguments where
  /-- Where names are looked up. -/
  names : Option Value
  /-- What has not been taken yet. -/
  rest : List Value

namespace Arguments

def single (v : Value) : Arguments :=
  match v with
  | .list _ | .record _ | .table _ => ⟨some v, [v]⟩
  | v => ⟨none, [v]⟩

/-- Arguments in order; a non-empty mapping that comes alone stands by itself. -/
def ofList : List Value → Arguments
  | [v] => if v.truthy && v.entries?.isSome then single v else ⟨none, [v]⟩
  | args => ⟨none, args⟩

def take (args : Arguments) : Except Failure (Value × Arguments) :=
  match args.rest with
  | v :: rest => .ok (v, { args with rest := rest })
  | [] => .error (.wrongType .missingArguments)

/-- Make the value under a name the only argument. -/
def select (args : Arguments) (source : Value) (name : String) : Except Failure Arguments :=
  match source.entries? with
  | none => .error (.wrongType (.notInteger "str"))
  | some entries =>
    match Entries.get? entries (.str name) with
    | some v => .ok { args with rest := [v] }
    | none => .error (.missingKey (.str name))

def takeInt (args : Arguments) : Except Failure (Int × Arguments) := do
  let (v, args) ← args.take
  match v.asInt? with
  | some n => return (n, args)
  | none => throw (.wrongType (.notInteger v.typeName))

end Arguments

/-! ## Places -/

structure Spec where
  flags : List Char
  width : Nat
  precision : Option Nat
  conversion : Char
  /-- The code point of the conversion. -/
  code : Nat
  /-- Where in the template the conversion stands. -/
  position : Nat

def incomplete : Failure :=
  .argument (.stated "incomplete format")

def incompleteKey : Failure :=
  .argument (.stated "incomplete format key")

def Spec.unsupported (s : Spec) : Failure :=
  let code := String.ofList (Nat.toDigits 16 s.code)
  let shown := if 31 ≤ s.code && s.code < 127 then s.conversion else '?'
  .argument (.stated s!"unsupported format character '{shown}' (0x{code}) at index {s.position}")

/-- A text up to the bracket that closes it, `depth` brackets being open, and what follows. -/
def bracketed (depth : Nat) : List Char → Option (List Char × List Char)
  | [] => none
  | c :: rest =>
    if c == ')' && depth == 0 then some ([], rest)
    else
      let depth := if c == '(' then depth + 1 else if c == ')' then depth - 1 else depth
      (bracketed depth rest).map fun (name, after) => (c :: name, after)

def keyPart (args : Arguments) (cs : List Char) : Except Failure (Arguments × List Char) :=
  match cs, args.names with
  | '(' :: rest, some source =>
    match bracketed 0 rest with
    | some (name, after) => do return (← args.select source (String.ofList name), after)
    | none => .error incompleteKey
  | '(' :: _, none => .error (.wrongType (.notMapping "tuple"))
  | cs, _ => .ok (args, cs)

def isFlag (c : Char) : Bool :=
  c == '-' || c == '+' || c == ' ' || c == '0' || c == '#'

def widthLimit : Nat := Nat.pow 2 63 - 1

def precisionLimit : Nat := Nat.pow 2 31 - 1

def numberPart (limit : Nat) (what : String) (cs : List Char) : Except Failure (Nat × List Char) :=
  let n := Decimal.natOfDigits (cs.takeWhile Char.isDigit)
  if n ≤ limit then .ok (n, cs.dropWhile Char.isDigit)
  else .error (.argument (.stated s!"{what} too big"))

/-- A number in the arguments, which may be negative. -/
def starPart (limit : Nat) (args : Arguments) : Except Failure (Int × Arguments) := do
  let (n, args) ← args.takeInt
  if n < -(limit : Int) - 1 || (limit : Int) < n then
    throw (.overflow "integer too large to convert")
  return (n, args)

/-- The width; a negative one stands for a flag as well. -/
def widthPart (args : Arguments) (cs : List Char) :
    Except Failure (List Char × Nat × Arguments × List Char) := do
  match cs with
  | '*' :: rest =>
    let (n, args) ← starPart widthLimit args
    return (if n < 0 then ['-'] else [], n.natAbs, args, rest)
  | cs =>
    let (n, rest) ← numberPart widthLimit "width" cs
    return ([], n, args, rest)

def precisionPart (args : Arguments) (cs : List Char) :
    Except Failure (Option Nat × Arguments × List Char) := do
  match cs with
  | '.' :: '*' :: rest =>
    let (n, args) ← starPart precisionLimit args
    return (some n.toNat, args, rest)
  | '.' :: rest =>
    let (n, rest) ← numberPart precisionLimit "precision" rest
    return (some n, args, rest)
  | cs => return (none, args, cs)

/-- One mark of size is passed over. -/
def sizePart : List Char → List Char
  | c :: rest => if c == 'h' || c == 'l' || c == 'L' then rest else c :: rest
  | [] => []

/-- The place that begins behind a percent sign; `length` is how many code points the whole
template has. -/
def spec (length : Nat) (args : Arguments) (cs : List Char) :
    Except Failure (Spec × Arguments × List Char) := do
  let (args, cs) ← keyPart args cs
  let flags := cs.takeWhile isFlag
  let (more, width, args, cs) ← widthPart args (cs.dropWhile isFlag)
  let (precision, args, cs) ← precisionPart args cs
  match sizePart cs with
  | [] => throw incomplete
  | c :: after =>
    let points := Text.points (c :: after)
    let code := (points.head?.map Text.Point.code).getD 0
    return (⟨flags ++ more, width, precision, c, code, length - points.length⟩, args, after)

/-! ## Writing an argument -/

def wholeOf (v : Value) : Except Failure Int :=
  match v with
  | .float x =>
    match Decimal.Binary.ofFloat x with
    | .finite d => .ok (if d.negative then d.toRat.ceil else d.toRat.floor)
    | .nan => .error (.argument (.stated "cannot convert float NaN to integer"))
    | .infinite _ => .error (.overflow "cannot convert float infinity to integer")
  | v =>
    match v.asInt? with
    | some n => .ok n
    | none => .error (.wrongType (.notReal v.typeName))

def integerOf (v : Value) : Except Failure Int :=
  match v.asInt? with
  | some n => .ok n
  | none => .error (.wrongType (.notInteger v.typeName))

/-- Sign and digits of a whole number: at least as many as the precision says, behind a mark of
the base if that is asked for. -/
def Spec.digits (s : Spec) (base : Nat) (mark : String) (n : Int) : String × List Char :=
  let ds := Nat.toDigits base n.natAbs
  let zeros := List.replicate (s.precision.getD 0 - ds.length) '0'
  let sign := if n < 0 then "-" else ""
  (if s.flags.contains '#' then sign ++ mark else sign, zeros ++ ds)

def Spec.figures (s : Spec) (style : Decimal.Style) (v : Value) :
    Except Failure (String × List Char) := do
  let (negative, figures) :=
    Decimal.figures style (s.precision.getD 6) (s.flags.contains '#') (← v.addend)
  return (if negative then "-" else "", figures)

/-- A text without the code points beyond the first 128, which are written by their numbers. -/
def asciiText (text : String) : List Char :=
  (Text.points text.toList).flatMap fun p =>
    if p.code < 0x80 then p.spelling else Text.escapeNumber p.code

/-- A single code point, given as such or by its number. -/
def character (v : Value) : Except Failure Text.Point :=
  match v with
  | .str s =>
    match Text.points s.toList with
    | [p] => .ok p
    | _ => .error (.wrongType (.notInteger "str"))
  | v =>
    match v.asInt? with
    | some n =>
      if 0 ≤ n && n < 0x110000 then .ok (.ofCode n.toNat)
      else .error (.overflow "%c arg not in range(0x110000)")
    | none => .error (.wrongType (.notInteger v.typeName))

/-- Sign and body of an argument; texts have no sign. -/
def Spec.body (s : Spec) (v : Value) : Except Failure (String × List Char) :=
  match s.conversion with
  | 's' => .ok ("", cut v.text.toList)
  | 'r' => .ok ("", cut v.shown.toList)
  | 'a' => .ok ("", cut (asciiText v.shown))
  | 'd' | 'i' | 'u' => do return s.digits 10 "" (← wholeOf v)
  | 'x' => do return s.digits 16 "0x" (← integerOf v)
  | 'X' => do return raised (s.digits 16 "0X" (← integerOf v))
  | 'o' => do return s.digits 8 "0o" (← integerOf v)
  | 'f' => s.figures .fixed v
  | 'F' => do return raised (← s.figures .fixed v)
  | 'e' => s.figures .scientific v
  | 'E' => do return raised (← s.figures .scientific v)
  | 'g' => s.figures .general v
  | 'G' => do return raised (← s.figures .general v)
  | 'c' => do return ("", (← character v).spelling)
  | _ => .error s.unsupported
where
  raised (parts : String × List Char) : String × List Char :=
    (parts.1, parts.2.map Char.toUpper)
  cut (cs : List Char) : List Char :=
    match s.precision with
    | some k => Text.spelling ((Text.points cs).take k)
    | none => cs

/-- Conversions that write numbers, with a sign. -/
def isNumeric (c : Char) : Bool :=
  !(['s', 'r', 'a', 'c'].contains c)

/-- An argument in its place: signed, and filled up to the width. -/
def Spec.place (s : Spec) (v : Value) : Except Failure (List Char) := do
  let (sign, body) ← s.body v
  let sign :=
    if isNumeric s.conversion && sign.toList.head? != some '-' then
      if s.flags.contains '+' then "+" ++ sign
      else if s.flags.contains ' ' then " " ++ sign
      else sign
    else sign
  let sign := sign.toList
  let fill (c : Char) := List.replicate (s.width - (sign.length + (Text.points body).length)) c
  if s.flags.contains '-' then return sign ++ body ++ fill ' '
  else if s.flags.contains '0' && isNumeric s.conversion then return sign ++ fill '0' ++ body
  else return fill ' ' ++ sign ++ body

/-! ## Filling a template -/

/-- What stands for a place, and the arguments left. With names, no argument may be left that was
there for the place. -/
def fillPlace (s : Spec) (args : Arguments) : Except Failure (List Char × Arguments) := do
  let (v, args) ← args.take
  let text ← s.place v
  if args.names.isSome && !args.rest.isEmpty then throw (.wrongType .surplusArguments)
  return (text, args)

/-- Fill the places from the left. Every place takes a character, so the length of the template
is enough `fuel`. -/
def fill (fuel length : Nat) (args : Arguments) (cs : List Char) : Except Failure (List Char) :=
  match fuel with
  | 0 => .ok []
  | fuel + 1 =>
    match cs with
    | [] =>
      if args.names.isNone && !args.rest.isEmpty then .error (.wrongType .surplusArguments)
      else .ok []
    | '%' :: '%' :: rest => do return '%' :: (← fill fuel length args rest)
    | '%' :: rest => do
      let (s, args, rest) ← spec length args rest
      let (text, args) ← fillPlace s args
      return text ++ (← fill fuel length args rest)
    | c :: rest => do return c :: (← fill fuel length args rest)

def format (message : String) (args : Arguments) : Except Failure String :=
  let cs := message.toList
  (fill (cs.length + 1) (Text.points cs).length args cs).map String.ofList

end CodeGraph.Message
