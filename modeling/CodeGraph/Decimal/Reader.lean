import CodeGraph.Decimal.Rounding
import CodeGraph.Failure
import CodeGraph.Text.Blank
import CodeGraph.Text.Digit

/-!
# Reading numbers

A written double: an optional sign, digits with an optional point and exponent,
where a single underscore may separate two digits, or one of the words `inf`,
`infinity` and `nan` in any case. Blanks around it do not count, and the digits
may be those of any script.
-/

namespace CodeGraph.Decimal

def digitValue (c : Char) : Nat :=
  c.toNat - '0'.toNat

def natOfDigits (ds : List Char) : Nat :=
  ds.foldl (fun n c => 10 * n + digitValue c) 0

/-- A run of digits with single underscores inside, and what follows it; `inside` says that a
digit came just before. -/
def digitRun (inside : Bool) : List Char → List Char × List Char
  | [] => ([], [])
  | c :: rest =>
    if c.isDigit then
      let (ds, after) := digitRun true rest
      (c :: ds, after)
    else if c == '_' && inside && rest.head?.any Char.isDigit then digitRun false rest
    else ([], c :: rest)

def splitSign : List Char → Bool × List Char
  | '-' :: rest => (true, rest)
  | '+' :: rest => (false, rest)
  | cs => (false, cs)

/-- The exponent that ends a number; `none` when what is left is something else. -/
def exponentPart : List Char → Option Int
  | [] => some 0
  | c :: rest =>
    if c == 'e' || c == 'E' then
      let (negative, rest) := splitSign rest
      match digitRun false rest with
      | ([], _) => none
      | (ds, []) => some (if negative then -(natOfDigits ds : Int) else natOfDigits ds)
      | _ => none
    else none

def unsignedDecimal (cs : List Char) : Option Scaled :=
  let (whole, rest) := digitRun false cs
  let (fraction, rest) :=
    match rest with
    | '.' :: more => digitRun false more
    | _ => ([], rest)
  if whole.isEmpty && fraction.isEmpty then none
  else (exponentPart rest).map fun e => ⟨natOfDigits (whole ++ fraction), e - (fraction.length : Int)⟩

/-- Whole numbers with more digits than this are not read. -/
def digitLimit : Nat := 4300

def tooManyDigits (count : Nat) : Failure :=
  .argument (.stated (s!"Exceeds the limit ({digitLimit} digits) for integer string conversion: " ++
    s!"value has {count} digits; use sys.set_int_max_str_digits() to increase the limit"))

/-- A written integer, with the same freedom as a double. -/
def readInt (s : String) : Option Int :=
  let (negative, body) := splitSign ((Text.trim s.toList).map Text.plainDigit)
  match digitRun false body with
  | ([], _) => none
  | (ds, []) => some (if negative then -(natOfDigits ds : Int) else natOfDigits ds)
  | _ => none

def readDouble (s : String) : Option Float :=
  let (negative, body) := splitSign ((Text.trim s.toList).map Text.plainDigit)
  let word := String.ofList (body.map Char.toLower)
  if word == "inf" || word == "infinity" then some (signed negative (1.0 / 0.0))
  else if word == "nan" then some (0.0 / 0.0)
  else (unsignedDecimal body).map fun scaled => signed negative scaled.toFloat

end CodeGraph.Decimal
