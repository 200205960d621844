import CodeGraph.Decimal.Reader
import CodeGraph.Format.Timestamp

/-!
# Single values of TOML

Strings, numbers, truth values, dates and times. A reader takes as much of the
text as belongs to the value and answers the value with what is left.
-/

namespace CodeGraph.Toml

def isSpace (c : Char) : Bool :=
  c == ' ' || c == '\t'

def isSpaceOrBreak (c : Char) : Bool :=
  isSpace c || c == '\n'

def isControl (c : Char) : Bool :=
  (c.toNat < 32 && c != '\t') || c.toNat == 127

/-! ## Strings -/

def escapes : List (Char × Char) :=
  [('b', '\x08'), ('t', '\t'), ('n', '\n'), ('f', '\x0c'), ('r', '\r'), ('"', '"'), ('\\', '\\')]

def escapeWidth? : Char → Option Nat
  | 'u' => some 4
  | 'U' => some 8
  | _ => none

def numbered? (width : Nat) (cs : List Char) : Option Char := do
  let ds := cs.take width
  let n ← Text.numberIn? 16 ds
  if ds.length = width ∧ n.isValidChar then some (Char.ofNat n) else none

/-- The spelling of what the characters after a backslash stand for, and how many of them do. -/
def escape? : List Char → Option (List Char × Nat)
  | [] => none
  | e :: digits =>
    match escapes.lookup e, escapeWidth? e with
    | some c, _ => some ([c], 1)
    | none, some width =>
      (numbered? width digits).map fun c => ((Text.Point.char c).spelling, width + 1)
    | none, none => none

/-- How many blanks and line breaks a backslash at the end of a line takes away. -/
def joining? (cs : List Char) : Option Nat :=
  let run := cs.takeWhile isSpaceOrBreak
  if run.contains '\n' then some run.length else none

/-- The characters up to the closing quote, behind those `seen`, which are kept in reverse;
`skip` characters belong to an escape that is read already. -/
def basicText (seen : List Char) (skip : Nat) : List Char → Option (List Char × List Char)
  | [] => none
  | c :: rest =>
    match skip with
    | k + 1 => basicText seen k rest
    | 0 =>
      if c == '"' then some (seen.reverse, rest)
      else if c == '\\' then
        match escape? rest with
        | some (meant, width) => basicText (meant.reverse ++ seen) width rest
        | none => none
      else if isControl c then none
      else basicText (c :: seen) 0 rest

/-- The same for a string over several lines, which three quotes close. -/
def longBasicText (seen : List Char) (skip : Nat) : List Char → Option (List Char × List Char)
  | [] => none
  | c :: rest =>
    match skip with
    | k + 1 => longBasicText seen k rest
    | 0 =>
      if ['"', '"', '"'].isPrefixOf (c :: rest) then some (seen.reverse, rest.drop 2)
      else if c == '\\' then
        match joining? rest, escape? rest with
        | some width, _ => longBasicText seen width rest
        | none, some (meant, width) => longBasicText (meant.reverse ++ seen) width rest
        | none, none => none
      else if isControl c && c != '\n' then none
      else longBasicText (c :: seen) 0 rest

/-- The characters up to the closing quote, without escapes. -/
def literalText (seen : List Char) : List Char → Option (List Char × List Char)
  | [] => none
  | c :: rest =>
    if c == '\'' then some (seen.reverse, rest)
    else if isControl c then none
    else literalText (c :: seen) rest

def longLiteralText (seen : List Char) : List Char → Option (List Char × List Char)
  | [] => none
  | c :: rest =>
    if ['\'', '\'', '\''].isPrefixOf (c :: rest) then some (seen.reverse, rest.drop 2)
    else if isControl c && c != '\n' then none
    else longLiteralText (c :: seen) rest

/-- A line break right behind the opening quotes does not count. -/
def dropBreak : List Char → List Char
  | '\n' :: rest => rest
  | cs => cs

/-- Up to two quotes may stand before the three that close a string. -/
def withQuotes (quote : Char) : List Char × List Char → List Char × List Char
  | (text, rest) =>
    let more := (rest.take 2).takeWhile (· == quote)
    (text ++ more, rest.drop more.length)

def shortText? : List Char → Option (String × List Char)
  | '"' :: rest => (basicText [] 0 rest).map fun (cs, after) => (String.ofList cs, after)
  | '\'' :: rest => (literalText [] rest).map fun (cs, after) => (String.ofList cs, after)
  | _ => none

def text? (cs : List Char) : Option (String × List Char) :=
  match cs with
  | '"' :: '"' :: '"' :: rest => long '"' (longBasicText [] 0 (dropBreak rest))
  | '\'' :: '\'' :: '\'' :: rest => long '\'' (longLiteralText [] (dropBreak rest))
  | cs => shortText? cs
where
  long (quote : Char) (read : Option (List Char × List Char)) : Option (String × List Char) :=
    read.map fun parts =>
      let (text, after) := withQuotes quote parts
      (String.ofList text, after)

/-! ## Numbers -/

/-- A run of digits of a base with single underscores inside; `inside` says that a digit came
just before. -/
def digitRun (base : Nat) (inside : Bool) : List Char → List Char × List Char
  | [] => ([], [])
  | c :: rest =>
    if (Text.digitIn? base c).isSome then
      let (ds, after) := digitRun base true rest
      (c :: ds, after)
    else if c == '_' && inside && rest.head?.any (fun d => (Text.digitIn? base d).isSome) then
      digitRun base false rest
    else ([], c :: rest)

/-- A whole number in a base that its beginning names. -/
def radix? : List Char → Option (Value × List Char)
  | '0' :: 'x' :: rest => natural 16 rest
  | '0' :: 'o' :: rest => natural 8 rest
  | '0' :: 'b' :: rest => natural 2 rest
  | _ => none
where
  natural (base : Nat) (cs : List Char) : Option (Value × List Char) :=
    match digitRun base false cs with
    | ([], _) => none
    | (ds, after) => (Text.numberIn? base ds).map fun n => (.int n, after)

/-- The digits before the point; a number begins with zero only if that is all. -/
def wholePart : List Char → List Char × List Char
  | '0' :: rest => (['0'], rest)
  | cs => digitRun 10 false cs

def fractionPart : List Char → List Char × List Char
  | '.' :: rest =>
    match digitRun 10 false rest with
    | ([], _) => ([], '.' :: rest)
    | parts => parts
  | cs => ([], cs)

def exponentPart (cs : List Char) : Option Int × List Char :=
  match cs with
  | 'e' :: rest | 'E' :: rest =>
    let (negative, rest) := Decimal.splitSign rest
    match digitRun 10 false rest with
    | ([], _) => (none, cs)
    | (ds, after) =>
      let n : Int := Decimal.natOfDigits ds
      (some (if negative then -n else n), after)
  | cs => (none, cs)

def boundless (negative : Bool) : List Char → Option (Value × List Char)
  | 'i' :: 'n' :: 'f' :: rest => some (.float (Decimal.signed negative (1.0 / 0.0)), rest)
  | 'n' :: 'a' :: 'n' :: rest => some (.float (0.0 / 0.0), rest)
  | _ => none

/-- A number in decimal digits with a sign, or one of the words for what is no such number. -/
def decimal (cs : List Char) : Reading (Value × List Char) :=
  let (negative, body) := Decimal.splitSign cs
  match wholePart body with
  | ([], _) => Reading.ofOption (boundless negative body)
  | (whole, rest) =>
    let (fraction, rest) := fractionPart rest
    let (exponent, rest) := exponentPart rest
    if fraction.isEmpty && exponent.isNone then
      let n : Int := Decimal.natOfDigits whole
      if Decimal.digitLimit < whole.length then
        .error (.failure (Decimal.tooManyDigits whole.length))
      else .ok (.int (if negative then -n else n), rest)
    else
      let scaled : Decimal.Scaled :=
        ⟨Decimal.natOfDigits (whole ++ fraction), exponent.getD 0 - (fraction.length : Int)⟩
      .ok (.float (Decimal.signed negative scaled.toFloat), rest)

/-! ## Dates and times -/

namespace DateText

open Timestamp (number expect)

def twoDigits (least most : Nat) (cs : List Char) : Option (Nat × List Char) :=
  (number 2 2 cs).filter fun (n, _) => least ≤ n && n ≤ most

def fraction : List Char → List Char × List Char
  | '.' :: rest =>
    if rest.head?.any Char.isDigit then (rest.takeWhile Char.isDigit, rest.dropWhile Char.isDigit)
    else ([], '.' :: rest)
  | cs => ([], cs)

def time? (cs : List Char) : Option (TimeOfDay × List Char) := do
  let (hour, cs) ← twoDigits 0 23 cs
  let (minute, cs) ← twoDigits 0 59 (← expect ':' cs)
  let (second, cs) ← twoDigits 0 59 (← expect ':' cs)
  let (ds, cs) := fraction cs
  return (⟨hour, minute, second, Timestamp.microsOf ds, none⟩, cs)

def offset? : List Char → Option (Int × List Char)
  | 'Z' :: rest | 'z' :: rest => some (0, rest)
  | '+' :: rest => (minutes rest).map fun (n, after) => ((n : Int), after)
  | '-' :: rest => (minutes rest).map fun (n, after) => (-(n : Int), after)
  | _ => none
where
  minutes (cs : List Char) : Option (Nat × List Char) := do
    let (hour, cs) ← twoDigits 0 23 cs
    let (minute, cs) ← twoDigits 0 59 (← expect ':' cs)
    return (60 * hour + minute, cs)

def timeAfter? : List Char → Option (TimeOfDay × List Char)
  | c :: rest =>
    if ['T', 't', ' '].contains c then
      (time? rest).map fun (time, after) =>
        match offset? after with
        | some (offset, after) => ({ time with offset := some offset }, after)
        | none => (time, after)
    else none
  | [] => none

def timestamp? (cs : List Char) : Option (Timestamp × List Char) := do
  let (year, cs) ← number 4 4 cs
  let (month, cs) ← twoDigits 1 12 (← expect '-' cs)
  let (day, cs) ← twoDigits 1 31 (← expect '-' cs)
  match timeAfter? cs with
  | some (time, cs) => return (⟨year, month, day, some time⟩, cs)
  | none => return (⟨year, month, day, none⟩, cs)

end DateText

/-- A date or a time of day, if one is written here. -/
def date? (cs : List Char) : Option (Reading (Value × List Char)) :=
  match DateText.timestamp? cs with
  | some (t, after) =>
    match t.check with
    | .ok () => some (.ok (.str t.text, after))
    | .error _ => some (.error .malformed)
  | none => (DateText.time? cs).map fun (t, after) => .ok (.str (Timestamp.timeText t), after)

/-! ## All of them -/

def truth? : List Char → Option (Value × List Char)
  | 't' :: 'r' :: 'u' :: 'e' :: rest => some (.bool true, rest)
  | 'f' :: 'a' :: 'l' :: 's' :: 'e' :: rest => some (.bool false, rest)
  | _ => none

def scalar (cs : List Char) : Reading (Value × List Char) :=
  match cs with
  | '"' :: _ | '\'' :: _ => Reading.ofOption ((text? cs).map fun (s, after) => (.str s, after))
  | _ =>
    match truth? cs, date? cs, radix? cs with
    | some found, _, _ => .ok found
    | none, some read, _ => read
    | none, none, some found => .ok found
    | none, none, none => decimal cs

end CodeGraph.Toml
