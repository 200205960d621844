import CodeGraph.Format.Timestamp
import CodeGraph.Format.Yaml.Cursor
import CodeGraph.Text.Radix

/-!
# Dates in YAML texts

Months, days and hours may have a single digit, and blanks may take the place of
the letter between date and time.
-/

namespace CodeGraph.Yaml

open Timestamp (number expect)

namespace DateText

def between (cs : List Char) : Option (List Char) :=
  match cs with
  | 'T' :: rest | 't' :: rest => some rest
  | cs => if cs.head?.any isTabOrSpace then some (cs.dropWhile isTabOrSpace) else none

def fractionPart : List Char → List Char × List Char
  | '.' :: rest => (rest.takeWhile Char.isDigit, rest.dropWhile Char.isDigit)
  | cs => ([], cs)

/-- The minutes of an offset, which may be left out. -/
def offsetMinutes : List Char → Option Nat
  | [] => some 0
  | cs => do
    let (minutes, after) ← number 2 2 (← expect ':' cs)
    if after.isEmpty then some minutes else none

def offsetPart (cs : List Char) : Option (Option Int) :=
  if cs.isEmpty then some none
  else
    match cs.dropWhile isTabOrSpace with
    | ['Z'] => some (some 0)
    | '+' :: rest => (signed rest).map fun n => some (n : Int)
    | '-' :: rest => (signed rest).map fun n => some (-(n : Int))
    | _ => none
where
  signed (cs : List Char) : Option Nat := do
    let (hours, after) ← number 1 2 cs
    return 60 * hours + (← offsetMinutes after)

def timePart (cs : List Char) : Option TimeOfDay := do
  let (hour, cs) ← number 1 2 (← between cs)
  let (minute, cs) ← number 2 2 (← expect ':' cs)
  let (second, cs) ← number 2 2 (← expect ':' cs)
  let (fraction, cs) := fractionPart cs
  return ⟨hour, minute, second, Timestamp.microsOf fraction, ← offsetPart cs⟩

end DateText

open DateText in
/-- A date with or without a time; `least` digits at least for month and day. -/
def timestamp? (least : Nat) (cs : List Char) : Option Timestamp := do
  let (year, cs) ← number 4 4 cs
  let (month, cs) ← number least 2 (← expect '-' cs)
  let (day, cs) ← number least 2 (← expect '-' cs)
  if cs.isEmpty then return ⟨year, month, day, none⟩
  return ⟨year, month, day, some (← timePart cs)⟩

/-- Whether a plain scalar is a date: without a time, months and days have two digits. -/
def looksTimestamp (cs : List Char) : Bool :=
  (timestamp? 2 cs).isSome || (timestamp? 1 cs).any fun t => t.time.isSome

end CodeGraph.Yaml
