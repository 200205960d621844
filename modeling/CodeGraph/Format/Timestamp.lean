import CodeGraph.Decimal.Written
import CodeGraph.Format.Fault
import CodeGraph.Text.Radix

/-!
# Dates in documents

A date is a year, a month and a day; a point in time has a time of day behind it,
which may have a fraction of a second and an offset from universal time. Documents
write them in various ways; they are shown in one.
-/

namespace CodeGraph

structure TimeOfDay where
  hour : Nat
  minute : Nat
  second : Nat
  micros : Nat
  /-- The offset from universal time in minutes, if one is given. -/
  offset : Option Int

structure Timestamp where
  year : Nat
  month : Nat
  day : Nat
  time : Option TimeOfDay

namespace Timestamp

/-! ## Parts of written dates -/

def number (least most : Nat) (cs : List Char) : Option (Nat × List Char) :=
  let ds := (cs.take most).takeWhile Char.isDigit
  if ds.length < least then none
  else (Text.numberIn? 10 ds).map fun n => (n, cs.drop ds.length)

def expect (mark : Char) : List Char → Option (List Char)
  | c :: rest => if c == mark then some rest else none
  | [] => none

/-- The millionths that the digits of a fraction amount to; further digits are dropped. -/
def microsOf (fraction : List Char) : Nat :=
  (Text.numberIn? 10 ((fraction ++ List.replicate 6 '0').take 6)).getD 0

/-! ## Dates that exist -/

def daysIn (year month : Nat) : Nat :=
  if month == 2 then
    if year % 4 == 0 && (year % 100 != 0 || year % 400 == 0) then 29 else 28
  else if [4, 6, 9, 11].contains month then 30
  else 31

def refuse {α : Type} (message : String) : Except Failure α :=
  .error (.argument (.stated message))

def spanText (minutes : Int) : String :=
  let days := minutes / 1440
  let seconds := minutes % 1440 * 60
  let parts := (if days = 0 then [] else ["days=" ++ Value.intText days]) ++
    (if seconds = 0 then [] else ["seconds=" ++ Value.intText seconds])
  "datetime.timedelta(" ++ (if parts.isEmpty then "0" else ", ".intercalate parts) ++ ")"

def checkOffset (offset : Int) : Except Failure Unit :=
  if offset.natAbs < 1440 then .ok ()
  else
    refuse ("offset must be a timedelta strictly between -timedelta(hours=24) and " ++
      "timedelta(hours=24), not " ++ spanText offset ++ ".")

def checkDate (t : Timestamp) : Except Failure Unit := do
  if t.year = 0 then refuse "year 0 is out of range"
  if t.month < 1 || 12 < t.month then refuse "month must be in 1..12"
  if t.day < 1 || daysIn t.year t.month < t.day then refuse "day is out of range for month"

def checkTime (t : TimeOfDay) : Except Failure Unit := do
  if 23 < t.hour then refuse "hour must be in 0..23"
  if 59 < t.minute then refuse "minute must be in 0..59"
  if 59 < t.second then refuse "second must be in 0..59"

/-- A date has to exist, and an offset has to be less than a day. -/
def check (t : Timestamp) : Except Failure Unit := do
  match t.time.bind TimeOfDay.offset with
  | some offset => checkOffset offset
  | none => pure ()
  checkDate t
  match t.time with
  | some time => checkTime time
  | none => pure ()

/-! ## How dates are shown -/

def padded (width n : Nat) : String :=
  String.ofList (Decimal.padded width n)

def offsetText (offset : Int) : String :=
  let n := offset.natAbs
  (if offset < 0 then "-" else "+") ++ padded 2 (n / 60) ++ ":" ++ padded 2 (n % 60)

def timeText (t : TimeOfDay) : String :=
  s!"{padded 2 t.hour}:{padded 2 t.minute}:{padded 2 t.second}" ++
    (if t.micros = 0 then "" else "." ++ padded 6 t.micros) ++
    match t.offset with
    | some offset => offsetText offset
    | none => ""

def text (t : Timestamp) : String :=
  let date := s!"{padded 4 t.year}-{padded 2 t.month}-{padded 2 t.day}"
  match t.time with
  | none => date
  | some time => date ++ " " ++ timeText time

end Timestamp

end CodeGraph
