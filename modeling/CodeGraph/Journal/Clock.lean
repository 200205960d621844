import CodeGraph.Decimal.Rounding
import CodeGraph.Journal.Message

/-!
# Points in time

A point in time is given as a number of seconds since the beginning of 1970. It is
written as a date and a time of day in universal time: briefly, with a number of
thousandths that comes on its own, or precisely, to the nearest millionth.
-/

namespace CodeGraph.Clock

structure Date where
  year : Int
  month : Int
  day : Int

/-- The date of a day, counted from the beginning of 1970. Years are counted from March, so
that the day which some years lack is the last one of a year; 400 years have the same number of
days wherever they begin. -/
def dateOf (days : Int) : Date :=
  let days := days + 719468
  let era := days / 146097
  let dayOfEra := days % 146097
  let yearOfEra := (dayOfEra - dayOfEra / 1460 + dayOfEra / 36524 - dayOfEra / 146096) / 365
  let dayOfYear := dayOfEra - (365 * yearOfEra + yearOfEra / 4 - yearOfEra / 100)
  let fifth := (5 * dayOfYear + 2) / 153
  let month := if fifth < 10 then fifth + 3 else fifth - 9
  { year := yearOfEra + era * 400 + (if month ≤ 2 then 1 else 0)
    month := month
    day := dayOfYear - (153 * fifth + 2) / 5 + 1 }

def yearOf (seconds : Int) : Int :=
  (dateOf (seconds / 86400)).year

def twoDigits (n : Int) : String :=
  String.ofList (Decimal.padded 2 n.toNat)

/-- What follows the year in date and time of day, with a mark between the two. -/
def afterYear (mark : String) (seconds : Int) : String :=
  let date := dateOf (seconds / 86400)
  let rest := seconds % 86400
  s!"-{twoDigits date.month}-{twoDigits date.day}{mark}" ++
    s!"{twoDigits (rest / 3600)}:{twoDigits (rest / 60 % 60)}:{twoDigits (rest % 60)}"

def truncated (x : Float) : Int :=
  let q := (Decimal.rational? x).getD 0
  if q < 0 then q.ceil else q.floor

def floored (x : Float) : Int :=
  ((Decimal.rational? x).getD 0).floor

def fraction (x : Float) : Float :=
  x - Decimal.ofInt (truncated x)

/-! ## Moments -/

structure Moment where
  /-- Whole seconds, rounded down. -/
  seconds : Int
  /-- Millionths of a second, rounded to the nearest. -/
  micros : Int

/-- Seconds are counted in 64 bits. -/
def secondLimit : Int := Nat.pow 2 63

/-- Years are counted in 32 bits, by one count from 1900 on and by another from 0 on. -/
def yearLimit : Int := Nat.pow 2 31

def Moment.check (m : Moment) : Except Failure Moment :=
  let year := yearOf m.seconds
  if m.seconds < -secondLimit || secondLimit ≤ m.seconds then
    .error (.overflow "timestamp out of range for platform time_t")
  else if year - 1900 < -yearLimit || yearLimit ≤ year - 1900 then .error .beyondCalendar
  else if yearLimit ≤ year then .error (.overflow "signed integer is greater than maximum")
  else .ok m

def Moment.read (v : Value) : Except Failure Moment :=
  match v with
  | .float x =>
    if x.isNaN then .error (.argument (.stated "Invalid value NaN (not a number)"))
    else if x.isInf then .error (.overflow "timestamp out of range for platform time_t")
    else
      let micros := truncated (Decimal.roundPlaces 0 (fraction x * 1e6))
      Moment.check ⟨floored x, truncated x * 1000000 + micros⟩
  | v =>
    match v.asInt? with
    | some n => Moment.check ⟨n, n * 1000000⟩
    | none => .error (.wrongType (.notInteger v.typeName))

def thousandths (v : Value) : Except Failure Value :=
  match v with
  | .str s =>
    match Decimal.readInt s with
    | some _ => .error (.wrongType (.operands "-" "str" "int"))
    | none =>
      .error (.argument (.stated s!"invalid literal for int() with base 10: {Text.quoted s}"))
  | .float x => do
    discard (Message.wholeOf v)
    return .float (Decimal.ofInt (truncated (fraction x * 1000)))
  | v => do
    discard (Message.integerOf v)
    return .float 0

def Moment.brief (m : Moment) (thousandths : Value) : Except Failure String := do
  let digits ← Message.format "%03d" ⟨none, [thousandths]⟩
  return Value.intText (yearOf m.seconds) ++ afterYear " " m.seconds ++ "," ++ digits

/-- With millionths, unless there are none, and the offset from universal time. Years have four
digits. -/
def Moment.precise (m : Moment) : Except Failure String :=
  let seconds := m.micros / 1000000
  let micros := m.micros % 1000000
  let year := yearOf seconds
  if year < 1 || 9999 < year then
    .error (.argument (.stated ("year " ++ Value.intText year ++ " is out of range")))
  else
    let digits := if micros = 0 then "" else "." ++ String.ofList (Decimal.padded 6 micros.toNat)
    .ok (String.ofList (Decimal.padded 4 year.toNat) ++ afterYear "T" seconds ++ digits ++ "+00:00")

end CodeGraph.Clock
