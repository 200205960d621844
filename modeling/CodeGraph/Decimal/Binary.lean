/-!
# Doubles as dyadic rationals

A finite double is `± mantissa · 2 ^ exponent` with natural mantissa and integer
exponent, read off its bits. Everything that writes, rounds or compares doubles
exactly starts from this form and stays in integer arithmetic.
-/

namespace CodeGraph.Decimal

/-- The magnitude `mantissa · 2 ^ exponent` with a sign. -/
structure Dyadic where
  negative : Bool
  mantissa : Nat
  exponent : Int
deriving Repr

inductive Binary where
  | nan
  | infinite (negative : Bool)
  | finite (value : Dyadic)
deriving Repr

def leastExponent : Int := -1074

/-- The mantissas of normal doubles lie between this and its double. -/
def normalMantissa : Nat := Nat.pow 2 52

def Binary.ofFloat (x : Float) : Binary :=
  let bits := x.toBits.toNat
  let negative := bits / Nat.pow 2 63 == 1
  let exponent : Nat := bits / Nat.pow 2 52 % Nat.pow 2 11
  let fraction := bits % Nat.pow 2 52
  if exponent == 2047 then
    if fraction == 0 then .infinite negative else .nan
  else if exponent == 0 then .finite ⟨negative, fraction, leastExponent⟩
  else .finite ⟨negative, normalMantissa + fraction, leastExponent + (exponent : Int) - 1⟩

def Dyadic.fraction (d : Dyadic) : Nat × Nat :=
  match d.exponent with
  | .ofNat e => (d.mantissa * Nat.pow 2 e, 1)
  | .negSucc e => (d.mantissa, Nat.pow 2 (e + 1))

def Dyadic.toRat (d : Dyadic) : Rat :=
  let (num, den) := d.fraction
  let magnitude : Rat := (num : Rat) / (den : Rat)
  if d.negative then -magnitude else magnitude

def rational? (x : Float) : Option Rat :=
  match Binary.ofFloat x with
  | .finite d => some d.toRat
  | _ => none

/-- The double nearest to an integer, a tie going to the even mantissa; beyond the range, infinite. -/
def ofInt (n : Int) : Float :=
  if n < 0 then -(Float.ofScientific n.natAbs false 0) else Float.ofScientific n.natAbs false 0

end CodeGraph.Decimal
