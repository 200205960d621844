import CodeGraph.Decimal.Shortest

/-!
# Rounding to a decimal grid

A double is rounded from its exact value, and a tie goes to the even digit.
`roundPlaces` keeps a number of decimals, `roundSignificant` a number of
significant digits; both answer the double nearest to the rounded decimal.
-/

namespace CodeGraph.Decimal

/-- The natural number nearest to `num / den`, a tie going to the even one. -/
def roundDiv (num den : Nat) : Nat :=
  let quotient := num / den
  let twice := 2 * (num % den)
  if twice < den then quotient
  else if twice = den then quotient + quotient % 2
  else quotient + 1

/-- The nearest point of the grid `10 ^ exponent`. -/
def Dyadic.roundTo (d : Dyadic) (exponent : Int) : Scaled :=
  let (num, den) := d.fraction
  let (gridNum, gridDen) := powerOfTen exponent
  ⟨roundDiv (num * gridDen) (den * gridNum), exponent⟩

/-- Decimals beyond these widths are infinite or zero whatever their digits. -/
def widthLimit : Int := 400

def Scaled.toFloat (s : Scaled) : Float :=
  let width : Int := (Nat.toDigits 10 s.digits).length + s.exponent
  if s.digits == 0 || width < -widthLimit then 0.0
  else if widthLimit < width then 1.0 / 0.0
  else match s.exponent with
    | .ofNat e => Float.ofScientific s.digits false e
    | .negSucc e => Float.ofScientific s.digits true (e + 1)

def signed (negative : Bool) (magnitude : Float) : Float :=
  if negative then -magnitude else magnitude

def roundPlaces (places : Nat) (x : Float) : Float :=
  match Binary.ofFloat x with
  | .finite d => signed d.negative (d.roundTo (-(places : Int))).toFloat
  | _ => x

def roundSignificant (digits : Nat) (x : Float) : Float :=
  match Binary.ofFloat x with
  | .finite d =>
    if d.mantissa = 0 then x
    else signed d.negative (d.roundTo (d.width - (digits : Int))).toFloat
  | _ => x

end CodeGraph.Decimal
