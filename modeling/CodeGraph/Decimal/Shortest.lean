import CodeGraph.Decimal.Binary

/-!
# Shortest decimals

The decimal with the fewest digits that reads back as a given double, and the
nearest of those. Every real between the midpoints to the two neighbouring
doubles reads back as it (the midpoints themselves only for an even mantissa).
On the grid of decimals with `k` digits, if any point lies between the midpoints
then one of the two points around the value does; so the grids are tried for
`k = 1, 2, …` and the first with a hit wins.
-/

namespace CodeGraph.Decimal

/-- The magnitude `digits · 10 ^ exponent`. -/
structure Scaled where
  digits : Nat
  exponent : Int
deriving Repr, DecidableEq

def powerOfTen : Int → Nat × Nat
  | .ofNat e => (Nat.pow 10 e, 1)
  | .negSucc e => (1, Nat.pow 10 (e + 1))

/-- The `e` with `10 ^ (e - 1) ≤ num / den < 10 ^ e`, given a guess that is off by at most one. -/
def decimalWidth (guess : Int) (num den : Nat) : Int :=
  let (upNum, upDen) := powerOfTen guess
  let (loNum, loDen) := powerOfTen (guess - 1)
  if upNum * den ≤ num * upDen then guess + 1
  else if num * loDen < loNum * den then guess - 1
  else guess

/-- How many digits stand before the decimal point of a magnitude (non-positive below one). -/
def Dyadic.width (d : Dyadic) : Int :=
  let (num, den) := d.fraction
  let guess := ((d.mantissa.log2 : Int) + d.exponent) * 30103 / 100000 + 1
  decimalWidth guess num den

/-- Trailing zeros go into the exponent. -/
def Scaled.trim (s : Scaled) : Nat → Scaled
  | 0 => s
  | fuel + 1 => if s.digits != 0 && s.digits % 10 == 0 then trim ⟨s.digits / 10, s.exponent + 1⟩ fuel else s

/-- Ends of the interval that reads back as `d`, and `d` itself, in quarters of its last place. -/
def Dyadic.quarters (d : Dyadic) : Nat × Nat × Nat :=
  let below := if d.mantissa == normalMantissa && d.exponent != leastExponent then 1 else 2
  (4 * d.mantissa - below, 4 * d.mantissa, 4 * d.mantissa + 2)

/-- The grid point next to the value on the grid `10 ^ exponent`, if one reads back as it. -/
def Dyadic.onGrid? (d : Dyadic) (exponent : Int) : Option Scaled :=
  let (low, mid, high) := d.quarters
  let (quarterNum, quarterDen) := (⟨false, 1, d.exponent - 2⟩ : Dyadic).fraction
  let (gridNum, gridDen) := powerOfTen exponent
  let scale := quarterNum * gridDen
  let grid := quarterDen * gridNum
  let below := mid * scale / grid
  let even := d.mantissa % 2 == 0
  let hitsBelow := if even then low * scale ≤ below * grid else low * scale < below * grid
  let hitsAbove := if even then (below + 1) * grid ≤ high * scale else (below + 1) * grid < high * scale
  let toBelow := mid * scale - below * grid
  let toAbove := (below + 1) * grid - mid * scale
  if hitsBelow ∧ hitsAbove then
    if toBelow < toAbove ∨ (toBelow = toAbove ∧ below % 2 = 0) then some ⟨below, exponent⟩
    else some ⟨below + 1, exponent⟩
  else if hitsBelow then some ⟨below, exponent⟩
  else if hitsAbove then some ⟨below + 1, exponent⟩
  else none

/-- Seventeen digits tell any two doubles apart, so the search over digit counts ends there. -/
def Dyadic.shortest (d : Dyadic) : Scaled :=
  if d.mantissa = 0 then ⟨0, 0⟩
  else
    let width := d.width
    let found := (List.range 17).findSome? fun k => d.onGrid? (width - ((k : Nat) : Int) - 1)
    (found.getD ⟨0, 0⟩).trim 20

end CodeGraph.Decimal
