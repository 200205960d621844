import CodeGraph.Decimal.Written

/-!
# Numbers with a given precision

Three styles of writing the magnitude of a double, all rounded from its exact
value. `fixed` has as many decimals as the precision says, `scientific` has them
behind its first digit and ends in a power of ten, and `general` counts
significant digits, takes the shorter of the two and leaves out zeros at the end.
On request the point stays when nothing follows it, and so do the zeros.
-/

namespace CodeGraph.Decimal

inductive Style where
  | fixed
  | scientific
  | general
deriving DecidableEq, Repr

/-- The first `count` digits of a magnitude after rounding, and the power of ten of the first. -/
def Dyadic.leading (count : Nat) (d : Dyadic) : List Char × Int :=
  if d.mantissa = 0 then (zeros count, 0)
  else
    let width := d.width
    let ds := padded count (d.roundTo (width - (count : Int))).digits
    if ds.length ≤ count then (ds, width - 1) else (ds.take count, width)

def pointed (keep : Bool) (whole fraction : List Char) : List Char :=
  if fraction.isEmpty && !keep then whole else whole ++ '.' :: fraction

/-- A power of ten as it ends a number: signed, with at least two digits. -/
def powerText (power : Int) : List Char :=
  'e' :: (if power < 0 then '-' else '+') :: padded 2 power.natAbs

def withoutEndZeros (ds : List Char) : List Char :=
  (ds.reverse.dropWhile (· == '0')).reverse

/-- A magnitude in a style; `keep` says that the point and the zeros at the end stay. -/
def Dyadic.figures (style : Style) (precision : Nat) (keep : Bool) (d : Dyadic) : List Char :=
  match style with
  | .fixed =>
    let ds := padded (precision + 1) (d.roundTo (-(precision : Int))).digits
    pointed keep (ds.take (ds.length - precision)) (ds.drop (ds.length - precision))
  | .scientific =>
    let (ds, power) := d.leading (precision + 1)
    pointed keep (ds.take 1) (ds.drop 1) ++ powerText power
  | .general =>
    let count := max 1 precision
    let (ds, power) := d.leading count
    let ending (fraction : List Char) := if keep then fraction else withoutEndZeros fraction
    if power < -4 || (count : Int) ≤ power then
      pointed keep (ds.take 1) (ending (ds.drop 1)) ++ powerText power
    else if power < 0 then
      pointed keep ['0'] (ending (zeros (-power - 1).toNat ++ ds))
    else
      let whole := power.toNat + 1
      pointed keep (ds.take whole) (ending (ds.drop whole))

def figures (style : Style) (precision : Nat) (keep : Bool) (x : Float) : Bool × List Char :=
  match Binary.ofFloat x with
  | .nan => (false, "nan".toList)
  | .infinite negative => (negative, "inf".toList)
  | .finite d => (d.negative, d.figures style precision keep)

end CodeGraph.Decimal
