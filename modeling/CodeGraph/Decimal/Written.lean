import CodeGraph.Decimal.Rounding

/-!
# Written numbers

`written` gives the fewest digits that read back. Numbers from `0.0001` up to
`10 ^ 16` are positional and keep `.0` when whole; the others have an exponent of
at least two digits with its sign. `fixed` writes a given number of decimals.
-/

namespace CodeGraph.Decimal

def zeros (n : Nat) : List Char :=
  List.replicate n '0'

def numerals (n : Nat) : List Char :=
  Nat.toDigits 10 n

def padded (width n : Nat) : List Char :=
  let ds := numerals n
  zeros (width - ds.length) ++ ds

/-- The widths written positionally: more than the first, at most the second. -/
def positionalWidths : Int × Int := (-4, 16)

def Scaled.positional (s : Scaled) (width : Int) : List Char :=
  let ds := numerals s.digits
  if 0 ≤ s.exponent then ds ++ zeros s.exponent.toNat ++ ['.', '0']
  else if 0 < width then ds.take width.toNat ++ '.' :: ds.drop width.toNat
  else ['0', '.'] ++ zeros (-width).toNat ++ ds

def Scaled.withExponent (s : Scaled) (width : Int) : List Char :=
  let ds := numerals s.digits
  let power := width - 1
  let fraction := if ds.length ≤ 1 then [] else '.' :: ds.drop 1
  ds.take 1 ++ fraction ++ ['e', if power < 0 then '-' else '+'] ++ padded 2 power.natAbs

def Scaled.written (s : Scaled) : List Char :=
  let width : Int := (numerals s.digits).length + s.exponent
  if s.digits = 0 then ['0', '.', '0']
  else if positionalWidths.1 < width && width ≤ positionalWidths.2 then s.positional width
  else s.withExponent width

def written (x : Float) : String :=
  match Binary.ofFloat x with
  | .nan => "nan"
  | .infinite negative => if negative then "-inf" else "inf"
  | .finite d => String.ofList ((if d.negative then ['-'] else []) ++ d.shortest.written)

def fixed (places : Nat) (x : Float) : String :=
  match Binary.ofFloat x with
  | .nan => "nan"
  | .infinite negative => if negative then "-inf" else "inf"
  | .finite d =>
    let rounded := (d.roundTo (-(places : Int))).digits
    let ds := padded (places + 1) rounded
    let whole := ds.take (ds.length - places)
    let fraction := if places = 0 then [] else '.' :: ds.drop (ds.length - places)
    String.ofList ((if d.negative then ['-'] else []) ++ whole ++ fraction)

end CodeGraph.Decimal
