import CodeGraph.Decimal.Binary

/-!
# Scalars

Scores, weights and costs are computed over any type with the arithmetic below.
Running an analysis takes doubles; the laws of an analysis are laws over the
rationals, where every double is read as the exact number it stands for. Both
run the same definitions. `==` and `<` are those of the type: a double that is
not a number equals nothing and precedes nothing.
-/

namespace CodeGraph

def addAll (xs : List Nat) : Nat :=
  xs.foldr (· + ·) 0

@[simp] theorem addAll_cons (x : Nat) (xs : List Nat) : addAll (x :: xs) = x + addAll xs := rfl

class Scalar (α : Type) extends Zero α, One α, Add α, Sub α, Mul α, Div α, LT α, BEq α where
  decLt : DecidableLT α
  ofNat : Nat → α
  ofFloat : Float → α
  /-- Whether the number is less than a double. -/
  below : α → Float → Bool
  /-- A double by which the number is shown. -/
  toFloat : α → Float

attribute [reducible] Scalar.decLt
attribute [instance] Scalar.decLt

instance : Scalar Float where
  zero := 0
  one := 1
  decLt := inferInstance
  ofNat n := Float.ofScientific n false 0
  ofFloat x := x
  below x y := x < y
  toFloat x := x

/-- Not-a-number and the infinities stand for nothing, and zero takes their place; but one can ask
what lies below them. -/
instance : Scalar Rat where
  zero := 0
  one := 1
  beq a b := a == b
  decLt := inferInstance
  ofNat n := n
  ofFloat x := (Decimal.rational? x).getD 0
  below q y :=
    match Decimal.Binary.ofFloat y with
    | .nan => false
    | .infinite negative => !negative
    | .finite d => q < d.toRat
  toFloat q := Decimal.ofInt q.num / Decimal.ofInt q.den

namespace Scalar

variable {α : Type} [Scalar α]

/-- Sum from the left, starting at zero. -/
def sum (xs : List α) : α :=
  xs.foldl (· + ·) 0

def abs (x : α) : α :=
  if x < 0 then 0 - x else x

/-! ## Sums by halves

A long sum is split in two near the middle, and a short one is summed in eight
interleaved lanes: the error then grows with the logarithm of the length. -/

/-- Add the items to the lanes eight at a time, then the lanes to each other, then the rest. -/
def laneSum (r0 r1 r2 r3 r4 r5 r6 r7 : α) : List α → α
  | a0 :: a1 :: a2 :: a3 :: a4 :: a5 :: a6 :: a7 :: rest =>
    laneSum (r0 + a0) (r1 + a1) (r2 + a2) (r3 + a3) (r4 + a4) (r5 + a5) (r6 + a6) (r7 + a7) rest
  | rest => rest.foldl (· + ·) (((r0 + r1) + (r2 + r3)) + ((r4 + r5) + (r6 + r7)))

def blockSum : List α → α
  | a0 :: a1 :: a2 :: a3 :: a4 :: a5 :: a6 :: a7 :: rest => laneSum a0 a1 a2 a3 a4 a5 a6 a7 rest
  | xs => sum xs

/-- The longest sum that is not split. -/
def blockLength : Nat := 128

/-- Where a sum of `n` items is split: at a multiple of eight near the middle. -/
def splitPoint (n : Nat) : Nat :=
  n / 2 - n / 2 % 8

def balancedSum (xs : List α) : α :=
  if xs.length ≤ blockLength then blockSum xs
  else
    let half := splitPoint xs.length
    balancedSum (xs.take half) + balancedSum (xs.drop half)
termination_by xs.length
decreasing_by
  all_goals
    simp only [blockLength, splitPoint, List.length_take, List.length_drop] at *
    omega

end Scalar

end CodeGraph
