import Mathlib.Algebra.BigOperators.Fin
import Mathlib.Algebra.BigOperators.Group.Finset.Basic
import Mathlib.Algebra.Order.Ring.Rat
import Mathlib.Tactic.Ring
import CodeGraph.Scalar

/-!
# Sums

The sums that an analysis takes over lists, as sums over finite sets; and what
moving one position does to the sum over all pairs that carry the same label
(`sumInside_update`), on which both searches for communities rest.
-/

namespace CodeGraph

theorem sum_rat (xs : List ℚ) : Scalar.sum xs = xs.sum :=
  List.sum_eq_foldl.symm

theorem foldl_add_rat (xs : List ℚ) (r : ℚ) : xs.foldl (· + ·) r = r + xs.sum := by
  induction xs generalizing r with
  | nil => exact (add_zero r).symm
  | cons x rest ih => rw [List.foldl_cons, ih, List.sum_cons, add_assoc]

theorem laneSum_rat (r0 r1 r2 r3 r4 r5 r6 r7 : ℚ) (xs : List ℚ) :
    Scalar.laneSum r0 r1 r2 r3 r4 r5 r6 r7 xs
      = r0 + r1 + r2 + r3 + r4 + r5 + r6 + r7 + xs.sum := by
  fun_induction Scalar.laneSum r0 r1 r2 r3 r4 r5 r6 r7 xs with
  | case1 r0 r1 r2 r3 r4 r5 r6 r7 a0 a1 a2 a3 a4 a5 a6 a7 rest ih =>
    rw [ih]
    simp only [List.sum_cons]
    ring
  | case2 r0 r1 r2 r3 r4 r5 r6 r7 rest =>
    rw [foldl_add_rat]
    ring

theorem blockSum_rat (xs : List ℚ) : Scalar.blockSum xs = xs.sum := by
  unfold Scalar.blockSum
  split
  · rw [laneSum_rat]
    simp only [List.sum_cons]
    ring
  · exact sum_rat _

/-- Over the rationals it does not matter how a sum is split. -/
theorem balancedSum_rat (xs : List ℚ) : Scalar.balancedSum xs = xs.sum := by
  fun_induction Scalar.balancedSum xs with
  | case1 xs hshort => exact blockSum_rat xs
  | case2 xs hlong half ihtake ihdrop => rw [ihtake, ihdrop, List.sum_take_add_sum_drop]

theorem sum_fibers {n : Nat} {β : Type} (key : β → Fin n) (f : β → ℚ) (xs : List β) :
    ∑ v, ((xs.filter fun x => key x = v).map f).sum = (xs.map f).sum := by
  induction xs with
  | nil => simp
  | cons x rest ih =>
    have hterm : ∀ v, (((x :: rest).filter fun y => key y = v).map f).sum
        = (if key x = v then f x else 0) + ((rest.filter fun y => key y = v).map f).sum := by
      intro v
      rw [List.filter_cons]
      by_cases h : key x = v
      · rw [if_pos (decide_eq_true h), if_pos h, List.map_cons, List.sum_cons]
      · rw [if_neg (by simpa using h), if_neg h, zero_add]
    simp only [hterm, Finset.sum_add_distrib, Finset.sum_ite_eq, Finset.mem_univ, if_true, ih,
      List.map_cons, List.sum_cons]

theorem sum_filter {β : Type} [DecidableEq β] {order : List β} (hnodup : order.Nodup)
    (p : β → Bool) (f : β → ℚ) :
    Scalar.sum ((order.filter p).map f) = ∑ x ∈ order.toFinset with p x, f x := by
  rw [sum_rat, ← List.sum_toFinset f (hnodup.filter p), List.toFinset_filter]

theorem sum_filter_finRange {n : Nat} (p : Fin n → Bool) (f : Fin n → ℚ) :
    Scalar.sum (((List.finRange n).filter p).map f) = ∑ i with p i, f i := by
  rw [sum_filter (List.nodup_finRange n), List.toFinset_finRange]

theorem addAll_eq_sum (xs : List Nat) : addAll xs = xs.sum := rfl

/-! ## Pairs with the same label -/

section Inside

variable {n : Nat} {R : Type} [CommRing R] {β : Type} [DecidableEq β] {f : Fin n → Fin n → R}

/-- The sum over all pairs with the same label. -/
def sumInside (f : Fin n → Fin n → R) (label : Fin n → β) : R :=
  ∑ i, ∑ j, if label i = label j then f i j else 0

/-- The sum from a position to the others that carry a label. -/
def sumToward (f : Fin n → Fin n → R) (label : Fin n → β) (i : Fin n) (c : β) : R :=
  ∑ j ∈ Finset.univ.erase i, if label j = c then f i j else 0

theorem sumInside_split (hsymm : ∀ i j, f i j = f j i) (label : Fin n → β) (i : Fin n) :
    sumInside f label
      = (∑ a ∈ Finset.univ.erase i, ∑ b ∈ Finset.univ.erase i,
          if label a = label b then f a b else 0)
        + 2 * sumToward f label i (label i) + f i i := by
  have hrow : ∀ a, (∑ b, if label a = label b then f a b else 0)
      = (if label i = label a then f i a else 0)
        + ∑ b ∈ Finset.univ.erase i, if label a = label b then f a b else 0 := by
    intro a
    rw [← Finset.add_sum_erase _ _ (Finset.mem_univ i), hsymm a i]
    simp only [eq_comm (a := label a) (b := label i)]
  have hself : (∑ b ∈ Finset.univ.erase i, if label i = label b then f i b else 0)
      = sumToward f label i (label i) := by
    simp only [sumToward, eq_comm (a := label i)]
  unfold sumInside
  rw [← Finset.add_sum_erase _ _ (Finset.mem_univ i), hrow i, if_pos rfl, hself]
  simp only [hrow, Finset.sum_add_distrib, hself]
  ring

/-- Moving a position to another label changes what it adds, counted from both ends. -/
theorem sumInside_update (hsymm : ∀ i j, f i j = f j i) (label : Fin n → β) (i : Fin n) (c : β) :
    sumInside f (Function.update label i c)
      = sumInside f label + 2 * (sumToward f label i c - sumToward f label i (label i)) := by
  have hother : ∀ j ∈ Finset.univ.erase i, Function.update label i c j = label j := fun j hj =>
    Function.update_of_ne (Finset.ne_of_mem_erase hj) ..
  have hrest : (∑ a ∈ Finset.univ.erase i, ∑ b ∈ Finset.univ.erase i,
      if Function.update label i c a = Function.update label i c b then f a b else 0)
        = ∑ a ∈ Finset.univ.erase i, ∑ b ∈ Finset.univ.erase i,
          if label a = label b then f a b else 0 := by
    refine Finset.sum_congr rfl fun a ha => Finset.sum_congr rfl fun b hb => ?_
    rw [hother a ha, hother b hb]
  have htoward : sumToward f (Function.update label i c) i c = sumToward f label i c :=
    Finset.sum_congr rfl fun j hj => by rw [hother j hj]
  rw [sumInside_split hsymm (Function.update label i c) i, sumInside_split hsymm label i, hrest,
    Function.update_self, htoward]
  ring

end Inside

end CodeGraph
