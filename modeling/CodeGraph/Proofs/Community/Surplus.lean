import Mathlib.Algebra.BigOperators.Field
import Mathlib.Algebra.BigOperators.Ring.Finset
import Mathlib.Algebra.Order.BigOperators.Group.Finset
import Mathlib.Tactic.Linarith
import Mathlib.Tactic.Ring
import CodeGraph.Community.Network
import CodeGraph.Proofs.Sums

/-!
# Surplus of a labelling

How much weight lies inside the communities of a network beyond what degrees
lead one to expect: `surplus` sums the `excess` over all pairs of positions with
the same label. Divided by the total weight this is the modularity. It is kept
as a sum over pairs because two things are then immediate. Moving one position
changes only the pairs that it is in (`surplus_update`). Contracting a labelling
only collects pairs, so that sums over pairs of communities are sums over pairs
of their members (`pairs_contract`).
-/

namespace CodeGraph.Network

variable {n : Nat} {net : Network n ℚ}

/-! ## Degrees -/

/-- Weights are the same seen from both ends, none is negative, and none leads from a position to
itself. -/
structure Balanced (net : Network n ℚ) : Prop where
  symm : ∀ i j, net.between i j = net.between j i
  diag : ∀ i, net.between i i = 0
  nonneg : ∀ i j, 0 ≤ net.between i j
  loop_nonneg : ∀ i, 0 ≤ net.loop.get i

/-- The weight between two positions, a loop seen from both of its ends. -/
def entry (net : Network n ℚ) (i j : Fin n) : ℚ :=
  net.between i j + if i = j then 2 * net.loop.get i else 0

theorem mem_neighbours {i j : Fin n} : j ∈ net.neighbours i ↔ net.between i j ≠ 0 := by
  rw [neighbours, List.mem_filter]
  change j ∈ List.finRange n ∧ (!(net.between i j == (0 : ℚ))) = true ↔ _
  simp

theorem sum_neighbours (i : Fin n) (p : Fin n → Bool) :
    Scalar.sum (((net.neighbours i).filter p).map (net.between i))
      = ∑ j, if p j then net.between i j else 0 := by
  rw [neighbours, List.filter_filter, sum_filter_finRange, Finset.sum_filter]
  refine Finset.sum_congr rfl fun j _ => ?_
  change (if (p j && !(net.between i j == (0 : ℚ))) = true then _ else _) = _
  by_cases hw : net.between i j = 0
  · simp [hw]
  · simp [hw]

theorem degree_eq (i : Fin n) : net.degree i = ∑ j, net.entry i j := by
  have hsum : Scalar.sum ((net.neighbours i).map (net.between i)) = ∑ j, net.between i j := by
    have := net.sum_neighbours i fun _ => true
    rwa [List.filter_true] at this
  calc net.degree i = ∑ j, net.between i j + 2 * net.loop.get i := by rw [degree, hsum]; rfl
    _ = ∑ j, net.between i j + ∑ j, (if i = j then 2 * net.loop.get i else 0) := by
      rw [Finset.sum_ite_eq, if_pos (Finset.mem_univ i)]
    _ = ∑ j, net.entry i j := Finset.sum_add_distrib.symm

theorem Balanced.entry_comm (hb : net.Balanced) (i j : Fin n) : net.entry i j = net.entry j i := by
  unfold entry
  by_cases hij : i = j
  · rw [hij]
  · rw [if_neg hij, if_neg (Ne.symm hij), hb.symm]

theorem Balanced.entry_nonneg (hb : net.Balanced) (i j : Fin n) : 0 ≤ net.entry i j := by
  unfold entry
  have hw := hb.nonneg i j
  have hl := hb.loop_nonneg i
  split <;> linarith

theorem Balanced.degree_nonneg (hb : net.Balanced) (i : Fin n) : 0 ≤ net.degree i := by
  rw [degree_eq]
  exact Finset.sum_nonneg fun j _ => hb.entry_nonneg i j

def total (net : Network n ℚ) : ℚ :=
  ∑ i, net.degree i

/-! ## Pairs -/

/-- The weight between two positions beyond what their degrees lead one to expect. -/
def excess (net : Network n ℚ) (i j : Fin n) : ℚ :=
  net.entry i j - net.degree i * net.degree j / net.total

theorem Balanced.excess_comm (hb : net.Balanced) (i j : Fin n) :
    net.excess i j = net.excess j i := by
  rw [excess, excess, hb.entry_comm, mul_comm (net.degree i)]

/-- What a position has beyond the expected with some, it lacks with others. -/
theorem sum_excess (net : Network n ℚ) (ht : net.total ≠ 0) (i : Fin n) :
    ∑ j, net.excess i j = 0 := by
  unfold excess
  rw [Finset.sum_sub_distrib, ← degree_eq, ← Finset.sum_div, ← Finset.mul_sum, ← total,
    mul_div_cancel_right₀ _ ht, sub_self]

/-- Without loops, some two positions have more weight between them than expected: a position with
weight lacks some with itself. -/
theorem exists_excess_pos (ht : 0 < net.total) (hloop : ∀ i, net.entry i i = 0) :
    ∃ i j, i ≠ j ∧ 0 < net.excess i j := by
  obtain ⟨i, -, hi⟩ : ∃ i ∈ Finset.univ, net.degree i ≠ 0 :=
    Finset.exists_ne_zero_of_sum_ne_zero ht.ne'
  have hself : net.excess i i < 0 := by
    rw [excess, hloop, zero_sub, neg_lt_zero]
    exact div_pos (mul_self_pos.mpr hi) ht
  obtain ⟨j, -, hj⟩ := Finset.exists_pos_of_sum_zero_of_exists_nonzero _
    (net.sum_excess ht.ne' i) ⟨i, Finset.mem_univ i, hself.ne⟩
  refine ⟨i, j, ?_, hj⟩
  rintro rfl
  exact lt_asymm hself hj

/-- Where weights are whole numbers, the excess is a multiple of one over the total. -/
theorem one_le_excess_mul_total {count : Fin n → Fin n → Nat}
    (hcount : ∀ i j, net.entry i j = count i j) (ht : 0 < net.total) {i j : Fin n}
    (hpos : 0 < net.excess i j) : 1 ≤ net.excess i j * net.total := by
  have hdegree : ∀ i, net.degree i = (∑ j, count i j : Nat) := by
    intro i
    rw [degree_eq, Nat.cast_sum]
    exact Finset.sum_congr rfl fun j _ => hcount i j
  have htotal : net.total = (∑ i, ∑ j, count i j : Nat) := by
    rw [total, Nat.cast_sum]
    exact Finset.sum_congr rfl fun i _ => hdegree i
  have hscaled : net.excess i j * net.total
      = (count i j * (∑ i, ∑ j, count i j : Nat)
        - (∑ k, count i k : Nat) * (∑ k, count j k : Nat) : Int) := by
    rw [excess, sub_mul, div_mul_cancel₀ _ ht.ne', hcount, hdegree, hdegree, htotal]
    push_cast
    ring
  have hscaled_pos := mul_pos hpos ht
  rw [hscaled] at hscaled_pos ⊢
  exact_mod_cast hscaled_pos

/-- The excess of all pairs with a property. -/
def pairs (net : Network n ℚ) (P : Fin n → Fin n → Prop) [DecidableRel P] : ℚ :=
  ∑ i, ∑ j, if P i j then net.excess i j else 0

theorem pairs_congr (net : Network n ℚ) {P Q : Fin n → Fin n → Prop} [DecidableRel P]
    [DecidableRel Q] (h : ∀ i j, P i j ↔ Q i j) : net.pairs P = net.pairs Q :=
  Finset.sum_congr rfl fun i _ => Finset.sum_congr rfl fun j _ => if_congr (h i j) rfl rfl

/-- The excess of all pairs inside communities. -/
def surplus (net : Network n ℚ) {β : Type} [DecidableEq β] (label : Fin n → β) : ℚ :=
  net.pairs fun i j => label i = label j

/-! ## Moving a position -/

section Move

variable {β : Type} [DecidableEq β] {label : Fin n → β} {i : Fin n}

/-- The excess of a position with the others that carry a label. -/
def attraction (net : Network n ℚ) (label : Fin n → β) (i : Fin n) (c : β) : ℚ :=
  ∑ j ∈ Finset.univ.erase i, if label j = c then net.excess i j else 0

/-- Moving a position to another label changes what it is attracted by, counted from both ends. -/
theorem Balanced.surplus_update (hb : net.Balanced) (label : Fin n → β) (i : Fin n) (c : β) :
    net.surplus (Function.update label i c)
      = net.surplus label + 2 * (net.attraction label i c - net.attraction label i (label i)) :=
  sumInside_update hb.excess_comm label i c

end Move

end CodeGraph.Network

/-! ## Numbers of communities -/

namespace CodeGraph

theorem nodup_firstOccurrences {β : Type} [DecidableEq β] (xs : List β) :
    (firstOccurrences xs).Nodup := by
  suffices ∀ seen : List β, seen.Nodup → (xs.foldl seeItem seen).Nodup from this [] List.nodup_nil
  induction xs with
  | nil => exact fun seen hseen => hseen
  | cons x rest ih => exact fun seen hseen => ih _ (nodup_seeItem hseen x)

namespace Labels

variable {n : Nat} {β : Type} [DecidableEq β] {labels : Labels n β}

theorem number_eq_iff {i : Fin n} {a : Fin labels.used.length} :
    labels.number i = a ↔ labels.get i = labels.used.get a := by
  have hget : labels.used.get (labels.number i) = labels.get i :=
    List.idxOf_get (List.idxOf_lt_length_of_mem (labels.get_mem_used i))
  constructor
  · rintro rfl
    exact hget.symm
  · intro heq
    exact List.nodup_iff_injective_get.mp (nodup_firstOccurrences _) (hget.trans heq)

theorem number_eq_number_iff {i j : Fin n} :
    labels.number i = labels.number j ↔ labels.get i = labels.get j := by
  rw [number_eq_iff, ← number_eq_iff.mp rfl]

theorem number_surjective (labels : Labels n β) : Function.Surjective labels.number := by
  intro a
  obtain ⟨i, -, hi⟩ := List.mem_map.mp (mem_firstOccurrences.mp (List.get_mem labels.used a))
  exact ⟨i, number_eq_iff.mpr hi⟩

theorem sum_members (a : Fin labels.used.length) (f : Fin n → ℚ) :
    Scalar.sum ((labels.members.get a).map f) = ∑ i with labels.number i = a, f i := by
  rw [members, Table.get_ofFn, sum_filter_finRange]
  refine Finset.sum_congr (Finset.filter_congr fun i _ => ?_) fun _ _ => rfl
  rw [decide_eq_true_eq, number_eq_iff]

end Labels

/-! ## Contraction -/

namespace Network

variable {n : Nat} {net : Network n ℚ} {β : Type} [DecidableEq β] (labels : Labels n β)

theorem across_members (a b : Fin labels.used.length) :
    net.across (labels.members.get a) (labels.members.get b)
      = ∑ i with labels.number i = a, ∑ j with labels.number j = b, net.between i j := by
  rw [across, Labels.sum_members]
  exact Finset.sum_congr rfl fun i _ => Labels.sum_members b _

theorem between_contract (a b : Fin labels.used.length) :
    (net.contract labels).between a b = if a = b then 0
      else ∑ i with labels.number i = a, ∑ j with labels.number j = b, net.between i j := by
  rw [between, contract, Table.get_ofFn, Table.get_ofFn, across_members]

theorem between_contract_self (a : Fin labels.used.length) :
    (net.contract labels).between a a = 0 := by
  rw [between_contract, if_pos rfl]

theorem between_contract_comm (h : ∀ i j, net.between i j = net.between j i)
    (labels : Labels n β) (a b : Fin labels.used.length) :
    (net.contract labels).between a b = (net.contract labels).between b a := by
  rw [between_contract, between_contract, Finset.sum_comm]
  by_cases hab : a = b
  · rw [if_pos hab, if_pos hab.symm]
  · rw [if_neg hab, if_neg (Ne.symm hab)]
    exact Finset.sum_congr rfl fun j _ => Finset.sum_congr rfl fun i _ => h i j

theorem loop_contract (a : Fin labels.used.length) :
    (net.contract labels).loop.get a = ∑ i with labels.number i = a, net.loop.get i
      + (∑ i with labels.number i = a, ∑ j with labels.number j = a, net.between i j) / 2 := by
  rw [contract, Table.get_ofFn, across_members, Labels.sum_members]
  rfl

theorem entry_contract (a b : Fin labels.used.length) :
    (net.contract labels).entry a b
      = ∑ i with labels.number i = a, ∑ j with labels.number j = b, net.entry i j := by
  unfold entry
  rw [between_contract]
  by_cases hab : a = b
  · subst hab
    -- Weight inside became a loop, half of it from each end.
    have hrow : ∀ i ∈ Finset.univ.filter (fun i => labels.number i = a),
        (∑ j with labels.number j = a, (if i = j then 2 * net.loop.get i else 0))
          = 2 * net.loop.get i := by
      intro i hi
      rw [Finset.sum_ite_eq, if_pos hi]
    rw [if_pos rfl, if_pos rfl, loop_contract]
    simp only [Finset.sum_add_distrib]
    rw [Finset.sum_congr rfl hrow, ← Finset.mul_sum]
    ring
  · rw [if_neg hab, if_neg hab, add_zero]
    refine Finset.sum_congr rfl fun i hi => Finset.sum_congr rfl fun j hj => ?_
    rw [if_neg, add_zero]
    rintro rfl
    exact hab ((Finset.mem_filter.mp hi).2.symm.trans (Finset.mem_filter.mp hj).2)

theorem degree_contract (a : Fin labels.used.length) :
    (net.contract labels).degree a = ∑ i with labels.number i = a, net.degree i := by
  rw [degree_eq]
  simp only [entry_contract, degree_eq]
  rw [Finset.sum_comm]
  exact Finset.sum_congr rfl fun i _ => Finset.sum_fiberwise ..

theorem total_contract : (net.contract labels).total = net.total := by
  unfold total
  simp only [degree_contract]
  exact Finset.sum_fiberwise ..

theorem excess_contract (a b : Fin labels.used.length) :
    (net.contract labels).excess a b
      = ∑ i with labels.number i = a, ∑ j with labels.number j = b, net.excess i j := by
  unfold excess
  rw [entry_contract, degree_contract, degree_contract, total_contract, Finset.sum_mul_sum]
  simp only [Finset.sum_sub_distrib, Finset.sum_div]

theorem pairs_contract (P : Fin labels.used.length → Fin labels.used.length → Prop)
    [DecidableRel P] :
    (net.contract labels).pairs P
      = net.pairs fun i j => P (labels.number i) (labels.number j) := by
  have hpair : ∀ a b, (if P a b then (net.contract labels).excess a b else 0)
      = ∑ i with labels.number i = a, ∑ j with labels.number j = b,
          if P (labels.number i) (labels.number j) then net.excess i j else 0 := by
    intro a b
    have hlabel : ∀ i ∈ Finset.univ.filter (fun i => labels.number i = a),
        ∀ j ∈ Finset.univ.filter (fun j => labels.number j = b),
        (if P (labels.number i) (labels.number j) then net.excess i j else 0)
          = if P a b then net.excess i j else 0 := by
      intro i hi j hj
      rw [(Finset.mem_filter.mp hi).2, (Finset.mem_filter.mp hj).2]
    rw [Finset.sum_congr rfl fun i hi => Finset.sum_congr rfl (hlabel i hi), excess_contract]
    split
    · rfl
    · simp only [Finset.sum_const_zero]
  calc (net.contract labels).pairs P
      = ∑ a, ∑ b, ∑ i with labels.number i = a, ∑ j with labels.number j = b,
          if P (labels.number i) (labels.number j) then net.excess i j else 0 :=
        Finset.sum_congr rfl fun a _ => Finset.sum_congr rfl fun b _ => hpair a b
    _ = ∑ a, ∑ i with labels.number i = a, ∑ b, ∑ j with labels.number j = b,
          if P (labels.number i) (labels.number j) then net.excess i j else 0 :=
        Finset.sum_congr rfl fun a _ => Finset.sum_comm
    _ = ∑ i, ∑ b, ∑ j with labels.number j = b,
          if P (labels.number i) (labels.number j) then net.excess i j else 0 :=
        Finset.sum_fiberwise ..
    _ = net.pairs fun i j => P (labels.number i) (labels.number j) :=
        Finset.sum_congr rfl fun i _ => Finset.sum_fiberwise ..

theorem Balanced.contract (hb : net.Balanced) (labels : Labels n β) :
    (net.contract labels).Balanced where
  symm := between_contract_comm hb.symm labels
  diag := between_contract_self labels
  nonneg a b := by
    rw [between_contract]
    split
    · exact le_refl 0
    · exact Finset.sum_nonneg fun i _ => Finset.sum_nonneg fun j _ => hb.nonneg i j
  loop_nonneg a := by
    rw [loop_contract]
    have hloops : 0 ≤ ∑ i with labels.number i = a, net.loop.get i :=
      Finset.sum_nonneg fun i _ => hb.loop_nonneg i
    have hinside : 0 ≤ ∑ i with labels.number i = a, ∑ j with labels.number j = a,
        net.between i j := Finset.sum_nonneg fun i _ => Finset.sum_nonneg fun j _ => hb.nonneg i j
    linarith

end Network

end CodeGraph
