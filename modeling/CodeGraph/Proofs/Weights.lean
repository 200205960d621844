import CodeGraph.Proofs.Answers
import CodeGraph.Proofs.Sums

/-!
# The weights of an index

Weights are counted arc by arc, at both ends of each arc. `Tallies` is what a
count keeps: the entry that one vertex has for another is the number of arcs
counted so far between the two, and there is none as long as that is zero. An
arc raises two entries (`Tallies.addArc`), whichever of its ends the count has
come to. So opposite and parallel arcs add up, though they are met at different
vertices (`tallies_ofArcs`), and all entries together make twice the number of
arcs that are no loops (`total_weights`).
-/

namespace CodeGraph

/-! ## Counting an arc at one end -/

namespace Tie

variable {n : Nat}

theorem weight?_raise (arc : Arc n) (c b : Fin n) (ties : List (Tie n)) :
    weight? b (raise arc c ties)
      = if c = b then some ((weight? b ties).getD 0 + 1) else weight? b ties := by
  induction ties with
  | nil => rfl
  | cons tie rest ih =>
      by_cases hc : tie.other = c
      · subst hc
        by_cases hb : tie.other = b <;> simp [raise, weight?, hb]
      · by_cases hb : tie.other = b
        · subst hb
          simp [raise, weight?, hc, Ne.symm hc]
        · simp [raise, weight?, hc, hb, ih]

theorem map_other_raise (arc : Arc n) (c : Fin n) (ties : List (Tie n)) :
    (raise arc c ties).map other = seeItem (ties.map other) c := by
  induction ties with
  | nil => rfl
  | cons tie rest ih =>
      by_cases hc : tie.other = c
      · simp [raise, seeItem, hc]
      · rw [raise, if_neg hc, List.map_cons, ih, seeItem, seeItem, List.map_cons,
          List.contains_cons, beq_false_of_ne (Ne.symm hc), Bool.false_or]
        split <;> rfl

theorem addAll_raise (arc : Arc n) (c : Fin n) (ties : List (Tie n)) :
    addAll ((raise arc c ties).map weight) = addAll (ties.map weight) + 1 := by
  induction ties with
  | nil => rfl
  | cons tie rest ih =>
      rw [raise]
      split
      · simp only [List.map_cons, addAll_cons]
        omega
      · simp only [List.map_cons, addAll_cons, ih]
        omega

end Tie

/-! ## Counting arcs at both ends -/

namespace Weights

variable {n : Nat} {weights : Weights n} {count : Fin n → Fin n → Nat}

theorem get_raise (weights : Weights n) (arc : Arc n) (v c a : Fin n) :
    (weights.raise arc v c).get a
      = if v = a then Tie.raise arc c (weights.get a) else weights.get a := by
  rw [raise, Table.get_set]
  split
  · next h => rw [h]
  · rfl

theorem listed?_raise (weights : Weights n) (arc : Arc n) (v c a b : Fin n) :
    (weights.raise arc v c).listed? a b
      = if v = a ∧ c = b then some (weights.between a b + 1) else weights.listed? a b := by
  rw [listed?, get_raise]
  by_cases hv : v = a
  · rw [if_pos hv, Tie.weight?_raise]
    simp only [hv, true_and]
    rfl
  · rw [if_neg hv, if_neg fun h => hv h.1, listed?]

/-- What has been counted: every vertex has one entry for each vertex that some arc leads to or
comes from, which is the number of these arcs. -/
structure Tallies (weights : Weights n) (count : Fin n → Fin n → Nat) : Prop where
  once : ∀ a, ((weights.get a).map Tie.other).Nodup
  entry : ∀ a b, weights.listed? a b = if 0 < count a b then some (count a b) else none

namespace Tallies

theorem between (h : weights.Tallies count) (a b : Fin n) : weights.between a b = count a b := by
  rw [Weights.between, h.entry]
  split
  · rfl
  · next hzero => exact (Nat.eq_zero_of_not_pos hzero).symm

theorem empty : (Weights.empty : Weights n).Tallies fun _ _ => 0 where
  once a := by rw [Weights.empty, Table.get_replicate]; exact List.nodup_nil
  entry a b := by rw [listed?, Weights.empty, Table.get_replicate]; rfl

theorem raise (h : weights.Tallies count) (arc : Arc n) (v c : Fin n) :
    (weights.raise arc v c).Tallies fun a b => count a b + if v = a ∧ c = b then 1 else 0 where
  once a := by
    rw [get_raise]
    split
    · rw [Tie.map_other_raise]
      exact nodup_seeItem (h.once a) c
    · exact h.once a
  entry a b := by
    rw [listed?_raise, h.between, h.entry]
    by_cases hends : v = a ∧ c = b <;> simp [hends]

end Tallies

end Weights

/-- An arc at `v` leads between two vertices, whichever of them `v` is. -/
def Arc.Spans {n : Nat} (v : Fin n) (arc : Arc n) (a b : Fin n) : Prop :=
  arc.target ≠ v ∧ (v = a ∧ arc.target = b ∨ v = b ∧ arc.target = a)

instance {n : Nat} (v : Fin n) (arc : Arc n) (a b : Fin n) : Decidable (arc.Spans v a b) :=
  inferInstanceAs (Decidable (_ ∧ _))

theorem Arc.not_spans_self {n : Nat} (v : Fin n) (arc : Arc n) (a : Fin n) : ¬arc.Spans v a a := by
  rintro ⟨hne, ⟨hv, htarget⟩ | ⟨hv, htarget⟩⟩ <;> exact hne (htarget.trans hv.symm)

namespace Weights

variable {n : Nat} {weights : Weights n} {count : Fin n → Fin n → Nat}

/-- An arc is counted once from each of its ends. -/
theorem Tallies.addArc (h : weights.Tallies count) (v : Fin n) (arc : Arc n) :
    (weights.addArc v arc).Tallies fun a b => count a b + if arc.Spans v a b then 1 else 0 := by
  rw [Weights.addArc]
  by_cases hloop : arc.target = v
  · simpa [Arc.Spans, hloop] using h
  · rw [if_neg hloop]
    have hboth := (h.raise arc v arc.target).raise arc arc.target v
    refine ⟨hboth.once, fun a b => ?_⟩
    -- the two ends differ, so no entry is raised at both
    have hcount : count a b + (if arc.Spans v a b then 1 else 0)
        = count a b + (if v = a ∧ arc.target = b then 1 else 0)
          + if arc.target = a ∧ v = b then 1 else 0 := by
      grind [Arc.Spans]
    rw [hboth.entry, hcount]

theorem Tallies.foldl_addArc (h : weights.Tallies count) (v : Fin n) (arcs : List (Arc n)) :
    (arcs.foldl (Weights.addArc v) weights).Tallies fun a b =>
      count a b + arcs.countP fun arc => arc.Spans v a b := by
  induction arcs generalizing weights count with
  | nil => exact h
  | cons arc rest ih =>
      rw [List.foldl_cons]
      have hrest := ih (h.addArc v arc)
      refine ⟨hrest.once, fun a b => ?_⟩
      rw [hrest.entry, List.countP_cons]
      simp only [decide_eq_true_eq, Nat.add_assoc, Nat.add_comm (List.countP _ rest)]

def total (weights : Weights n) : Nat :=
  ∑ a, addAll ((weights.get a).map Tie.weight)

theorem total_raise (weights : Weights n) (arc : Arc n) (v c : Fin n) :
    (weights.raise arc v c).total = weights.total + 1 := by
  have hrow : ∀ a, addAll (((weights.raise arc v c).get a).map Tie.weight)
      = addAll ((weights.get a).map Tie.weight) + if v = a then 1 else 0 := by
    intro a
    rw [get_raise]
    split
    · rw [Tie.addAll_raise]
    · rfl
  simp only [total, hrow, Finset.sum_add_distrib, Finset.sum_ite_eq, Finset.mem_univ, if_true]

theorem total_addArc (v : Fin n) (weights : Weights n) (arc : Arc n) :
    (weights.addArc v arc).total = weights.total + if arc.target = v then 0 else 2 := by
  rw [addArc]
  split
  · rfl
  · rw [total_raise, total_raise]

theorem total_foldl_addArc (v : Fin n) (weights : Weights n) (arcs : List (Arc n)) :
    (arcs.foldl (addArc v) weights).total
      = weights.total + 2 * arcs.countP fun arc => arc.target ≠ v := by
  induction arcs generalizing weights with
  | nil => rfl
  | cons arc rest ih =>
      rw [List.foldl_cons, ih, total_addArc, List.countP_cons]
      by_cases hloop : arc.target = v
      · simp [hloop]
      · simp only [hloop, ne_eq, not_false_eq_true, decide_true, if_true, if_false]
        omega

end Weights

/-! ## The weights of an index -/

namespace Index

variable {n : Nat}

theorem tallies_foldl_weigh (index : Index n) (vs : List (Fin n)) {weights : Weights n}
    {count : Fin n → Fin n → Nat} (h : weights.Tallies count) :
    (vs.foldl index.weigh weights).Tallies fun a b =>
      count a b + addAll (vs.map fun v => (index.out v).countP fun arc => arc.Spans v a b) := by
  induction vs generalizing weights count with
  | nil => exact h
  | cons v rest ih =>
      rw [List.foldl_cons, weigh]
      have hrest := ih (h.foldl_addArc v (index.out v))
      refine ⟨hrest.once, fun a b => ?_⟩
      rw [hrest.entry, List.map_cons, addAll_cons]
      simp only [Nat.add_assoc]

theorem tallies_weights (index : Index n) :
    index.weights.Tallies fun a b => ∑ v, (index.out v).countP fun arc => arc.Spans v a b := by
  have h := index.tallies_foldl_weigh (List.finRange n) Weights.Tallies.empty
  refine ⟨h.once, fun a b => ?_⟩
  rw [weights, h.entry, Nat.zero_add, addAll_eq_sum, ← Fin.sum_univ_def]

theorem total_foldl_weigh (index : Index n) (vs : List (Fin n)) (weights : Weights n) :
    (vs.foldl index.weigh weights).total = weights.total
      + 2 * addAll (vs.map fun v => (index.out v).countP fun arc => arc.target ≠ v) := by
  induction vs generalizing weights with
  | nil => rfl
  | cons v rest ih =>
      rw [List.foldl_cons, ih, weigh, Weights.total_foldl_addArc, List.map_cons, addAll_cons]
      omega

theorem sum_countP_out (arcs : List (Arc n)) (p : Fin n → Arc n → Bool) :
    ∑ v, ((ofArcs arcs).out v).countP (p v) = arcs.countP fun arc => p arc.source arc := by
  simp only [out_ofArcs]
  induction arcs with
  | nil => simp
  | cons arc rest ih =>
      have hterm : ∀ v, ((arc :: rest).filter fun arc => arc.source = v).countP (p v)
          = (rest.filter fun arc => arc.source = v).countP (p v)
            + if arc.source = v then if p arc.source arc then 1 else 0 else 0 := by
        intro v
        rw [List.filter_cons]
        by_cases hv : arc.source = v
        · simp [hv, List.countP_cons]
        · simp [hv]
      simp only [hterm, Finset.sum_add_distrib, ih, Finset.sum_ite_eq, Finset.mem_univ, if_true,
        List.countP_cons]

theorem tallies_ofArcs (arcs : List (Arc n)) :
    (ofArcs arcs).weights.Tallies fun a b => arcs.countP fun arc => arc.Spans arc.source a b := by
  have h := (ofArcs arcs).tallies_weights
  simp only [sum_countP_out arcs fun v arc => decide (arc.Spans v _ _)] at h
  exact h

theorem total_weights (arcs : List (Arc n)) :
    (ofArcs arcs).weights.total = 2 * arcs.countP fun arc => arc.target ≠ arc.source := by
  have hempty : (Weights.empty : Weights n).total = 0 := by
    simp only [Weights.total, Weights.empty, Table.get_replicate]
    simp [addAll]
  rw [weights, total_foldl_weigh, hempty, Nat.zero_add, addAll_eq_sum, ← Fin.sum_univ_def,
    sum_countP_out arcs fun v arc => decide (arc.target ≠ v)]

theorem multiplicity_eq_countP (arcs : List (Arc n)) (a b : Fin n) :
    (ofArcs arcs).multiplicity a b = arcs.countP fun arc => arc.Spans arc.source a b :=
  (tallies_ofArcs arcs).between a b

theorem multiplicity_self (index : Index n) (v : Fin n) : index.multiplicity v v = 0 := by
  rw [multiplicity, index.tallies_weights.between]
  simp [Arc.not_spans_self]

end Index

end CodeGraph
