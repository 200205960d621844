import Mathlib.Tactic.FieldSimp
import CodeGraph.Community.Modularity
import CodeGraph.Proofs.Community.Surplus
import CodeGraph.Proofs.Community.Ties

/-!
# Modularity as excess

Modularity is computed on the vertices of a snapshot and searched for on the
positions of a network. Both are sums of the excess over pairs: `modularity_eq`
says so of the former, and the network has the excess of the vertices at its
positions (`excess_ofIndex`). So the surplus of a labelling is the excess inside
its groups (`sum_across_groupsOf`), whatever order the groups come in.
-/

namespace CodeGraph

/-! ## Ties -/

namespace Index

variable {n : Nat}

theorem ties_eq_sum (index : Index n) (v : Fin n) : index.ties v = ∑ w, index.multiplicity v w := by
  rw [ties, addAll_eq_sum, ← Fin.sum_univ_def]
  rfl

theorem totalTies_eq_sum (index : Index n) : index.totalTies = ∑ v, index.ties v := by
  rw [totalTies, addAll_eq_sum, ← Fin.sum_univ_def]

theorem multiplicity_comm (arcs : List (Arc n)) (a b : Fin n) :
    (ofArcs arcs).multiplicity a b = (ofArcs arcs).multiplicity b a := by
  by_cases hab : a = b
  · rw [hab]
  · rw [multiplicity_ofArcs arcs hab, multiplicity_ofArcs arcs (Ne.symm hab), add_comm]

/-- Every arc leads from one vertex to one other, if it is no loop. -/
theorem sum_countArcs (arcs : List (Arc n)) :
    ∑ a, ∑ b, (if a = b then 0 else countArcs arcs a b)
      = arcs.countP fun arc => arc.source ≠ arc.target := by
  induction arcs with
  | nil => simp [countArcs]
  | cons arc rest ih =>
      have hcount : ∀ a b, (if a = b then 0 else countArcs (arc :: rest) a b)
          = (if a = b then 0 else countArcs rest a b)
            + if arc.source = a then if arc.target = b then if a = b then 0 else 1 else 0 else 0
          := by
        intro a b
        simp only [countArcs, List.countP_cons, decide_eq_true_eq, ite_and]
        split <;> simp
      simp only [hcount, Finset.sum_add_distrib, ih, List.countP_cons]
      simp [Finset.sum_ite_irrel]

/-- Every tie is seen from both of its ends. -/
theorem totalTies_ofArcs (arcs : List (Arc n)) :
    (ofArcs arcs).totalTies = 2 * arcs.countP fun arc => arc.source ≠ arc.target := by
  have hsplit : ∀ a b, (ofArcs arcs).multiplicity a b
      = (if a = b then 0 else countArcs arcs a b) + if b = a then 0 else countArcs arcs b a := by
    intro a b
    by_cases hab : a = b
    · rw [hab, multiplicity_self, if_pos rfl]
    · rw [multiplicity_ofArcs arcs hab, if_neg hab, if_neg (Ne.symm hab)]
  calc (ofArcs arcs).totalTies
      = ∑ a, ∑ b, (ofArcs arcs).multiplicity a b := by
        rw [totalTies_eq_sum]
        exact Finset.sum_congr rfl fun v _ => ties_eq_sum _ v
    _ = ∑ a, ∑ b, (if a = b then 0 else countArcs arcs a b)
          + ∑ a, ∑ b, (if b = a then 0 else countArcs arcs b a) := by
        simp only [hsplit, Finset.sum_add_distrib]
    _ = 2 * arcs.countP fun arc => arc.source ≠ arc.target := by
        rw [Finset.sum_comm (f := fun a b => if b = a then 0 else countArcs arcs b a),
          sum_countArcs]
        ring

/-! ## Modularity as excess -/

/-- The ties of two vertices beyond what is expected. -/
def excess (index : Index n) (v w : Fin n) : ℚ :=
  index.multiplicity v w - index.ties v * index.ties w / index.totalTies

/-- The excess between the vertices of two groups. -/
def across (index : Index n) (here there : Finset (Fin n)) : ℚ :=
  ∑ v ∈ here, ∑ w ∈ there, index.excess v w

theorem innerTies_eq_sum (index : Index n) {group : List (Fin n)} (h : group.Nodup) :
    index.innerTies group = ∑ v ∈ group.toFinset, ∑ w ∈ group.toFinset, index.multiplicity v w := by
  have hmembers : ((List.finRange n).filter group.contains).toFinset = group.toFinset := by
    ext v
    simp
  rw [innerTies, addAll_eq_sum, ← List.sum_toFinset _ h]
  refine Finset.sum_congr rfl fun v _ => ?_
  rw [addAll_eq_sum, ← List.sum_toFinset _ ((List.nodup_finRange n).filter _), hmembers]
  rfl

theorem modularityOf_eq (index : Index n) {group : List (Fin n)} (h : group.Nodup)
    (ht : index.totalTies ≠ 0) :
    index.modularityOf ℚ (index.totalTies : ℚ) group
      = index.across group.toFinset group.toFinset / index.totalTies := by
  have hne : (index.totalTies : ℚ) ≠ 0 := Nat.cast_ne_zero.mpr ht
  change (index.innerTies group : ℚ) / index.totalTies
    - (addAll (group.map index.ties) : ℚ) / index.totalTies
      * ((addAll (group.map index.ties) : ℚ) / index.totalTies) = _
  rw [innerTies_eq_sum index h, addAll_eq_sum, ← List.sum_toFinset _ h]
  unfold across excess
  simp only [Finset.sum_sub_distrib, ← Finset.sum_div, ← Finset.mul_sum, ← Finset.sum_mul]
  push_cast
  field_simp

/-- The modularity is the excess inside groups as a share of all ties. -/
theorem modularity_eq (index : Index n) {groups : List (List (Fin n))}
    (h : ∀ group ∈ groups, group.Nodup) (ht : index.totalTies ≠ 0) :
    index.modularity ℚ groups
      = (groups.map fun group => index.across group.toFinset group.toFinset).sum
        / index.totalTies := by
  have hgroups : groups.map (index.modularityOf ℚ (index.totalTies : ℚ))
      = groups.map fun group => index.across group.toFinset group.toFinset
        * (index.totalTies : ℚ)⁻¹ :=
    List.map_congr_left fun group hgroup => by
      rw [modularityOf_eq index (h group hgroup) ht, div_eq_mul_inv]
  rw [modularity, if_neg ht, sum_rat]
  change (groups.map (index.modularityOf ℚ (index.totalTies : ℚ))).sum = _
  rw [hgroups, List.sum_map_mul_right, div_eq_mul_inv]

theorem across_comm (arcs : List (Arc n)) (s t : Finset (Fin n)) :
    (ofArcs arcs).across s t = (ofArcs arcs).across t s := by
  unfold across
  rw [Finset.sum_comm]
  refine Finset.sum_congr rfl fun w _ => Finset.sum_congr rfl fun v _ => ?_
  rw [excess, excess, multiplicity_comm, mul_comm ((ofArcs arcs).ties v : ℚ)]

theorem across_union (arcs : List (Arc n)) {s t : Finset (Fin n)} (h : Disjoint s t) :
    (ofArcs arcs).across (s ∪ t) (s ∪ t)
      = (ofArcs arcs).across s s + (ofArcs arcs).across t t + 2 * (ofArcs arcs).across s t := by
  have hrow : ∀ r, (ofArcs arcs).across r (s ∪ t)
      = (ofArcs arcs).across r s + (ofArcs arcs).across r t := by
    intro r
    simp only [across, Finset.sum_union h, Finset.sum_add_distrib]
  have hcolumn : ∀ r, (ofArcs arcs).across (s ∪ t) r
      = (ofArcs arcs).across s r + (ofArcs arcs).across t r := fun r => Finset.sum_union h
  rw [hrow, hcolumn, hcolumn, across_comm arcs t s]
  ring

end Index

/-! ## The network of an index -/

namespace Network

variable {n : Nat} {arcs : List (Arc n)} {vs : List (Fin n)}

theorem between_ofIndex (index : Index n) (i j : Fin vs.length) :
    (ofIndex index vs : Network vs.length ℚ).between i j
      = index.multiplicity (vs.get i) (vs.get j) := by
  rw [between, ofIndex, Table.get_ofFn, Table.get_ofFn]
  rfl

theorem loop_ofIndex (index : Index n) (i : Fin vs.length) :
    (ofIndex index vs : Network vs.length ℚ).loop.get i = 0 :=
  Table.get_replicate ..

theorem entry_ofIndex (index : Index n) (i j : Fin vs.length) :
    (ofIndex index vs : Network vs.length ℚ).entry i j
      = index.multiplicity (vs.get i) (vs.get j) := by
  rw [entry, between_ofIndex, loop_ofIndex, mul_zero, ite_self, add_zero]

theorem balanced_ofIndex (arcs : List (Arc n)) (vs : List (Fin n)) :
    (ofIndex (Index.ofArcs arcs) vs : Network vs.length ℚ).Balanced where
  symm i j := by rw [between_ofIndex, between_ofIndex, Index.multiplicity_comm]
  diag i := by rw [between_ofIndex, Index.multiplicity_self, Nat.cast_zero]
  nonneg i j := by
    rw [between_ofIndex]
    exact Nat.cast_nonneg _
  loop_nonneg i := (loop_ofIndex _ i).ge

/-- Positions that list every vertex once are as good as the vertices. -/
theorem get_bijective (hvs : vs.Perm (List.finRange n)) : Function.Bijective vs.get := by
  constructor
  · exact List.nodup_iff_injective_get.mp (hvs.nodup_iff.mpr (List.nodup_finRange n))
  · intro v
    exact List.get_of_mem (hvs.mem_iff.mpr (List.mem_finRange v))

theorem degree_ofIndex (index : Index n) (hvs : vs.Perm (List.finRange n)) (i : Fin vs.length) :
    (ofIndex index vs : Network vs.length ℚ).degree i = index.ties (vs.get i) := by
  rw [degree_eq, Index.ties_eq_sum, Nat.cast_sum]
  simp only [entry_ofIndex]
  exact (get_bijective hvs).sum_comp fun w => (index.multiplicity (vs.get i) w : ℚ)

theorem total_ofIndex (index : Index n) (hvs : vs.Perm (List.finRange n)) :
    (ofIndex index vs : Network vs.length ℚ).total = index.totalTies := by
  rw [total, Index.totalTies_eq_sum, Nat.cast_sum]
  simp only [degree_ofIndex index hvs]
  exact (get_bijective hvs).sum_comp fun v => (index.ties v : ℚ)

theorem excess_ofIndex (index : Index n) (hvs : vs.Perm (List.finRange n)) (i j : Fin vs.length) :
    (ofIndex index vs : Network vs.length ℚ).excess i j = index.excess (vs.get i) (vs.get j) := by
  rw [excess, entry_ofIndex, degree_ofIndex index hvs, degree_ofIndex index hvs,
    total_ofIndex index hvs, Index.excess]

section Label

variable {β : Type} [DecidableEq β] (index : Index n) (hvs : vs.Perm (List.finRange n))
  (label : Fin vs.length → β)

include hvs

theorem sum_positions (p : Fin vs.length → Prop) [DecidablePred p] (f : Fin n → ℚ) :
    ∑ v ∈ (((List.finRange vs.length).filter p).map vs.get).toFinset, f v
      = ∑ i with p i, f (vs.get i) := by
  have himage : (((List.finRange vs.length).filter p).map vs.get).toFinset
      = (Finset.univ.filter p).image vs.get := by
    ext v
    simp
  rw [himage, Finset.sum_image fun _ _ _ _ h => (get_bijective hvs).1 h]

theorem across_classes (p q : Fin vs.length → Prop) [DecidablePred p] [DecidablePred q] :
    index.across (((List.finRange vs.length).filter p).map vs.get).toFinset
        (((List.finRange vs.length).filter q).map vs.get).toFinset
      = (ofIndex index vs : Network vs.length ℚ).pairs fun i j => p i ∧ q j := by
  rw [Index.across, sum_positions hvs, pairs, Finset.sum_filter]
  refine Finset.sum_congr rfl fun i _ => ?_
  by_cases hp : p i
  · simp only [hp, true_and, if_true, sum_positions hvs, Finset.sum_filter,
      excess_ofIndex index hvs]
  · simp only [hp, false_and, if_false, Finset.sum_const_zero]

theorem sum_across_groupsOf :
    ((groupsOf label).map fun group => index.across (group.map vs.get).toFinset
        (group.map vs.get).toFinset).sum
      = (ofIndex index vs : Network vs.length ℚ).surplus label := by
  -- Every position adds its excess with the positions of the same label.
  let row i := ∑ j, if label i = label j
    then (ofIndex index vs : Network vs.length ℚ).excess i j else 0
  have hgroup : ∀ group ∈ groupsOf label,
      index.across (group.map vs.get).toFinset (group.map vs.get).toFinset
        = (group.map row).sum := by
    intro group hgroup
    obtain ⟨k, rfl⟩ := (mem_groupsOf label).mp hgroup
    have hacross := across_classes index hvs (fun i => label i = label k) fun j => label j = label k
    rw [hacross, ← sum_rat, sum_filter_finRange, pairs, Finset.sum_filter]
    refine Finset.sum_congr rfl fun i _ => ?_
    by_cases hi : label i = label k
    · simp only [row, hi, true_and, decide_true, if_true, eq_comm (a := label k)]
    · simp only [hi, false_and, if_false, Finset.sum_const_zero, decide_false, Bool.false_eq_true]
  calc ((groupsOf label).map fun group => index.across (group.map vs.get).toFinset
          (group.map vs.get).toFinset).sum
      = ((groupsOf label).map fun group => (group.map row).sum).sum := by
        rw [List.map_congr_left hgroup]
    _ = ((groupsOf label).flatten.map row).sum := by
        rw [List.map_flatten, List.sum_flatten, List.map_map]
        rfl
    _ = ((List.finRange vs.length).map row).sum := ((flatten_groupsOf_perm label).map row).sum_eq
    _ = (ofIndex index vs : Network vs.length ℚ).surplus label := (Fin.sum_univ_def row).symm

theorem sum_across_singletons :
    ((List.finRange n).map fun v => index.across {v} {v}).sum
      = (ofIndex index vs : Network vs.length ℚ).surplus (id : Fin vs.length → _) := by
  rw [← Fin.sum_univ_def, surplus, pairs, ← (get_bijective hvs).sum_comp]
  refine Finset.sum_congr rfl fun i _ => ?_
  simp only [id, Finset.sum_ite_eq, Finset.mem_univ, if_true, Index.across, Finset.sum_singleton,
    excess_ofIndex index hvs]

end Label

end Network

end CodeGraph
