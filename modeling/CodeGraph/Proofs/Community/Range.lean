import Mathlib.Algebra.Order.BigOperators.Group.List
import Mathlib.Tactic.Linarith
import CodeGraph.Proofs.Community.Modularity

/-!
# The range of modularity

Whatever the snapshot and however its nodes are shared out to communities, the
modularity is between `-1/2` and `1`.

A community adds at least minus half its stake in all ties, and at most the whole
of it (`modularityOf_ge`, `modularityOf_le`); the stakes add up to one
(`sum_stakes`). The lower bound rests on one count: the ties that leave a
community arrive outside it, so a community with no ties inside has at most half
of all (`two_mul_bonds_le`).
-/

namespace CodeGraph

namespace Index

variable {n : Nat}

/-! ## Ties between sets of vertices -/

/-- The ties that lead from one set of vertices to another. -/
def bonds (index : Index n) (here there : Finset (Fin n)) : Nat :=
  ∑ v ∈ here, ∑ w ∈ there, index.multiplicity v w

theorem sum_ties (index : Index n) (s : Finset (Fin n)) :
    ∑ v ∈ s, index.ties v = index.bonds s Finset.univ :=
  Finset.sum_congr rfl fun v _ => ties_eq_sum index v

theorem totalTies_eq_bonds (index : Index n) :
    index.totalTies = index.bonds Finset.univ Finset.univ := by
  rw [totalTies_eq_sum, sum_ties]

theorem bonds_comm (arcs : List (Arc n)) (s t : Finset (Fin n)) :
    (ofArcs arcs).bonds s t = (ofArcs arcs).bonds t s := by
  unfold bonds
  rw [Finset.sum_comm]
  exact Finset.sum_congr rfl fun w _ => Finset.sum_congr rfl fun v _ => multiplicity_comm arcs v w

theorem bonds_add_compl (index : Index n) (s t : Finset (Fin n)) :
    index.bonds s t + index.bonds s tᶜ = index.bonds s Finset.univ := by
  unfold bonds
  rw [← Finset.sum_add_distrib]
  exact Finset.sum_congr rfl fun v _ => Finset.sum_add_sum_compl t _

theorem bonds_self_le (index : Index n) (s : Finset (Fin n)) :
    index.bonds s s ≤ index.bonds s Finset.univ := by
  have hsplit := bonds_add_compl index s s
  omega

theorem bonds_univ_le (index : Index n) (s : Finset (Fin n)) :
    index.bonds s Finset.univ ≤ index.totalTies := by
  rw [totalTies_eq_bonds]
  exact Finset.sum_le_sum_of_subset (Finset.subset_univ s)

/-- What leaves a set is counted once more among the ties of the others. -/
theorem two_mul_bonds_le (arcs : List (Arc n)) (s : Finset (Fin n)) :
    2 * (ofArcs arcs).bonds s Finset.univ
      ≤ (ofArcs arcs).totalTies + (ofArcs arcs).bonds s s := by
  have htotal : (ofArcs arcs).bonds s Finset.univ + (ofArcs arcs).bonds sᶜ Finset.univ
      = (ofArcs arcs).totalTies := by
    rw [totalTies_eq_bonds]
    exact Finset.sum_add_sum_compl s _
  have hinside := bonds_add_compl (ofArcs arcs) s s
  have houtside := bonds_add_compl (ofArcs arcs) sᶜ s
  have hcross := bonds_comm arcs s sᶜ
  omega

/-! ## One community -/

/-- The part of all ties, counted at their ends, that a community has. -/
def stake (index : Index n) (group : List (Fin n)) : ℚ :=
  (addAll (group.map index.ties) : ℚ) / index.totalTies

/-- The part of all ties that lies inside a community. -/
def inside (index : Index n) (group : List (Fin n)) : ℚ :=
  (index.innerTies group : ℚ) / index.totalTies

theorem modularityOf_eq_sub (index : Index n) (group : List (Fin n)) :
    index.modularityOf ℚ (index.totalTies : ℚ) group
      = index.inside group - index.stake group * index.stake group :=
  rfl

section Group

variable {arcs : List (Arc n)} {group : List (Fin n)}

theorem groupTies_eq_bonds (index : Index n) (h : group.Nodup) :
    addAll (group.map index.ties) = index.bonds group.toFinset Finset.univ := by
  rw [addAll_eq_sum, ← List.sum_toFinset _ h, sum_ties]

theorem stake_nonneg (index : Index n) (group : List (Fin n)) : 0 ≤ index.stake group :=
  div_nonneg (Nat.cast_nonneg _) (Nat.cast_nonneg _)

theorem inside_nonneg (index : Index n) (group : List (Fin n)) : 0 ≤ index.inside group :=
  div_nonneg (Nat.cast_nonneg _) (Nat.cast_nonneg _)

theorem stake_le_one (index : Index n) (h : group.Nodup) : index.stake group ≤ 1 := by
  refine div_le_one_of_le₀ (Nat.cast_le.mpr ?_) (Nat.cast_nonneg _)
  rw [groupTies_eq_bonds index h]
  exact bonds_univ_le index _

theorem inside_le_stake (index : Index n) (h : group.Nodup) :
    index.inside group ≤ index.stake group := by
  refine div_le_div_of_nonneg_right (Nat.cast_le.mpr ?_) (Nat.cast_nonneg _)
  rw [groupTies_eq_bonds index h, innerTies_eq_sum index h]
  exact bonds_self_le index _

theorem two_mul_stake_le (h : group.Nodup) (ht : (ofArcs arcs).totalTies ≠ 0) :
    2 * (ofArcs arcs).stake group ≤ 1 + (ofArcs arcs).inside group := by
  have hpos : (0 : ℚ) < (ofArcs arcs).totalTies := Nat.cast_pos.mpr (Nat.pos_of_ne_zero ht)
  have hties := two_mul_bonds_le arcs group.toFinset
  rw [← groupTies_eq_bonds _ h] at hties
  unfold stake inside
  rw [mul_div_assoc', ← div_self hpos.ne', ← add_div, innerTies_eq_sum _ h]
  exact div_le_div_of_nonneg_right (by exact_mod_cast hties) hpos.le

theorem modularityOf_le (index : Index n) (h : group.Nodup) :
    index.modularityOf ℚ (index.totalTies : ℚ) group ≤ index.stake group := by
  rw [modularityOf_eq_sub]
  have hsquare := mul_self_nonneg (index.stake group)
  linarith [inside_le_stake index h]

/-- With `d` for the stake and `i` for what is inside, `d * d ≤ d * (1 + i) / 2 ≤ (d + i) / 2`. -/
theorem modularityOf_ge (h : group.Nodup) (ht : (ofArcs arcs).totalTies ≠ 0) :
    -1 / 2 * (ofArcs arcs).stake group
      ≤ (ofArcs arcs).modularityOf ℚ ((ofArcs arcs).totalTies : ℚ) group := by
  rw [modularityOf_eq_sub]
  have hhalf := mul_le_mul_of_nonneg_left (two_mul_stake_le h ht) (stake_nonneg (ofArcs arcs) group)
  have hinside := mul_le_mul_of_nonneg_right (stake_le_one (ofArcs arcs) h)
    (inside_nonneg (ofArcs arcs) group)
  linarith [inside_nonneg (ofArcs arcs) group]

end Group

/-! ## All communities -/

theorem sum_stakes (index : Index n) {groups : List (List (Fin n))}
    (h : groups.flatten.Perm (List.finRange n)) (ht : index.totalTies ≠ 0) :
    (groups.map index.stake).sum = 1 := by
  have hties : (groups.map fun group => addAll (group.map index.ties)).sum = index.totalTies := by
    calc (groups.map fun group => addAll (group.map index.ties)).sum
        = (groups.flatten.map index.ties).sum := by
          rw [List.map_flatten, List.sum_flatten, List.map_map]
          rfl
      _ = ((List.finRange n).map index.ties).sum := (h.map index.ties).sum_eq
  have hcast : (groups.map fun group => (addAll (group.map index.ties) : ℚ)).sum
      = index.totalTies := by
    rw [← hties, Nat.cast_list_sum, List.map_map]
    rfl
  have hshare : groups.map index.stake = groups.map fun group =>
      (addAll (group.map index.ties) : ℚ) * (index.totalTies : ℚ)⁻¹ :=
    List.map_congr_left fun group _ => div_eq_mul_inv ..
  rw [hshare, List.sum_map_mul_right, hcast]
  exact mul_inv_cancel₀ (Nat.cast_ne_zero.mpr ht)

theorem modularity_mem_range (arcs : List (Arc n)) {groups : List (List (Fin n))}
    (h : groups.flatten.Perm (List.finRange n)) :
    -1 / 2 ≤ (ofArcs arcs).modularity ℚ groups ∧ (ofArcs arcs).modularity ℚ groups ≤ 1 := by
  by_cases ht : (ofArcs arcs).totalTies = 0
  · rw [modularity, if_pos ht]
    norm_num
  · have hnodup := (List.nodup_flatten.mp (h.nodup_iff.mpr (List.nodup_finRange n))).1
    have hstakes := sum_stakes (ofArcs arcs) h ht
    rw [modularity, if_neg ht, sum_rat]
    constructor
    · calc -1 / 2 = (groups.map fun group => -1 / 2 * (ofArcs arcs).stake group).sum := by
            rw [List.sum_map_mul_left, hstakes, mul_one]
        _ ≤ _ := List.sum_le_sum fun group hgroup => modularityOf_ge (hnodup group hgroup) ht
    · calc (groups.map ((ofArcs arcs).modularityOf ℚ ((ofArcs arcs).totalTies : ℚ))).sum
          ≤ (groups.map (ofArcs arcs).stake).sum :=
            List.sum_le_sum fun group hgroup => modularityOf_le _ (hnodup group hgroup)
        _ = 1 := hstakes

end Index

/-! ## Communities by identifiers -/

namespace Graph

variable {g : Graph} {communities : List (List Value)}

/-- The communities name every node once, and nothing else. -/
def SharesOut (g : Graph) (communities : List (List Value)) : Prop :=
  (communities.flatten.map g.vertex?).Perm (g.vertices.map some)

namespace SharesOut

theorem exists_vertex (h : g.SharesOut communities) {ids : List Value} (hids : ids ∈ communities)
    {id : Value} (hid : id ∈ ids) : ∃ v, g.vertex? id = some v := by
  have hmem : g.vertex? id ∈ communities.flatten.map g.vertex? :=
    List.mem_map_of_mem (List.mem_flatten_of_mem hids hid)
  obtain ⟨v, -, hv⟩ := List.mem_map.mp (h.mem_iff.mp hmem)
  exact ⟨v, hv.symm⟩

theorem flatten_perm (h : g.SharesOut communities) :
    (communities.map (List.filterMap g.vertex?)).flatten.Perm g.vertices := by
  have hnamed := List.Perm.filterMap id h
  rw [List.filterMap_map, List.filterMap_map] at hnamed
  rw [← List.filterMap_flatten]
  simpa using hnamed

end SharesOut

/-- Communities that name every node once have a modularity, and it is in range. -/
theorem modularityIn_mem_range (hv : g.Valid) (hc : g.Closed) (h : g.SharesOut communities)
    (journal : Journal) :
    ∃ q, (g.modularityIn ℚ (.list (communities.map .list))).outcome journal = .ok q ∧
      -1 / 2 ≤ q ∧ q ≤ 1 :=
  ⟨_, outcome_modularityIn_list ℚ hv hc (fun _ hids _ => h.exists_vertex hids) journal,
    Index.modularity_mem_range (g.arcs keepAll) h.flatten_perm⟩

/-- The two pairs torn apart. -/
def twoPairs.torn : List (List Value) :=
  [[.str "a", .str "c"], [.str "d", .str "b"]]

theorem twoPairs_sharesOut : twoPairs.SharesOut twoPairs.torn := by
  unfold SharesOut
  decide +kernel

theorem twoPairs_modularityIn_torn :
    (twoPairs.modularityIn ℚ (.list (twoPairs.torn.map .list))).outcome .empty
      = .ok (-1 / 2) :=
  eq_ok_of_toOption (by decide +kernel)

/-- The lower end of the range is met where every edge leads from one community to the other. -/
theorem modularityIn_mem_range_torn :
    twoPairs.Valid ∧ twoPairs.Closed ∧ twoPairs.SharesOut twoPairs.torn ∧
    ∃ q, (twoPairs.modularityIn ℚ (.list (twoPairs.torn.map .list))).outcome .empty = .ok q ∧
      q = -1 / 2 ∧ -1 / 2 ≤ q ∧ q ≤ 1 := by
  obtain ⟨q, hq, hrange⟩ :=
    modularityIn_mem_range twoPairs_valid twoPairs_closed twoPairs_sharesOut .empty
  have hvalue := Except.ok.inj (hq.symm.trans twoPairs_modularityIn_torn)
  exact ⟨twoPairs_valid, twoPairs_closed, twoPairs_sharesOut, q, hq, hvalue, hrange⟩

end Graph

end CodeGraph
