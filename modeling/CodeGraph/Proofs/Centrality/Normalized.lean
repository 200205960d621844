import Mathlib.Algebra.Order.BigOperators.Group.Finset
import Mathlib.Algebra.Order.Field.Basic
import CodeGraph.Proofs.Centrality.Betweenness

/-!
# Normalised betweenness

Normalisation divides the betweenness of a vertex by a number that knows nothing
of the edges, `(n - 1) * (n - 2)`. That is the number of ordered pairs of two
other vertices (`card_others`). From each of them a vertex gets a part of the
shortest paths, which is at most the whole (`pairDependency_le_one`), and so the
normalised score is a mean of numbers between zero and one, whatever the snapshot.
-/

namespace CodeGraph.Betweenness

variable {n : Nat} {r : Fin n → Fin n → Prop} {s t v : Fin n}

/-! ## One pair -/

theorem pairDependency_nonneg : 0 ≤ pairDependency r s t v :=
  div_nonneg (Nat.cast_nonneg _) (Nat.cast_nonneg _)

/-- No more shortest paths pass through a vertex than there are. -/
theorem pairDependency_le_one (h : ∃ p, IsPath r s p t) : pairDependency r s t v ≤ 1 := by
  classical
  obtain ⟨p, hp⟩ := h
  obtain ⟨k, -, hdist⟩ := (hops_iff_isPath.mpr ⟨p, hp, rfl⟩).distance
  have hcard := ncard_shortest hdist
  have hpos : 0 < {p | IsShortest r s p t}.ncard := hcard ▸ card_paths_pos.mpr hdist.1
  refine div_le_one_of_le₀ (Nat.cast_le.mpr ?_) (Nat.cast_nonneg _)
  exact Set.ncard_le_ncard (fun q hq => hq.1) (Set.finite_of_ncard_pos hpos)

/-! ## All pairs -/

def others (v : Fin n) : Finset (Fin n × Fin n) :=
  (Finset.univ.erase v).offDiag

theorem card_others (v : Fin n) : (others v).card = (n - 1) * (n - 2) := by
  have hcard : (Finset.univ.erase v).card = n - 1 := by
    rw [Finset.card_erase_of_mem (Finset.mem_univ v), Finset.card_univ, Fintype.card_fin]
  rw [others, Finset.offDiag_card, hcard, ← Nat.mul_sub_one, Nat.sub_sub]

theorem pairSum_nonneg : 0 ≤ pairSum r v :=
  Finset.sum_nonneg fun _ _ => pairDependency_nonneg

theorem pairSum_le_card (r : Fin n → Fin n → Prop) (v : Fin n) :
    pairSum r v ≤ (others v).card := by
  classical
  calc pairSum r v
      ≤ (Finset.univ.filter fun x : Fin n × Fin n =>
          x.1 ≠ x.2 ∧ x.1 ≠ v ∧ x.2 ≠ v ∧ ∃ p, IsPath r x.1 p x.2).card • (1 : ℚ) :=
        Finset.sum_le_card_nsmul _ _ _ fun x hx =>
          pairDependency_le_one (Finset.mem_filter.mp hx).2.2.2.2
    _ ≤ (others v).card := by
        rw [nsmul_eq_mul, mul_one, Nat.cast_le]
        refine Finset.card_le_card fun x hx => ?_
        obtain ⟨-, hne, hfirst, hsecond, -⟩ := Finset.mem_filter.mp hx
        simp [others, hne, hfirst, hsecond]

/-- The mean dependency on `v` of the ordered pairs of two other vertices. -/
noncomputable def meanDependency (r : Fin n → Fin n → Prop) (v : Fin n) : ℚ :=
  pairSum r v / (others v).card

theorem meanDependency_nonneg : 0 ≤ meanDependency r v :=
  div_nonneg pairSum_nonneg (Nat.cast_nonneg _)

theorem meanDependency_le_one : meanDependency r v ≤ 1 :=
  div_le_one_of_le₀ (pairSum_le_card r v) (Nat.cast_nonneg _)

/-- Up to two vertices leave no pairs, and the mean over none is zero. -/
theorem normalized_pairSum (r : Fin n → Fin n → Prop) (v : Fin n) :
    normalized n (pairSum r v) = meanDependency r v := by
  unfold normalized meanDependency
  rw [card_others]
  split
  · next hfew =>
      have hnone : n - 2 = 0 := by omega
      rw [hnone, Nat.mul_zero, Nat.cast_zero, div_zero]
  · rfl

end CodeGraph.Betweenness

namespace CodeGraph.Graph

variable {g : Graph}

/-! ## Snapshots -/

/-- Normalised betweenness gives every node the mean of its dependencies, a number between zero
and one. -/
theorem normalizeBetweenness_mem_unit (hv : g.Valid) (hc : g.Closed) (workers : Option Int)
    (journal : Journal) :
    ∃ scores,
      (g.betweennessIn ℚ (Value.ofOption (workers.map .int))).outcome journal = .ok scores ∧
      scores.normalizeBetweenness = g.score (Betweenness.meanDependency g.Adjacent) ∧
      ∀ entry ∈ scores.normalizeBetweenness, 0 ≤ entry.2 ∧ entry.2 ≤ 1 := by
  refine ⟨_, outcome_betweennessIn hv hc workers journal, ?_⟩
  have hmean : (g.score ((Index.ofArcs (g.arcs keepAll)).betweenness ℚ).get).normalizeBetweenness
      = g.score (Betweenness.meanDependency g.Adjacent) := by
    rw [get_index_betweenness, normalizeBetweenness_score]
    exact congrArg g.score (funext (Betweenness.normalized_pairSum g.Adjacent))
  refine ⟨hmean, ?_⟩
  rw [hmean]
  refine List.forall_mem_map.mpr fun v _ => ?_
  exact ⟨Betweenness.meanDependency_nonneg, Betweenness.meanDependency_le_one⟩

theorem normalizeBetweenness_mem_unit_specimen :
    specimen.Valid ∧ specimen.Closed ∧
    ∃ scores,
      (specimen.betweennessIn ℚ (Value.ofOption (none.map .int))).outcome .empty = .ok scores ∧
      scores.normalizeBetweenness
        = specimen.score (Betweenness.meanDependency specimen.Adjacent) ∧
      ∀ entry ∈ scores.normalizeBetweenness, 0 ≤ entry.2 ∧ entry.2 ≤ 1 :=
  ⟨specimen_valid, specimen_closed,
    normalizeBetweenness_mem_unit specimen_valid specimen_closed none .empty⟩

end CodeGraph.Graph
