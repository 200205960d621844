import Mathlib.Algebra.BigOperators.Fin
import CodeGraph.Centrality.Betweenness
import CodeGraph.Proofs.Centrality.Dependency
import CodeGraph.Proofs.Sums

/-!
# The scores are betweenness

The scores of a snapshot, computed over the rationals, are the sums over pairs
that define betweenness (`get_scores`, and for snapshots at the end).

Both tables of a source are filled entry by entry, the counts in the order of
the sweep and the dependencies against it. `get_foldl_set` is the one fact about
such tables: if every entry depends only on entries filled in before it, then in
the end each has the value that its equation asks for. The equations are
`Levels.sum_closer` for the counts and `share_eq` for the dependencies, and the
sweep is sorted by distance, so that closer vertices come before the ones they
lead to.

Sums over chunks are sums over all sources (`sum_chunks`). The number of workers
is not even looked at, except that it has to be a number.
-/

namespace CodeGraph.Betweenness

variable {n : Nat}

/-! ## Tables filled in order -/

section Filling

variable {α β : Type} {key : β → Fin n} {entry : Table n α → β → α}

theorem get_foldl_set_of_not_mem {order : List β} {table : Table n α} {v : Fin n}
    (hv : v ∉ order.map key) :
    (order.foldl (fun table x => table.set (key x) (entry table x)) table).get v
      = table.get v := by
  induction order generalizing table with
  | nil => rfl
  | cons x rest ih =>
      rw [List.map_cons, List.mem_cons, not_or] at hv
      rw [List.foldl_cons, ih hv.2, Table.get_set, if_neg (Ne.symm hv.1)]

/-- Entries filled in one after the other have the values that their equations ask for, if each
depends only on entries filled in before it. -/
theorem get_foldl_set {order : List β} {value : β → α} (needs : β → β → Prop)
    (hnodup : (order.map key).Nodup) (hself : ∀ x, ¬needs x x)
    (hsorted : order.Pairwise fun x y => ¬needs x y)
    (hentry : ∀ x ∈ order, ∀ table : Table n α,
      (∀ y ∈ order, needs x y → table.get (key y) = value y) → entry table x = value x)
    (table : Table n α) :
    ∀ x ∈ order,
      (order.foldl (fun table x => table.set (key x) (entry table x)) table).get (key x)
        = value x := by
  suffices ∀ (rest filled : List β) (table : Table n α), filled ++ rest = order →
      (∀ y ∈ filled, table.get (key y) = value y) → ∀ x ∈ order,
      (rest.foldl (fun table x => table.set (key x) (entry table x)) table).get (key x)
        = value x from this order [] table rfl (by simp)
  intro rest
  induction rest with
  | nil =>
      intro filled table heq hfilled x hx
      rw [List.append_nil] at heq
      exact hfilled x (heq ▸ hx)
  | cons x rest ih =>
      intro filled table heq hfilled
      have hx : x ∈ order := heq ▸ List.mem_append_right _ (List.mem_cons_self ..)
      have hvalue : entry table x = value x := by
        refine hentry x hx table fun y hy hneeds => hfilled y ?_
        rw [← heq] at hy hsorted
        rcases List.mem_append.mp hy with hy | hy
        · exact hy
        · rcases List.mem_cons.mp hy with rfl | hy
          · exact absurd hneeds (hself y)
          · have hlater := (List.pairwise_append.mp hsorted).2.1
            exact absurd hneeds ((List.pairwise_cons.mp hlater).1 y hy)
      refine ih (filled ++ [x]) _ (by simp [heq]) fun y hy => ?_
      rw [Table.get_set]
      rcases List.mem_append.mp hy with hy | hy
      · have hne : key x ≠ key y := by
          rw [← heq, List.map_append, List.map_cons] at hnodup
          have hdisjoint := (List.nodup_append.mp hnodup).2.2
          exact (hdisjoint _ (List.mem_map_of_mem hy) _ (List.mem_cons_self ..)).symm
        rw [if_neg hne]
        exact hfilled y hy
      · rw [List.mem_singleton.mp hy, if_pos rfl]
        exact hvalue

end Filling

/-! ## One source -/

section Source

variable {adjacent : Fin n → List (Fin n)} {s : Fin n}

/-- The relation that a table of neighbours stands for. -/
abbrev Next (adjacent : Fin n → List (Fin n)) (v w : Fin n) : Prop :=
  w ∈ adjacent v

theorem leads_units :
    Traversal.Leads (fun v => (adjacent v).map fun w => ((), w)) = Next adjacent := by
  funext v w
  simp [Traversal.Leads, Next]

theorem mem_sweep {x : Fin n × Nat} :
    x ∈ sweep adjacent s ↔ Distance (Next adjacent) s x.1 x.2 := by
  have hswept := Traversal.swept_within (fun v => (adjacent v).map fun w => ((), w)) s n
  obtain ⟨v, k⟩ := x
  rw [← leads_units, sweep, List.mem_cons, List.mem_map]
  constructor
  · rintro (heq | ⟨d, hd, heq⟩)
    · obtain ⟨rfl, rfl⟩ := Prod.mk.inj heq
      exact .self
    · obtain ⟨rfl, rfl⟩ := Prod.mk.inj heq
      exact hswept.exact d hd
  · intro hdist
    rcases Traversal.known_iff.mp (hswept.complete v k hdist hdist.lt_order.le) with
      rfl | ⟨d, hd, rfl⟩
    · exact Or.inl (Prod.ext rfl (hdist.unique .self))
    · exact Or.inr ⟨d, hd, Prod.ext rfl ((hswept.exact d hd).unique hdist)⟩

theorem nodup_sweep : ((sweep adjacent s).map Prod.fst).Nodup := by
  have hswept := Traversal.swept_within (fun v => (adjacent v).map fun w => ((), w)) s n
  simpa [sweep, Function.comp_def] using hswept.nodup

theorem sorted_sweep : (sweep adjacent s).Pairwise fun x y => x.2 ≤ y.2 := by
  have hswept := Traversal.swept_within (fun v => (adjacent v).map fun w => ((), w)) s n
  refine List.pairwise_cons.mpr ⟨fun _ _ => Nat.zero_le _, List.pairwise_map.mpr hswept.sorted⟩

abbrev swept (adjacent : Fin n → List (Fin n)) (s : Fin n) : Finset (Fin n × Nat) :=
  (sweep adjacent s).toFinset

theorem levels_swept : Levels (Next adjacent) s (swept adjacent s) :=
  fun v k => by rw [List.mem_toFinset, mem_sweep]

theorem leads_iff {x y : Fin n × Nat} :
    leads adjacent x y = true ↔ y.2 = x.2 + 1 ∧ Next adjacent x.1 y.1 := by
  rw [leads, Bool.and_eq_true, beq_iff_eq, List.contains_iff_mem, eq_comm]

theorem get_pathCounts {x : Fin n × Nat} (hx : x ∈ sweep adjacent s) :
    (pathCounts adjacent s (sweep adjacent s) : Table n ℚ).get x.1
      = count (Next adjacent) s x := by
  have hcounts : (pathCounts adjacent s (sweep adjacent s) : Table n ℚ) =
      (sweep adjacent s).foldl (fun counts w => counts.set w.1
        (if w.1 = s then 1 else Scalar.sum (((sweep adjacent s).filter (leads adjacent · w)).map
          fun v => counts.get v.1))) (Vector.replicate n 0) := by
    unfold pathCounts
    congr 1
    funext counts w
    split <;> rfl
  rw [hcounts]
  refine get_foldl_set (fun x y => y.2 < x.2) nodup_sweep (fun x => lt_irrefl _)
    (sorted_sweep.imp fun h => h.not_gt) (fun w hw counts hbefore => ?_) _ x hx
  have hdist := mem_sweep.mp hw
  by_cases hs : w.1 = s
  · have hzero : w.2 = 0 := (hs ▸ hdist).unique .self
    rw [if_pos hs, count, hzero, hs, card_paths_zero, if_pos rfl, Nat.cast_one]
  · obtain ⟨k, hk⟩ : ∃ k, w.2 = k + 1 :=
      Nat.exists_eq_succ_of_ne_zero fun hzero => hs (hzero ▸ hdist).eq_of_zero
    rw [hk] at hdist
    rw [if_neg hs, sum_filter nodup_sweep.of_map, count, hk, ← levels_swept.sum_closer hdist,
      Nat.cast_sum]
    refine Finset.sum_congr (Finset.filter_congr fun y _ => ?_) fun y hy => ?_
    · rw [leads_iff, hk, Nat.add_right_cancel_iff, eq_comm]
    · obtain ⟨hy, hlevel, -⟩ := Finset.mem_filter.mp hy
      rw [hbefore y (List.mem_toFinset.mp hy) (by omega), count, hlevel]

theorem get_dependencies {counts : Table n ℚ}
    (hcounts : ∀ x ∈ sweep adjacent s, counts.get x.1 = count (Next adjacent) s x)
    {x : Fin n × Nat} (hx : x ∈ sweep adjacent s) :
    (dependencies adjacent counts (sweep adjacent s)).get x.1
      = share (Next adjacent) s (swept adjacent s) x := by
  have hnodup : ((sweep adjacent s).reverse.map Prod.fst).Nodup := by
    rw [List.map_reverse, List.nodup_reverse]
    exact nodup_sweep
  refine get_foldl_set (fun x y => x.2 < y.2) hnodup (fun x => lt_irrefl _)
    (List.pairwise_reverse.mpr (sorted_sweep.imp fun h => h.not_gt))
    (fun v hv shares hbefore => ?_) _ x (List.mem_reverse.mpr hx)
  have hv := List.mem_reverse.mp hv
  rw [sum_filter hnodup.of_map, List.toFinset_reverse, share_eq levels_swept
    (List.mem_toFinset.mpr hv)]
  refine Finset.sum_congr (Finset.filter_congr fun w _ => leads_iff) fun w hw => ?_
  obtain ⟨hw, hlevel, -⟩ := Finset.mem_filter.mp hw
  have hw := List.mem_toFinset.mp hw
  rw [hcounts v hv, hcounts w hw, hbefore w (List.mem_reverse.mpr hw) (by omega)]

theorem get_fromSource {v : Fin n} (hne : v ≠ s) {k : Nat}
    (hv : Distance (Next adjacent) s v k) :
    (fromSource adjacent s : Table n ℚ).get v
      = share (Next adjacent) s (swept adjacent s) (v, k) := by
  unfold fromSource
  rw [Table.get_set, if_neg hne.symm]
  exact get_dependencies (fun x hx => get_pathCounts hx) (mem_sweep (x := (v, k)).mpr hv)

theorem get_fromSource_of_unreachable {v : Fin n}
    (hv : ∀ k, ¬Distance (Next adjacent) s v k) :
    (fromSource adjacent s : Table n ℚ).get v = 0 := by
  have hnot : v ∉ (sweep adjacent s).reverse.map Prod.fst := fun hmem => by
    obtain ⟨x, hx, rfl⟩ := List.mem_map.mp hmem
    exact hv x.2 (mem_sweep.mp (List.mem_reverse.mp hx))
  unfold fromSource
  rw [Table.get_set]
  split
  · rfl
  · exact (get_foldl_set_of_not_mem hnot).trans (Table.get_replicate ..)

end Source

/-! ## All sources -/

section Scores

variable {adjacent : Fin n → List (Fin n)}

open Classical in
theorem get_fromSource_eq_sum (s v : Fin n) :
    (fromSource adjacent s : Table n ℚ).get v =
      ∑ t with s ≠ t ∧ s ≠ v ∧ t ≠ v ∧ ∃ p, IsPath (Next adjacent) s p t,
        pairDependency (Next adjacent) s t v := by
  by_cases hne : v = s
  · have hzero : (fromSource adjacent s : Table n ℚ).get v = 0 := by
      unfold fromSource
      rw [Table.get_set, if_pos hne.symm]
    rw [hzero]
    refine (Finset.sum_eq_zero fun t ht => ?_).symm
    exact absurd hne.symm (Finset.mem_filter.mp ht).2.2.1
  · by_cases hreach : ∃ k, Distance (Next adjacent) s v k
    · obtain ⟨k, hk⟩ := hreach
      rw [get_fromSource hne hk, sum_pairDependency levels_swept hne hk]
    · have hnot : ∀ k, ¬Distance (Next adjacent) s v k := fun k hk => hreach ⟨k, hk⟩
      rw [get_fromSource_of_unreachable hnot]
      refine (Finset.sum_eq_zero fun t ht => ?_).symm
      obtain ⟨p, hp⟩ := (Finset.mem_filter.mp ht).2.2.2.2
      obtain ⟨k, -, hdist⟩ := (hops_iff_isPath.mpr ⟨p, hp, rfl⟩).distance
      exact pairDependency_eq_zero hdist fun j _ => hnot j

theorem flatten_chunks {β : Type} (size : Nat) (items : List β) :
    (chunks size items).flatten = items := by
  fun_induction chunks size items with
  | case1 => rfl
  | case2 item rest ih =>
      rw [List.flatten_cons, ih, List.cons_append, List.take_append_drop]

theorem sum_chunks (size : Nat) (f : Fin n → ℚ) :
    ((chunks size (List.finRange n)).map fun piece => (piece.map f).sum).sum = ∑ s, f s := by
  calc ((chunks size (List.finRange n)).map fun piece => (piece.map f).sum).sum
      = ((chunks size (List.finRange n)).flatten.map f).sum := by
        rw [List.map_flatten, List.sum_flatten, List.map_map]
        rfl
    _ = ((List.finRange n).map f).sum := by rw [flatten_chunks]
    _ = ∑ s, f s := (Fin.sum_univ_def f).symm

/-- However the sources are cut into chunks, the scores are the sums over all pairs. -/
theorem get_scores (size : Nat) (adjacent : Fin n → List (Fin n)) (v : Fin n) :
    (scores size adjacent : Table n ℚ).get v = pairSum (Next adjacent) v := by
  classical
  have hsources : (scores size adjacent : Table n ℚ).get v
      = ∑ s, (fromSource adjacent s : Table n ℚ).get v := by
    simp only [scores, Table.get_ofFn, sum_rat]
    exact sum_chunks size fun s => (fromSource adjacent s : Table n ℚ).get v
  rw [hsources, pairSum, Finset.sum_filter, Fintype.sum_prod_type]
  refine Finset.sum_congr rfl fun s _ => ?_
  rw [get_fromSource_eq_sum, Finset.sum_filter]

end Scores

end CodeGraph.Betweenness

namespace CodeGraph.Graph

/-! ## Snapshots -/

/-- Some edge leads from one vertex to another: loops do not count, and edges side by side are
one. -/
def Adjacent (g : Graph) (u v : Fin g.order) : Prop :=
  u ≠ v ∧ ∃ e ∈ g.edges, g.vertex? e.source = some u ∧ g.vertex? e.target = some v

theorem next_distinctSuccessors (g : Graph) :
    Betweenness.Next (Index.ofArcs (g.arcs keepAll)).distinctSuccessors = g.Adjacent := by
  funext u v
  rw [Betweenness.Next, Index.distinctSuccessors, mem_firstOccurrences, List.mem_filter,
    decide_eq_true_eq, Index.successors, List.mem_map]
  refine propext ⟨?_, ?_⟩
  · rintro ⟨⟨arc, harc, rfl⟩, hne⟩
    obtain ⟨hmem, rfl⟩ := Index.mem_out_ofArcs.mp harc
    obtain ⟨he, -, hsource, htarget⟩ := mem_arcs.mp hmem
    exact ⟨Ne.symm hne, arc.edge, he, hsource, htarget⟩
  · rintro ⟨hne, e, he, hsource, htarget⟩
    have hmem : (⟨e, u, v⟩ : Arc g.order) ∈ g.arcs keepAll :=
      mem_arcs.mpr ⟨he, rfl, hsource, htarget⟩
    exact ⟨⟨⟨e, u, v⟩, Index.mem_out_ofArcs.mpr ⟨hmem, rfl⟩, rfl⟩, Ne.symm hne⟩

theorem get_scores_distinctSuccessors (g : Graph) (size : Nat) (v : Fin g.order) :
    (Betweenness.scores size (Index.ofArcs (g.arcs keepAll)).distinctSuccessors :
      Table g.order ℚ).get v = Betweenness.pairSum g.Adjacent v := by
  rw [Betweenness.get_scores, next_distinctSuccessors]

theorem get_index_betweenness (g : Graph) :
    ((Index.ofArcs (g.arcs keepAll)).betweenness ℚ).get = Betweenness.pairSum g.Adjacent := by
  have hget : (Vector.ofFn (Index.ofArcs (g.arcs keepAll)).distinctSuccessors).get
      = (Index.ofArcs (g.arcs keepAll)).distinctSuccessors := funext (Table.get_ofFn _)
  funext v
  unfold Index.betweenness
  simp only [hget]
  exact get_scores_distinctSuccessors g _ v

theorem normalizeBetweenness_score {α : Type} [Scalar α] (g : Graph) (f : Fin g.order → α) :
    (g.score f).normalizeBetweenness
      = g.score fun v => Betweenness.normalized g.order (f v) := by
  have hlength : (g.score f).length = g.order := by
    rw [score, List.length_map, vertices, List.length_finRange]
  rw [Scores.normalizeBetweenness, hlength, score, List.map_map]
  rfl

theorem outcome_betweennessIn {g : Graph} (hv : g.Valid) (hc : g.Closed) (workers : Option Int)
    (journal : Journal) :
    (g.betweennessIn ℚ (Value.ofOption (workers.map .int))).outcome journal
      = .ok (g.score ((Index.ofArcs (g.arcs keepAll)).betweenness ℚ).get) := by
  unfold betweennessIn
  rw [index_eq_pure hv hc, pure_bind]
  by_cases hzero : g.order = 0
  · have hempty : g.vertices = [] := by
      rw [← List.length_eq_zero_iff, vertices, List.length_finRange, hzero]
    rw [if_pos hzero, score, hempty]
    rfl
  · rw [if_neg hzero]
    cases workers with
    | none => rfl
    | some w =>
        have hgt : Value.gt (.int w) (.int 1)
            = .ok (Value.Relation.ofOrdering (compare w 1) == .greater) := by
          rw [Value.gt, Value.relation_int]
          rfl
        simp only [Option.map_some, Value.ofOption, hgt]
        by_cases htruthy : Value.truthy (.int w) = true
        · rw [if_pos htruthy]
          rfl
        · rw [if_neg htruthy]
          rfl

/-- Every node scores the sum of its dependencies over all pairs, whatever the number of workers
and the size of the chunks. -/
theorem betweennessIn_eq_pair_sum {g : Graph} (hv : g.Valid) (hc : g.Closed)
    (workers : Option Int) (journal : Journal) :
    (g.betweennessIn ℚ (Value.ofOption (workers.map .int))).outcome journal
        = .ok (g.score (Betweenness.pairSum g.Adjacent)) ∧
      ∀ size v,
        (Betweenness.scores size (Index.ofArcs (g.arcs keepAll)).distinctSuccessors :
          Table g.order ℚ).get v = Betweenness.pairSum g.Adjacent v := by
  rw [outcome_betweennessIn hv hc, get_index_betweenness]
  exact ⟨rfl, get_scores_distinctSuccessors g⟩

theorem betweennessIn_specimen :
    specimen.Valid ∧ specimen.Closed ∧
    (specimen.betweennessIn ℚ (Value.ofOption ((some 4).map .int))).outcome .empty
      = .ok (specimen.score (Betweenness.pairSum specimen.Adjacent)) ∧
    ∀ size v,
      (Betweenness.scores size (Index.ofArcs (specimen.arcs keepAll)).distinctSuccessors :
        Table specimen.order ℚ).get v = Betweenness.pairSum specimen.Adjacent v :=
  ⟨specimen_valid, specimen_closed,
    betweennessIn_eq_pair_sum specimen_valid specimen_closed (some 4) .empty⟩

end CodeGraph.Graph
