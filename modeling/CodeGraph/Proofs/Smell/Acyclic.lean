import Mathlib.Data.Finset.Card
import Mathlib.Data.Fintype.Basic
import Mathlib.Data.List.Nodup
import CodeGraph.Proofs.Smell.Cycle

/-!
# Cycles or an order

The detector finds nothing just when the nodes have an order in which all edges
that count go forward, loops apart (`Cycle.nothing_found_iff_order`). An order
rules out a way back. Conversely, where there is no way back, more nodes are out of
reach from the end of an edge than from its start, and sorting by their number gives
such an order (`Graph.exists_topologicalOrder`).
-/

namespace CodeGraph

/-- In a list that is sorted by rank, a lower rank stands at an earlier place. -/
theorem idxOf_lt_idxOf {γ δ : Type} [DecidableEq γ] [LinearOrder δ] {rank : γ → δ} {items : List γ}
    (h : items.Pairwise fun a b => rank a ≤ rank b) {a b : γ} (ha : a ∈ items) (hb : b ∈ items)
    (hlt : rank a < rank b) : items.idxOf a < items.idxOf b := by
  have ha' := List.idxOf_lt_length_of_mem ha
  have hb' := List.idxOf_lt_length_of_mem hb
  by_contra hge
  rcases (not_lt.mp hge).lt_or_eq with hbefore | hsame
  · have hle := List.pairwise_iff_getElem.mp h _ _ hb' ha' hbefore
    rw [List.getElem_idxOf, List.getElem_idxOf] at hle
    exact absurd hlt (not_lt.mpr hle)
  · rw [(List.idxOf_inj hb).mp hsame] at hlt
    exact lt_irrefl _ hlt

namespace Graph

variable {g : Graph} {keep : Edge → Bool}

/-- An order of the nodes in which every kept edge goes forward unless it is a loop. -/
structure TopologicalOrder (g : Graph) (keep : Edge → Bool) (order : List (Fin g.order)) :
    Prop where
  nodes : order.Perm g.vertices
  forward : ∀ e ∈ g.edges, keep e = true → e.isSelfLoop = false → ∃ u v,
    g.vertex? e.source = some u ∧ g.vertex? e.target = some v ∧ order.idxOf u < order.idxOf v

theorem isSelfLoop_iff (hv : g.Valid) (ht : g.TextNamed) {e : Edge} {u v : Fin g.order}
    (hu : g.vertex? e.source = some u) (hw : g.vertex? e.target = some v) :
    e.isSelfLoop = true ↔ u = v := by
  rw [Edge.isSelfLoop, (vertex?_eq_some_iff hv ht).mp hu, (vertex?_eq_some_iff hv ht).mp hw,
    Value.same, beq_iff_eq, (nameText_injective hv ht).eq_iff]

namespace TopologicalOrder

variable {order : List (Fin g.order)}

theorem mem (h : g.TopologicalOrder keep order) (v : Fin g.order) : v ∈ order :=
  h.nodes.mem_iff.mpr (List.mem_finRange v)

theorem idxOf_step (h : g.TopologicalOrder keep order) (hv : g.Valid) (ht : g.TextNamed)
    {u v : Fin g.order} (hstep : v ∈ (Index.ofArcs (g.arcs keep)).successors u) :
    order.idxOf u ≤ order.idxOf v := by
  obtain ⟨e, he, hkeep, hsource, htarget⟩ := mem_successors.mp hstep
  by_cases hloop : e.isSelfLoop = true
  · rw [(isSelfLoop_iff hv ht hsource htarget).mp hloop]
  · obtain ⟨u', v', hu', hv', hlt⟩ := h.forward e he hkeep (Bool.eq_false_iff.mpr hloop)
    obtain rfl := Option.some.inj (hsource.symm.trans hu')
    obtain rfl := Option.some.inj (htarget.symm.trans hv')
    exact hlt.le

theorem idxOf_reach (h : g.TopologicalOrder keep order) (hv : g.Valid) (ht : g.TextNamed)
    {u v : Fin g.order} (hreach : Component.Reach (Index.ofArcs (g.arcs keep)).successors u v) :
    order.idxOf u ≤ order.idxOf v := by
  induction hreach with
  | refl => exact le_rfl
  | tail _ hstep ih => exact ih.trans (h.idxOf_step hv ht hstep)

theorem eq_of_reach (h : g.TopologicalOrder keep order) (hv : g.Valid) (ht : g.TextNamed)
    {u v : Fin g.order} (huv : Component.Reach (Index.ofArcs (g.arcs keep)).successors u v)
    (hvu : Component.Reach (Index.ofArcs (g.arcs keep)).successors v u) : u = v :=
  (List.idxOf_inj (h.mem u)).mp (le_antisymm (h.idxOf_reach hv ht huv) (h.idxOf_reach hv ht hvu))

end TopologicalOrder

open Classical in
noncomputable def outOfReach {n : Nat} (succ : Fin n → List (Fin n)) (v : Fin n) :
    Finset (Fin n) :=
  {w | ¬Component.Reach succ v w}

/-- With no way back along an edge, its start is out of reach of its end, as is all that was out
of reach before. -/
theorem outOfReach_ssubset {n : Nat} {succ : Fin n → List (Fin n)} {u v : Fin n} (h : v ∈ succ u)
    (hback : ¬Component.Reach succ v u) : outOfReach succ u ⊂ outOfReach succ v := by
  refine Finset.ssubset_iff_of_subset (fun w hw => ?_) |>.mpr ⟨u, ?_, ?_⟩
  · simp only [outOfReach, Finset.mem_filter_univ] at hw ⊢
    exact fun hreach => hw (.head h hreach)
  · simpa [outOfReach] using hback
  · simpa [outOfReach] using Relation.ReflTransGen.refl

theorem exists_topologicalOrder (hv : g.Valid) (hc : g.Closed) (ht : g.TextNamed)
    (h : ∀ u v, Component.Reach (Index.ofArcs (g.arcs keep)).successors u v →
      Component.Reach (Index.ofArcs (g.arcs keep)).successors v u → u = v) :
    ∃ order, g.TopologicalOrder keep order := by
  let rank (v : Fin g.order) : Nat := (outOfReach (Index.ofArcs (g.arcs keep)).successors v).card
  let order := g.vertices.mergeSort fun u v => decide (rank u ≤ rank v)
  have hperm : order.Perm g.vertices := List.mergeSort_perm _ _
  refine ⟨order, hperm, fun e he hkeep hloop => ?_⟩
  obtain ⟨u, v, hu, hw⟩ := closed_iff.mp hc e he
  have hne : u ≠ v := fun heq => by
    rw [(isSelfLoop_iff hv ht hu hw).mpr heq] at hloop
    cases hloop
  have hstep : v ∈ (Index.ofArcs (g.arcs keep)).successors u :=
    mem_successors.mpr ⟨e, he, hkeep, hu, hw⟩
  have hlt : rank u < rank v := Finset.card_lt_card
    (outOfReach_ssubset hstep fun hback => hne (h u v (.single hstep) hback))
  exact ⟨u, v, hu, hw, idxOf_lt_idxOf (Value.pairwise_mergeSort_rank rank g.vertices)
    (hperm.mem_iff.mpr (List.mem_finRange u)) (hperm.mem_iff.mpr (List.mem_finRange v)) hlt⟩

theorem exists_topologicalOrder_iff (hv : g.Valid) (hc : g.Closed) (ht : g.TextNamed) :
    (∃ order, g.TopologicalOrder keep order) ↔ ∀ a b, g.Mutual keep a b → a = b := by
  constructor
  · rintro ⟨order, horder⟩ a b hab
    by_contra hne
    obtain ⟨v, w, rfl, rfl, hvw, hwv⟩ := hab.exists_vertices hv hc ht hne
    exact hne (congrArg g.nameText (horder.eq_of_reach hv ht hvw hwv))
  · intro h
    refine exists_topologicalOrder hv hc ht fun u v huv hvu => nameText_injective hv ht (h _ _ ?_)
    exact ⟨(reach_iff_leads hv hc ht).mp huv, (reach_iff_leads hv hc ht).mp hvu⟩

theorem Cycles.eq_nil_iff {cycles : List (List String)} (h : g.Cycles keep cycles) :
    cycles = [] ↔ ∀ a b, g.Mutual keep a b → a = b := by
  constructor
  · rintro rfl a b hab
    by_contra hne
    obtain ⟨c, hc, -⟩ := h.complete a b hne hab
    cases hc
  · intro hsingle
    refine List.eq_nil_iff_forall_not_mem.mpr fun c hc => ?_
    obtain ⟨a, b, rest, rfl⟩ := exists_cons_cons (h.large c hc)
    have hlt : a < b := (List.pairwise_cons.mp (h.sorted _ hc)).1 b (by simp)
    exact hlt.ne (hsingle a b ((h.strong _ hc a (by simp) b).mp (by simp)))

end Graph

/-! ## The findings in order -/

namespace Cycle

variable {g : Graph} {t : Thresholds} {filter : KindFilter}

/-- Larger, or of the same size with a smaller least member. -/
def ComesFirst (c d : List Value) : Prop :=
  d.length < c.length ∨ c.length = d.length ∧ ∃ a b, IsLeast {x | Value.str x ∈ c} a ∧
    IsLeast {x | Value.str x ∈ d} b ∧ a < b

theorem comesFirst_of_rank {c d : List String} (hc : c ≠ []) (hd : d ≠ [])
    (h : Component.rank c < Component.rank d) : ComesFirst (c.map .str) (d.map .str) := by
  have hleast : ∀ {members : List String}, members ≠ [] →
      IsLeast {x | Value.str x ∈ members.map .str} (members.min?.getD "") := by
    intro members hne
    simpa using Component.isLeast_min? hne
  rw [ComesFirst, List.length_map, List.length_map]
  rcases Component.rank_lt_iff.mp h with hlarger | ⟨hsize, hlt⟩
  · exact .inl hlarger
  · exact .inr ⟨hsize, _, _, hleast hc, hleast hd, hlt⟩

/-- Nothing is found just when the nodes have an order in which the edges that count go forward,
loops apart. What is found are the cycles, no two with a member in common, larger ones first and
those of one size by their least member. -/
theorem nothing_found_iff_order (hv : g.Valid) (hc : g.Closed) (ht : g.TextNamed)
    (hkinds : KindFilter.read t.cycleEdgeKinds = .ok filter) (journal : Journal) :
    ∃ cycles findings, (detect g t).outcome journal = .ok findings ∧
      findings = cycles.map report ∧ g.Cycles filter.keeps cycles ∧
      (findings = [] ↔ ∃ order, g.TopologicalOrder filter.keeps order) ∧
      (findings.Pairwise fun f f' => f.cycle.Disjoint f'.cycle) ∧
      findings.Pairwise fun f f' => ComesFirst f.cycle f'.cycle := by
  obtain ⟨cycles, hcycles, hfound⟩ := exists_cycles hv hc ht hkinds
  refine ⟨cycles, cycles.map report, hfound journal, rfl, hcycles, ?_, ?_, ?_⟩
  · rw [List.map_eq_nil_iff, hcycles.eq_nil_iff, Graph.exists_topologicalOrder_iff hv hc ht]
  · rw [List.pairwise_map]
    exact hcycles.disjoint.imp fun h => List.disjoint_map (fun _ _ => Value.str.inj) h
  · have hne : ∀ c ∈ cycles, c ≠ [] := fun c hc =>
      List.length_pos_iff.mp (Nat.zero_lt_two.trans_le (hcycles.large c hc))
    rw [List.pairwise_map]
    exact hcycles.ordered.imp_of_mem fun hc hd h => comesFirst_of_rank (hne _ hc) (hne _ hd) h

/-- In the specimen an edge from `a` to `b` and one back leave no order. -/
theorem something_found_specimen :
    Graph.specimen.Valid ∧ Graph.specimen.Closed ∧ Graph.specimen.TextNamed ∧
    KindFilter.read (Thresholds.cycleEdgeKinds {}) = .ok none ∧
    ∃ cycles findings, (detect Graph.specimen {}).outcome .empty = .ok findings ∧
      findings ≠ [] ∧ (¬∃ order, Graph.specimen.TopologicalOrder (KindFilter.keeps none) order) ∧
      findings = cycles.map report ∧ Graph.specimen.Cycles (KindFilter.keeps none) cycles ∧
      (findings.Pairwise fun f f' => f.cycle.Disjoint f'.cycle) ∧
      findings.Pairwise fun f f' => ComesFirst f.cycle f'.cycle := by
  have ht : Graph.specimen.TextNamed := by
    simp [Graph.TextNamed, Graph.specimen, specimenNode, Value.isText]
  have hno : ¬∃ order, Graph.specimen.TopologicalOrder (KindFilter.keeps none) order := by
    rintro ⟨order, horder⟩
    obtain ⟨ha, hb, -⟩ := Graph.specimen_vertex
    obtain ⟨u, v, hu, hv, huv⟩ := horder.forward (specimenEdge "ab" "a" "b" .callGraph)
      (by simp [Graph.specimen]) rfl (by simp [Edge.isSelfLoop, specimenEdge, Value.same])
    obtain ⟨v', u', hv', hu', hvu⟩ := horder.forward (specimenEdge "ba" "b" "a" .dataFlow)
      (by simp [Graph.specimen]) rfl (by simp [Edge.isSelfLoop, specimenEdge, Value.same])
    obtain rfl := Option.some.inj (ha.symm.trans hu)
    obtain rfl := Option.some.inj (ha.symm.trans hu')
    obtain rfl := Option.some.inj (hb.symm.trans hv)
    obtain rfl := Option.some.inj (hb.symm.trans hv')
    exact lt_asymm huv hvu
  have hkinds : KindFilter.read (Thresholds.cycleEdgeKinds {}) = .ok none := rfl
  obtain ⟨cycles, findings, hfound, hfindings, hcycles, hnothing, h⟩ :=
    nothing_found_iff_order Graph.specimen_valid Graph.specimen_closed ht hkinds .empty
  exact ⟨Graph.specimen_valid, Graph.specimen_closed, ht, hkinds, cycles, findings, hfound,
    fun hnil => hno (hnothing.mp hnil), hno, hfindings, hcycles, h⟩

end Cycle

end CodeGraph
