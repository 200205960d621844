import Mathlib.Data.List.TakeWhile
import CodeGraph.Proofs.Path.Shortest
import CodeGraph.Proofs.Path.Ties

/-!
# Paths by number of edges and by unit costs

In a snapshot without a nameless node, the shortest path by number of edges and
the one by cost, where every edge costs one, are the same: the same nodes in the
same order, the same length, and the same failure where there is none
(`shortestUnder_unit_costs`). The two write down the name of the last node
differently, as asked for and as the last edge spells it. Among texts there is
one spelling only, and the two lists of names are equal.

A nameless node, one with the identifier `null`, is an exception. The path by
number of edges is read off backwards up to where there is no name, and a node
without one cuts it short (`unnamed_paths_differ`).
-/

namespace CodeGraph

theorem Value.isNull_of_same {a b : Value} (h : a.same b = true) (hb : b.isNull = true) :
    a.isNull = true := by
  cases b <;> cases a <;>
    simp_all [Value.same, Value.isNull, Value.relateNumbers?, Value.asInt?]

namespace Graph

variable {g : Graph} {source target : Value} {s t : Fin g.order}

/-! ## Names -/

def Named (g : Graph) : Prop :=
  ∀ node ∈ g.nodes, node.id.isNull = false

theorem Named.not_isNull (hn : g.Named) {id : Value} {v : Fin g.order}
    (h : g.vertex? id = some v) : id.isNull = false := by
  refine Bool.eq_false_iff.mpr fun hnull => ?_
  have hname : (g.name v).isNull = true := Value.isNull_of_same (same_of_vertex? h) hnull
  have hnamed : (g.name v).isNull = false := hn _ (List.getElem_mem _)
  rw [hname] at hnamed
  cases hnamed

/-- Without a nameless node the names of a path by number of edges are those of all its nodes. -/
theorem hopNames_eq (hn : g.Named) (hs : g.vertex? source = some s) {p : List (Arc g.order)}
    (hp : (Index.ofArcs (g.arcs keepAll)).Walk s p t) :
    hopNames source target p
      = source :: p.dropLast.map (fun arc => arc.edge.target) ++ [target] := by
  have hnames : ∀ id ∈ source :: p.dropLast.map (fun arc => arc.edge.target),
      id.isNull = false := by
    intro id hid
    rcases List.mem_cons.mp hid with rfl | hid
    · exact hn.not_isNull hs
    · obtain ⟨arc, harc, rfl⟩ := List.mem_map.mp hid
      exact hn.not_isNull (vertex?_target hp (List.mem_of_mem_dropLast harc))
  unfold hopNames
  simp only
  rw [List.takeWhile_eq_self_iff.mpr, List.reverse_reverse]
  intro id hid
  rw [hnames id (List.mem_reverse.mp hid)]
  rfl

/-- The two ways to name the nodes of a path differ in the spelling of the last name only. -/
theorem hopNames_costNames (hn : g.Named) (hs : g.vertex? source = some s)
    (ht : g.vertex? target = some t) (hne : s ≠ t) {p : List (Arc g.order)}
    (hp : (Index.ofArcs (g.arcs keepAll)).Walk s p t) :
    (hopNames source target p).map g.vertex? = (costNames source p).map g.vertex? ∧
      (g.TextNamed → hopNames source target p = costNames source p) := by
  rw [hopNames_eq hn hs hp, costNames]
  rcases List.eq_nil_or_concat p with rfl | ⟨q, arc, rfl⟩
  · exact absurd hp hne
  · rw [List.concat_eq_append] at hp ⊢
    have hlast : g.vertex? arc.edge.target = some t := by
      obtain ⟨u, -, -, htarget⟩ := hp.split
      rw [vertex?_target hp (by simp), show arc.target = t from htarget]
    refine ⟨by simp [ht, hlast], fun htext => ?_⟩
    simp [htext.eq_name ht, htext.eq_name hlast]

/-! ## The same answers -/

def unitCost (_ : Edge) : Except Failure Rat :=
  .ok 1

theorem unitCosts_pathProblem (depth : Option Nat) (s t : Fin g.order) :
    Path.UnitCosts (g.pathProblem (fun _ => (1 : Rat)) depth s t) unitCost where
  toSound := sound_pathProblem (fun _ _ => ⟨rfl, Path.fair_rat.mpr zero_le_one⟩) depth s t
  one := rfl

theorem byCost_unitCost (depth : Option Nat) (s t : Fin g.order) :
    (g.pathProblem (fun _ => (1 : Rat)) depth s t).Verdict
      (g.pathProblem (fun _ => (1 : Rat)) depth s t).Cheapest
      (Path.byCost (Index.ofArcs (g.arcs keepAll)) unitCost s t depth) :=
  Path.byCost_spec (unitCosts_pathProblem depth s t).toSound

theorem byHops_eq_byCost (hne : s ≠ t) (depth : Option Nat) :
    Path.byHops (Index.ofArcs (g.arcs keepAll)) s t depth
      = Path.byCost (Index.ofArcs (g.arcs keepAll)) unitCost s t depth :=
  Path.byHops_eq_byCost (unitCosts_pathProblem depth s t) (ranks_placeIn _) hne

/-- A node reaches itself at once, whatever edges cost. -/
theorem shortestUnder_self (hv : g.Valid) (hc : g.Closed) (hs : g.vertex? source = some s)
    (ht : g.vertex? target = some s) (measure : Option (Edge → Except Failure Rat))
    (depth : Option Nat) :
    g.shortestUnder source target measure (depthValue depth)
      = liftM (.ok ([source], 0) : Except Failure (List Value × Rat)) := by
  have hfs : g.find source = .ok s := find_eq_ok.mpr ⟨hv.scalar_of_vertex? hs, hs⟩
  have hft : g.find target = .ok s := find_eq_ok.mpr ⟨hv.scalar_of_vertex? ht, ht⟩
  unfold shortestUnder
  rw [checkBudget_depthValue, index_eq_pure hv hc, hfs, hft]
  simp only [Logged.lift_ok, pure_bind, if_true]

/-- By number of edges or by unit costs, the answers name the same nodes at the same cost, or are
the same failure. -/
theorem shortestUnder_unit (hv : g.Valid) (hc : g.Closed) (hn : g.Named)
    (hs : g.vertex? source = some s) (ht : g.vertex? target = some t) (depth : Option Nat) :
    ∃ byHops byCost : Except Failure (List Value × Rat),
      g.shortestUnder source target none (depthValue depth) = liftM byHops ∧
      g.shortestUnder source target (some unitCost) (depthValue depth) = liftM byCost ∧
      byHops.map (fun (names, cost) => (names.map g.vertex?, cost))
        = byCost.map (fun (names, cost) => (names.map g.vertex?, cost)) ∧
      (g.TextNamed → byHops = byCost) := by
  by_cases hne : s = t
  · subst hne
    exact ⟨_, _, shortestUnder_self hv hc hs ht none depth,
      shortestUnder_self hv hc hs ht (some unitCost) depth, rfl, fun _ => rfl⟩
  · refine ⟨_, _, shortestUnder_eq hv hc hs ht hne none depth,
      shortestUnder_eq hv hc hs ht hne (some unitCost) depth, ?_⟩
    have hverdict := byCost_unitCost depth s t
    simp only [byHops_eq_byCost hne]
    cases hresult : Path.byCost (Index.ofArcs (g.arcs keepAll)) unitCost s t depth with
    | found p c =>
        rw [hresult] at hverdict
        obtain ⟨hvertices, hnames⟩ := hopNames_costNames hn hs ht hne hverdict.admits.walk
        exact ⟨by simp [resolve, Except.map, hvertices], fun htext => by
          simp [resolve, hnames htext]⟩
    | beyondBudget => exact ⟨rfl, fun _ => rfl⟩
    | unreachable => exact ⟨rfl, fun _ => rfl⟩
    | badWeight => exact ⟨rfl, fun _ => rfl⟩
    | failed => exact ⟨rfl, fun _ => rfl⟩

/-- Where every node has a name, paths and lengths by number of edges are those by unit costs, and
so are the failures. -/
theorem shortestUnder_unit_costs (hv : g.Valid) (hc : g.Closed) (hn : g.Named)
    (hs : g.vertex? source = some s) (ht : g.vertex? target = some t) (depth : Option Nat)
    (journal : Journal) :
    ((g.shortestPathUnder source target (none : Option (Edge → Except Failure Rat))
        (depthValue depth)).outcome journal).map (List.map g.vertex?)
      = ((g.shortestPathUnder source target (some unitCost)
          (depthValue depth)).outcome journal).map (List.map g.vertex?) ∧
    (g.TextNamed →
      (g.shortestPathUnder source target (none : Option (Edge → Except Failure Rat))
          (depthValue depth)).outcome journal
        = (g.shortestPathUnder source target (some unitCost)
            (depthValue depth)).outcome journal) ∧
    (g.shortestLengthUnder source target (none : Option (Edge → Except Failure Rat))
        (depthValue depth)).outcome journal
      = (g.shortestLengthUnder source target (some unitCost)
          (depthValue depth)).outcome journal := by
  obtain ⟨byHops, byCost, hhops, hcost, hsame, htext⟩ := shortestUnder_unit hv hc hn hs ht depth
  rw [outcome_shortestPathUnder hhops, outcome_shortestPathUnder hcost,
    outcome_shortestLengthUnder hhops, outcome_shortestLengthUnder hcost]
  refine ⟨?_, fun h => by rw [htext h], ?_⟩
  · cases byHops <;> cases byCost <;> simp_all [Except.map]
  · cases byHops <;> cases byCost <;> simp_all [Except.map]

/-- In the specimen, where two parallel edges end the way. -/
theorem shortestUnder_unit_costs_specimen :
    specimen.Valid ∧ specimen.Closed ∧ specimen.Named ∧ specimen.TextNamed ∧
    (specimen.shortestPathUnder (.str "a") (.str "c") (none : Option (Edge → Except Failure Rat))
        (depthValue (some 2))).outcome .empty
      = (specimen.shortestPathUnder (.str "a") (.str "c") (some unitCost)
          (depthValue (some 2))).outcome .empty ∧
    (specimen.shortestLengthUnder (.str "a") (.str "c") (none : Option (Edge → Except Failure Rat))
        (depthValue (some 2))).outcome .empty
      = (specimen.shortestLengthUnder (.str "a") (.str "c") (some unitCost)
          (depthValue (some 2))).outcome .empty := by
  have hnamed : specimen.Named := by simp [Named, specimen, specimenNode, Value.isNull]
  have htext := specimen_named
  have hunit := shortestUnder_unit_costs specimen_valid specimen_closed hnamed specimen_vertex.1
    specimen_vertex.2.2 (some 2) .empty
  exact ⟨specimen_valid, specimen_closed, hnamed, htext, hunit.2.1 htext, hunit.2.2⟩

/-! ## A nameless node -/

/-- The only way from one node to the other leads through a node without a name. -/
def unnamed : Graph where
  nodes := [specimenNode "a", ⟨.null, .str "function", .null, .empty⟩, specimenNode "c"]
  edges := [⟨.str "in", .str "a", .null, .callGraph, .null, .empty⟩,
    ⟨.str "out", .null, .str "c", .callGraph, .null, .empty⟩]
  cache := []
  metadata := []

theorem unnamed_valid : unnamed.Valid where
  scalar := by simp [unnamed, specimenNode, Value.isScalar]
  distinct := by simp [unnamed, specimenNode, Value.same, Value.relateNumbers?, Value.asInt?]
  same := by simp [unnamed, specimenNode, Value.same]

theorem unnamed_vertex :
    unnamed.vertex? (.str "a") = some ⟨0, by decide⟩ ∧
      unnamed.vertex? .null = some ⟨1, by decide⟩ ∧
      unnamed.vertex? (.str "c") = some ⟨2, by decide⟩ := by
  refine ⟨?_, ?_, ?_⟩ <;>
    simp [vertex?, unnamed, specimenNode, Value.same, Value.relateNumbers?, Value.asInt?,
      List.findFinIdx?, List.findFinIdx?.go] <;>
    rfl

theorem unnamed_closed : unnamed.Closed := by
  obtain ⟨ha, hnull, hc⟩ := unnamed_vertex
  refine closed_iff.mpr fun e he => ?_
  simp only [unnamed, List.mem_cons, List.not_mem_nil, or_false] at he
  rcases he with rfl | rfl
  · exact ⟨_, _, ha, hnull⟩
  · exact ⟨_, _, hnull, hc⟩

theorem walk_unnamed {p : List (Arc unnamed.order)}
    (hp : (Index.ofArcs (unnamed.arcs keepAll)).Walk ⟨0, by decide⟩ p ⟨2, by decide⟩) :
    p.map (fun arc => arc.edge.target) = [.null, .str "c"] := by
  obtain ⟨ha, hnull, hc⟩ := unnamed_vertex
  -- One edge leaves each of the first two nodes, and none the last.
  have hout : ∀ {v : Fin unnamed.order} {arc : Arc unnamed.order},
      arc ∈ (Index.ofArcs (unnamed.arcs keepAll)).out v →
      (v = ⟨0, by decide⟩ ∧ arc.edge.target = .null ∧ arc.target = ⟨1, by decide⟩) ∨
      (v = ⟨1, by decide⟩ ∧ arc.edge.target = .str "c" ∧ arc.target = ⟨2, by decide⟩) := by
    intro v arc harc
    obtain ⟨hmem, rfl⟩ := Index.mem_out_ofArcs.mp harc
    obtain ⟨he, -, hsource, htarget⟩ := mem_arcs.mp hmem
    simp only [unnamed, List.mem_cons, List.not_mem_nil, or_false] at he
    rcases he with he | he <;> rw [he] at hsource htarget ⊢
    · exact .inl ⟨Option.some.inj (hsource.symm.trans ha), rfl,
        Option.some.inj (htarget.symm.trans hnull)⟩
    · exact .inr ⟨Option.some.inj (hsource.symm.trans hnull), rfl,
        Option.some.inj (htarget.symm.trans hc)⟩
  cases p with
  | nil => exact absurd (Fin.val_eq_of_eq hp) (by decide)
  | cons first rest =>
      obtain ⟨-, hfirst, hmid⟩ | ⟨h, -⟩ := hout hp.1
      · have hrest := hp.2
        rw [hmid] at hrest
        cases rest with
        | nil => exact absurd (Fin.val_eq_of_eq hrest) (by decide)
        | cons second rest =>
            obtain ⟨h, -⟩ | ⟨-, hsecond, hend⟩ := hout hrest.1
            · exact absurd h (by decide)
            · have hlast := hrest.2
              rw [hend] at hlast
              cases rest with
              | nil => simp [hfirst, hsecond]
              | cons third rest =>
                  obtain ⟨h, -⟩ | ⟨h, -⟩ := hout hlast.1 <;> exact absurd h (by decide)
      · exact absurd h (by decide)

theorem unnamed_near : unnamed.Near none ⟨0, by decide⟩ ⟨2, by decide⟩ := by
  obtain ⟨ha, hnull, hc⟩ := unnamed_vertex
  refine ⟨unnamed.edges, ?_, by simp⟩
  exact ⟨⟨by simp [unnamed], rfl, ha⟩, _, hnull, ⟨by simp [unnamed], rfl, hnull⟩, _, hc, rfl⟩

/-- By number of edges the path loses its first two nodes, by cost it does not. -/
theorem unnamed_paths_differ :
    unnamed.Valid ∧ unnamed.Closed ∧
    (unnamed.shortestPathUnder (.str "a") (.str "c") (none : Option (Edge → Except Failure Rat))
      (depthValue none)).outcome .empty = .ok [.str "c"] ∧
    (unnamed.shortestPathUnder (.str "a") (.str "c") (some unitCost)
      (depthValue none)).outcome .empty = .ok [.str "a", .null, .str "c"] := by
  have hne : (⟨0, by decide⟩ : Fin unnamed.order) ≠ ⟨2, by decide⟩ := by decide
  obtain ⟨p, c, hfound, hcheapest⟩ :=
    (byCost_unitCost none _ _).found_of_within (within_pathProblem.mpr unnamed_near)
  have hp := walk_unnamed hcheapest.admits.walk
  have hhops := shortestUnder_eq unnamed_valid unnamed_closed unnamed_vertex.1 unnamed_vertex.2.2
    hne (none : Option (Edge → Except Failure Rat)) none
  have hcost := shortestUnder_eq unnamed_valid unnamed_closed unnamed_vertex.1 unnamed_vertex.2.2
    hne (some unitCost) none
  simp only [byHops_eq_byCost hne, hfound, resolve] at hhops hcost
  refine ⟨unnamed_valid, unnamed_closed, ?_, ?_⟩
  · rw [outcome_shortestPathUnder hhops]
    simp [Except.map, hopNames, hp, Value.isNull]
  · rw [outcome_shortestPathUnder hcost]
    simp [Except.map, costNames, hp]

end Graph

end CodeGraph
