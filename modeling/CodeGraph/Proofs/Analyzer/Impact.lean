import CodeGraph.Analyzer
import CodeGraph.Proofs.Analyzer.Measures
import CodeGraph.Proofs.Community.Stability

/-!
# The communities that an impact names

An impact is computed with the configured depth, kinds and algorithm, but label
propagation runs for up to a hundred rounds there, whatever is configured. The
communities affected are those that have a member downstream by these rounds
(`impact_affects`). They are the configured communities if the algorithm does
not propagate labels, if a hundred rounds are configured, or if the labels have
come to rest by then either way (`Settles`): rounds that are run to the end and
rounds that stop at the first one without a change leave the same labels
(`rounds_labels`).
-/

namespace CodeGraph

/-! ## Rounds -/

/-- Stopping at a round that changes nothing makes no difference to the labels. -/
theorem Propagation.rounds_labels {n : Nat} (links : Links n) (below : Fin n → Fin n → Bool)
    (k : Nat) (labels : Labelling n) :
    (rounds links below k labels).2 = (round links below)^[k] labels := by
  induction k generalizing labels with
  | zero => rfl
  | succ k ih =>
    rw [rounds, Function.iterate_succ_apply]
    by_cases hsame : round links below labels = labels
    · simp only [hsame, if_true]
      exact (Function.iterate_fixed hsame k).symm
    · simp only [if_neg hsame]
      exact ih _

namespace Graph

variable {g : Graph}

/-- The labels of the nodes, in the order of their names, after so many rounds. -/
def labelsAfter (g : Graph) (k : Nat) : Labelling (g.sortByName g.vertices).length :=
  (Propagation.round (Propagation.linksOf g _) (Propagation.belowOf g _))^[k]
    (Labelling.singletons _)

def RestsAfter (g : Graph) (k : Nat) : Prop :=
  g.labelsAfter (k + 1) = g.labelsAfter k

theorem RestsAfter.labelsAfter_eq {k m : Nat} (h : g.RestsAfter k) (hm : k ≤ m) :
    g.labelsAfter m = g.labelsAfter k := by
  obtain ⟨more, rfl⟩ := Nat.exists_eq_add_of_le' hm
  unfold RestsAfter labelsAfter at h
  rw [Function.iterate_succ_apply'] at h
  unfold labelsAfter
  rw [Function.iterate_add_apply]
  exact Function.iterate_fixed h more

def propagated (g : Graph) (k : Nat) : List (List (Fin g.order)) :=
  g.arranged (g.propagate (Index.ofArcs (g.arcs keepAll)) (g.sortByName g.vertices) k).2

theorem propagated_congr {k m : Nat} (h : g.labelsAfter k = g.labelsAfter m) :
    g.propagated k = g.propagated m := by
  have hgroups : ∀ k, (g.propagate (Index.ofArcs (g.arcs keepAll)) (g.sortByName g.vertices) k).2
      = (groupsOf (g.labelsAfter k).get).map (List.map (g.sortByName g.vertices).get) := fun k =>
    congrArg (fun labels : Labelling (g.sortByName g.vertices).length =>
      (groupsOf labels.get).map (List.map (g.sortByName g.vertices).get))
        (Propagation.rounds_labels ..)
  rw [propagated, propagated, hgroups, hgroups, h]

end Graph

/-- The configured rounds find what a hundred rounds find. -/
def CommunityOptions.Settles (o : CommunityOptions) (g : Graph) : Prop :=
  o.algorithm = .str "louvain" ∨ ∃ k : Int, o.maxIterations.asInt? = some k ∧
    (k = 100 ∨ g.RestsAfter (min k 100).toNat)

namespace Graph

variable {g : Graph}

theorem outcome_communities_propagated (hv : g.Valid) (hc : g.Closed) (ha : g.AlikeNamed)
    {rounds : Value} {k : Int} (hrounds : rounds.asInt? = some k) (hk : 1 ≤ k) (journal : Journal) :
    (g.communities (.str "label_propagation") rounds).outcome journal
      = (g.propagated k.toNat).zipIdx.mapM fun entry => g.describeGroup entry.2 entry.1 := by
  have hgroups := labelPropagation_gives hv hc ha hk
  refine outcome_communities (Validation.coerce_algorithm .labelPropagation) ?_ journal
  rw [groups_of_asInt? hrounds hk]
  exact hgroups

/-- Where labels settle, the configured rounds make no difference to the communities. -/
theorem outcome_communities_of_settles (hv : g.Valid) (hc : g.Closed) (ha : g.AlikeNamed)
    {o : CommunityOptions} {algorithm : CommunityAlgorithm}
    (halgorithm : o.algorithm = Tagged.value algorithm)
    (hrounds : Validation.NotBelow 1 o.maxIterations) (h : o.Settles g) (journal : Journal) :
    (g.communities o.algorithm o.maxIterations).outcome journal
      = (g.communities o.algorithm defaultRounds).outcome journal := by
  rcases h with hlouvain | ⟨k, hk, hsettled⟩
  · rw [hlouvain]
    rfl
  · cases algorithm with
    | louvain =>
      rw [halgorithm]
      rfl
    | labelPropagation =>
      have hpos := hrounds.le_of_asInt? hk
      have hlabels : g.labelsAfter k.toNat = g.labelsAfter (100 : Int).toNat := by
        rcases hsettled with rfl | hrest
        · rfl
        · exact (hrest.labelsAfter_eq (by omega)).trans (hrest.labelsAfter_eq (by omega)).symm
      rw [halgorithm, Tagged.value]
      calc (g.communities (.str "label_propagation") o.maxIterations).outcome journal
        _ = (g.propagated k.toNat).zipIdx.mapM fun entry => g.describeGroup entry.2 entry.1 :=
          outcome_communities_propagated hv hc ha hk hpos journal
        _ = (g.propagated (100 : Int).toNat).zipIdx.mapM fun entry =>
            g.describeGroup entry.2 entry.1 := by rw [propagated_congr hlabels]
        _ = (g.communities (.str "label_propagation") defaultRounds).outcome journal :=
          (outcome_communities_propagated hv hc ha rfl (by decide) journal).symm

end Graph

/-! ## Impacts as configured -/

namespace Analyzer

variable {a : Analyzer} {g : Graph} {id : Value} {s : Fin g.order}

/-- The impact of a node under accepted options: what is affected is looked for among what is
downstream, and reported. -/
theorem impact_eq (hc : a.config.Accepted) (hv : g.Valid) (hclosed : g.Closed)
    (hs : g.vertex? id = some s) :
    ∃ (kinds : KindFilter) (d : Nat) (q : ImpactQuery) (algorithm : CommunityAlgorithm),
      q.known = none ∧ q.algorithm = a.config.communities.algorithm ∧
      Tagged.coerce q.algorithm = .ok algorithm ∧
      a.impact g id .null .null none
        = q.affected g (Impact.reach (Index.ofArcs (g.arcs kinds.keeps)) true s d) >>=
          Impact.report Float id q.depth
            (Impact.reach (Index.ofArcs (g.arcs kinds.keeps)) true s d)
            (Impact.reach (Index.ofArcs (g.arcs kinds.keeps)) false s d) := by
  obtain ⟨kinds, hkinds, -⟩ := hc.dependencyKinds
  obtain ⟨d, hd, -⟩ := hc.impactDepth.impactDepth_gives g.order
  obtain ⟨algorithm, halgorithm⟩ := hc.algorithm
  let q : ImpactQuery := ⟨a.config.impact.depth, a.config.impact.dependencyKinds,
    a.config.communities.algorithm, none⟩
  have hcoerce : Tagged.coerce q.algorithm = .ok algorithm := by
    change Tagged.coerce a.config.communities.algorithm = _
    rw [halgorithm]
    exact Validation.coerce_algorithm algorithm
  refine ⟨kinds, d, q, algorithm, rfl, rfl, hcoerce, ?_⟩
  have hfind : g.find id = .ok s := Graph.find_eq_ok.mpr ⟨hv.scalar_of_vertex? hs, hs⟩
  change g.impactOf Float id (g.find id) q = _
  rw [hfind]
  exact Graph.impactOf_eq Float hv hclosed (hc.impactDepth.checkBudget_eq "depth") hd hkinds hcoerce

/-- With options left to the configuration, an impact names the communities that have a member
downstream, in rising order, by an algorithm as configured but always with a hundred rounds. Where
labels settle these are the communities as configured. -/
theorem impact_affects {c : Config} {warnings : List String} (hc : c.validate = .ok warnings)
    (hv : g.Valid) (hclosed : g.Closed) (ht : g.TextNamed) (hs : g.vertex? id = some s)
    (journal : Journal) :
    ((∀ node ∈ g.nodes, node.kind.isText = true) → ∃ impact communities,
      ((Analyzer.mk c).impact g id .null .null none).outcome journal = .ok impact ∧
      (g.communities c.communities.algorithm Graph.defaultRounds).outcome journal
        = .ok communities) ∧
    (∀ impact communities,
      ((Analyzer.mk c).impact g id .null .null none).outcome journal = .ok impact →
      (g.communities c.communities.algorithm Graph.defaultRounds).outcome journal
        = .ok communities →
      Touches communities impact.downstream impact.affected) ∧
    (c.communities.Settles g →
      ((Analyzer.mk c).communities g .null).outcome journal
        = (g.communities c.communities.algorithm Graph.defaultRounds).outcome journal) := by
  have haccepted := Config.accepted_of_validate hc
  obtain ⟨kinds, d, q, algorithm, hknown, halgorithm, hcoerce, himpact⟩ :=
    impact_eq (a := ⟨c⟩) haccepted hv hclosed hs
  rw [himpact, ← halgorithm]
  refine ⟨fun hkind => ?_, fun impact communities h hcommunities => ?_, fun hsettles => ?_⟩
  · obtain ⟨communities, hcommunities, -⟩ := (ht.orderable.communities_gives hv hclosed hkind hcoerce
      (by decide : (1 : Int) ≤ 100)).outcome journal
    obtain ⟨affected, haffected⟩ :=
      (Graph.affected_answers_iff hv hknown _ journal).mpr (.inr ⟨communities, hcommunities⟩)
    exact ⟨_, communities, Graph.report_eq_ok_iff.mpr ⟨affected, haffected, rfl⟩, hcommunities⟩
  · obtain ⟨affected, haffected, rfl⟩ := Graph.report_eq_ok_iff.mp h
    exact Graph.affected_touches hv hclosed ht hknown hcoerce haffected hcommunities
  · obtain ⟨algorithm, hvalue⟩ := haccepted.algorithm
    rw [halgorithm]
    exact Graph.outcome_communities_of_settles hv hclosed ht.alikeNamed hvalue haccepted.rounds
      hsettles journal

end Analyzer

/-! ## Labels on their way -/

namespace Graph

/-- Four nodes in a row, with `a` and `d` in the middle. -/
def trail : Graph where
  nodes := [specimenNode "a", specimenNode "b", specimenNode "c", specimenNode "d"]
  edges := [specimenEdge "ab" "a" "b" .callGraph, specimenEdge "ad" "a" "d" .callGraph,
    specimenEdge "dc" "d" "c" .callGraph]
  cache := []
  metadata := []

theorem trail_plain : trail.Plain where
  valid :=
    { scalar := by simp [trail, specimenNode, Value.isScalar]
      distinct := by simp [trail, specimenNode, Value.same]
      same := by simp [trail, specimenNode, Value.same] }
  closed := by with_unfolding_all rfl
  named := by simp [TextNamed, trail, specimenNode, Value.isText]
  kind := by simp [trail, specimenNode, Value.isText]

theorem trail_sorted : trail.sortByName trail.vertices = trail.vertices :=
  List.mergeSort_of_pairwise (by decide +kernel)

def trail.at (i : Nat) (h : i < 4 := by decide) : Fin trail.order := ⟨i, h⟩

theorem trail_propagated_once :
    trail.propagated 1 = [[trail.at 0, trail.at 1, trail.at 3], [trail.at 2]] := by
  have hgroups : (trail.propagate (Index.ofArcs (trail.arcs keepAll)) trail.vertices 1).2
      = [[trail.at 0, trail.at 1, trail.at 3], [trail.at 2]] := by decide +kernel
  have hfirst : trail.sortByName [trail.at 0, trail.at 1, trail.at 3]
      = [trail.at 0, trail.at 1, trail.at 3] := List.mergeSort_of_pairwise (by decide +kernel)
  have hsecond : trail.sortByName [trail.at 2] = [trail.at 2] :=
    List.mergeSort_of_pairwise (by decide +kernel)
  rw [propagated, trail_sorted, hgroups, arranged, List.map_cons, List.map_cons, List.map_nil,
    hfirst, hsecond]
  exact List.mergeSort_of_pairwise (by decide +kernel)

theorem trail_propagated : trail.propagated 100 = [trail.vertices] := by
  have hgroups : (trail.propagate (Index.ofArcs (trail.arcs keepAll)) trail.vertices 100).2
      = [trail.vertices] := by decide +kernel
  rw [propagated, trail_sorted, hgroups, arranged, List.map_cons, List.map_nil, trail_sorted]
  exact List.mergeSort_of_pairwise (by decide +kernel)

theorem trail_rests : trail.RestsAfter 5 := by
  have hrests : ∀ vs, vs = trail.vertices →
      (Propagation.round (Propagation.linksOf trail vs) (Propagation.belowOf trail vs))^[6]
        (Labelling.singletons _)
      = (Propagation.round (Propagation.linksOf trail vs) (Propagation.belowOf trail vs))^[5]
        (Labelling.singletons _) := by
    rintro _ rfl
    decide +kernel
  exact hrests _ trail_sorted

theorem trail_vertex : trail.vertex? (.str "d") = some (trail.at 3) :=
  trail_plain.valid.vertex?_name (trail.at 3)

end Graph

def Config.propagating (rounds : Int) : Config where
  communities := { algorithm := .str "label_propagation", maxIterations := .int rounds }

namespace Analyzer

open CodeGraph.Graph (trail trail_plain)

theorem propagating_validate : (Config.propagating 5).validate = .ok [] ∧
    (Config.propagating 1).validate = .ok [] :=
  ⟨eq_ok_of_toOption (by decide +kernel), eq_ok_of_toOption (by decide +kernel)⟩

theorem impact_affects_trail :
    (Config.propagating 5).validate = .ok [] ∧ trail.Plain ∧
      trail.vertex? (.str "d") = some (trail.at 3) ∧
      (Config.propagating 5).communities.Settles trail ∧
      ∃ impact communities,
        ((Analyzer.mk (.propagating 5)).impact trail (.str "d") .null .null none).outcome .empty
          = .ok impact ∧
        ((Analyzer.mk (.propagating 5)).communities trail .null).outcome .empty
          = .ok communities ∧
        Touches communities impact.downstream impact.affected := by
  obtain ⟨hanswers, htouches, hsettled⟩ := impact_affects propagating_validate.1 trail_plain.valid
    trail_plain.closed trail_plain.named Graph.trail_vertex .empty
  have hsettles : (Config.propagating 5).communities.Settles trail :=
    .inr ⟨5, rfl, .inr Graph.trail_rests⟩
  obtain ⟨impact, communities, himpact, hcommunities⟩ := hanswers trail_plain.kind
  exact ⟨propagating_validate.1, trail_plain, Graph.trail_vertex, hsettles, impact, communities,
    himpact, (hsettled hsettles).trans hcommunities,
    htouches impact communities himpact hcommunities⟩

theorem trail_communities (k : Int) (hk : 1 ≤ k) : ∃ communities,
    (trail.communities (.str "label_propagation") (.int k)).outcome .empty = .ok communities ∧
      trail.Describe (trail.propagated k.toNat) communities := by
  obtain ⟨communities, hcommunities, -⟩ := (trail_plain.named.orderable.communities_gives
    trail_plain.valid trail_plain.closed trail_plain.kind
    (Validation.coerce_algorithm .labelPropagation) hk).outcome .empty
  refine ⟨communities, hcommunities, Graph.describe_of_mapM ?_⟩
  rw [← hcommunities]
  exact (Graph.outcome_communities_propagated trail_plain.valid trail_plain.closed
    trail_plain.named.alikeNamed rfl hk .empty).symm

theorem trail_second {communities : List CodeCommunity}
    (h : trail.Describe (trail.propagated 1) communities) :
    ∃ c ∈ communities, c.id = .int 1 ∧ .str "c" ∈ c.members := by
  have hids := h.ids
  have hmembers := h.members
  rw [Graph.trail_propagated_once] at hids hmembers
  obtain ⟨_, _, rfl, -, hids⟩ := List.map_eq_cons_iff.mp hids
  obtain ⟨c, _, rfl, hid, -⟩ := List.map_eq_cons_iff.mp hids
  obtain ⟨-, hmembers⟩ := List.cons.inj hmembers
  refine ⟨c, by simp, hid, ?_⟩
  rw [(List.cons.inj hmembers).1]
  exact List.mem_singleton.mpr rfl

theorem trail_first {communities : List CodeCommunity}
    (h : trail.Describe (trail.propagated 100) communities) :
    ∀ c ∈ communities, c.id = .int 0 := by
  intro c hc
  have hid : c.id ∈ communities.map CodeCommunity.id := List.mem_map_of_mem hc
  rw [h.ids, Graph.trail_propagated] at hid
  exact List.mem_singleton.mp hid

/-- With one round configured, the node downstream of `d` is in a community of its own, which the
impact of `d` does not name. -/
theorem impact_ignores_rounds :
    (Config.propagating 1).validate = .ok [] ∧ trail.Plain ∧ ∃ impact communities,
      ((Analyzer.mk (.propagating 1)).impact trail (.str "d") .null .null none).outcome .empty
        = .ok impact ∧
      ((Analyzer.mk (.propagating 1)).communities trail .null).outcome .empty = .ok communities ∧
      ¬Touches communities impact.downstream impact.affected := by
  obtain ⟨once, honce, hdescribe⟩ := trail_communities 1 (by decide)
  obtain ⟨found, hfound, hdescribe'⟩ := trail_communities 100 (by decide)
  let q : ImpactQuery := ⟨.int 3, .null, .str "label_propagation", none⟩
  let down := Impact.reach (Index.ofArcs (trail.arcs (KindFilter.keeps none))) true (trail.at 3) 3
  have hcoerce := Validation.coerce_algorithm .labelPropagation
  obtain ⟨affected, haffected⟩ := (Graph.affected_answers_iff (q := q) trail_plain.valid rfl down
    .empty).mpr (.inr ⟨found, hfound⟩)
  have hanswer := Graph.impactIn_eq Float trail_plain.valid trail_plain.closed Graph.trail_vertex
    (q := q) (d := 3) rfl rfl hcoerce
  refine ⟨propagating_validate.2, trail_plain, _, once,
    (congrArg (Logged.outcome · .empty) hanswer).trans
      (Graph.report_eq_ok_iff.mpr ⟨affected, haffected, rfl⟩), honce, fun htouches => ?_⟩
  have hdown : .str "c" ∈ Impact.reached true down := (Value.isAmong_iff rfl).mp (by decide +kernel)
  obtain ⟨c, hc, hid, hmember⟩ := trail_second hdescribe
  have hone := (htouches.mem_iff (.int 1)).mpr ⟨c, hc, hid, .str "c", hdown, hmember⟩
  have htouches' : Touches found (Impact.reached true down) affected :=
    Graph.affected_touches trail_plain.valid trail_plain.closed trail_plain.named rfl hcoerce
      haffected hfound
  obtain ⟨c', hc', hid', -⟩ := (htouches'.mem_iff (.int 1)).mp hone
  cases hid'.symm.trans (trail_first hdescribe' c' hc')

end Analyzer

end CodeGraph
