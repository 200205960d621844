import Mathlib.Tactic.TFAE
import CodeGraph.Proofs.Cost
import CodeGraph.Proofs.Impact.Scores
import CodeGraph.Proofs.Path.Critical

/-!
# Impact and paths agree

A node is downstream of another within some number of steps if it is near
enough: so say the traversal along the edges, the traversal against them, the
search for a shortest path and the listing of simple paths
(`impact_agrees_with_paths`). Each is compared with the number of steps between
the two nodes. The traversals meet the nodes within their limit, and where there
is a walk within a bound there is a simple one.

Not all of them answer wherever the others do. The analysis of impact names the
communities affected, and sorts the nodes by name for that (`impact_answers_iff`);
the critical path looks up what the edges of the paths it compares cost
(`criticalPath_answers_iff`). With names of different sorts there is no analysis,
and with a refinement that cannot be looked up there is no critical path
(`agreement_fails`).
-/

namespace CodeGraph

/-- The analysis of impact within so many steps, with all else as by default. -/
def ImpactQuery.within (d : Nat) : ImpactQuery :=
  { ImpactQuery.default with depth := .int d }

namespace Graph

open Traversal (Leads)

variable {g : Graph} {source target : Value} {s t : Fin g.order} {d : Nat}

/-! ## Traversals -/

theorem near_iff_hops {d : Nat} :
    g.Near (some d) s t ↔
      ∃ k ≤ d, Hops (Leads ((Index.ofArcs (g.arcs keepAll)).steps true)) s k t := by
  simp only [hops_iff_walk]
  constructor
  · rintro ⟨walk, hwalk, hfits⟩
    exact ⟨walk.length, by simpa using hfits, walk, hwalk, rfl⟩
  · rintro ⟨_, hk, walk, hwalk, rfl⟩
    exact ⟨walk, hwalk, by simpa using hk⟩

/-- What stands for one vertex is the same, and nothing else is. -/
theorem Valid.same_iff (hv : g.Valid) {a b : Value} {v w : Fin g.order}
    (ha : g.vertex? a = some v) (hb : g.vertex? b = some w) : a.same b = true ↔ v = w := by
  have hva : (g.name v).same a = true := same_of_vertex? ha
  have hwb : (g.name w).same b = true := same_of_vertex? hb
  have hscalar := hv.scalar_name
  constructor
  · intro h
    have hvw : (g.name v).same (g.name w) = true :=
      Value.same_trans (hscalar v) (Value.same_trans (hscalar v) hva h)
        (Value.same_symm (hscalar w) hwb)
    by_contra hne
    rcases lt_or_gt_of_ne hne with hlt | hlt
    · exact absurd hvw (by simp [hv.not_same hlt])
    · exact absurd (Value.same_symm (hscalar v) hvw) (by simp [hv.not_same hlt])
  · rintro rfl
    exact Value.same_trans (hv.scalar_of_vertex? ha) (Value.same_symm (hscalar v) hva) hwb

theorem isAmong_reached (hv : g.Valid) {id : Value} {start v : Fin g.order}
    (hid : g.vertex? id = some v) (hne : v ≠ start) (forward : Bool) (d : Nat) :
    id.isAmong (Impact.reached forward
        (Impact.reach (Index.ofArcs (g.arcs keepAll)) forward start d)) = true ↔
      ∃ k ≤ d, Hops (Leads ((Index.ofArcs (g.arcs keepAll)).steps forward)) start k v := by
  unfold Value.isAmong Impact.reached
  rw [List.any_map, List.any_eq_true, ← exists_met_iff hne]
  refine exists_congr fun found => and_congr_right fun hfound => ?_
  rw [Function.comp_apply, hv.same_iff hid (vertex?_of_met hfound), eq_comm]

/-- Communities are identified for an analysis as by default. -/
def Identified (g : Graph) (journal : Journal) : Prop :=
  ∃ communities,
    (g.communities ImpactQuery.default.algorithm defaultRounds).outcome journal = .ok communities

theorem impact_answers_iff (hv : g.Valid) (hc : g.Closed) (hs : g.vertex? source = some s)
    (d : Nat) (journal : Journal) :
    (∃ impact, (g.impact source (.within d)).outcome journal = .ok impact) ↔
      (∀ v, g.Near (some d) s v → v = s) ∨ g.Identified journal := by
  have hlouvain : Tagged.coerce (ImpactQuery.within d).algorithm
      = .ok CommunityAlgorithm.louvain := rfl
  have hnothing : Impact.reach (Index.ofArcs (g.arcs keepAll)) true s d = [] ↔
      ∀ v, g.Near (some d) s v → v = s := by
    constructor
    · intro hnil v hnear
      by_contra hne
      obtain ⟨found, hfound, -⟩ := (exists_met_iff hne true d).mpr (near_iff_hops.mp hnear)
      rw [hnil] at hfound
      cases hfound
    · intro h
      refine List.eq_nil_iff_forall_not_mem.mpr fun found hfound => ?_
      have hlisted := (lists_reach keepAll true s d).mem_iff found.vertex
      have hne := (hlisted.mp (List.mem_map_of_mem hfound)).1
      exact hne (h _ (near_iff_hops.mpr ((exists_met_iff hne true d).mp ⟨found, hfound, rfl⟩)))
  rw [← hnothing]
  exact impactIn_answers_iff Float hv hc hs rfl rfl hlouvain rfl journal

theorem impact_lists (hv : g.Valid) (hc : g.Closed) (hs : g.vertex? source = some s)
    {journal : Journal} {impact : Impact}
    (h : (g.impact source (.within d)).outcome journal = .ok impact) :
    impact.downstream
        = Impact.reached true (Impact.reach (Index.ofArcs (g.arcs keepAll)) true s d) ∧
      impact.reaching
        = Impact.reached false (Impact.reach (Index.ofArcs (g.arcs keepAll)) false s d) := by
  have hlouvain : Tagged.coerce (ImpactQuery.within d).algorithm
      = .ok CommunityAlgorithm.louvain := rfl
  obtain ⟨hdown, hup, -⟩ := impactIn_eq_ok hv hc hs rfl rfl hlouvain h
  exact ⟨hdown, hup⟩

/-! ## Paths -/

theorem near_iff_simplePath {depth : Option Nat} :
    g.Near depth s t ↔ ∃ edges, g.SimplePathWithin keepAll depth s edges t := by
  constructor
  · rintro ⟨walk, hwalk, hfits⟩
    obtain ⟨p, hp, rfl⟩ := walk_iff.mp hwalk
    obtain ⟨q, hq, hle⟩ := exists_simpleWalk hp
    refine ⟨q.map Arc.edge, simplePath_iff.mpr ⟨q, hq, rfl⟩, fun d hd => ?_⟩
    have := hfits d hd
    rw [List.length_map] at this ⊢
    omega
  · rintro ⟨edges, ⟨hwalk, -⟩, hfits⟩
    exact ⟨edges, hwalk, hfits⟩

/-- If something lies beyond the bound and the target is not near, the listing is cut off: the
simple path beyond the bound does not meet the target before. -/
theorem truncated_of_leadsBeyond (hc : g.Closed) {depth : Option Nat}
    (hnot : ¬g.Near depth s t) (hbeyond : g.LeadsBeyond depth s) :
    g.Truncated keepAll depth s t := by
  obtain ⟨d, rfl, v, hreach, hfar⟩ := hbeyond
  obtain ⟨p, hp⟩ := reaches_iff.mp hreach
  obtain ⟨q, hq, -⟩ := exists_simpleWalk hp
  have hlong : d < q.length := by
    have := hfar (q.map Arc.edge) (walk_iff.mpr ⟨q, hq.1, rfl⟩)
    rwa [List.length_map] at this
  refine (truncated_iff hc).mpr (cutOff_of_simpleWalk hq hlong fun hmem => hnot ?_)
  obtain ⟨arc, harc, rfl⟩ := List.mem_map.mp hmem
  obtain ⟨front, back, hsplit⟩ := List.append_of_mem harc
  have hwalk := hq.1
  rw [← List.take_append_drop d q, hsplit] at hwalk
  obtain ⟨_, hfront, -⟩ := hwalk.split
  rw [List.append_cons] at hfront
  obtain ⟨_, hprefix, -⟩ := hfront.split
  obtain ⟨_, _, -, rfl⟩ := hprefix.split
  refine ⟨(front ++ [arc]).map Arc.edge, walk_iff.mpr ⟨_, hprefix, rfl⟩, ?_⟩
  have hlen : (q.take d).length ≤ d := List.length_take_le ..
  rw [hsplit] at hlen
  simp only [List.length_append, List.length_cons] at hlen
  simp
  omega

/-- All edges of the paths that are compared for a critical path have costs: of the simple paths
within the bound these are the first `k`. -/
def PricedAlong (hc : g.Closed) (m : CostModel) (depth : Option Nat) (k : Nat)
    (s t : Fin g.order) : Prop :=
  ∀ path ∈ (simplePaths hc keepAll depth s t).take k, ∀ i ∈ path, m.Prices g (g.edges.get i)

theorem pricedAlong_of_moderate (hv : g.Valid) (hc : g.Closed) {m : CostModel} (hm : m.Moderate)
    (hg : g.Hashable) (depth : Option Nat) (k : Nat) (s t : Fin g.order) :
    PricedAlong hc m depth k s t :=
  fun _ _ _ _ => hm.prices hg hv hc (List.get_mem ..)

theorem candidates_answer_iff_pricedAlong (hc : g.Closed) {m : CostModel} {depth : Option Nat}
    {k : Nat} :
    (∃ cs : List (Critical.Candidate g.order Float), Critical.candidates m g
        (Critical.list (Index.ofArcs (g.arcs keepAll)) s t depth k).paths = .ok cs) ↔
      PricedAlong hc m depth k s t := by
  have hpaths := list_paths_edges hc keepAll s t depth k
  have hedges : (∀ p ∈ (Critical.list (Index.ofArcs (g.arcs keepAll)) s t depth k).paths,
        ∀ arc ∈ p, m.Prices g arc.edge) ↔
      ∀ edges ∈ (Critical.list (Index.ofArcs (g.arcs keepAll)) s t depth k).paths.map
        (List.map Arc.edge), ∀ e ∈ edges, m.Prices g e := by
    simp only [List.forall_mem_map]
  rw [Critical.candidates_answer_iff]
  refine hedges.trans ?_
  rw [hpaths]
  simp only [List.forall_mem_map, PricedAlong]

/-- There is a critical path exactly if the target is near and the paths compared have costs. -/
theorem criticalPath_answers_iff (hv : g.Valid) (hc : g.Closed) (hs : g.vertex? source = some s)
    (htarget : g.vertex? target = some t) (hne : s ≠ t) {given : Value}
    (hgiven : Tagged.coerce given = .ok PathType.any) (m : CostModel) (depth : Option Nat) {k : Nat}
    (hk : 1 ≤ k) (journal : Journal) :
    (∃ result, (g.criticalPath source target (.ok m) ⟨given, depthValue depth, .int k⟩).outcome
        journal = .ok result) ↔ g.Near depth s t ∧ PricedAlong hc m depth k s t := by
  rw [← candidates_answer_iff_pricedAlong]
  constructor
  · rintro ⟨result, hresult⟩
    constructor
    · rw [near_iff_simplePath]
      by_contra hnone
      obtain ⟨cut, -, houtcome⟩ := outcome_without_path Float hv hc hs htarget hne hgiven
        (not_exists.mp hnone) m hk journal
      exact absurd (hresult.symm.trans houtcome) (by simp)
    · unfold criticalPath at hresult
      rw [criticalPathIn_eq Float hv hc hs htarget hne hgiven m hk rfl] at hresult
      obtain ⟨cs, hcs, -⟩ := Logged.exists_of_lift_bind_eq_ok hresult
      exact ⟨cs, hcs⟩
  · rintro ⟨hnear, cs, hcs⟩
    obtain ⟨edges, hedges⟩ := near_iff_simplePath.mp hnear
    obtain ⟨winner, hbest⟩ := Critical.exists_best hcs
      (list_paths_ne_nil hc hk (simplePaths_ne_nil hc hne hedges))
    exact ⟨_, outcome_criticalPathIn_best Float hv hc hs htarget hne hgiven m hk rfl hcs hbest
      journal⟩

/-- With costs as they are read there is a critical path wherever a node is near. -/
theorem criticalPath_as_read (hv : g.Valid) (hc : g.Closed) (hg : g.Hashable)
    (hs : g.vertex? source = some s) (htarget : g.vertex? target = some t) (hne : s ≠ t)
    {given : Value} (hgiven : Tagged.coerce given = .ok PathType.any) {weights : Value}
    {m : CostModel} (hm : CostModel.read weights = .ok m) (depth : Option Nat) {k : Nat}
    (hk : 1 ≤ k) (journal : Journal) :
    (∃ result, (g.criticalPath source target (CostModel.read weights)
        ⟨given, depthValue depth, .int k⟩).outcome journal = .ok result) ↔ g.Near depth s t := by
  rw [hm, criticalPath_answers_iff hv hc hs htarget hne hgiven m depth hk journal]
  exact and_iff_left (pricedAlong_of_moderate hv hc (CostModel.moderate_of_read hm) hg depth k s t)

/-! ## Agreement -/

/-- The two traversals and the shortest path agree on what is near. So does the critical path,
exactly if the paths that are compared for it have costs, as they have if what costs are looked up
by can be looked up and the model is moderate. When the shortest path is out of bounds, so is the
critical path. A traversal is reported unless it meets something and communities cannot be
identified, as they can if any two names compare and the kinds are texts. -/
theorem impact_agrees_with_paths (hv : g.Valid) (hc : g.Closed)
    (hs : g.vertex? source = some s) (ht : g.vertex? target = some t) (hne : s ≠ t)
    {given : Value} (hgiven : Tagged.coerce given = .ok PathType.any) (m : CostModel) (d : Nat)
    {k : Nat} (hk : 1 ≤ k) (journal : Journal) :
    (∀ down up : Impact, (g.impact source (.within d)).outcome journal = .ok down →
      (g.impact target (.within d)).outcome journal = .ok up →
      [target.isAmong down.downstream = true,
        source.isAmong up.reaching = true,
        ∃ path, (g.shortestPath source target none (.int d)).outcome journal = .ok path].TFAE) ∧
    ((∃ result, (g.criticalPath source target (.ok m) ⟨given, .int d, .int k⟩).outcome journal
        = .ok result) ↔
      (∃ path, (g.shortestPath source target none (.int d)).outcome journal = .ok path) ∧
        PricedAlong hc m (some d) k s t) ∧
    ((g.shortestPath source target none (.int d)).outcome journal
        = .error (.depthReached source target (.int d)) →
      (g.criticalPath source target (.ok m) ⟨given, .int d, .int k⟩).outcome journal
        = .error (.depthReached source target (.int d))) ∧
    (∀ id v, g.vertex? id = some v →
      ((∃ impact, (g.impact id (.within d)).outcome journal = .ok impact) ↔
        (∀ w, g.Near (some d) v w → w = v) ∨ g.Identified journal)) ∧
    (g.Orderable → (∀ node ∈ g.nodes, node.kind.isText = true) → g.Identified journal) ∧
    (m.Moderate → g.Hashable → PricedAlong hc m (some d) k s t) := by
  have htold := toldApart_byHops hv hc hs ht hne (some d) journal
  refine ⟨fun down up hdown hup => ?_, ?_, fun hdepth => ?_,
    fun id v hid => impact_answers_iff hv hc hid d journal, fun ho hkinds => ?_,
    fun hm hg => pricedAlong_of_moderate hv hc hm hg (some d) k s t⟩
  · have hforward : target.isAmong down.downstream = true ↔ g.Near (some d) s t := by
      rw [(impact_lists hv hc hs hdown).1, isAmong_reached hv ht hne.symm, near_iff_hops]
    have hbackward : source.isAmong up.reaching = true ↔ g.Near (some d) s t := by
      rw [(impact_lists hv hc ht hup).2, isAmong_reached hv hs hne, near_iff_hops]
      simp only [hops_backward_iff]
    tfae_have 1 ↔ 2 := hforward.trans hbackward.symm
    tfae_have 1 ↔ 3 := hforward.trans htold.ok_iff.symm
    tfae_finish
  · have hnear : (∃ path, (g.shortestPath source target none (.int d)).outcome journal = .ok path) ↔
        g.Near (some d) s t := htold.ok_iff
    rw [hnear]
    exact criticalPath_answers_iff hv hc hs ht hne hgiven m (some d) hk journal
  · obtain ⟨hnot, hbeyond⟩ := htold.depthReached_iff.mp hdepth
    have hnone : ∀ edges, ¬g.SimplePathWithin keepAll (some d) s edges t := fun edges hedges =>
      hnot (near_iff_simplePath.mpr ⟨edges, hedges⟩)
    obtain ⟨cut, hcut, houtcome⟩ := outcome_without_path Float hv hc hs ht hne hgiven hnone m hk
      journal
    rw [hcut.mpr (truncated_of_leadsBeyond hc hnot hbeyond)] at houtcome
    exact houtcome
  · have hlouvain : Tagged.coerce ImpactQuery.default.algorithm
        = .ok CommunityAlgorithm.louvain := rfl
    obtain ⟨communities, hcommunities, -⟩ :=
      (ho.communities_gives hv hc hkinds hlouvain (by decide : (1 : Int) ≤ 100)).outcome journal
    exact ⟨communities, hcommunities⟩

/-- Five for a direct call, five more for landing on input or output. -/
def fives : CostModel :=
  ⟨[("io_operation", .int 5)], [("direct_call", .int 5)]⟩

theorem fives_moderate : fives.Moderate where
  number := by simp [fives, Value.isNumber, Value.asInt?]
  bounded := by decide +kernel

theorem specimen_hashable : specimen.Hashable where
  categories := by simp [specimen, specimenNode, NodeMetadata.empty]
  subkind := by simp [specimen, specimenEdge, Value.isScalar]

/-- In the specimen, within two steps and with integers for costs. -/
theorem impact_specimen :
    specimen.Valid ∧ specimen.Closed ∧ ∃ down up : Impact,
      (specimen.impact (.str "a") (.within 2)).outcome .empty = .ok down ∧
      (specimen.impact (.str "c") (.within 2)).outcome .empty = .ok up ∧
      ((Value.str "c").isAmong down.downstream = true ↔
        (Value.str "a").isAmong up.reaching = true) ∧
      ((Value.str "c").isAmong down.downstream = true → ∃ result,
        (specimen.criticalPath (.str "a") (.str "c") (.ok fives)
          ⟨.str "any", .int (2 : Nat), .int (1 : Nat)⟩).outcome .empty = .ok result) := by
  obtain ⟨ha, -, hc⟩ := specimen_vertex
  obtain ⟨hagree, hcritical, -, hanswers, hidentified, hpriced⟩ :=
    impact_agrees_with_paths specimen_valid specimen_closed ha hc (by decide) coerce_any fives 2
      (Nat.le_refl 1) .empty
  have hcommunities := hidentified specimen_named.orderable specimen_kinds
  obtain ⟨down, hdown⟩ := (hanswers _ _ ha).mpr (.inr hcommunities)
  obtain ⟨up, hup⟩ := (hanswers _ _ hc).mpr (.inr hcommunities)
  have htfae := hagree down up hdown hup
  exact ⟨specimen_valid, specimen_closed, down, up, hdown, hup, htfae.out 0 1, fun hlisted =>
    hcritical.mpr ⟨(htfae.out 0 2).mp hlisted, hpriced fives_moderate specimen_hashable⟩⟩

/-! ## Where there is no agreement -/

/-- An edge whose refinement is no text, and cannot be looked up. -/
def unrefined : Graph where
  nodes := [specimenNode "a", specimenNode "b"]
  edges := [⟨.str "ab", .str "a", .str "b", .callGraph, .list [], .empty⟩]
  cache := []
  metadata := []

theorem shortestPath_of_edge (hv : g.Valid) (hc : g.Closed) {e : Edge} (he : e ∈ g.edges)
    (hs : g.vertex? e.source = some s) (ht : g.vertex? e.target = some t) (hne : s ≠ t)
    (journal : Journal) :
    g.Near (some 1) s t ∧
      ∃ path, (g.shortestPath e.source e.target none (.int (1 : Nat))).outcome journal
        = .ok path := by
  have hnear : g.Near (some 1) s t := ⟨[e], ⟨⟨he, rfl, hs⟩, t, ht, rfl⟩, by simp⟩
  exact ⟨hnear, (toldApart_byHops hv hc hs ht hne (some 1) journal).ok_iff.mpr hnear⟩

/-- There is a path from the text to the number, but no analysis of the impact that would list it;
and there is one along the edge without a refinement, but no critical path. -/
theorem agreement_fails :
    (mixed.Valid ∧ mixed.Closed ∧
      (∃ path, (mixed.shortestPath (.str "a") (.int 1) none (.int (1 : Nat))).outcome .empty
        = .ok path) ∧
      ∃ failure, (mixed.impact (.str "a") (.within 1)).outcome .empty = .error failure) ∧
    (unrefined.Valid ∧ unrefined.Closed ∧
      (∃ path, (unrefined.shortestPath (.str "a") (.str "b") none (.int (1 : Nat))).outcome .empty
        = .ok path) ∧
      ∃ failure, (unrefined.criticalPath (.str "a") (.str "b") (.ok .neutral)
        ⟨.str "any", .int (1 : Nat), .int (1 : Nat)⟩).outcome .empty = .error failure) := by
  constructor
  · obtain ⟨ha, hone⟩ := mixed_vertex
    obtain ⟨hnear, hpath⟩ := shortestPath_of_edge mixed_valid mixed_closed List.mem_cons_self ha hone
      (by decide) .empty
    refine ⟨mixed_valid, mixed_closed, hpath, ?_⟩
    cases houtcome : (mixed.impact (.str "a") (.within 1)).outcome .empty with
    | error failure => exact ⟨failure, rfl⟩
    | ok impact =>
        rcases (impact_answers_iff mixed_valid mixed_closed ha 1 .empty).mp ⟨impact, houtcome⟩ with
          hnothing | ⟨communities, hcommunities⟩
        · exact absurd (hnothing _ hnear) (by decide)
        · obtain ⟨failure, hfailure⟩ := mixed_communities defaultRounds
          rw [show mixed.communities ImpactQuery.default.algorithm defaultRounds = _ from hfailure]
            at hcommunities
          cases hcommunities
  · have hv : unrefined.Valid := ⟨⟨by decide +kernel, by decide +kernel⟩, by decide +kernel⟩
    have hc : unrefined.Closed := by
      unfold Closed
      decide +kernel
    have ha : unrefined.vertex? (.str "a") = some ⟨0, by decide⟩ := by decide +kernel
    have hb : unrefined.vertex? (.str "b") = some ⟨1, by decide⟩ := by decide +kernel
    obtain ⟨-, hpath⟩ := shortestPath_of_edge hv hc List.mem_cons_self ha hb (by decide) .empty
    exact ⟨hv, hc, hpath, .wrongType (.notHashable "list"), by with_unfolding_all rfl⟩

end Graph

end CodeGraph
