import Mathlib.Data.List.Perm.Basic
import CodeGraph.Proofs.Smell.Cycle

/-!
# What the cycles do not depend on

The order of the nodes, the order of the edges, parallel copies of edges, loops and
the direction of all edges at once: none of them changes which names lead to each
other (`Varied.mutual_iff`), so none of them changes what is found
(`Cycle.findings_unvaried`), though the search goes another way each time.
-/

namespace CodeGraph

namespace Graph

variable {g h : Graph} {keep keep' : Edge → Bool}

/-! ## Snapshots with texts for names -/

def ids (g : Graph) : List Value :=
  g.nodes.map Node.id

/-- Names are different texts, and edges lead between them. -/
structure Sound (g : Graph) : Prop where
  text : ∀ id ∈ g.ids, id.isText = true
  nodup : g.ids.Nodup
  source : ∀ e ∈ g.edges, e.source ∈ g.ids
  target : ∀ e ∈ g.edges, e.target ∈ g.ids

theorem name_mem_ids (v : Fin g.order) : g.name v ∈ g.ids :=
  List.mem_map_of_mem (List.get_mem ..)

theorem textNamed_iff : g.TextNamed ↔ ∀ id ∈ g.ids, id.isText = true := by
  rw [TextNamed, ids, List.forall_mem_map]

theorem valid_iff_nodup (ht : g.TextNamed) : g.Valid ↔ g.ids.Nodup := by
  have hsame : ∀ m ∈ g.nodes, ∀ n ∈ g.nodes, m.id.same n.id = false ↔ m.id ≠ n.id := by
    intro m hm n hn
    obtain ⟨s, hs⟩ := Value.isText_iff.mp (ht m hm)
    obtain ⟨t, ht⟩ := Value.isText_iff.mp (ht n hn)
    simp [hs, ht, Value.same]
  rw [ids, List.Nodup, List.pairwise_map]
  constructor
  · intro hv
    exact hv.distinct.imp_of_mem fun hm hn => (hsame _ hm _ hn).mp
  · intro hnodup
    refine ⟨⟨fun node hnode => Value.isScalar_of_isText (ht node hnode),
      hnodup.imp_of_mem fun hm hn => (hsame _ hm _ hn).mpr⟩, fun node hnode => ?_⟩
    obtain ⟨s, hs⟩ := Value.isText_iff.mp (ht node hnode)
    rw [hs, Value.same, beq_self_eq_true]

theorem exists_vertex?_iff (hv : g.Valid) (ht : g.TextNamed) {id : Value} :
    (∃ v, g.vertex? id = some v) ↔ id ∈ g.ids := by
  constructor
  · rintro ⟨v, hid⟩
    rw [ht.eq_name hid]
    exact name_mem_ids v
  · intro hid
    obtain ⟨node, hnode, rfl⟩ := List.mem_map.mp hid
    obtain ⟨v, rfl⟩ := List.get_of_mem hnode
    exact ⟨v, (vertex?_eq_some_iff hv ht).mpr (ht.name_eq v)⟩

theorem sound_iff : g.Sound ↔ g.Valid ∧ g.Closed ∧ g.TextNamed := by
  constructor
  · intro hs
    have ht := textNamed_iff.mpr hs.text
    have hv := (valid_iff_nodup ht).mpr hs.nodup
    refine ⟨hv, closed_iff.mpr fun e he => ?_, ht⟩
    obtain ⟨u, hu⟩ := (exists_vertex?_iff hv ht).mpr (hs.source e he)
    obtain ⟨v, hw⟩ := (exists_vertex?_iff hv ht).mpr (hs.target e he)
    exact ⟨u, v, hu, hw⟩
  · rintro ⟨hv, hc, ht⟩
    refine ⟨textNamed_iff.mp ht, (valid_iff_nodup ht).mp hv, fun e he => ?_, fun e he => ?_⟩
    all_goals obtain ⟨u, v, hu, hw⟩ := closed_iff.mp hc e he
    · exact (exists_vertex?_iff hv ht).mp ⟨u, hu⟩
    · exact (exists_vertex?_iff hv ht).mp ⟨v, hw⟩

end Graph

/-! ## Variations -/

def Edge.reversed (e : Edge) : Edge :=
  { e with source := e.target, target := e.source }

theorem KindFilter.keeps_congr (filter : KindFilter) {e e' : Edge} (h : e.kind = e'.kind) :
    filter.keeps e = filter.keeps e' := by
  cases filter with
  | none => rfl
  | some kinds => exact congrArg (fun kind => kinds.contains kind) h

namespace Graph

variable {g h : Graph} {keep keep' : Edge → Bool}

/-- One variation of a snapshot. A copy has the ends and the kind of an edge that is there, and a
loop is at a node that is there. -/
inductive Varied (g : Graph) : Graph → Prop
  | nodes {nodes : List Node} (hperm : nodes.Perm g.nodes) : Varied g { g with nodes := nodes }
  | edges {edges : List Edge} (hperm : edges.Perm g.edges) : Varied g { g with edges := edges }
  | copies {copies : List Edge} (hcopies : ∀ e ∈ copies, ∃ e' ∈ g.edges,
      e.source = e'.source ∧ e.target = e'.target ∧ e.kind = e'.kind) :
      Varied g { g with edges := g.edges ++ copies }
  | loops {loops : List Edge} (hloops : ∀ e ∈ loops, e.isSelfLoop = true ∧ e.source ∈ g.ids) :
      Varied g { g with edges := g.edges ++ loops }
  | reversed : Varied g { g with edges := g.edges.map Edge.reversed }

theorem Sound.target_eq (hs : g.Sound) {e : Edge} (hloop : e.isSelfLoop = true)
    (hsource : e.source ∈ g.ids) : e.target = e.source :=
  Value.eq_of_same_of_isText (hs.text _ hsource) hloop

theorem Varied.sound (hvaried : Varied g h) (hs : g.Sound) : h.Sound := by
  cases hvaried with
  | nodes hperm =>
    have hids := hperm.map Node.id
    exact ⟨fun id hid => hs.text id (hids.mem_iff.mp hid), hids.nodup_iff.mpr hs.nodup,
      fun e he => hids.mem_iff.mpr (hs.source e he), fun e he => hids.mem_iff.mpr (hs.target e he)⟩
  | edges hperm =>
    exact ⟨hs.text, hs.nodup, fun e he => hs.source e (hperm.mem_iff.mp he),
      fun e he => hs.target e (hperm.mem_iff.mp he)⟩
  | copies hcopies =>
    refine ⟨hs.text, hs.nodup, fun e he => ?_, fun e he => ?_⟩
    all_goals rcases List.mem_append.mp he with hold | hnew
    · exact hs.source e hold
    · obtain ⟨e', he', hsource, -⟩ := hcopies e hnew
      exact hsource ▸ hs.source e' he'
    · exact hs.target e hold
    · obtain ⟨e', he', -, htarget, -⟩ := hcopies e hnew
      exact htarget ▸ hs.target e' he'
  | loops hloops =>
    refine ⟨hs.text, hs.nodup, fun e he => ?_, fun e he => ?_⟩
    all_goals rcases List.mem_append.mp he with hold | hnew
    · exact hs.source e hold
    · exact (hloops e hnew).2
    · exact hs.target e hold
    · rw [hs.target_eq (hloops e hnew).1 (hloops e hnew).2]
      exact (hloops e hnew).2
  | reversed =>
    refine ⟨hs.text, hs.nodup, fun e he => ?_, fun e he => ?_⟩
    all_goals obtain ⟨e', he', rfl⟩ := List.mem_map.mp he
    · exact hs.target e' he'
    · exact hs.source e' he'

/-- Where each of two snapshots leads wherever an edge of the other does, the same names lead to
each other. -/
theorem mutual_iff_of_leads
    (hgh : ∀ a b, g.Leads keep a b → Relation.ReflTransGen (h.Leads keep') a b)
    (hhg : ∀ a b, h.Leads keep' a b → Relation.ReflTransGen (g.Leads keep) a b) (a b : String) :
    g.Mutual keep a b ↔ h.Mutual keep' a b := by
  have hto := Relation.reflTransGen_closed hgh
  have hfrom := Relation.reflTransGen_closed hhg
  exact ⟨fun hab => ⟨hto a b hab.1, hto b a hab.2⟩, fun hab => ⟨hfrom a b hab.1, hfrom b a hab.2⟩⟩

theorem leads_reversed (filter : KindFilter) :
    Leads { g with edges := g.edges.map Edge.reversed } filter.keeps
      = Function.swap (g.Leads filter.keeps) := by
  ext a b
  constructor
  · rintro ⟨e, he, hkeep, hsource, htarget⟩
    obtain ⟨e', he', rfl⟩ := List.mem_map.mp he
    exact ⟨e', he', (filter.keeps_congr rfl).trans hkeep, htarget, hsource⟩
  · rintro ⟨e, he, hkeep, hsource, htarget⟩
    exact ⟨e.reversed, List.mem_map_of_mem he, (filter.keeps_congr rfl).trans hkeep, htarget,
      hsource⟩

theorem Varied.mutual_iff (hvaried : Varied g h) (hs : g.Sound) (filter : KindFilter)
    (a b : String) : g.Mutual filter.keeps a b ↔ h.Mutual filter.keeps a b := by
  cases hvaried with
  | nodes hperm => exact Iff.rfl
  | edges hperm =>
    refine mutual_iff_of_leads (fun a b hstep => ?_) (fun a b hstep => ?_) a b
    all_goals obtain ⟨e, he, hends⟩ := hstep
    · exact .single ⟨e, hperm.mem_iff.mpr he, hends⟩
    · exact .single ⟨e, hperm.mem_iff.mp he, hends⟩
  | copies hcopies =>
    refine mutual_iff_of_leads (fun a b hstep => ?_) (fun a b hstep => ?_) a b
    all_goals obtain ⟨e, he, hkeep, hsource, htarget⟩ := hstep
    · exact .single ⟨e, List.mem_append_left _ he, hkeep, hsource, htarget⟩
    · rcases List.mem_append.mp he with hold | hnew
      · exact .single ⟨e, hold, hkeep, hsource, htarget⟩
      · obtain ⟨e', he', hsource', htarget', hkind⟩ := hcopies e hnew
        exact .single ⟨e', he', (filter.keeps_congr hkind).symm.trans hkeep,
          hsource'.symm.trans hsource, htarget'.symm.trans htarget⟩
  | loops hloops =>
    refine mutual_iff_of_leads (fun a b hstep => ?_) (fun a b hstep => ?_) a b
    all_goals obtain ⟨e, he, hkeep, hsource, htarget⟩ := hstep
    · exact .single ⟨e, List.mem_append_left _ he, hkeep, hsource, htarget⟩
    · rcases List.mem_append.mp he with hold | hnew
      · exact .single ⟨e, hold, hkeep, hsource, htarget⟩
      · -- A loop leads nowhere else.
        have hsame := hs.target_eq (hloops e hnew).1 (hloops e hnew).2
        rw [hsource, htarget] at hsame
        rw [Value.str.inj hsame]
  | reversed =>
    simp only [Mutual, leads_reversed, Relation.reflTransGen_swap]
    exact and_comm

/-- What holds of one variation holds of any number of them. -/
theorem sound_and_mutual_iff (hvaried : Relation.ReflTransGen Varied g h) (hs : g.Sound) :
    h.Sound ∧ ∀ (filter : KindFilter) a b,
      g.Mutual filter.keeps a b ↔ h.Mutual filter.keeps a b := by
  induction hvaried with
  | refl => exact ⟨hs, fun _ _ _ => Iff.rfl⟩
  | tail _ hstep ih =>
    obtain ⟨hsound, hmutual⟩ := ih
    exact ⟨hstep.sound hsound, fun filter a b =>
      (hmutual filter a b).trans (hstep.mutual_iff hsound filter a b)⟩

end Graph

namespace Cycle

variable {g h : Graph}

/-- Kinds that cannot be read are refused before the snapshot is looked at. -/
theorem detect_comesTo_error {t : Thresholds} {failure : Failure}
    (hkinds : KindFilter.read t.cycleEdgeKinds = .error failure) :
    (detect g t).ComesTo (.error failure) := by
  unfold detect Graph.cyclicComponents Graph.components
  rw [hkinds]
  exact fun journal => rfl

/-- However a snapshot is varied, detection comes to the same findings, or to the same failure if
the kinds of edges cannot be read. -/
theorem findings_unvaried (hv : g.Valid) (hc : g.Closed) (ht : g.TextNamed)
    (hvaried : Relation.ReflTransGen Graph.Varied g h) (t : Thresholds) :
    ∃ r, (detect g t).ComesTo r ∧ (detect h t).ComesTo r ∧
      ∀ filter, KindFilter.read t.cycleEdgeKinds = .ok filter → ∃ findings, r = .ok findings := by
  obtain ⟨hsound, hmutual⟩ := Graph.sound_and_mutual_iff hvaried (Graph.sound_iff.mpr ⟨hv, hc, ht⟩)
  obtain ⟨hv', hc', ht'⟩ := Graph.sound_iff.mp hsound
  cases hkinds : KindFilter.read t.cycleEdgeKinds with
  | error failure =>
    refine ⟨.error failure, detect_comesTo_error hkinds, detect_comesTo_error hkinds, ?_⟩
    intro filter hfilter
    cases hfilter
  | ok filter =>
    obtain ⟨cycles, hcycles, hfound⟩ := exists_cycles hv hc ht hkinds
    obtain ⟨cycles', hcycles', hfound'⟩ := exists_cycles hv' hc' ht' hkinds
    obtain rfl := hcycles.unique hcycles' (hmutual filter)
    exact ⟨_, hfound, hfound', fun _ _ => ⟨_, rfl⟩⟩

end Cycle

namespace Graph

/-- The specimen with its last node and its last edge first. -/
def specimenReordered : Graph where
  nodes := [specimenNode "c", specimenNode "a", specimenNode "b"]
  edges := [specimenEdge "cc" "c" "c" .reference, specimenEdge "ab" "a" "b" .callGraph,
    specimenEdge "ba" "b" "a" .dataFlow, specimenEdge "bc" "b" "c" .callGraph,
    specimenEdge "bc2" "b" "c" .callGraph]
  cache := []
  metadata := []

/-- With a second edge from `a` to `b` and a loop at `a` besides, all of it reversed. -/
def specimenVaried : Graph :=
  { specimenReordered with
    edges := (specimenReordered.edges ++ [specimenEdge "ab2" "a" "b" .callGraph] ++
      [specimenEdge "aa" "a" "a" .dataFlow]).map Edge.reversed }

theorem varied_specimenVaried : Relation.ReflTransGen Varied specimen specimenVaried := by
  have hnodes : specimenReordered.nodes.Perm specimen.nodes :=
    (List.perm_append_singleton (specimenNode "c") [_, _]).symm
  have hedges : specimenReordered.edges.Perm specimen.edges :=
    (List.perm_append_singleton (specimenEdge "cc" "c" "c" .reference) [_, _, _, _]).symm
  have hcopies : ∀ e ∈ [specimenEdge "ab2" "a" "b" .callGraph], ∃ e' ∈ specimenReordered.edges,
      e.source = e'.source ∧ e.target = e'.target ∧ e.kind = e'.kind := by
    simp [specimenReordered, specimenEdge]
  have hloops : ∀ e ∈ [specimenEdge "aa" "a" "a" .dataFlow], e.isSelfLoop = true ∧
      e.source ∈ specimenReordered.ids := by
    simp [specimenReordered, ids, specimenEdge, specimenNode, Edge.isSelfLoop, Value.same]
  have hordered := (Relation.ReflTransGen.refl.tail (Varied.nodes hnodes)).tail (.edges hedges)
  exact ((hordered.tail (.copies hcopies)).tail (.loops hloops)).tail .reversed

end Graph

namespace Cycle

theorem findings_unvaried_specimen :
    Graph.specimen.Valid ∧ Graph.specimen.Closed ∧ Graph.specimen.TextNamed ∧
    Relation.ReflTransGen Graph.Varied Graph.specimen Graph.specimenVaried ∧
    ∃ findings, (detect Graph.specimen {}).ComesTo (.ok findings) ∧
      (detect Graph.specimenVaried {}).ComesTo (.ok findings) := by
  have ht : Graph.specimen.TextNamed := by
    simp [Graph.TextNamed, Graph.specimen, specimenNode, Value.isText]
  obtain ⟨r, hfound, hfound', hanswers⟩ := findings_unvaried Graph.specimen_valid
    Graph.specimen_closed ht Graph.varied_specimenVaried {}
  obtain ⟨findings, rfl⟩ := hanswers none rfl
  exact ⟨Graph.specimen_valid, Graph.specimen_closed, ht, Graph.varied_specimenVaried, findings,
    hfound, hfound'⟩

end Cycle

end CodeGraph
