import CodeGraph.Analyzer
import CodeGraph.Proofs.Analyzer.Measures
import CodeGraph.Proofs.Centrality.Betweenness
import CodeGraph.Proofs.Community.Modularity

/-!
# When a full analysis answers

A full analysis of a plain snapshot is a function of its measures
(`fullAnalysis_comesTo`). Under a configuration that validation accepts, the only
thing that can go wrong on the way is a double where a count is needed: for the
number of highest scores, for the rounds of the rank if there is a node to rank,
and for the rounds of label propagation (`surveyed_countsIf`). Validation
compares these options with their bounds and does not ask whether they are
whole.
-/

namespace CodeGraph

open Validation (NotBelow)

variable {g : Graph} {M : Measures} {a : Analyzer}

/-! ## What does not depend on options -/

/-- The parts of a report besides scores and findings. -/
structure Overview where
  components : List (List Value)
  cycles : List (List Value)
  summary : Summary
  modularity : Float

structure Overview.Of (o : Overview) (g : Graph) (M : Measures) : Prop where
  components : (g.components .null).ComesTo (.ok o.components)
  cycles : (g.cyclicComponents Cycle.leastSize .null).ComesTo (.ok o.cycles)
  summary : g.summary.ComesTo (.ok o.summary)
  modularity : ∀ communities, M.communities = .ok communities →
    (g.modularity (.list (communities.map fun c => .list c.members))).ComesTo (.ok o.modularity)

namespace Graph

theorem Plain.summary_comesTo (hg : g.Plain) : ∃ summary, g.summary.ComesTo (.ok summary) := by
  have hkinds : ∀ kind ∈ g.nodes.map Node.kind, kind.hashable = .ok () :=
    List.forall_mem_map.mpr fun node hnode =>
      Value.hashable_eq_ok.mpr (Value.isScalar_of_isText (hg.kind node hnode))
  unfold summary
  rw [index_eq_pure hg.valid hg.closed, pure_bind]
  dsimp only
  rw [Logged.forM_lift_ok hkinds]
  exact ⟨_, fun journal => rfl⟩

theorem Plain.modularity_comesTo (hg : g.Plain) {groups : List (List (Fin g.order))}
    {communities : List CodeCommunity} (h : g.Describe groups communities) :
    (g.modularity (.list (communities.map fun c => .list c.members))).ComesTo
      (.ok ((Index.ofArcs (g.arcs keepAll)).modularity Float groups)) := by
  have hgrouping : Value.list (communities.map fun c => .list c.members) = g.grouping groups := by
    have hmembers := congrArg (List.map Value.list) h.members
    rw [List.map_map, List.map_map] at hmembers
    exact congrArg Value.list hmembers
  rw [hgrouping]
  exact outcome_modularityIn Float hg.valid hg.closed groups

theorem Plain.exists_overview (hg : g.Plain) (hM : ∀ communities, M.communities = .ok communities →
      ∃ groups, g.Describe groups communities) : ∃ o : Overview, o.Of g M := by
  have hnull : KindFilter.read .null = .ok none := rfl
  obtain ⟨groups, hgroups, hcomponents⟩ := exists_strongGroups hg.valid hg.closed hnull
  have hcycles := hg.named.textCycles.cyclicComponents_comesTo hgroups hcomponents
  obtain ⟨summary, hsummary⟩ := hg.summary_comesTo
  cases hcommunities : M.communities with
  | error failure =>
    refine ⟨⟨_, _, summary, 0⟩, hcomponents, hcycles, hsummary, fun cs hcs => ?_⟩
    rw [hcommunities] at hcs
    cases hcs
  | ok communities =>
    obtain ⟨groups, hgroups⟩ := hM communities hcommunities
    let modularity := (Index.ofArcs (g.arcs keepAll)).modularity Float groups
    refine ⟨⟨_, _, summary, modularity⟩, hcomponents, hcycles, hsummary, fun cs hcs => ?_⟩
    obtain rfl := Except.ok.inj (hcommunities.symm.trans hcs)
    exact hg.modularity_comesTo hgroups

end Graph

/-! ## Findings -/

namespace Detection

variable {t : Thresholds} {d : Nat} {cycles : List Finding} {communities : List CodeCommunity}

/-- With communities at hand, only the ranks can be missing. -/
theorem found_failsOnlyAs (hs : Setting g t d cycles)
    (hcommunities : M.communities = .ok communities)
    (hnumbered : ∀ c ∈ communities, Graph.Numbered c.membership) (smell : Smell) :
    FailsOnlyAs M.pagerank (found g d M t cycles smell) := by
  cases smell with
  | godObject =>
    refine .filterMapM fun v _ => (FailsOnlyAs.of_gives
      (GodObject.severityAt_gives hs.accepted v)).bind fun severity _ => ?_
    cases severity with
    | none => exact .ok none
    | some severity =>
      refine (FailsOnlyAs.refl M.pagerank).bind fun ranks _ => ?_
      exact (FailsOnlyAs.of_gives (GodObject.report_gives hs.accepted _ severity _)).bind
        fun found _ => .ok (some found)
  | cyclicDependencies => exact .ok cycles
  | shotgunSurgery =>
    refine .filterMapM fun v _ => ?_
    unfold Shotgun.judged
    rw [hcommunities]
    refine (FailsOnlyAs.of_gives (Shotgun.affectedAt_gives hnumbered v)).bind fun affected _ => ?_
    exact .of_gives (Shotgun.finding?_gives hs.accepted _ _)

theorem findings_failsOnlyAs (hs : Setting g t d cycles)
    (hcommunities : M.communities = .ok communities)
    (hnumbered : ∀ c ∈ communities, Graph.Numbered c.membership) (requested : List Smell) :
    FailsOnlyAs M.pagerank (findings g d M t cycles requested) :=
  .mapM fun smell _ => (found_failsOnlyAs hs hcommunities hnumbered smell).bind
    fun found _ => .ok (smell, found)

end Detection

/-! ## A survey by its measures -/

namespace Analyzer

variable {o : Overview} {smells : Except Failure Findings}

/-- A full analysis, given what it measures and finds. -/
def surveyed (a : Analyzer) (M : Measures) (o : Overview) (smells : Except Failure Findings) :
    Except Failure Report := do
  let communities ← M.communities
  let smells ← smells
  let degree := M.degree
  let betweenness := M.betweennessRaw.normalizeBetweenness
  let pagerank ← M.pagerank
  let top : ByCentrality (List Value) :=
    ⟨← a.topOf degree, ← a.topOf betweenness, ← a.topOf pagerank⟩
  return {
    summary := o.summary
    componentCount := o.components.length
    cycleCount := o.cycles.length
    largestCycle := (o.cycles.head?.map List.length).getD 0
    statistics := ⟨statisticsOf degree, statisticsOf betweenness, statisticsOf pagerank⟩
    topNodes := top
    communities := communities
    modularity := o.modularity
    smells := smells }

theorem survey_comesTo {s : MetricSettings} (h : M.Of g s) (ho : o.Of g M)
    (hsmells : Detecting.ComesTo M (a.detectSharing g s) smells) :
    Detecting.ComesTo M (a.survey g s) (a.surveyed M o smells) := by
  refine .written (.andThen (.lift ho.components) (.andThen (.lift ho.cycles) ?_))
  refine h.getCommunities.bind fun communities hcommunities => hsmells.bind fun smells _ => ?_
  refine .andThen (.lift ho.summary) (h.getDegree.andThen (h.getBetweenness.andThen ?_))
  refine h.getPagerank.bind fun pagerank _ => ?_
  refine (Detecting.ComesTo.except _).bind fun topDegree _ => ?_
  refine (Detecting.ComesTo.except _).bind fun topBetweenness _ => ?_
  refine (Detecting.ComesTo.except _).bind fun topPagerank _ => ?_
  exact .andThen (.lift (ho.modularity communities hcommunities)) (.written (.ok _))

/-! ## The highest scores -/

theorem upTo_countsIf {α : Type} (items : List α) {limit : Value} (h : limit.isNumber = true) :
    CountsIf (limit.isWhole = true) (upTo limit items) fun _ => True := by
  cases limit with
  | float x => exact ⟨fun hwhole => absurd hwhole Bool.false_ne_true, fun _ => rfl⟩
  | bool b => cases b <;> exact ⟨fun _ => Gives.of_ok trivial, fun hnot => absurd rfl hnot⟩
  | int n => cases n <;> exact ⟨fun _ => Gives.of_ok trivial, fun hnot => absurd rfl hnot⟩
  | _ => cases h

theorem topOf_countsIf (hg : g.TextNamed) (h : a.config.centrality.topCount.isNumber = true)
    (f : Fin g.order → Float) :
    CountsIf (a.config.centrality.topCount.isWhole = true) (a.topOf (g.score f)) fun _ => True := by
  have hranked : Gives (rankEntries ((g.score f).map fun entry => (entry.1, .float entry.2)))
      fun _ => True := by
    refine (rankEntries_gives ?_).imp fun _ _ => trivial
    refine List.forall_mem_map.mpr (List.forall_mem_map.mpr fun v _ => ?_)
    exact ⟨Graph.isText_name hg v, rfl⟩
  refine CountsIf.congr ((CountsIf.of_gives hranked).bind fun ranked _ _ =>
    (upTo_countsIf ranked h).bind fun _ _ _ => .of_gives (Gives.of_ok trivial)) ?_
  simp

/-- A survey needs communities, ranks and the highest of three scores. -/
theorem surveyed_countsIf {A B : Prop} {ranks : Except Failure (Scores Float)}
    {communities : Except Failure (List CodeCommunity)} {P : List CodeCommunity → Prop}
    (hg : g.TextNamed) (htop : a.config.centrality.topCount.isNumber = true)
    (hcommunities : CountsIf A communities P)
    (hranks : CountsIf B ranks fun scores => ∃ f, scores = g.score f)
    (hsmells : ∀ cs, communities = .ok cs → FailsOnlyAs ranks smells) (o : Overview) :
    CountsIf (A ∧ B ∧ a.config.centrality.topCount.isWhole = true)
      (a.surveyed (g.measures ranks communities) o smells) fun _ => True := by
  refine hcommunities.bind fun cs hcs _ => .after (hsmells cs hcs) hranks fun found _ => ?_
  refine hranks.bind fun scores _ hscores => ?_
  obtain ⟨f, rfl⟩ := hscores
  refine CountsIf.congr ((topOf_countsIf hg htop _).bind fun topDegree _ _ => ?_) and_self_iff
  dsimp only [Graph.measures]
  rw [Graph.normalizeBetweenness_score]
  refine CountsIf.congr ((topOf_countsIf hg htop _).bind fun topBetweenness _ _ => ?_) and_self_iff
  exact .congr ((topOf_countsIf hg htop f).bind fun topPagerank _ _ =>
    .of_gives (Gives.of_ok trivial)) (and_iff_left trivial)

/-! ## Accepted configurations at work -/

/-- What an accepted configuration amounts to on a plain snapshot. -/
structure Works (a : Analyzer) (g : Graph) (algorithm : CommunityAlgorithm) (t : Thresholds)
    (d : Nat) (cycles : List Finding) (requested : List Smell) : Prop where
  accepted : a.config.Accepted
  setting : Detection.Setting g t d cycles
  algorithm : a.config.communities.algorithm = Tagged.value algorithm
  thresholds : a.config.detectors.thresholds = .known t
  requested : Smell.readList a.config.detectors.enabled = .ok requested

theorem exists_works (hg : g.Plain) (hc : a.config.Accepted) :
    ∃ algorithm t d cycles requested, a.Works g algorithm t d cycles requested := by
  obtain ⟨algorithm, halgorithm⟩ := hc.algorithm
  obtain ⟨t, hthresholds, ht⟩ := hc.thresholds
  obtain ⟨requested, hrequested, -⟩ := hc.enabled
  obtain ⟨d, cycles, hsetting⟩ := Detection.exists_setting hg ht
  exact ⟨algorithm, t, d, cycles, requested, hc, hsetting, halgorithm, hthresholds, hrequested⟩

namespace Works

variable {algorithm : CommunityAlgorithm} {t : Thresholds} {d : Nat} {cycles : List Finding}
  {requested : List Smell} {ranks : Except Failure (Scores Float)}
  {communities : Except Failure (List CodeCommunity)}

theorem pagerankSettings_accepted (h : a.Works g algorithm t d cycles requested) :
    a.pagerankSettings.Accepted :=
  ⟨h.accepted.centrality.damping, h.accepted.centrality.maxIterations,
    h.accepted.centrality.tolerance⟩

theorem communityAlgorithm_eq (h : a.Works g algorithm t d cycles requested) :
    a.communityAlgorithm = .ok algorithm := by
  unfold communityAlgorithm
  rw [h.algorithm]
  exact Validation.coerce_algorithm algorithm

theorem measures_of (h : a.Works g algorithm t d cycles requested)
    (hranks : (a.pagerank g).ComesTo ranks)
    (hcommunities : (g.communities (Tagged.value algorithm)
      a.config.communities.maxIterations).ComesTo communities) :
    (g.measures ranks communities).Of g (a.metricSettings algorithm) :=
  h.setting.plain.measures_of h.accepted.centrality.maxWorkers rfl hranks hcommunities

theorem detectSharing_comesTo (h : a.Works g algorithm t d cycles requested)
    {s : MetricSettings} (hM : M.Of g s) :
    Detecting.ComesTo M (a.detectSharing g s) (Detection.findings g d M t cycles requested) := by
  have hthresholds : Detecting.ComesTo M (liftM a.config.detectors.thresholds.read) (.ok t) := by
    rw [h.thresholds]
    exact .ok t
  have halgorithm : Detecting.ComesTo M (discard (liftM a.communityAlgorithm)) (.ok ()) := by
    rw [h.communityAlgorithm_eq]
    exact .ok ()
  exact hthresholds.andThen (halgorithm.andThen
    (g.detectSharing_comesTo hM h.setting h.requested))

/-- A full analysis is a function of the measures under the configured settings. -/
theorem fullAnalysis_comesTo (h : a.Works g algorithm t d cycles requested)
    (hM : M.Of g (a.metricSettings algorithm)) (ho : o.Of g M) :
    (a.fullAnalysis g).ComesTo
      (a.surveyed M o (Detection.findings g d M t cycles requested)) := by
  have halgorithm : Detecting.ComesTo M (liftM a.communityAlgorithm) (.ok algorithm) := by
    rw [h.communityAlgorithm_eq]
    exact .ok algorithm
  refine Detecting.ComesTo.alone (M := M) (.operation _ _ ?_)
  refine .andThen (.lift h.setting.plain.check_comesTo) (halgorithm.andThen (.within _ ?_))
  exact survey_comesTo hM ho (h.detectSharing_comesTo hM)

end Works

end Analyzer

/-- The options that count something are whole numbers, as far as they come to be used. -/
structure Config.CountsWhole (c : Config) (g : Graph) : Prop where
  topCount : c.centrality.topCount.isWhole = true
  ranked : g.nodes ≠ [] → c.centrality.maxIterations.isWhole = true
  propagated : c.communities.algorithm = .str "label_propagation" →
    c.communities.maxIterations.isWhole = true

namespace Analyzer

theorem countsWhole_iff {algorithm : CommunityAlgorithm}
    (h : a.config.communities.algorithm = Tagged.value algorithm) :
    ((algorithm = .labelPropagation → a.config.communities.maxIterations.isWhole = true) ∧
      (g.order = 0 ∨ a.config.centrality.maxIterations.isWhole = true) ∧
        a.config.centrality.topCount.isWhole = true) ↔ a.config.CountsWhole g := by
  have hpropagated : algorithm = .labelPropagation ↔
      a.config.communities.algorithm = .str "label_propagation" := by
    rw [h]
    cases algorithm <;> simp [Tagged.value, Tagged.tag]
  have hranked : g.order = 0 ∨ a.config.centrality.maxIterations.isWhole = true ↔
      (g.nodes ≠ [] → a.config.centrality.maxIterations.isWhole = true) := by
    rw [Graph.order, List.length_eq_zero_iff, or_iff_not_imp_left]
  rw [hpropagated, hranked]
  exact ⟨fun ⟨hrounds, hranks, htop⟩ => ⟨htop, hranks, hrounds⟩,
    fun ⟨htop, hranks, hrounds⟩ => ⟨hrounds, hranks, htop⟩⟩

/-- A full analysis of a plain snapshot under accepted options fails only for want of a count. -/
theorem fullAnalysis_countsIf (hg : g.Plain) (hc : a.config.Accepted) :
    ∃ r, (a.fullAnalysis g).ComesTo r ∧ CountsIf (a.config.CountsWhole g) r fun _ => True := by
  obtain ⟨algorithm, t, d, cycles, requested, hworks⟩ := exists_works hg hc
  obtain ⟨ranks, hranks, hranksIf⟩ := hg.pagerank_comesTo hworks.pagerankSettings_accepted
  obtain ⟨communities, hcommunities, hcommunitiesIf⟩ := hg.communities_comesTo algorithm hc.rounds
  have hM := hworks.measures_of hranks hcommunities
  obtain ⟨o, ho⟩ := hg.exists_overview (M := g.measures ranks communities) fun cs hcs => by
    obtain ⟨-, groups, hgroups, -⟩ := hcommunitiesIf.gives_of_ok hcs
    exact ⟨groups, hgroups⟩
  refine ⟨_, hworks.fullAnalysis_comesTo hM ho, ?_⟩
  refine .congr (surveyed_countsIf hg.named hc.centrality.topCount.isNumber hcommunitiesIf hranksIf
    (fun cs hcs => ?_) o) (countsWhole_iff hworks.algorithm)
  have hnumbered := Graph.numbered_of_communities hg.valid ((hcommunities .empty).trans hcs)
  exact Detection.findings_failsOnlyAs hworks.setting hcs hnumbered requested

/-- Under options that pass validation, a full analysis of a plain snapshot reports if whatever has
to count does, and fails for want of a whole number otherwise. -/
theorem fullAnalysis_reports {c : Config} {warnings : List String}
    (hc : c.validate = .ok warnings) (hg : g.Plain) (journal : Journal) :
    (c.CountsWhole g →
      ∃ report, ((Analyzer.mk c).fullAnalysis g).outcome journal = .ok report) ∧
    (¬c.CountsWhole g →
      ((Analyzer.mk c).fullAnalysis g).outcome journal
        = .error (.wrongType (.notInteger "float"))) := by
  obtain ⟨r, hr, hif⟩ :=
    fullAnalysis_countsIf (a := ⟨c⟩) hg (Config.accepted_of_validate hc)
  rw [hr journal]
  refine ⟨fun hwhole => ?_, hif.fails⟩
  obtain ⟨report, hreport, -⟩ := hif.answers hwhole
  exact ⟨report, hreport⟩

end Analyzer

/-! ## Rounds that are no whole number -/

namespace Graph

def looped : Graph where
  nodes := [specimenNode "a", specimenNode "b"]
  edges := [specimenEdge "ab" "a" "b" .callGraph, specimenEdge "bb" "b" "b" .callGraph]
  cache := []
  metadata := []

theorem looped_plain : looped.Plain where
  valid :=
    { scalar := by simp [looped, specimenNode, Value.isScalar]
      distinct := by simp [looped, specimenNode, Value.same]
      same := by simp [looped, specimenNode, Value.same] }
  closed := by with_unfolding_all rfl
  named := by simp [TextNamed, looped, specimenNode, Value.isText]
  kind := by simp [looped, specimenNode, Value.isText]

end Graph

namespace Config

/-- Label propagation with a bound on its rounds, and a rank of as many rounds. -/
def counting (rounds : Value) : Config where
  centrality := { maxIterations := rounds }
  communities := { algorithm := .str "label_propagation", maxIterations := rounds }

theorem counting_validate : (counting (.int 100)).validate = .ok [] :=
  eq_ok_of_toOption (by decide +kernel)

end Config

theorem Analyzer.fullAnalysis_reports_looped :
    (Config.counting (.int 100)).validate = .ok [] ∧ Graph.looped.Plain ∧
      (Config.counting (.int 100)).CountsWhole Graph.looped ∧
      ∃ report, ((Analyzer.mk (.counting (.int 100))).fullAnalysis Graph.looped).outcome .empty
        = .ok report := by
  have hwhole : (Config.counting (.int 100)).CountsWhole Graph.looped :=
    ⟨rfl, fun _ => rfl, fun _ => rfl⟩
  exact ⟨Config.counting_validate, Graph.looped_plain, hwhole,
    (Analyzer.fullAnalysis_reports Config.counting_validate Graph.looped_plain .empty).1 hwhole⟩

/-- A number of rounds that was written as a double passes validation and fails the analysis. -/
theorem Analyzer.fullAnalysis_fails_on_fraction : ∃ c : Config,
    Config.read [] (.record [("centrality", .record [("max_iterations", .float 100)])]) = .ok c ∧
      c.validate = .ok [] ∧ Graph.looped.Plain ∧
      ((Analyzer.mk c).fullAnalysis Graph.looped).outcome .empty
        = .error (.wrongType (.notInteger "float")) := by
  let c : Config := { centrality := { maxIterations := .float 100 } }
  have hvalidate : c.validate = .ok [] := eq_ok_of_toOption (by decide +kernel)
  refine ⟨c, by with_unfolding_all rfl, hvalidate, Graph.looped_plain, ?_⟩
  obtain ⟨r, hr, hif⟩ := Analyzer.fullAnalysis_countsIf (a := ⟨c⟩) Graph.looped_plain
    (Config.accepted_of_validate hvalidate)
  rw [hr]
  exact hif.fails fun hwhole => Bool.false_ne_true (hwhole.ranked (by simp [Graph.looped]))

end CodeGraph
