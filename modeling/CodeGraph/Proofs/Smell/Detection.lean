import CodeGraph.Proofs.Config
import CodeGraph.Proofs.Impact.Scores
import CodeGraph.Proofs.Smell.Cycle
import CodeGraph.Proofs.Smell.Metrics

/-!
# What the detectors find

Every detector is a function of the measures of the graph: with right metrics at
hand, detection comes to `Detection.found` of each smell that is asked for
(`Graph.detectSharing_comesTo`). A god object shows its rank only in the
evidence, and only if it is remarkable at all; shotgun surgery depends on the
communities through the ones that a change affects.

Under accepted thresholds nothing but the rank and the communities can fail, and
a finding names its node and states the rank or the impact it was given
(`GodObject.report_gives`, `Shotgun.finding?_gives`).
-/

namespace CodeGraph

/-- A snapshot without dangling edges whose names and kinds are texts. -/
structure Graph.Plain (g : Graph) : Prop where
  valid : g.Valid
  closed : g.Closed
  named : g.TextNamed
  kind : ∀ node ∈ g.nodes, node.kind.isText = true

theorem Graph.Plain.check_comesTo {g : Graph} (hg : g.Plain) : g.check.ComesTo (.ok ()) := by
  rw [check_eq_pure hg.valid hg.closed]
  exact fun journal => rfl

theorem Graph.vertices_eq_nil_iff {g : Graph} : g.vertices = [] ↔ g.nodes.isEmpty = true := by
  rw [vertices, List.finRange_eq_nil_iff, List.isEmpty_iff, ← List.length_eq_zero_iff]
  rfl

/-! ## God objects -/

namespace GodObject

variable {g : Graph} {M : Measures} {s : MetricSettings} {t : Thresholds}

/-- What a finding states about a node, given the ranks. -/
def figures (M : Measures) (ranks : Scores Float) (v : Nat) : Figures :=
  ⟨M.degree.at v, M.betweennessRaw.normalizeBetweenness.at v, (M.rawDegree.at v).toUInt64.toNat,
    M.betweennessRaw.at v, ranks.at v⟩

def severityAt (M : Measures) (t : Thresholds) (v : Nat) : Except Failure (Option Severity) :=
  severity t (.float (M.degree.at v)) (.float (M.betweennessRaw.normalizeBetweenness.at v))

/-- The finding about a node. The rank is asked for only if there is one. -/
def judged (g : Graph) (M : Measures) (t : Thresholds) (v : Fin g.order) :
    Except Failure (Option Finding) := do
  match ← severityAt M t v with
  | none => return none
  | some severity =>
    let ranks ← M.pagerank
    return some (← report t (g.nodeAt v) severity (figures M ranks v))

theorem judge_comesTo (h : M.Of g s) (v : Fin g.order) :
    Detecting.ComesTo M (judge g s t M.degree M.betweennessRaw.normalizeBetweenness v)
      (judged g M t v) := by
  refine (Detecting.ComesTo.except (severityAt M t v)).bind fun severity _ => ?_
  cases severity with
  | none => exact .ok none
  | some severity =>
    have hfinding : Detecting.ComesTo M
        (finding g s t v (M.degree.at v) (M.betweennessRaw.normalizeBetweenness.at v) severity)
        (M.pagerank >>= fun ranks => report t (g.nodeAt v) severity (figures M ranks v)) :=
      h.getRawDegree.andThen (h.getBetweennessRaw.andThen
        (h.getPagerank.bind fun _ _ => .except _))
    have hsome := hfinding.bind fun found _ => Detecting.ComesTo.ok (some found)
    rw [bind_assoc] at hsome
    exact hsome

theorem detect_comesTo (h : M.Of g s) :
    Detecting.ComesTo M (detect g s t) (g.vertices.filterMapM (judged g M t)) := by
  unfold detect
  by_cases hempty : g.nodes.isEmpty = true
  · rw [if_pos hempty, Graph.vertices_eq_nil_iff.mpr hempty]
    exact .ok []
  · rw [if_neg hempty]
    refine h.getDegree.andThen (h.getBetweenness.andThen ?_)
    exact .passedOn (.filterMapM fun v _ => judge_comesTo h v) fun found _ => .written (.ok found)

theorem exceeds_gives {degree betweenness degreeBound betweennessBound : Value}
    (hdegree : degree.isNumber = true) (hbetweenness : betweenness.isNumber = true)
    (hdegreeBound : degreeBound.isNumber = true)
    (hbetweennessBound : betweennessBound.isNumber = true) :
    Gives (exceeds degree betweenness degreeBound betweennessBound) fun _ => True := by
  refine (Value.gt_gives hdegree hdegreeBound).bind fun beyond _ => ?_
  cases beyond with
  | true => exact Gives.of_ok trivial
  | false => exact Value.gt_gives hbetweenness hbetweennessBound

theorem severityAt_gives (ht : t.Accepted) (v : Nat) :
    Gives (severityAt M t v) fun _ => True := by
  refine (exceeds_gives rfl rfl ht.degreeHigh ht.betweennessHigh).bind fun high _ => ?_
  cases high with
  | true => exact Gives.of_ok trivial
  | false =>
    refine (exceeds_gives rfl rfl ht.degreeMedium ht.betweennessMedium).bind fun medium _ => ?_
    cases medium <;> exact Gives.of_ok trivial

/-- A finding about a node names it, and states its rank. -/
structure About (node : Node) (rank : Float) (f : Finding) : Prop where
  node : f.node = node.id
  rank : ∃ degree betweenness betweennessRaw rest, f.evidence = .record
    (("centrality_scores", .record [("degree", degree), ("betweenness", betweenness),
      ("betweenness_raw", betweennessRaw), ("pagerank", .float rank)]) :: rest)

theorem report_gives (ht : t.Accepted) (node : Node) (severity : Severity) (x : Figures) :
    Gives (report t node severity x) (About node x.pagerank) := by
  have hadvice : Gives (advice t (.float x.degree) (.float x.betweenness)) fun _ => True := by
    refine (Value.gt_gives rfl ht.degreeMedium).bind fun coupled _ => ?_
    exact (Value.gt_gives rfl ht.betweennessMedium).bind fun central _ => Gives.of_ok trivial
  exact hadvice.bind fun _ _ => Gives.of_ok ⟨rfl, _, _, _, _, rfl⟩

end GodObject

/-! ## Shotgun surgery -/

namespace Shotgun

variable {g : Graph} {M : Measures} {s : MetricSettings} {t : Thresholds} {d : Nat}

/-- What a change to `v` reaches within `d` steps, or what reaches it. -/
def reachAt (g : Graph) (d : Nat) (forward : Bool) (v : Fin g.order) : Impact.Reach g.order :=
  Impact.reach (Index.ofArcs (g.arcs keepAll)) forward v d

/-- The communities of what a change to `v` reaches. -/
def affectedAt (g : Graph) (d : Nat) (communities : List CodeCommunity) (v : Fin g.order) :
    Except Failure (List Value) :=
  if (reachAt g d true v).isEmpty then .ok []
  else communitiesOf (communities.map CodeCommunity.membership)
    (Impact.reached true (reachAt g d true v))

/-- What is known of a change to `v` once the affected communities are. -/
def impactAt (g : Graph) (d : Nat) (v : Fin g.order) (affected : List Value) : Impact where
  node := g.name v
  downstream := Impact.reached true (reachAt g d true v)
  reaching := Impact.reached false (reachAt g d false v)
  direct := Impact.directScore Float (reachAt g d true v)
  transitive := Impact.transitiveScore Float (reachAt g d true v)
  affected := affected

/-- The finding about a node with given affected communities. -/
def findingAt (g : Graph) (d : Nat) (t : Thresholds) (v : Fin g.order) (affected : List Value) :
    Except Failure (Option Finding) :=
  finding? t (g.nodeAt v) (impactAt g d v affected)

def judged (g : Graph) (d : Nat) (M : Measures) (t : Thresholds) (v : Fin g.order) :
    Except Failure (Option Finding) := do
  findingAt g d t v (← affectedAt g d (← M.communities) v)

theorem impactOf_comesTo (hv : g.Valid) (hc : g.Closed)
    (hbudget : checkBudget "depth" t.impactDepth = .ok ())
    (hsteps : impactDepth g.order t.impactDepth = .ok d) (communities : List CodeCommunity)
    (v : Fin g.order) :
    (g.impactOf Float (g.name v) (.ok v) (query t communities)).ComesTo
      (affectedAt g d communities v >>= fun affected => .ok (impactAt g d v affected)) := by
  have hkinds : KindFilter.read (query t communities).kinds = .ok none := rfl
  have halgorithm : Tagged.coerce (query t communities).algorithm
      = .ok CommunityAlgorithm.louvain := rfl
  have hdepth : (query t communities).depth = t.impactDepth := rfl
  have hkeeps : KindFilter.keeps none = keepAll := rfl
  intro journal
  rw [Graph.impactOf_eq Float hv hc (hdepth ▸ hbudget) (hdepth ▸ hsteps) hkinds halgorithm, hkeeps]
  change Logged.outcome ((query t communities).affected g (reachAt g d true v) >>=
    Impact.report Float (g.name v) t.impactDepth (reachAt g d true v) (reachAt g d false v))
      journal = _
  unfold ImpactQuery.affected affectedAt
  cases (reachAt g d true v).isEmpty with
  | true => rfl
  | false =>
    rw [if_neg Bool.false_ne_true, if_neg Bool.false_ne_true]
    have hmemberships : (query t communities).memberships g
        = pure (communities.map CodeCommunity.membership) := rfl
    rw [hmemberships, pure_bind]
    cases communitiesOf (communities.map CodeCommunity.membership)
      (Impact.reached true (reachAt g d true v)) <;> rfl

theorem judge_comesTo (h : (g.communities s.algorithm s.rounds).ComesTo M.communities)
    (hv : g.Valid) (hc : g.Closed)
    (hbudget : checkBudget "depth" t.impactDepth = .ok ())
    (hsteps : impactDepth g.order t.impactDepth = .ok d) (v : Fin g.order) :
    Detecting.ComesTo M (judge g s t v) (judged g d M t v) := by
  refine (Detecting.ComesTo.getCommunities h).bind fun communities _ => ?_
  have himpact := (Detecting.ComesTo.lift (M := M)
    (impactOf_comesTo hv hc hbudget hsteps communities v)).bind fun impact _ =>
      Detecting.ComesTo.except (finding? t (g.nodeAt v) impact)
  rw [bind_assoc] at himpact
  exact himpact

theorem detect_comesTo (h : (g.communities s.algorithm s.rounds).ComesTo M.communities)
    (hv : g.Valid) (hc : g.Closed)
    (hbudget : checkBudget "depth" t.impactDepth = .ok ())
    (hsteps : impactDepth g.order t.impactDepth = .ok d) :
    Detecting.ComesTo M (detect g s t) (g.vertices.filterMapM (judged g d M t)) :=
  .passedOn (.filterMapM fun v _ => judge_comesTo h hv hc hbudget hsteps v) fun found _ =>
    .written (.ok found)

theorem affectedAt_gives {communities : List CodeCommunity}
    (h : ∀ c ∈ communities, Graph.Numbered c.membership) (v : Fin g.order) :
    Gives (affectedAt g d communities v) fun _ => True := by
  unfold affectedAt
  split
  · exact Gives.of_ok trivial
  · exact Graph.communitiesOf_gives (List.forall_mem_map.mpr h) _

theorem doubled_gives {bound : Value} (h : bound.isNumber = true) :
    Gives (doubled bound) fun twice => twice.isNumber = true := by
  cases bound with
  | bool b => exact Gives.of_ok rfl
  | int n => exact Gives.of_ok rfl
  | float x => exact Gives.of_ok rfl
  | _ => cases h

theorem severity_gives (ht : t.Accepted) {communities downstream : Value}
    (hcommunities : communities.isNumber = true) (hdownstream : downstream.isNumber = true) :
    Gives (severity t communities downstream) fun _ => True := by
  refine (doubled_gives ht.communitySpread).bind fun spread hspread => ?_
  refine (Value.gt_gives hcommunities hspread).bind fun wide _ => ?_
  cases wide with
  | false => exact Gives.of_ok trivial
  | true =>
    refine (doubled_gives ht.fanout).bind fun fanout hfanout => ?_
    refine (Value.gt_gives hdownstream hfanout).bind fun many _ => ?_
    cases many <;> exact Gives.of_ok trivial

theorem harmless_gives (ht : t.Accepted) {communities downstream : Value}
    (hcommunities : communities.isNumber = true) (hdownstream : downstream.isNumber = true) :
    Gives (harmless t communities downstream) fun _ => True := by
  refine (Value.le_gives hcommunities ht.communitySpread).bind fun narrow _ => ?_
  cases narrow with
  | true => exact Gives.of_ok trivial
  | false => exact Value.le_gives hdownstream ht.fanout

/-- A finding about a node names it, and states what its change affects. -/
structure About (node : Node) (impact : Impact) (f : Finding) : Prop where
  node : f.node = node.id
  impact : ∃ rest, f.evidence = .record (("impact_analysis", impact.toValue) :: rest)

theorem finding?_gives (ht : t.Accepted) (node : Node) (impact : Impact) :
    Gives (finding? t node impact) fun found => ∀ f ∈ found, About node impact f := by
  refine (harmless_gives ht rfl rfl).bind fun harmless _ => ?_
  cases harmless with
  | true => exact Gives.of_ok fun f hf => nomatch hf
  | false =>
    refine (severity_gives ht rfl rfl).bind fun severity _ => Gives.of_ok fun f hf => ?_
    obtain rfl := Option.some.inj hf
    exact ⟨rfl, _, rfl⟩

end Shotgun

/-! ## All detectors -/

namespace Detection

variable {g : Graph} {M : Measures} {s : MetricSettings} {t : Thresholds} {d : Nat}
  {cycles : List Finding}

/-- Accepted thresholds on a plain snapshot, with the depth they amount to and the cycles there
are. -/
structure Setting (g : Graph) (t : Thresholds) (d : Nat) (cycles : List Finding) : Prop where
  plain : g.Plain
  accepted : t.Accepted
  depth : impactDepth g.order t.impactDepth = .ok d
  cycles : (Cycle.detect g t).ComesTo (.ok cycles)

theorem exists_setting (hg : g.Plain) (ht : t.Accepted) : ∃ d cycles, Setting g t d cycles := by
  obtain ⟨d, hd, -⟩ := ht.impactDepth.impactDepth_gives g.order
  obtain ⟨filter, hfilter, -⟩ := ht.cycleEdgeKinds
  obtain ⟨_, -, hcycles⟩ := Cycle.exists_cycles hg.valid hg.closed hg.named hfilter
  exact ⟨d, _, hg, ht, hd, hcycles⟩

/-- What the detector of a smell finds. -/
def found (g : Graph) (d : Nat) (M : Measures) (t : Thresholds) (cycles : List Finding) :
    Smell → Except Failure (List Finding)
  | .godObject => g.vertices.filterMapM (GodObject.judged g M t)
  | .cyclicDependencies => .ok cycles
  | .shotgunSurgery => g.vertices.filterMapM (Shotgun.judged g d M t)

def findings (g : Graph) (d : Nat) (M : Measures) (t : Thresholds) (cycles : List Finding)
    (requested : List Smell) : Except Failure Findings :=
  requested.mapM fun smell => do return (smell, ← found g d M t cycles smell)

theorem run_comesTo (h : M.Of g s) (hs : Setting g t d cycles) (smell : Smell) :
    Detecting.ComesTo M (run g s t smell) (found g d M t cycles smell) := by
  cases smell with
  | godObject => exact GodObject.detect_comesTo h
  | cyclicDependencies => exact .lift hs.cycles
  | shotgunSurgery =>
    exact Shotgun.detect_comesTo h.communities hs.plain.valid hs.plain.closed
      (hs.accepted.impactDepth.checkBudget_eq "depth") hs.depth

theorem supervised_comesTo (h : M.Of g s) (hs : Setting g t d cycles) (smell : Smell) :
    Detecting.ComesTo M (supervised g s t smell) (found g d M t cycles smell) := by
  refine .within _ (.written ?_)
  exact .passedOn (.onFailure (run_comesTo h hs smell) fun _ => .write _ _ _ _ _) fun found _ =>
    .written (.ok found)

end Detection

/-- Sharing metrics or not, detection comes to what every detector that is asked for finds. -/
theorem Graph.detectSharing_comesTo {g : Graph} {M : Measures} {s : MetricSettings}
    {t : Thresholds} {d : Nat} {cycles : List Finding} (h : M.Of g s)
    (hs : Detection.Setting g t d cycles) {smells : Value} {requested : List Smell}
    (hsmells : Smell.readList smells = .ok requested) :
    Detecting.ComesTo M (g.detectSharing s t smells)
      (Detection.findings g d M t cycles requested) := by
  have hread : Detecting.ComesTo M (liftM (Smell.readList smells)) (.ok requested) := by
    rw [hsmells]
    exact .ok requested
  refine hread.andThen ?_
  by_cases hempty : requested.isEmpty = true
  · rw [if_pos hempty, List.isEmpty_iff.mp hempty]
    exact .ok []
  · rw [if_neg hempty]
    refine Detecting.ComesTo.andThen (.lift hs.plain.check_comesTo) ?_
    refine .passedOn (.mapM fun smell _ => ?_) fun findings _ => .written (.ok findings)
    exact (Detection.supervised_comesTo h hs smell).bind fun found _ => .ok (smell, found)

end CodeGraph
