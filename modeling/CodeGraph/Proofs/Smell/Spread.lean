import Mathlib.Data.List.Forall2
import CodeGraph.Proofs.Impact.Depth
import CodeGraph.Proofs.Smell.Detection

/-!
# Shotgun surgery under wider bounds

With bounds that are natural numbers, a node is reported exactly if its impact
exceeds them, and with high severity exactly if it exceeds twice the bounds
(`Bounds.Of.finding?_eq`). Lower bounds are exceeded by more, and an impact to a
greater depth has more nodes downstream and affects more communities. So
whatever is reported stays reported under wider bounds, with counts that are not
less, and what was high stays high (`findings_widen`).

All of this is relative to one list of communities, which does not depend on the
thresholds and which nothing in the journal changes (`Graph.communities_decided`).
-/

namespace CodeGraph

/-! ## Ends that are decided -/

/-- Nothing in the journal changes how the computation ends. -/
def Logged.Decided {α : Type} (x : Logged α) : Prop :=
  ∃ r, x.ComesTo r

namespace Logged.Decided

variable {α β : Type}

theorem lift (x : Except Failure α) : Logged.Decided (liftM x : Logged α) :=
  ⟨x, .lift x⟩

theorem of_pure (a : α) : Logged.Decided (pure a) :=
  ⟨.ok a, fun _ => rfl⟩

theorem bind {x : Logged α} {f : α → Logged β} (h : x.Decided) (hf : ∀ a, (f a).Decided) :
    (x >>= f).Decided := by
  obtain ⟨r, hr⟩ := h
  choose k hk using hf
  exact ⟨r >>= k, hr.bind fun a _ => hk a⟩

theorem debug (logger message : String) (fields : Fields) (a : α) :
    Logged.Decided (Logged.debug logger message fields >>= fun _ => pure a) :=
  ⟨.ok a, fun _ => rfl⟩

end Logged.Decided

namespace Graph

variable {g : Graph}

theorem groups_decided (hv : g.Valid) (hc : g.Closed) (algorithm : CommunityAlgorithm)
    (rounds : Value) : (g.groups algorithm rounds).Decided := by
  cases algorithm with
  | louvain =>
    unfold groups louvain louvainIn
    simp only [index_eq_pure hv hc, pure_bind]
    refine .bind (.lift _) fun vs => ?_
    split
    · exact .of_pure []
    · exact .bind (.lift _) fun found => .debug ..
  | labelPropagation =>
    unfold groups labelPropagation
    simp only [index_eq_pure hv hc, pure_bind]
    refine .bind (.lift _) fun below => ?_
    split
    · exact .lift (.error _)
    · refine .bind (.lift _) fun vs => ?_
      split
      · exact .lift (.error _)
      · exact .bind (.lift _) fun found => .debug ..

theorem communities_decided (hv : g.Valid) (hc : g.Closed) (given rounds : Value) :
    (g.communities given rounds).Decided := by
  unfold communities
  refine .bind (.lift _) fun algorithm => ?_
  refine .bind (groups_decided hv hc algorithm rounds) fun groups => ?_
  rw [mapM_describeGroup]
  exact .bind (.lift _) fun found => .debug ..

end Graph

/-- What one function finds in a list, another finds as well, in the same order. -/
theorem sublistForall₂_filterMap {α β : Type} {R : β → β → Prop} {f f' : α → Option β}
    (h : ∀ x y, f x = some y → ∃ y', f' x = some y' ∧ R y y') (xs : List α) :
    List.SublistForall₂ R (xs.filterMap f) (xs.filterMap f') := by
  induction xs with
  | nil => exact .nil
  | cons x rest ih =>
    rw [List.filterMap_cons, List.filterMap_cons]
    cases hx : f x with
    | none =>
      cases f' x with
      | none => exact ih
      | some y' => exact .cons_right ih
    | some y =>
      obtain ⟨y', hy', hrel⟩ := h x y hx
      rw [hy']
      exact .cons hrel ih

namespace Shotgun

variable {g : Graph} {s : MetricSettings} {t t' : Thresholds}

/-! ## Bounds -/

/-- Bounds on the communities and the nodes that a change affects within some steps. -/
structure Bounds where
  spread : Nat
  fanout : Nat
  depth : Nat

namespace Bounds

variable {b b' : Bounds} {impact impact' : Impact}

structure Of (b : Bounds) (t : Thresholds) : Prop where
  spread : t.communitySpread = .int b.spread
  fanout : t.fanout = .int b.fanout
  depth : t.impactDepth = .int b.depth

def Exceeded (b : Bounds) (impact : Impact) : Prop :=
  b.spread < impact.affected.length ∧ b.fanout < impact.downstream.length

instance : Decidable (b.Exceeded impact) :=
  inferInstanceAs (Decidable (_ ∧ _))

def twice (b : Bounds) : Bounds :=
  { b with spread := 2 * b.spread, fanout := 2 * b.fanout }

/-- High if even twice the bounds are exceeded. -/
def severity (b : Bounds) (impact : Impact) : Severity :=
  if b.twice.Exceeded impact then .high else .medium

theorem Of.harmless_eq (hb : b.Of t) (impact : Impact) :
    harmless t (.int impact.affected.length) (.int impact.downstream.length)
      = .ok (!decide (b.Exceeded impact)) := by
  unfold harmless
  rw [hb.spread, hb.fanout, Value.le_int, Value.le_int]
  by_cases hspread : impact.affected.length ≤ b.spread
  · have hwithin : ¬b.Exceeded impact := fun h => hspread.not_gt h.1
    rw [decide_eq_true (Int.ofNat_le.mpr hspread), decide_eq_false hwithin]
    rfl
  · rw [decide_eq_false (mt Int.ofNat_le.mp hspread)]
    change Except.ok (decide ((impact.downstream.length : Int) ≤ b.fanout)) = _
    rw [← decide_not]
    refine congrArg Except.ok (decide_eq_decide.mpr ?_)
    rw [Int.ofNat_le, Exceeded, and_iff_right (not_le.mp hspread), not_lt]

theorem Of.severity_eq (hb : b.Of t) (impact : Impact) :
    Shotgun.severity t (.int impact.affected.length) (.int impact.downstream.length)
      = .ok (b.severity impact) := by
  have hdoubled : ∀ bound : Nat, doubled (.int bound) = .ok (.int (2 * bound : Nat)) :=
    fun bound => congrArg (fun k => Except.ok (Value.int k)) (Nat.cast_mul 2 bound).symm
  unfold Shotgun.severity Bounds.severity
  rw [hb.spread, hb.fanout, hdoubled, hdoubled]
  change ((Value.int _).gt (.int (2 * b.spread : Nat)) >>= fun wide =>
    if (!wide) = true then pure Severity.medium
    else (Value.int _).gt (.int (2 * b.fanout : Nat)) >>= fun many =>
      if many = true then pure Severity.high else pure Severity.medium) = _
  rw [Value.gt_int, Value.gt_int]
  by_cases hspread : 2 * b.spread < impact.affected.length
  · rw [decide_eq_true (Int.ofNat_lt.mpr hspread)]
    by_cases hfanout : 2 * b.fanout < impact.downstream.length
    · rw [decide_eq_true (Int.ofNat_lt.mpr hfanout), if_pos ⟨hspread, hfanout⟩]
      rfl
    · rw [decide_eq_false (mt Int.ofNat_lt.mp hfanout), if_neg fun h => hfanout h.2]
      rfl
  · rw [decide_eq_false (mt Int.ofNat_lt.mp hspread), if_neg fun h => hspread h.1]
    rfl

/-- The finding about a node with an impact beyond the bounds. -/
def verdict (b : Bounds) (t : Thresholds) (node : Node) (impact : Impact) : Option Finding :=
  if b.Exceeded impact then some (report t node impact (b.severity impact)) else none

theorem Of.finding?_eq (hb : b.Of t) (node : Node) (impact : Impact) :
    finding? t node impact = .ok (b.verdict t node impact) := by
  unfold finding? verdict
  dsimp only
  rw [hb.harmless_eq, hb.severity_eq]
  by_cases hexceeded : b.Exceeded impact
  · rw [decide_eq_true hexceeded, if_pos hexceeded]
    rfl
  · rw [decide_eq_false hexceeded, if_neg hexceeded]
    rfl

theorem Of.checkBudget_eq (hb : b.Of t) : checkBudget "depth" t.impactDepth = .ok () :=
  hb.depth ▸ Graph.checkBudget_depthValue "depth" (some b.depth)

theorem Of.impactDepth_eq (hb : b.Of t) (order : Nat) :
    impactDepth order t.impactDepth = .ok b.depth := by
  rw [hb.depth]
  rfl

theorem Exceeded.mono (h : b.Exceeded impact) (hspread : b'.spread ≤ b.spread)
    (hfanout : b'.fanout ≤ b.fanout) (haffected : impact.affected.length ≤ impact'.affected.length)
    (hdownstream : impact.downstream.length ≤ impact'.downstream.length) : b'.Exceeded impact' :=
  ⟨(hspread.trans_lt h.1).trans_le haffected, (hfanout.trans_lt h.2).trans_le hdownstream⟩

end Bounds

/-! ## What is reported -/

variable {b b' : Bounds} {communities : List CodeCommunity}

/-- Detection with metrics of its own comes to `r`, and so does detection that shares right
metrics. -/
structure Reports (g : Graph) (s : MetricSettings) (t : Thresholds)
    (r : Except Failure (List Finding)) : Prop where
  alone : (detect g s t).alone.ComesTo r
  sharing : ∀ M : Measures, (g.communities s.algorithm s.rounds).ComesTo M.communities →
    Detecting.ComesTo M (detect g s t) r

/-- There is a finding for each node whose impact exceeds the bounds, in node order; the impacts
refer to the given communities. -/
structure Lists (g : Graph) (t : Thresholds) (b : Bounds) (communities : List CodeCommunity)
    (impacts : Fin g.order → Impact) (found : List Finding) : Prop where
  impact : ∀ v, (g.impactOf Float (g.name v) (.ok v) (query t communities)).ComesTo
    (.ok (impacts v))
  found : found = g.vertices.filterMap fun v => b.verdict t (g.nodeAt v) (impacts v)

theorem reports_of (hv : g.Valid) (hc : g.Closed) (hb : b.Of t)
    {identified : Except Failure (List CodeCommunity)} {r : Except Failure (List Finding)}
    (h : (g.communities s.algorithm s.rounds).ComesTo identified)
    (hr : ∀ M : Measures, M.communities = identified →
      g.vertices.filterMapM (judged g b.depth M t) = r) : Reports g s t r := by
  have hsharing : ∀ M : Measures, (g.communities s.algorithm s.rounds).ComesTo M.communities →
      Detecting.ComesTo M (detect g s t) r := by
    intro M hM
    rw [← hr M ((hM .empty).symm.trans (h .empty))]
    exact detect_comesTo hM hv hc hb.checkBudget_eq (hb.impactDepth_eq g.order)
  exact ⟨(hsharing ⟨[], [], [], .ok [], identified⟩ h).alone, hsharing⟩

/-- Without communities nothing can be said about any node. -/
theorem reports_of_error (hv : g.Valid) (hc : g.Closed) (hb : b.Of t) {failure : Failure}
    (h : (g.communities s.algorithm s.rounds).ComesTo (.error failure)) :
    Reports g s t (if g.nodes.isEmpty then .ok [] else .error failure) := by
  refine reports_of hv hc hb h fun M hM => ?_
  have hjudged : ∀ v, judged g b.depth M t v = .error failure := by
    intro v
    unfold judged
    rw [hM]
    rfl
  by_cases hempty : g.nodes.isEmpty = true
  · rw [if_pos hempty, Graph.vertices_eq_nil_iff.mpr hempty]
    rfl
  · obtain ⟨v, rest, hvertices⟩ :=
      List.exists_cons_of_ne_nil (mt Graph.vertices_eq_nil_iff.mp hempty)
    rw [if_neg hempty, hvertices, List.filterMapM_cons, hjudged]
    rfl

theorem reports_of_ok (hv : g.Valid) (hc : g.Closed) (hb : b.Of t)
    (h : (g.communities s.algorithm s.rounds).ComesTo (.ok communities))
    {affected : Fin g.order → List Value}
    (haffected : ∀ v, affectedAt g b.depth communities v = .ok (affected v)) :
    ∃ found, Reports g s t (.ok found) ∧
      Lists g t b communities (fun v => impactAt g b.depth v (affected v)) found := by
  refine ⟨_, reports_of hv hc hb h fun M hM => Gives.filterMapM_eq_ok fun v _ => ?_,
    fun v => ?_, rfl⟩
  · unfold judged findingAt
    rw [hM]
    change affectedAt g b.depth communities v >>= _ = _
    rw [haffected]
    exact hb.finding?_eq _ _
  · have himpact :=
      impactOf_comesTo hv hc hb.checkBudget_eq (hb.impactDepth_eq g.order) communities v
    rwa [haffected] at himpact

/-! ## Wider bounds -/

/-- A change that reaches nothing is no special case. -/
theorem affectedAt_eq (h : ∀ c ∈ communities, Graph.Numbered c.membership) (d : Nat)
    (v : Fin g.order) :
    affectedAt g d communities v = communitiesOf (communities.map CodeCommunity.membership)
      (Impact.reached true (reachAt g d true v)) := by
  unfold affectedAt
  split
  · next hempty =>
    rw [List.isEmpty_iff.mp hempty]
    obtain ⟨affected, haffected, -⟩ := Graph.communitiesOf_gives (List.forall_mem_map.mpr h) []
    change _ = communitiesOf _ []
    rw [haffected]
    unfold communitiesOf at haffected
    obtain ⟨_, -, haffected⟩ := bind_eq_ok.mp haffected
    obtain ⟨_, -, haffected⟩ := bind_eq_ok.mp haffected
    have hnone : Value.sorted [] = .ok [] := by
      rw [Value.sorted, Value.sortOn, List.mergeSort_nil]
      exact if_pos (by decide)
    exact hnone.symm.trans haffected
  · rfl

/-- The communities affected at one depth are found, each once, and they are affected at a greater
depth. -/
theorem affectedAt_mono (h : ∀ c ∈ communities, Graph.Numbered c.membership) {d d' : Nat}
    (hd : d ≤ d') (v : Fin g.order) :
    ∃ affected affected', affectedAt g d communities v = .ok affected ∧
      affectedAt g d' communities v = .ok affected' ∧ affected ⊆ affected' ∧ affected.Nodup := by
  have husable : ∀ m ∈ communities.map CodeCommunity.membership, m.Usable :=
    List.forall_mem_map.mpr fun c hc => (h c hc).usable
  rw [affectedAt_eq h, affectedAt_eq h]
  exact communitiesOf_mono husable
    (Impact.reached_prefix (Index.ofArcs (g.arcs keepAll)) true v hd).subset

/-- What a finding about an impact gives as evidence. -/
def evidenceOf (impact : Impact) : Value :=
  .record [("impact_analysis", impact.toValue), ("community_count", .int impact.affected.length),
    ("downstream_count", .int impact.downstream.length)]

/-- A finding about the same node whose evidence extends that of another, with counts that are not
less; high severity stays. -/
structure Widened (f f' : Finding) : Prop where
  node : f'.node = f.node
  evidence : ∃ impact impact' : Impact, f.evidence = evidenceOf impact ∧
    f'.evidence = evidenceOf impact' ∧ impact.Extends impact' ∧
    impact.affected.length ≤ impact'.affected.length ∧
    impact.downstream.length ≤ impact'.downstream.length
  high : f.severity = some .high → f'.severity = some .high

theorem exists_verdict {impact impact' : Impact} (hspread : b'.spread ≤ b.spread)
    (hfanout : b'.fanout ≤ b.fanout) (hextends : impact.Extends impact')
    (hnodup : impact.affected.Nodup) {node : Node} {f : Finding}
    (hf : b.verdict t node impact = some f) :
    ∃ f', b'.verdict t' node impact' = some f' ∧ Widened f f' := by
  have haffected : impact.affected.length ≤ impact'.affected.length :=
    (List.subperm_of_subset hnodup hextends.affected).length_le
  have hdownstream := hextends.downstream.length_le
  unfold Bounds.verdict at hf ⊢
  split at hf
  · next hexceeded =>
    obtain rfl := Option.some.inj hf
    rw [if_pos (hexceeded.mono hspread hfanout haffected hdownstream)]
    refine ⟨_, rfl, rfl, ⟨impact, impact', rfl, rfl, hextends, haffected, hdownstream⟩,
      fun hhigh => ?_⟩
    have htwice : b.twice.Exceeded impact := by
      by_contra hnot
      change some (if b.twice.Exceeded impact then Severity.high else .medium) = some .high at hhigh
      rw [if_neg hnot] at hhigh
      cases hhigh
    have htwice' : b'.twice.Exceeded impact' :=
      htwice.mono (Nat.mul_le_mul_left 2 hspread) (Nat.mul_le_mul_left 2 hfanout) haffected
        hdownstream
    exact congrArg some (if_pos htwice')
  · cases hf

/-- Detection under bounds that are lower and to a greater depth. Either communities are identified:
then both detections list the nodes whose impact exceeds their bounds, and every finding has one
that widens it in the other list, in the same order. Or the communities fail, and both detections
fail as they do if there is a node at all. -/
theorem findings_widen (hv : g.Valid) (hc : g.Closed) (s : MetricSettings) (hb : b.Of t)
    (hb' : b'.Of t') (hspread : b'.spread ≤ b.spread) (hfanout : b'.fanout ≤ b.fanout)
    (hdepth : b.depth ≤ b'.depth) :
    (∃ communities impacts impacts' found found',
      (g.communities s.algorithm s.rounds).ComesTo (.ok communities) ∧
      Reports g s t (.ok found) ∧ Lists g t b communities impacts found ∧
      Reports g s t' (.ok found') ∧ Lists g t' b' communities impacts' found' ∧
      List.SublistForall₂ Widened found found') ∨
    ∃ failure, (g.communities s.algorithm s.rounds).ComesTo (.error failure) ∧
      Reports g s t (if g.nodes.isEmpty then .ok [] else .error failure) ∧
      Reports g s t' (if g.nodes.isEmpty then .ok [] else .error failure) := by
  obtain ⟨identified, hidentified⟩ := g.communities_decided hv hc s.algorithm s.rounds
  cases identified with
  | error failure =>
    exact .inr ⟨failure, hidentified, reports_of_error hv hc hb hidentified,
      reports_of_error hv hc hb' hidentified⟩
  | ok communities =>
    have hnumbered := Graph.numbered_of_communities hv (hidentified .empty)
    choose affected affected' haffected haffected' hmono hnodup using
      affectedAt_mono (g := g) hnumbered hdepth
    obtain ⟨found, hreports, hlists⟩ := reports_of_ok hv hc hb hidentified haffected
    obtain ⟨found', hreports', hlists'⟩ := reports_of_ok hv hc hb' hidentified haffected'
    refine .inl ⟨communities, _, _, found, found', hidentified, hreports, hlists, hreports',
      hlists', ?_⟩
    rw [hlists.found, hlists'.found]
    refine sublistForall₂_filterMap (fun v f hf => ?_) g.vertices
    have hextends : (impactAt g b.depth v (affected v)).Extends
        (impactAt g b'.depth v (affected' v)) :=
      ⟨Impact.reached_prefix _ true v hdepth, Impact.reached_prefix _ false v hdepth, hmono v⟩
    exact exists_verdict hspread hfanout hextends (hnodup v) hf

/-! ## Bounds of nothing -/

/-- Every node is in a community, so that a change affects one if it reaches anything. -/
theorem affectedAt_ne_nil (hv : g.Valid) (hn : g.TextNamed)
    {groups : List (List (Fin g.order))} (hdescribe : g.Describe groups communities)
    (hperm : groups.flatten.Perm g.vertices) {d : Nat} {v : Fin g.order} {affected : List Value}
    (haffected : affectedAt g d communities v = .ok affected) (hreach : reachAt g d true v ≠ []) :
    affected ≠ [] := by
  have hnodup := hperm.nodup_iff.mpr (List.nodup_finRange g.order)
  obtain ⟨met, hmet⟩ := List.exists_mem_of_ne_nil _ hreach
  have hname := hn.eq_name (Graph.vertex?_of_met hmet)
  -- The group of what is met becomes a community with its name.
  obtain ⟨group, hgroup, hvertex⟩ :=
    List.mem_flatten.mp (hperm.mem_iff.mpr (List.mem_finRange met.vertex))
  have hmembers : g.names group ∈ communities.map CodeCommunity.members := by
    rw [hdescribe.members]
    exact List.mem_map_of_mem hgroup
  obtain ⟨c, hc, hcmembers⟩ := List.mem_map.mp hmembers
  have hmember : g.name met.vertex ∈ c.members := by
    rw [hcmembers]
    exact List.mem_map_of_mem hvertex
  unfold affectedAt at haffected
  rw [if_neg (mt List.isEmpty_iff.mp hreach)] at haffected
  have htouches := communitiesOf_touches
    (hdescribe.apart hv.name_injective hnodup) hdescribe.id_eq_int
    (Graph.isText_of_reached hn keepAll true v d) haffected
  refine List.ne_nil_of_mem ((htouches.mem_iff c.id).mpr ⟨c, hc, rfl, _, ?_, hmember⟩)
  rw [← hname]
  exact List.mem_map_of_mem hmet

/-- Thresholds that every impact exceeds which is one at all. -/
def strictTo (depth : Nat) : Thresholds :=
  { communitySpread := .int 0, fanout := .int 0, impactDepth := .int depth }

theorem strictTo_bounds (depth : Nat) : Bounds.Of ⟨0, 0, depth⟩ (strictTo depth) :=
  ⟨rfl, rfl, rfl⟩

/-- In the specimen, one step and two steps from every node: the first node is reported with high
severity. -/
theorem findings_widen_specimen :
    Graph.specimen.Valid ∧ Graph.specimen.Closed ∧ ∃ found found',
      Reports Graph.specimen {} (strictTo 1) (.ok found) ∧
      Reports Graph.specimen {} (strictTo 2) (.ok found') ∧
      List.SublistForall₂ Widened found found' ∧
      ∃ f ∈ found, f.node = .str "a" ∧ f.severity = some .high := by
  have hv := Graph.specimen_valid
  have hc := Graph.specimen_closed
  have hn := Graph.specimen_named
  have hwiden := findings_widen hv hc {} (strictTo_bounds 1) (strictTo_bounds 2) (le_refl 0)
    (le_refl 0) (by decide : 1 ≤ 2)
  rcases hwiden with
    ⟨communities, impacts, -, found, found', hcommunities, hfound, hlists, hfound', -, hwidened⟩ |
    ⟨failure, hfails, -⟩
  · refine ⟨hv, hc, found, found', hfound, hfound', hwidened, ?_⟩
    let v : Fin Graph.specimen.order := ⟨0, by decide⟩
    have hreach : reachAt Graph.specimen 1 true v ≠ [] :=
      List.ne_nil_of_length_pos (by decide +kernel)
    have himpact := impactOf_comesTo hv hc (strictTo_bounds 1).checkBudget_eq
      ((strictTo_bounds 1).impactDepth_eq _) communities v
    obtain ⟨affected, haffected, hok⟩ :=
      bind_eq_ok.mp ((himpact .empty).symm.trans (hlists.impact v .empty))
    obtain ⟨groups, hdescribe, hperm⟩ := Graph.describe_of_communities hv hc hn.alikeNamed
      (rfl : Tagged.coerce (.str "louvain") = .ok CommunityAlgorithm.louvain)
      (by decide : (1 : Int) ≤ 100) (hcommunities .empty)
    have hexceeded : Bounds.Exceeded ⟨0, 0, 1⟩ (impacts v) := by
      rw [← Except.ok.inj hok]
      exact ⟨List.length_pos_of_ne_nil (affectedAt_ne_nil hv hn hdescribe hperm haffected hreach),
        List.length_pos_of_ne_nil (mt List.map_eq_nil_iff.mp hreach)⟩
    have hmem : report (strictTo 1) (Graph.specimen.nodeAt v) (impacts v)
        (Bounds.severity ⟨0, 0, 1⟩ (impacts v)) ∈ found := by
      rw [hlists.found]
      exact List.mem_filterMap.mpr ⟨v, List.mem_finRange v, if_pos hexceeded⟩
    exact ⟨_, hmem, rfl, congrArg some (if_pos hexceeded)⟩
  · obtain ⟨_, hanswers, -⟩ := (hn.orderable.communities_gives hv hc Graph.specimen_kinds
      (rfl : Tagged.coerce (.str "louvain") = .ok CommunityAlgorithm.louvain)
      (by decide : (1 : Int) ≤ 100)).outcome .empty
    cases (hfails .empty).symm.trans hanswers

end Shotgun

end CodeGraph
