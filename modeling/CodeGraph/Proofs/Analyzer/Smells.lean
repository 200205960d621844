import CodeGraph.Proofs.Analyzer.Survey

/-!
# The smells of a full analysis and of a detection

A full analysis computes its metrics under all options of the configuration; a
detection on its own ranks nodes and finds communities with options of its own,
the defaults. Everything else the detectors look at is the same. So the two
differ only in what findings show of ranks and communities: a god object shows
its rank, and shotgun surgery the communities that a change affects
(`Backdrop.ShowSame`). The findings are the same exactly if every node that is
named by one of them shows the same in both (`smells_agree_iff`).
-/

namespace CodeGraph

/-! ## Findings as data -/

/-- Words that are read back as what they stand for stand for one thing only. -/
theorem Tagged.tag_injective {α : Type} [Tagged α]
    (h : ∀ x : α, Tagged.coerce (Tagged.value x) = .ok x) :
    Function.Injective (Tagged.tag : α → String) := by
  intro x y htag
  have hvalue : Tagged.value x = Tagged.value y := congrArg Value.str htag
  exact Except.ok.inj ((h x).symm.trans (hvalue ▸ h y))

theorem Smell.tag_injective : Function.Injective (Tagged.tag : Smell → String) :=
  Tagged.tag_injective (Validation.coerceOr_smell _)

theorem Severity.tag_injective : Function.Injective (Tagged.tag : Severity → String) :=
  Tagged.tag_injective fun severity => by cases severity <;> rfl

theorem Finding.toValue_injective : Function.Injective Finding.toValue := by
  have hwords : Function.Injective fun word : Option String => Value.ofOption (word.map .str) := by
    intro word word' h
    cases word <;> cases word' <;> simp_all [Value.ofOption]
  rintro ⟨smell, title, description, node, cycle, severity, evidence, fix, effort⟩
    ⟨smell', title', description', node', cycle', severity', evidence', fix', effort'⟩ h
  simp only [toValue, Value.record.injEq, List.cons.injEq, Prod.mk.injEq, true_and, and_true,
    Value.str.injEq, Value.list.injEq] at h
  obtain ⟨hsmell, -, rfl, rfl, rfl, rfl, -, hseverity, rfl, hfix, heffort⟩ := h
  obtain rfl := Smell.tag_injective (Value.str.inj hsmell)
  obtain rfl := hwords hfix
  obtain rfl := hwords heffort
  have hseverity' : severity.map Tagged.tag = severity'.map Tagged.tag := by
    apply hwords
    simp only [Option.map_map]
    exact hseverity
  rw [Option.map_injective Severity.tag_injective hseverity']

theorem Findings.toValue_injective : Function.Injective Findings.toValue := by
  intro findings findings' h
  refine List.map_injective_iff.mpr ?_ (Value.record.inj h)
  rintro ⟨smell, found⟩ ⟨smell', found'⟩ hentry
  obtain ⟨hsmell, hfound⟩ := Prod.mk.inj hentry
  obtain rfl := Smell.tag_injective hsmell
  rw [List.map_injective_iff.mpr Finding.toValue_injective (Value.list.inj hfound)]

def Findings.Name (findings : Findings) (smell : Smell) (id : Value) : Prop :=
  ∃ found, (smell, found) ∈ findings ∧ ∃ f ∈ found, f.node = id

theorem Findings.name_map {requested : List Smell} {found : Smell → List Finding} {smell : Smell}
    {id : Value} :
    Findings.Name (requested.map fun smell => (smell, found smell)) smell id ↔
      smell ∈ requested ∧ ∃ f ∈ found smell, f.node = id := by
  constructor
  · rintro ⟨_, hmem, hnamed⟩
    obtain ⟨_, hrequested, ⟨⟩⟩ := List.mem_map.mp hmem
    exact ⟨hrequested, hnamed⟩
  · rintro ⟨hrequested, hnamed⟩
    exact ⟨found smell, List.mem_map_of_mem hrequested, hnamed⟩

/-! ## Two runs of a detector -/

namespace Detection

variable {g : Graph}

/-- The findings about a node in two runs: they are the same if there are none or what they show
is. -/
structure Compare (id : Value) (found found' : Option Finding) (Same : Prop) : Prop where
  node : ∀ f ∈ found, f.node = id
  node' : ∀ f ∈ found', f.node = id
  eq_iff : found = found' ↔ (found.isSome = true ∨ found'.isSome = true → Same)

theorem Compare.of_shown {id : Value} {found found' : Option Finding} {Same : Prop}
    (node : ∀ f ∈ found, f.node = id) (node' : ∀ f ∈ found', f.node = id)
    (hshown : ∀ f, found = some f → found' = some f → Same) (hsame : Same → found = found') :
    Compare id found found' Same := by
  refine ⟨node, node', ?_, fun h => ?_⟩
  · rintro rfl hsome
    obtain ⟨f, hf⟩ := Option.isSome_iff_exists.mp (or_self_iff.mp hsome)
    exact hshown f hf hf
  · by_cases hsome : found.isSome = true ∨ found'.isSome = true
    · exact hsame (h hsome)
    · simp only [not_or, Bool.not_eq_true, Option.isSome_eq_false_iff, Option.isNone_iff_eq_none]
        at hsome
      rw [hsome.1, hsome.2]

/-- A node has a finding exactly if one of all findings names it. -/
theorem eq_some_iff_mem (hg : Function.Injective g.name) {judged : Fin g.order → Option Finding}
    (hnode : ∀ v, ∀ f ∈ judged v, f.node = g.name v) (v : Fin g.order) (f : Finding) :
    judged v = some f ↔ f ∈ g.vertices.filterMap judged ∧ f.node = g.name v := by
  constructor
  · exact fun hf => ⟨List.mem_filterMap.mpr ⟨v, List.mem_finRange v, hf⟩, hnode v f hf⟩
  · rintro ⟨hf, hname⟩
    obtain ⟨w, -, hw⟩ := List.mem_filterMap.mp hf
    obtain rfl : w = v := hg ((hnode w f hw).symm.trans hname)
    exact hw

theorem filterMap_eq_iff (hg : Function.Injective g.name)
    {judged judged' : Fin g.order → Option Finding} {Same : Fin g.order → Prop}
    (h : ∀ v, Compare (g.name v) (judged v) (judged' v) (Same v)) :
    g.vertices.filterMap judged = g.vertices.filterMap judged' ↔
      ∀ v, (∃ f ∈ g.vertices.filterMap judged, f.node = g.name v) ∨
        (∃ f ∈ g.vertices.filterMap judged', f.node = g.name v) → Same v := by
  have hmem := eq_some_iff_mem hg fun v => (h v).node
  have hmem' := eq_some_iff_mem hg fun v => (h v).node'
  have hsame : g.vertices.filterMap judged = g.vertices.filterMap judged' ↔
      ∀ v, judged v = judged' v := by
    constructor
    · intro hsame v
      refine Option.ext fun f => ?_
      rw [hmem, hmem', hsame]
    · exact fun hsame => congrArg (List.filterMap · g.vertices) (funext hsame)
  rw [hsame]
  refine forall_congr' fun v => ?_
  simp only [← hmem, ← hmem', ← Option.isSome_iff_exists]
  exact (h v).eq_iff

end Detection

open Detection (Compare)

namespace GodObject

variable {g : Graph} {t : Thresholds} {ranks : Scores Float}

theorem About.rank_eq {node : Node} {rank rank' : Float} {f : Finding} (h : About node rank f)
    (h' : About node rank' f) : rank = rank' := by
  obtain ⟨_, _, _, _, hevidence⟩ := h.rank
  obtain ⟨_, _, _, _, hevidence'⟩ := h'.rank
  have hsame := hevidence.symm.trans hevidence'
  simp only [Value.record.injEq, List.cons.injEq, Prod.mk.injEq, true_and, and_true,
    Value.float.injEq] at hsame
  exact hsame.1.2.2.2

theorem judged_of_none {M : Measures} {v : Fin g.order} (h : severityAt M t v = .ok none) :
    judged g M t v = .ok none := by
  unfold judged
  rw [h]
  rfl

theorem judged_of_some {M : Measures} {v : Fin g.order} {severity : Severity} {f : Finding}
    (h : severityAt M t v = .ok (some severity)) (hranks : M.pagerank = .ok ranks)
    (hf : report t (g.nodeAt v) severity (figures M ranks v) = .ok f) :
    judged g M t v = .ok (some f) := by
  unfold judged
  rw [h, hranks]
  exact congrArg (· >>= fun f => .ok (some f)) hf

/-- Whether there is a finding does not depend on the ranks; what it shows does. -/
theorem judged_compare (ht : t.Accepted) (ranks ranks' : Scores Float)
    (communities communities' : Except Failure (List CodeCommunity)) (v : Fin g.order) :
    ∃ found found', judged g (g.measures (.ok ranks) communities) t v = .ok found ∧
      judged g (g.measures (.ok ranks') communities') t v = .ok found' ∧
      Compare (g.name v) found found' (ranks.at v = ranks'.at v) := by
  let M := g.measures (.ok ranks) communities
  let M' := g.measures (.ok ranks') communities'
  have hsame : severityAt M' t v = severityAt M t v := rfl
  obtain ⟨severity, hseverity, -⟩ := severityAt_gives (M := M) ht v
  cases severity with
  | none =>
    refine ⟨none, none, judged_of_none hseverity, judged_of_none (hsame.trans hseverity), ?_⟩
    exact .of_shown (by simp) (by simp) (fun f hf => nomatch hf) fun _ => rfl
  | some severity =>
    obtain ⟨f, hf, habout⟩ := report_gives ht (g.nodeAt v) severity (figures M ranks v)
    obtain ⟨f', hf', habout'⟩ := report_gives ht (g.nodeAt v) severity (figures M' ranks' v)
    refine ⟨some f, some f', judged_of_some hseverity rfl hf,
      judged_of_some (hsame.trans hseverity) rfl hf', .of_shown ?_ ?_ ?_ fun hrank => ?_⟩
    · rintro _ ⟨⟩
      exact habout.node
    · rintro _ ⟨⟩
      exact habout'.node
    · rintro _ ⟨⟩ ⟨⟩
      exact habout.rank_eq habout'
    · have hfigures : figures M ranks v = figures M' ranks' v := congrArg (Figures.mk _ _ _ _) hrank
      exact congrArg some (Except.ok.inj (hf.symm.trans (hfigures ▸ hf')))

end GodObject

namespace Shotgun

variable {g : Graph} {t : Thresholds} {d : Nat} {communities communities' : List CodeCommunity}
  {cycles : List Finding}

theorem impactAt_injective {v : Fin g.order} {affected affected' : List Value}
    (h : (impactAt g d v affected).toValue = (impactAt g d v affected').toValue) :
    affected = affected' := by
  simpa [ImpactIn.toValue, ImpactIn.toFields, impactAt] using h

theorem impact_comesTo (hs : Detection.Setting g t d cycles) {v : Fin g.order}
    {affected : List Value} (h : affectedAt g d communities v = .ok affected) :
    (g.impact (g.name v) (query t communities)).ComesTo (.ok (impactAt g d v affected)) := by
  have hvertex := hs.plain.valid.vertex?_name v
  have hfind := Graph.find_eq_ok.mpr ⟨hs.plain.valid.scalar_of_vertex? hvertex, hvertex⟩
  have himpact := impactOf_comesTo hs.plain.valid hs.plain.closed
    (hs.accepted.impactDepth.checkBudget_eq "depth") hs.depth communities v
  rw [h] at himpact
  unfold Graph.impact Graph.impactIn
  rw [hfind]
  exact himpact

theorem judged_compare (hs : Detection.Setting g t d cycles)
    (hnumbered : ∀ c ∈ communities, Graph.Numbered c.membership)
    (hnumbered' : ∀ c ∈ communities', Graph.Numbered c.membership)
    (ranks ranks' : Except Failure (Scores Float)) (journal : Journal) (v : Fin g.order) :
    ∃ found found', judged g d (g.measures ranks (.ok communities)) t v = .ok found ∧
      judged g d (g.measures ranks' (.ok communities')) t v = .ok found' ∧
      Compare (g.name v) found found'
        ((g.impact (g.name v) (query t communities)).outcome journal
          = (g.impact (g.name v) (query t communities')).outcome journal) := by
  obtain ⟨affected, haffected, -⟩ := affectedAt_gives (g := g) (d := d) hnumbered v
  obtain ⟨affected', haffected', -⟩ := affectedAt_gives (g := g) (d := d) hnumbered' v
  obtain ⟨found, hfound, habout⟩ :=
    finding?_gives hs.accepted (g.nodeAt v) (impactAt g d v affected)
  obtain ⟨found', hfound', habout'⟩ :=
    finding?_gives hs.accepted (g.nodeAt v) (impactAt g d v affected')
  have hjudged : judged g d (g.measures ranks (.ok communities)) t v = .ok found := by
    change affectedAt g d communities v >>= findingAt g d t v = _
    rw [haffected]
    exact hfound
  have hjudged' : judged g d (g.measures ranks' (.ok communities')) t v = .ok found' := by
    change affectedAt g d communities' v >>= findingAt g d t v = _
    rw [haffected']
    exact hfound'
  refine ⟨found, found', hjudged, hjudged', ?_⟩
  rw [impact_comesTo hs haffected, impact_comesTo hs haffected']
  refine .of_shown (fun f hf => (habout f hf).node) (fun f hf => (habout' f hf).node) ?_ ?_
  · intro f hf hf'
    obtain ⟨_, hevidence⟩ := (habout f hf).impact
    obtain ⟨_, hevidence'⟩ := (habout' f hf').impact
    have hsame := hevidence.symm.trans hevidence'
    simp only [Value.record.injEq, List.cons.injEq, Prod.mk.injEq, true_and] at hsame
    rw [impactAt_injective hsame.1]
  · intro hsame
    rw [Except.ok.injEq] at hsame
    rw [hsame] at hfound
    exact Except.ok.inj (hfound.symm.trans hfound')

end Shotgun

/-! ## Two runs of all detectors -/

/-- The ranks and the communities that findings may show. -/
structure Backdrop where
  ranks : Scores Float
  communities : List CodeCommunity

namespace Backdrop

variable {g : Graph} {t : Thresholds} {d : Nat} {cycles : List Finding} {b b' : Backdrop}

def measures (b : Backdrop) (g : Graph) : Measures :=
  g.measures (.ok b.ranks) (.ok b.communities)

/-- What a finding about a node would show is the same against both. -/
def ShowSame (g : Graph) (t : Thresholds) (journal : Journal) (b b' : Backdrop) (v : Fin g.order) :
    Smell → Prop
  | .godObject => b.ranks.at v = b'.ranks.at v
  | .cyclicDependencies => True
  | .shotgunSurgery =>
    (g.impact (g.name v) (Shotgun.query t b.communities)).outcome journal
      = (g.impact (g.name v) (Shotgun.query t b'.communities)).outcome journal

theorem found_compare (hs : Detection.Setting g t d cycles)
    (hb : ∀ c ∈ b.communities, Graph.Numbered c.membership)
    (hb' : ∀ c ∈ b'.communities, Graph.Numbered c.membership) (journal : Journal) (smell : Smell) :
    ∃ found found', Detection.found g d (b.measures g) t cycles smell = .ok found ∧
      Detection.found g d (b'.measures g) t cycles smell = .ok found' ∧
      (found = found' ↔ ∀ v, (∃ f ∈ found, f.node = g.name v) ∨ (∃ f ∈ found', f.node = g.name v) →
        ShowSame g t journal b b' v smell) := by
  have hname := hs.plain.valid.name_injective
  cases smell with
  | godObject =>
    choose judged judged' hjudged hjudged' hcompare using
      GodObject.judged_compare (g := g) hs.accepted b.ranks b'.ranks (.ok b.communities)
        (.ok b'.communities)
    exact ⟨_, _, Gives.filterMapM_eq_ok fun v _ => hjudged v,
      Gives.filterMapM_eq_ok fun v _ => hjudged' v, Detection.filterMap_eq_iff hname hcompare⟩
  | cyclicDependencies => exact ⟨cycles, cycles, rfl, rfl, by simp [ShowSame]⟩
  | shotgunSurgery =>
    choose judged judged' hjudged hjudged' hcompare using
      Shotgun.judged_compare hs hb hb' (.ok b.ranks) (.ok b'.ranks) journal
    exact ⟨_, _, Gives.filterMapM_eq_ok fun v _ => hjudged v,
      Gives.filterMapM_eq_ok fun v _ => hjudged' v, Detection.filterMap_eq_iff hname hcompare⟩

/-- Findings against two backdrops are the same exactly if every node they name shows the same. -/
theorem findings_compare (hs : Detection.Setting g t d cycles)
    (hb : ∀ c ∈ b.communities, Graph.Numbered c.membership)
    (hb' : ∀ c ∈ b'.communities, Graph.Numbered c.membership) (journal : Journal)
    (requested : List Smell) :
    ∃ findings findings', Detection.findings g d (b.measures g) t cycles requested = .ok findings ∧
      Detection.findings g d (b'.measures g) t cycles requested = .ok findings' ∧
      (findings = findings' ↔ ∀ smell v, findings.Name smell (g.name v) ∨
        findings'.Name smell (g.name v) → ShowSame g t journal b b' v smell) := by
  choose found found' hfound hfound' hcompare using found_compare hs hb hb' journal
  refine ⟨requested.map fun smell => (smell, found smell),
    requested.map fun smell => (smell, found' smell), ?_, ?_, ?_⟩
  · refine Gives.mapM_eq_ok fun smell _ => ?_
    rw [hfound]
    rfl
  · refine Gives.mapM_eq_ok fun smell _ => ?_
    rw [hfound']
    rfl
  · rw [List.map_inj_left]
    simp only [Findings.name_map, Prod.mk.injEq, true_and, hcompare, ← and_or_left, and_imp]
    exact forall_congr' fun smell => forall_comm

structure Of (b : Backdrop) (g : Graph) (p : PageRank.Settings) (algorithm rounds : Value) : Prop where
  ranks : (g.pagerank p).ComesTo (.ok b.ranks)
  communities : (g.communities algorithm rounds).ComesTo (.ok b.communities)

theorem exists_of (hg : g.Plain) {p : PageRank.Settings} (hp : p.Accepted)
    (hranked : g.order = 0 ∨ p.maxIterations.isWhole = true) {algorithm : CommunityAlgorithm}
    {rounds : Value} (hrounds : Validation.NotBelow 1 rounds)
    (hwhole : algorithm = .labelPropagation → rounds.isWhole = true) :
    ∃ b : Backdrop, b.Of g p (Tagged.value algorithm) rounds := by
  obtain ⟨_, hranks, hranksIf⟩ := hg.pagerank_comesTo hp
  obtain ⟨_, hcommunities, hcommunitiesIf⟩ := hg.communities_comesTo algorithm hrounds
  obtain ⟨ranks, rfl, -⟩ := hranksIf.answers hranked
  obtain ⟨communities, rfl, -⟩ := hcommunitiesIf.answers hwhole
  exact ⟨⟨ranks, communities⟩, hranks, hcommunities⟩

theorem ShowSame.refl (t : Thresholds) (journal : Journal) (b : Backdrop) (v : Fin g.order)
    (smell : Smell) : ShowSame g t journal b b v smell := by
  cases smell with
  | godObject => rfl
  | cyclicDependencies => trivial
  | shotgunSurgery => rfl

theorem Of.eq {p : PageRank.Settings} {algorithm rounds rounds' : Value}
    (h : b.Of g p algorithm rounds) (h' : b'.Of g p algorithm rounds')
    (hrounds : algorithm = .str "louvain" ∨ rounds = rounds') : b = b' := by
  have hsame : g.communities algorithm rounds = g.communities algorithm rounds' := by
    rcases hrounds with rfl | rfl <;> rfl
  have hranks := Except.ok.inj ((h.ranks .empty).symm.trans (h'.ranks .empty))
  have hcommunities := h.communities .empty
  rw [hsame, h'.communities .empty, Except.ok.injEq] at hcommunities
  obtain ⟨ranks, communities⟩ := b
  obtain ⟨ranks', communities'⟩ := b'
  exact congrArg₂ Backdrop.mk hranks hcommunities.symm

theorem Of.numbered {p : PageRank.Settings} {algorithm rounds : Value}
    (h : b.Of g p algorithm rounds) (hv : g.Valid) :
    ∀ c ∈ b.communities, Graph.Numbered c.membership :=
  Graph.numbered_of_communities hv (h.communities .empty)

end Backdrop

namespace Analyzer

variable {a : Analyzer} {g : Graph} {algorithm : CommunityAlgorithm} {t : Thresholds} {d : Nat}
  {cycles : List Finding} {requested : List Smell} {b : Backdrop}

/-- A detection on its own ranks and finds communities by default. -/
theorem Works.detect_comesTo (h : a.Works g algorithm t d cycles requested)
    (hb : b.Of g .default (Tagged.value algorithm) Graph.defaultRounds) :
    (a.detect g .null .null).ComesTo
      (Detection.findings g d (b.measures g) t cycles requested) := by
  have hthresholds : (liftM (a.thresholdsFor .null) : Logged Thresholds).ComesTo (.ok t) := by
    change (liftM a.config.detectors.thresholds.read : Logged Thresholds).ComesTo _
    rw [h.thresholds]
    exact .lift _
  have halgorithm : (liftM a.communityAlgorithm : Logged CommunityAlgorithm).ComesTo
      (.ok algorithm) := by
    rw [h.communityAlgorithm_eq]
    exact .lift _
  refine hthresholds.andThen (halgorithm.andThen ?_)
  have hM : (b.measures g).Of g
      { algorithm := Tagged.value algorithm, workers := a.config.centrality.maxWorkers } :=
    h.setting.plain.measures_of h.accepted.centrality.maxWorkers rfl hb.ranks hb.communities
  exact (g.detectSharing_comesTo hM h.setting h.requested).alone

theorem smells_of_surveyed {M : Measures} {o : Overview} {smells : Except Failure Findings}
    {report : Report} (h : a.surveyed M o smells = .ok report) : smells = .ok report.smells := by
  obtain ⟨_, -, h⟩ := bind_eq_ok.mp h
  obtain ⟨found, hfound, h⟩ := bind_eq_ok.mp h
  obtain ⟨_, -, h⟩ := bind_eq_ok.mp h
  obtain ⟨_, -, h⟩ := bind_eq_ok.mp h
  obtain ⟨_, -, h⟩ := bind_eq_ok.mp h
  obtain ⟨_, -, h⟩ := bind_eq_ok.mp h
  obtain rfl := Except.ok.inj h
  exact hfound

/-- A full analysis finds smells against ranks and communities as configured. -/
theorem Works.smells_of_fullAnalysis (h : a.Works g algorithm t d cycles requested)
    (hb : b.Of g a.pagerankSettings (Tagged.value algorithm) a.config.communities.maxIterations)
    {journal : Journal} {report : Report} (hreport : (a.fullAnalysis g).outcome journal = .ok report) :
    Detection.findings g d (b.measures g) t cycles requested = .ok report.smells := by
  obtain ⟨r, hr, hrIf⟩ := h.setting.plain.communities_comesTo algorithm h.accepted.rounds
  have hcommunities : r = .ok b.communities := (hr .empty).symm.trans (hb.communities .empty)
  obtain ⟨-, groups, hgroups, -⟩ := hrIf.gives_of_ok hcommunities
  obtain ⟨o, ho⟩ := h.setting.plain.exists_overview (M := b.measures g) fun cs hcs =>
    ⟨groups, Except.ok.inj hcs ▸ hgroups⟩
  have hM := h.measures_of hb.ranks hb.communities
  exact smells_of_surveyed ((h.fullAnalysis_comesTo hM ho journal).symm.trans hreport)

theorem Works.smells_compare {b' : Backdrop} (h : a.Works g algorithm t d cycles requested)
    (hb : b.Of g a.pagerankSettings (Tagged.value algorithm) a.config.communities.maxIterations)
    (hb' : b'.Of g .default (Tagged.value algorithm) Graph.defaultRounds) {journal : Journal}
    {report : Report} (hreport : (a.fullAnalysis g).outcome journal = .ok report)
    {findings : Findings} (hfindings : (a.detect g .null .null).outcome journal = .ok findings) :
    report.smells.toValue = findings.toValue ↔
      ∀ smell v, report.smells.Name smell (g.name v) ∨ findings.Name smell (g.name v) →
        b.ShowSame g t journal b' v smell := by
  obtain ⟨found, found', hfound, hfound', hcompare⟩ := Backdrop.findings_compare h.setting
    (hb.numbered h.setting.plain.valid) (hb'.numbered h.setting.plain.valid) journal requested
  rw [h.smells_of_fullAnalysis hb hreport, Except.ok.injEq] at hfound
  rw [← h.detect_comesTo hb' journal, hfindings, Except.ok.injEq] at hfound'
  subst hfound hfound'
  rw [Findings.toValue_injective.eq_iff]
  exact hcompare

/-- The smells that a full analysis reports are those of a detection on its own exactly if every
node that one of them names shows the same against the ranks and communities of either. -/
theorem smells_agree_iff {c : Config} {warnings : List String} (hc : c.validate = .ok warnings)
    (hg : g.Plain) (journal : Journal) :
    ∃ t findings, ∃ b' : Backdrop, c.detectors.thresholds = .known t ∧
      ((Analyzer.mk c).detect g .null .null).outcome journal = .ok findings ∧
      b'.Of g .default c.communities.algorithm Graph.defaultRounds ∧
      (c.CountsWhole g → ∃ report, ∃ b : Backdrop,
        ((Analyzer.mk c).fullAnalysis g).outcome journal = .ok report ∧
        b.Of g (Analyzer.mk c).pagerankSettings c.communities.algorithm
          c.communities.maxIterations ∧
        (report.smells.toValue = findings.toValue ↔
          ∀ smell v, report.smells.Name smell (g.name v) ∨ findings.Name smell (g.name v) →
            b.ShowSame g t journal b' v smell) ∧
        ((Analyzer.mk c).pagerankSettings = .default →
          c.communities.algorithm = .str "louvain" ∨
            c.communities.maxIterations = Graph.defaultRounds →
          report.smells.toValue = findings.toValue)) := by
  have haccepted := Config.accepted_of_validate hc
  obtain ⟨algorithm, t, d, cycles, requested, hworks⟩ := exists_works (a := ⟨c⟩) hg haccepted
  have halgorithm : c.communities.algorithm = Tagged.value algorithm := hworks.algorithm
  have hrounds : Validation.NotBelow 1 Graph.defaultRounds := ⟨rfl, rfl⟩
  obtain ⟨b', hb'⟩ := Backdrop.exists_of hg PageRank.Settings.accepted_default (.inr rfl) hrounds
    fun _ : algorithm = .labelPropagation => rfl
  obtain ⟨findings, hfindings⟩ :=
    (Detection.findings_failsOnlyAs (M := b'.measures g) hworks.setting rfl
      (hb'.numbered hg.valid) requested).gives rfl
  have hdetect := (hworks.detect_comesTo hb' journal).trans hfindings
  refine ⟨t, findings, b', hworks.thresholds, hdetect, ?_, fun hwhole => ?_⟩
  · rw [halgorithm]
    exact hb'
  · obtain ⟨hpropagated, hranked, -⟩ := (countsWhole_iff (a := ⟨c⟩) hworks.algorithm).mpr hwhole
    obtain ⟨b, hb⟩ := Backdrop.exists_of hg hworks.pagerankSettings_accepted hranked
      haccepted.rounds hpropagated
    obtain ⟨r, hr, hrIf⟩ := fullAnalysis_countsIf (a := ⟨c⟩) hg haccepted
    obtain ⟨report, rfl, -⟩ := hrIf.answers hwhole
    have hcompare := hworks.smells_compare hb hb' (hr journal) hdetect
    rw [← halgorithm] at hb hb'
    refine ⟨report, b, hr journal, hb, hcompare, fun hp hrounds => ?_⟩
    rw [hp] at hb
    obtain rfl := hb.eq hb' hrounds
    exact hcompare.mpr fun smell v _ => .refl t journal b v smell

end Analyzer

/-! ## A damping of its own -/

/-- God objects, with ranks that are not passed along edges. -/
def Config.undamped : Config where
  centrality := { damping := .float 0 }
  detectors := { enabled := .list [.str "god_object"] }

namespace Analyzer

theorem undamped_validate : Config.undamped.validate = .ok [] :=
  eq_ok_of_toOption (by decide +kernel)

theorem undamped_countsWhole : Config.undamped.CountsWhole Graph.looped :=
  ⟨rfl, fun _ => rfl, fun _ => rfl⟩

theorem smells_agree_iff_undamped :
    Config.undamped.validate = .ok [] ∧ Graph.looped.Plain ∧
      ∃ t findings report, ∃ b b' : Backdrop,
        ((Analyzer.mk .undamped).detect Graph.looped .null .null).outcome .empty = .ok findings ∧
        b'.Of Graph.looped .default (.str "louvain") Graph.defaultRounds ∧
        ((Analyzer.mk .undamped).fullAnalysis Graph.looped).outcome .empty = .ok report ∧
        b.Of Graph.looped (Analyzer.mk .undamped).pagerankSettings (.str "louvain")
          Graph.defaultRounds ∧
        (report.smells.toValue = findings.toValue ↔
          ∀ smell v, report.smells.Name smell (Graph.looped.name v) ∨
            findings.Name smell (Graph.looped.name v) →
              b.ShowSame Graph.looped t .empty b' v smell) := by
  obtain ⟨t, findings, b', -, hfindings, hb', hwhole⟩ :=
    smells_agree_iff undamped_validate Graph.looped_plain .empty
  obtain ⟨report, b, hreport, hb, hagree, -⟩ := hwhole undamped_countsWhole
  exact ⟨undamped_validate, Graph.looped_plain, t, findings, report, b, b', hfindings, hb', hreport,
    hb, hagree⟩

theorem undamped_detect : ∃ findings,
    ((Analyzer.mk .undamped).detect Graph.looped .null .null).outcome .empty = .ok findings ∧
      findings.Name .godObject (.str "a") := by
  have hnamed : (((Analyzer.mk .undamped).detect Graph.looped .null .null).outcome
      .empty).toOption.map (fun findings => findings.any fun entry =>
        entry.1 == .godObject && entry.2.any fun f => (Value.str "a").same f.node) = some true := by
    decide +kernel
  obtain ⟨findings, hfindings, hany⟩ := Option.map_eq_some_iff.mp hnamed
  obtain ⟨⟨smell, found⟩, hentry, hfound⟩ := List.any_eq_true.mp hany
  obtain ⟨hsmell, hfound⟩ := (Bool.and_eq_true _ _).mp hfound
  obtain ⟨f, hf, hnode⟩ := List.any_eq_true.mp hfound
  obtain rfl : smell = .godObject := eq_of_beq hsmell
  exact ⟨findings, eq_ok_of_toOption hfindings, found, hentry, f, hf,
    Value.eq_of_same_of_isText rfl hnode⟩

theorem rank_of_outcome {p : PageRank.Settings} {x : ℚ} {algorithm rounds : Value} {b : Backdrop}
    (h : ((Graph.looped.pagerank p).outcome .empty).toOption.map
      (fun ranks => (Value.float (ranks.at 0)).rational?) = some (some x))
    (hb : b.Of Graph.looped p algorithm rounds) :
    (Value.float (b.ranks.at 0)).rational? = some x := by
  rw [hb.ranks .empty] at h
  exact Option.some.inj h

/-- Against a damping that is configured, god objects show ranks that detection does not know. -/
theorem undamped_smells_differ :
    Config.undamped.validate = .ok [] ∧ Graph.looped.Plain ∧ ∃ report findings,
      ((Analyzer.mk .undamped).fullAnalysis Graph.looped).outcome .empty = .ok report ∧
      ((Analyzer.mk .undamped).detect Graph.looped .null .null).outcome .empty = .ok findings ∧
      report.smells.toValue ≠ findings.toValue := by
  have haccepted := Config.accepted_of_validate undamped_validate
  obtain ⟨algorithm, t, d, cycles, requested, hworks⟩ :=
    exists_works (a := ⟨.undamped⟩) Graph.looped_plain haccepted
  obtain ⟨r, hr, hrIf⟩ := fullAnalysis_countsIf (a := ⟨.undamped⟩) Graph.looped_plain haccepted
  obtain ⟨report, rfl, -⟩ := hrIf.answers undamped_countsWhole
  obtain ⟨findings, hfindings, hnamed⟩ := undamped_detect
  refine ⟨undamped_validate, Graph.looped_plain, report, findings, hr .empty, hfindings,
    fun hsame => ?_⟩
  have hrounds : Validation.NotBelow 1 Graph.defaultRounds := ⟨rfl, rfl⟩
  obtain ⟨b, hb⟩ := Backdrop.exists_of Graph.looped_plain hworks.pagerankSettings_accepted
    (.inr rfl) hrounds fun _ : algorithm = .labelPropagation => rfl
  obtain ⟨b', hb'⟩ := Backdrop.exists_of Graph.looped_plain PageRank.Settings.accepted_default
    (.inr rfl) hrounds fun _ : algorithm = .labelPropagation => rfl
  have hrank := rank_of_outcome (x := 1 / 2) (by decide +kernel) hb
  have hrank' := rank_of_outcome (x := 1351079888211149 / 18014398509481984) (by decide +kernel) hb'
  have hshown : b.ranks.at 0 = b'.ranks.at 0 :=
    (hworks.smells_compare hb hb' (hr .empty) hfindings).mp hsame .godObject ⟨0, by decide⟩
      (.inr hnamed)
  rw [hshown, hrank', Option.some.injEq] at hrank
  norm_num at hrank

end Analyzer

end CodeGraph
