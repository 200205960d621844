import CodeGraph.Proofs.Centrality.PageRank
import CodeGraph.Proofs.Impact.Affected
import CodeGraph.Proofs.Smell.Detection

/-!
# The measures of a plain snapshot

Under settings that validation accepts, degrees and betweenness are computed
whatever the snapshot, and the rank and the communities unless the rounds they
may take are no whole number: a rank with any node to rank, and communities by
label propagation, need a count (`pagerank_comesTo`, `communities_comesTo`).
The failure is the same in both cases (`Failure.fraction`).
-/

namespace CodeGraph

open Validation (NotBelow InUnit)

variable {α β γ : Type}

/-! ## Computations that may fail in one way -/

def Failure.fraction : Failure :=
  .wrongType (.notInteger "float")

/-- The computation fails only if another one does, and in the same way. -/
def FailsOnlyAs (r : Except Failure γ) (x : Except Failure α) : Prop :=
  ∀ failure, x = .error failure → r = .error failure

namespace FailsOnlyAs

variable {r : Except Failure γ}

theorem refl (r : Except Failure γ) : FailsOnlyAs r r :=
  fun _ h => h

theorem of_gives {x : Except Failure α} {P : α → Prop} (h : Gives x P) : FailsOnlyAs r x := by
  obtain ⟨a, rfl, -⟩ := h
  exact fun _ hfails => nomatch hfails

theorem ok (a : α) : FailsOnlyAs r (.ok a) :=
  fun _ h => nomatch h

theorem gives {x : Except Failure α} (h : FailsOnlyAs r x) {c : γ} (hr : r = .ok c) :
    ∃ a, x = .ok a := by
  cases x with
  | ok a => exact ⟨a, rfl⟩
  | error failure => cases hr.symm.trans (h failure rfl)

theorem bind {x : Except Failure α} {f : α → Except Failure β} (h : FailsOnlyAs r x)
    (hf : ∀ a, x = .ok a → FailsOnlyAs r (f a)) : FailsOnlyAs r (x >>= f) := by
  cases x with
  | ok a => exact hf a rfl
  | error failure =>
    exact fun other hother => h other (congrArg Except.error (Except.error.inj hother))

theorem mapM {xs : List α} {f : α → Except Failure β} (h : ∀ x ∈ xs, FailsOnlyAs r (f x)) :
    FailsOnlyAs r (xs.mapM f) := by
  induction xs with
  | nil => exact ok []
  | cons x rest ih =>
    rw [List.mapM_cons]
    refine (h x (List.mem_cons_self ..)).bind fun y _ => ?_
    exact (ih fun z hz => h z (List.mem_cons_of_mem _ hz)).bind fun ys _ => ok (y :: ys)

theorem filterMapM {xs : List α} {f : α → Except Failure (Option β)}
    (h : ∀ x ∈ xs, FailsOnlyAs r (f x)) : FailsOnlyAs r (xs.filterMapM f) := by
  induction xs with
  | nil => exact ok []
  | cons x rest ih =>
    have hrest := ih fun z hz => h z (List.mem_cons_of_mem _ hz)
    rw [List.filterMapM_cons]
    refine (h x (List.mem_cons_self ..)).bind fun y _ => ?_
    cases y with
    | none => exact hrest
    | some y => exact hrest.bind fun ys _ => ok (y :: ys)

end FailsOnlyAs

/-- The computation answers under a condition, and fails for want of a count otherwise. -/
structure CountsIf (C : Prop) (x : Except Failure α) (P : α → Prop) : Prop where
  answers : C → Gives x P
  fails : ¬C → x = .error .fraction

namespace CountsIf

variable {C D : Prop} {x : Except Failure α} {P : α → Prop}

theorem of_gives (h : Gives x P) : CountsIf True x P :=
  ⟨fun _ => h, fun h => absurd trivial h⟩

theorem congr (h : CountsIf C x P) (hiff : C ↔ D) : CountsIf D x P :=
  ⟨fun hd => h.answers (hiff.mpr hd), fun hd => h.fails fun hc => hd (hiff.mp hc)⟩

theorem gives_of_ok (h : CountsIf C x P) {a : α} (ha : x = .ok a) : C ∧ P a := by
  by_cases hc : C
  · obtain ⟨a', ha', hP⟩ := h.answers hc
    obtain rfl := Except.ok.inj (ha.symm.trans ha')
    exact ⟨hc, hP⟩
  · rw [h.fails hc] at ha
    cases ha

/-- What comes after has a condition of its own. -/
theorem bind {f : α → Except Failure β} {Q : β → Prop} (h : CountsIf C x P)
    (hf : ∀ a, x = .ok a → P a → CountsIf D (f a) Q) : CountsIf (C ∧ D) (x >>= f) Q := by
  by_cases hc : C
  · obtain ⟨a, rfl, ha⟩ := h.answers hc
    have hrest := hf a rfl ha
    exact ⟨fun hcd => hrest.answers hcd.2, fun hnot => hrest.fails fun hd => hnot ⟨hc, hd⟩⟩
  · refine ⟨fun hcd => absurd hcd.1 hc, fun _ => ?_⟩
    rw [h.fails hc]
    rfl

/-- What comes before fails only as something else does. -/
theorem after {y : Except Failure β} {r : Except Failure γ} {R : γ → Prop}
    {f : β → Except Failure α} (hy : FailsOnlyAs r y) (hr : CountsIf C r R)
    (hf : ∀ b, y = .ok b → CountsIf (C ∧ D) (f b) P) : CountsIf (C ∧ D) (y >>= f) P := by
  cases y with
  | ok b => exact hf b rfl
  | error failure =>
    have hfails := hy failure rfl
    refine ⟨fun hcd => ?_, fun _ => ?_⟩
    · obtain ⟨c, hc, -⟩ := hr.answers hcd.1
      cases hfails.symm.trans hc
    · by_cases hc : C
      · obtain ⟨c, hc, -⟩ := hr.answers hc
        cases hfails.symm.trans hc
      · obtain rfl := Except.error.inj (hfails.symm.trans (hr.fails hc))
        rfl

end CountsIf

/-! ## Ranks -/

namespace PageRank.Settings

/-- Settings of the rank that validation accepts. -/
structure Accepted (p : Settings) : Prop where
  damping : InUnit p.damping
  maxIterations : NotBelow 1 p.maxIterations
  tolerance : p.tolerance.isNumber = true

theorem zero_rational? : (Value.float 0).rational? = some 0 := by decide +kernel

theorem one_rational? : (Value.float 1).rational? = some 1 := by decide +kernel

theorem accepted_default : default.Accepted := by
  have hdamping : default.damping.rational? = some (7656119366529843 / 9007199254740992) := by
    decide +kernel
  exact {
    damping := ⟨Value.le_of_rational? zero_rational? hdamping (by norm_num),
      Value.le_of_rational? hdamping one_rational? (by norm_num)⟩
    maxIterations := ⟨rfl, rfl⟩
    tolerance := rfl }

theorem Accepted.readDamping_gives {p : Settings} (h : p.Accepted) :
    Gives p.readDamping fun _ => True := by
  obtain ⟨hzero, hone⟩ := h.damping
  have hnumber := h.damping.isNumber
  have hread : p.readDamping = p.damping.toDouble := by
    unfold readDamping
    rw [hzero, hone]
    rfl
  rw [hread]
  cases hdamping : p.damping with
  | float x => exact Gives.of_ok trivial
  | bool b => exact Gives.of_ok trivial
  | int n =>
    rw [hdamping] at hzero hone
    have hn : (Value.int n).rational? = some (n : ℚ) := rfl
    exact (toDouble_gives hn (Value.le_of_le_ok zero_rational? hn hzero)
      (Value.le_of_le_ok hn one_rational? hone)).imp fun _ _ => trivial
  | _ =>
    rw [hdamping] at hnumber
    cases hnumber

theorem Accepted.checkIterations_eq {p : Settings} (h : p.Accepted) : p.checkIterations = .ok () := by
  unfold checkIterations
  rw [h.maxIterations.notLt]
  rfl

end PageRank.Settings

namespace Graph

variable {g : Graph}

def degrees (g : Graph) (normalize : Bool) : Scores Float :=
  g.score fun v =>
    let degree : Float := Scalar.ofNat ((Index.ofArcs (g.arcs keepAll)).degree v .total)
    if normalize then degreeShare g.order degree else degree

theorem Plain.degree_comesTo (hg : g.Plain) (normalize : Bool) :
    (g.degree (.str "total") normalize).ComesTo (.ok (g.degrees normalize)) := by
  have htotal : Tagged.coerce (.str "total") = .ok DegreeDirection.total := rfl
  unfold degree
  rw [htotal, index_eq_pure hg.valid hg.closed]
  exact fun journal => rfl

theorem score_of_order_eq_zero (h : g.order = 0) (f : Fin g.order → α) : g.score f = [] := by
  rw [score, vertices, List.finRange_eq_nil_iff.mpr h]
  rfl

theorem Plain.betweenness_comesTo (hg : g.Plain) {workers : Value}
    (hworkers : workers = .null ∨ workers.isNumber = true) :
    (g.betweenness workers).ComesTo
      (.ok (g.score ((Index.ofArcs (g.arcs keepAll)).betweenness Float).get)) := by
  have hcompared : workers.truthy = true → Gives (workers.gt (.int 1)) fun _ => True := by
    rcases hworkers with rfl | hnumber
    · exact fun htruthy => nomatch htruthy
    · exact fun _ => Value.gt_gives hnumber rfl
  intro journal
  unfold betweenness betweennessIn
  rw [index_eq_pure hg.valid hg.closed, pure_bind]
  by_cases hempty : g.order = 0
  · rw [if_pos hempty, score_of_order_eq_zero hempty]
    rfl
  · rw [if_neg hempty]
    by_cases htruthy : workers.truthy = true
    · obtain ⟨many, hmany, -⟩ := hcompared htruthy
      rw [if_pos htruthy, hmany]
      rfl
    · rw [if_neg htruthy]
      rfl

/-- A rank is computed if there is nothing to rank or the rounds it may take are a whole number. -/
theorem Plain.pagerank_comesTo (hg : g.Plain) {p : PageRank.Settings} (hp : p.Accepted) :
    ∃ r, (g.pagerank p).ComesTo r ∧
      CountsIf (g.order = 0 ∨ p.maxIterations.isWhole = true) r fun scores =>
        ∃ f, scores = g.score f := by
  obtain ⟨damping, hdamping, -⟩ := hp.readDamping_gives
  obtain ⟨tolerance, htolerance, -⟩ := PageRank.readTolerance_gives hp.tolerance
  unfold pagerank pagerankIn
  simp only [hdamping, hp.checkIterations_eq, htolerance, Logged.lift_ok, pure_bind,
    index_eq_pure hg.valid hg.closed]
  by_cases hempty : g.order = 0
  · rw [if_pos hempty]
    refine ⟨.ok [], fun journal => rfl, CountsIf.congr (.of_gives (Gives.of_ok ?_)) ?_⟩
    · exact ⟨fun _ => 0, (score_of_order_eq_zero hempty _).symm⟩
    · simp [hempty]
  · rw [if_neg hempty]
    cases hlimit : p.maxIterations.asInt? with
    | some k =>
      have hcount : p.roundLimit = .ok k.toNat := by
        unfold PageRank.Settings.roundLimit
        rw [hlimit]
      rw [hcount]
      refine ⟨_, fun journal => rfl, CountsIf.congr (.of_gives (Gives.of_ok ⟨_, rfl⟩)) ?_⟩
      simp [Value.isWhole, hlimit]
    | none =>
      have hcount : p.roundLimit = .error .fraction := by
        unfold PageRank.Settings.roundLimit
        rw [hlimit]
        dsimp only
        rw [Value.typeName_of_asInt?_eq_none hp.maxIterations.isNumber hlimit]
        rfl
      rw [hcount]
      refine ⟨.error .fraction, fun journal => rfl, fun hwhole => ?_, fun _ => rfl⟩
      simp [Value.isWhole, hlimit, hempty] at hwhole

/-! ## Communities -/

theorem groups_of_asInt? {rounds : Value} {k : Int} (hrounds : rounds.asInt? = some k) (hk : 1 ≤ k)
    (algorithm : CommunityAlgorithm) : g.groups algorithm rounds = g.groups algorithm (.int k) := by
  cases algorithm with
  | louvain => rfl
  | labelPropagation =>
    have hlt : decide (k < 1) = false := decide_eq_false (by omega)
    simp only [groups, labelPropagation]
    rw [Value.lt_of_asInt? hrounds, Value.lt_int, hlt, hrounds]
    rfl

/-- The groups that an algorithm finds; only label propagation has to count its rounds. -/
theorem groups_gives_of_whole (hv : g.Valid) (hc : g.Closed) (ha : g.AlikeNamed)
    {algorithm : CommunityAlgorithm} {rounds : Value} (hrounds : NotBelow 1 rounds)
    (hwhole : algorithm = .labelPropagation → rounds.isWhole = true) :
    ∃ groups, Logged.Gives (g.groups algorithm rounds) (· = g.arranged groups) ∧
      (∀ group ∈ groups, group ≠ []) ∧ groups.flatten.Perm g.vertices := by
  cases algorithm with
  | louvain => exact groups_gives hv hc ha .louvain (Int.le_refl 1)
  | labelPropagation =>
    obtain ⟨k, hk⟩ := Option.isSome_iff_exists.mp (hwhole rfl)
    have hpos := hrounds.le_of_asInt? hk
    rw [groups_of_asInt? hk hpos]
    exact groups_gives hv hc ha .labelPropagation hpos

theorem labelPropagation_fails (hv : g.Valid) (hc : g.Closed) (ha : g.AlikeNamed) {rounds : Value}
    (hrounds : NotBelow 1 rounds) (hnot : rounds.asInt? = none) :
    g.labelPropagation rounds = liftM (.error .fraction : Except Failure _) := by
  unfold labelPropagation byName
  rw [hrounds.notLt, index_eq_pure hv hc, ha.sortOn_eq, hnot,
    Value.typeName_of_asInt?_eq_none hrounds.isNumber hnot]
  rfl

/-- Communities are identified unless they are to be found in rounds that are no whole number. -/
theorem Plain.communities_comesTo (hg : g.Plain) (algorithm : CommunityAlgorithm) {rounds : Value}
    (hrounds : NotBelow 1 rounds) :
    ∃ r, (g.communities (Tagged.value algorithm) rounds).ComesTo r ∧
      CountsIf (algorithm = .labelPropagation → rounds.isWhole = true) r fun communities =>
        ∃ groups, g.Describe groups communities ∧ groups.flatten.Perm g.vertices := by
  have hgiven := Validation.coerce_algorithm algorithm
  have ha := hg.named.alikeNamed
  by_cases hwhole : algorithm = .labelPropagation → rounds.isWhole = true
  · obtain ⟨groups, hgroups, hne, hperm⟩ :=
      groups_gives_of_whole hg.valid hg.closed ha hrounds hwhole
    have hdescribed : ∀ entry ∈ (g.arranged groups).zipIdx,
        Gives (g.describeGroup entry.2 entry.1) fun c =>
          c.id = .int entry.2 ∧ c.members = g.names entry.1 := fun entry hentry =>
      describeGroup_answers hg.kind entry.2
        (arranged_ne_nil hne _ (List.fst_mem_of_mem_zipIdx hentry))
    obtain ⟨communities, hcommunities, -⟩ := Gives.mapM hdescribed
    refine ⟨.ok communities, fun journal => ?_, fun _ => Gives.of_ok ?_, fun h => absurd hwhole h⟩
    · rw [outcome_communities hgiven hgroups, hcommunities]
    · exact ⟨g.arranged groups, describe_of_mapM hcommunities,
        (flatten_arranged_perm groups).trans hperm⟩
  · obtain ⟨rfl, hnot⟩ := Classical.not_imp.mp hwhole
    have hnone : rounds.asInt? = none := by simpa [Value.isWhole] using hnot
    refine ⟨.error .fraction, fun journal => ?_, fun h => absurd h hwhole, fun _ => rfl⟩
    unfold communities
    rw [hgiven, Logged.lift_ok, pure_bind, groups,
      labelPropagation_fails hg.valid hg.closed ha hrounds hnone]
    rfl

/-! ## All measures -/

def measures (g : Graph) (ranks : Except Failure (Scores Float))
    (communities : Except Failure (List CodeCommunity)) : Measures where
  degree := g.degrees true
  rawDegree := g.degrees false
  betweennessRaw := g.score ((Index.ofArcs (g.arcs keepAll)).betweenness Float).get
  pagerank := ranks
  communities := communities

theorem Plain.measures_of (hg : g.Plain) {s : MetricSettings}
    (hworkers : s.workers = .null ∨ s.workers.isNumber = true) {p : PageRank.Settings}
    (hp : PageRank.Settings.read s.pagerank = .ok p) {ranks : Except Failure (Scores Float)}
    (hranks : (g.pagerank p).ComesTo ranks) {communities : Except Failure (List CodeCommunity)}
    (hcommunities : (g.communities s.algorithm s.rounds).ComesTo communities) :
    (g.measures ranks communities).Of g s where
  degree := hg.degree_comesTo true
  rawDegree := hg.degree_comesTo false
  betweennessRaw := hg.betweenness_comesTo hworkers
  pagerank := ⟨p, hp, hranks⟩
  communities := hcommunities

end Graph

end CodeGraph
