import Mathlib.Algebra.BigOperators.Fin
import Mathlib.Algebra.Order.Ring.Rat
import Mathlib.Tactic.Ring
import CodeGraph.Proofs.Community.Orderable
import CodeGraph.Proofs.Impact
import CodeGraph.Proofs.Sums

/-!
# What an impact analysis lists, and its scores

Downstream of a node are the nodes at some distance along kept edges, upstream
those at some distance against them, nearer ones first (`Lists`). A node
downstream counts with the edge that enters it first: out of the nodes one step
nearer, in the order in which they are listed, the first edge in the order of
the snapshot (`Weighed`). This edge and the distance are those that the
traversal notes, by `Traversal.first_within` and `Traversal.swept_within`.

The analysis answers exactly if nothing is downstream or the communities of the
snapshot are identified (`impactIn_answers_iff`).
-/

namespace CodeGraph

/-- How strongly an edge of a kind couples its ends, as an exact number. -/
def EdgeKind.weight (kind : EdgeKind) : ℚ :=
  Scalar.ofFloat kind.strength

theorem exists_lookup {γ δ : Type} [Nonempty δ] {key : δ → γ} {items : List δ}
    (h : (items.map key).Nodup) : ∃ find : γ → δ, ∀ item ∈ items, find (key item) = item := by
  classical
  refine ⟨fun c => if h : ∃ item ∈ items, key item = c then h.choose else Classical.arbitrary δ,
    fun item hitem => ?_⟩
  have hex : ∃ item' ∈ items, key item' = key item := ⟨item, hitem, rfl⟩
  dsimp only
  rw [dif_pos hex]
  exact List.inj_on_of_nodup_map h hex.choose_spec.1 hitem hex.choose_spec.2

namespace Graph

open Traversal (Leads)

variable {g : Graph} {id : Value} {s : Fin g.order} {keep : Edge → Bool} {d : Nat}

/-! ## Distances -/

/-- The fewest kept edges on a walk from `u` to `v`. -/
def HopDistance (g : Graph) (keep : Edge → Bool) (u v : Fin g.order) (k : Nat) : Prop :=
  (∃ edges, g.Walk keep u edges v ∧ edges.length = k) ∧
    ∀ edges, g.Walk keep u edges v → k ≤ edges.length

/-- How far a vertex lies from `s`, along the edges or against them. -/
def Away (g : Graph) (keep : Edge → Bool) (forward : Bool) (s v : Fin g.order) (k : Nat) : Prop :=
  if forward then g.HopDistance keep s v k else g.HopDistance keep v s k

theorem distance_iff_hopDistance {u v : Fin g.order} {k : Nat} :
    Distance (Leads ((Index.ofArcs (g.arcs keep)).steps true)) u v k ↔
      g.HopDistance keep u v k := by
  unfold Distance HopDistance
  simp only [hops_iff_walk]
  refine and_congr_right fun _ => ⟨fun h edges hedges => h _ ⟨edges, hedges, rfl⟩, ?_⟩
  rintro h j ⟨edges, hedges, rfl⟩
  exact h edges hedges

theorem distance_iff_away {forward : Bool} {v : Fin g.order} {k : Nat} :
    Distance (Leads ((Index.ofArcs (g.arcs keep)).steps forward)) s v k ↔
      g.Away keep forward s v k := by
  cases forward with
  | true => exact distance_iff_hopDistance
  | false =>
    refine Iff.trans ?_ distance_iff_hopDistance
    unfold Distance
    simp only [hops_backward_iff]

/-! ## Lists -/

/-- The vertices other than `s` at a distance of `1` to `d`, each once and nearer ones first. -/
structure Lists (g : Graph) (keep : Edge → Bool) (forward : Bool) (s : Fin g.order) (d : Nat)
    (vs : List (Fin g.order)) : Prop where
  nodup : vs.Nodup
  mem_iff : ∀ v, v ∈ vs ↔ v ≠ s ∧ ∃ k, 1 ≤ k ∧ k ≤ d ∧ g.Away keep forward s v k
  sorted : vs.Pairwise fun v w =>
    ∀ j k, g.Away keep forward s v j → g.Away keep forward s w k → j ≤ k

theorem lists_reach (keep : Edge → Bool) (forward : Bool) (s : Fin g.order) (d : Nat) :
    g.Lists keep forward s d
      ((Impact.reach (Index.ofArcs (g.arcs keep)) forward s d).map Discovery.vertex) := by
  have hswept := Traversal.swept_within ((Index.ofArcs (g.arcs keep)).steps forward) s d
  obtain ⟨hstart, hnodup⟩ := List.nodup_cons.mp hswept.nodup
  refine ⟨hnodup, fun v => ?_, ?_⟩
  · simp only [← distance_iff_away]
    constructor
    · intro hv
      have hne : v ≠ s := fun h => hstart (h ▸ hv)
      obtain ⟨found, hfound, rfl⟩ := List.mem_map.mp hv
      have hdistance := hswept.exact found hfound
      refine ⟨hne, found.distance, Nat.one_le_iff_ne_zero.mpr fun hzero => ?_,
        hswept.within found hfound, hdistance⟩
      rw [hzero] at hdistance
      exact hne hdistance.eq_of_zero
    · rintro ⟨hne, k, -, hk, hdistance⟩
      have hknown := hswept.complete v k hdistance hk
      exact List.mem_map.mpr ((Traversal.known_iff.mp hknown).resolve_left hne)
  · rw [List.pairwise_map]
    refine hswept.sorted.imp_of_mem fun {a b} ha hb hle j k hj hk => ?_
    rw [(distance_iff_away.mpr hj).unique (hswept.exact a ha),
      (distance_iff_away.mpr hk).unique (hswept.exact b hb)]
    exact hle

theorem map_vertex?_reached (keep : Edge → Bool) (forward : Bool) (s : Fin g.order) (d : Nat) :
    (Impact.reached forward (Impact.reach (Index.ofArcs (g.arcs keep)) forward s d)).map g.vertex?
      = ((Impact.reach (Index.ofArcs (g.arcs keep)) forward s d).map Discovery.vertex).map
        some := by
  unfold Impact.reached
  rw [List.map_map, List.map_map]
  exact List.map_congr_left fun found hfound => vertex?_of_met hfound

/-! ## Scores -/

/-- The kept edges from `u` to `v`, in the order of the snapshot. -/
def edgesInto (g : Graph) (keep : Edge → Bool) (v u : Fin g.order) : List Edge :=
  (g.edges.filter keep).filter fun e => g.vertex? e.source = some u ∧ g.vertex? e.target = some v

/-- The scores weigh the vertices downstream by their distances and by the edges that enter them
first. -/
structure Weighed (g : Graph) (keep : Edge → Bool) (s : Fin g.order) (down : List (Fin g.order))
    (dist : Fin g.order → Nat) (entry : Fin g.order → Edge) (impact : ImpactIn ℚ) : Prop where
  start : dist s = 0
  distance : ∀ v ∈ down, g.HopDistance keep s v (dist v)
  entered : ∀ v ∈ down,
    (((s :: down).filter fun u => dist u + 1 = dist v).flatMap (g.edgesInto keep v)).head?
      = some (entry v)
  direct : impact.direct = ((down.filter fun v => dist v = 1).map fun v => (entry v).kind.weight).sum
  transitive : impact.transitive = (down.map fun v => 1 / (dist v : ℚ) * (entry v).kind.weight).sum

theorem edgesInto_eq (keep : Edge → Bool) (v u : Fin g.order) :
    g.edgesInto keep v u
      = ((((Index.ofArcs (g.arcs keep)).steps true u).map fun step => (u, step)).filter
          (·.2.2 = v)).map (·.2.1.edge) := by
  have hsteps : (Index.ofArcs (g.arcs keep)).steps true u
      = ((g.arcs keep).filter fun arc => arc.source = u).map fun arc => (arc, arc.target) := by
    rw [← Index.out_ofArcs]
    rfl
  rw [hsteps, List.map_map, List.filter_map, List.map_map, List.filter_filter, edgesInto, arcs]
  induction g.edges.filter keep with
  | nil => rfl
  | cons e rest ih =>
    cases harc : g.arc? e with
    | none =>
      have hnone : ¬(g.vertex? e.source = some u ∧ g.vertex? e.target = some v) := by
        rintro ⟨hu, hv⟩
        have hsome : g.arc? e = some ⟨e, u, v⟩ := arc?_eq_some.mpr ⟨rfl, hu, hv⟩
        rw [harc] at hsome
        cases hsome
      rw [List.filterMap_cons_none harc, List.filter_cons_of_neg (by simpa using hnone), ih]
    | some arc =>
      obtain ⟨rfl, hsource, htarget⟩ := arc?_eq_some.mp harc
      rw [List.filterMap_cons_some harc, List.filter_cons, List.filter_cons, ih]
      by_cases hu : arc.source = u <;> by_cases hv : arc.target = v <;>
        simp [hsource, htarget, hu, hv]

theorem flatMap_edgesInto (keep : Edge → Bool) (v : Fin g.order) (us : List (Fin g.order)) :
    us.flatMap (g.edgesInto keep v)
      = ((Traversal.stepsFrom ((Index.ofArcs (g.arcs keep)).steps true) us).filter
          (·.2.2 = v)).map (·.2.1.edge) := by
  induction us with
  | nil => rfl
  | cons u rest ih =>
    unfold Traversal.stepsFrom at ih ⊢
    rw [List.flatMap_cons, List.flatMap_cons, List.filter_append, List.map_append, ih,
      edgesInto_eq]

/-- The vertices at a distance, picked from the list, are a layer of the traversal. -/
theorem filter_eq_layerAt {met : Impact.Reach g.order} {dist : Fin g.order → Nat}
    (hstart : dist s = 0) (hdist : ∀ found ∈ met, dist found.vertex = found.distance)
    (hpos : ∀ found ∈ met, found.distance ≠ 0) (k : Nat) :
    ((s :: met.map Discovery.vertex).filter fun u => dist u = k) = Traversal.layerAt s met k := by
  have hmet : ((met.map Discovery.vertex).filter fun u => dist u = k)
      = (met.filter fun found => found.distance = k).map Discovery.vertex := by
    rw [List.filter_map]
    refine congrArg _ (List.filter_congr fun found hfound => ?_)
    rw [Function.comp_apply, hdist found hfound]
  unfold Traversal.layerAt
  by_cases hk : k = 0
  · have hnone : (met.filter fun found => found.distance = k) = [] :=
      List.filter_eq_nil_iff.mpr fun found hfound => by simpa [hk] using hpos found hfound
    rw [if_pos hk, List.filter_cons_of_pos (by simp [hstart, hk]), hmet, hnone, List.map_nil]
  · rw [if_neg hk, List.filter_cons_of_neg (by simpa [hstart] using Ne.symm hk), hmet]

/-- The traversal notes the distances and the edges that enter first. -/
theorem exists_weighed (keep : Edge → Bool) (s : Fin g.order) (d : Nat) {impact : ImpactIn ℚ}
    (hdirect : impact.direct
      = Impact.directScore ℚ (Impact.reach (Index.ofArcs (g.arcs keep)) true s d))
    (htransitive : impact.transitive
      = Impact.transitiveScore ℚ (Impact.reach (Index.ofArcs (g.arcs keep)) true s d)) :
    ∃ dist entry, g.Weighed keep s
      ((Impact.reach (Index.ofArcs (g.arcs keep)) true s d).map Discovery.vertex) dist entry
      impact := by
  have hswept : Traversal.Swept _ s d (Impact.reach (Index.ofArcs (g.arcs keep)) true s d) :=
    Traversal.swept_within ((Index.ofArcs (g.arcs keep)).steps true) s d
  have hfirst : Traversal.First _ s (Impact.reach (Index.ofArcs (g.arcs keep)) true s d) :=
    Traversal.first_within ((Index.ofArcs (g.arcs keep)).steps true) s d
  generalize Impact.reach (Index.ofArcs (g.arcs keep)) true s d = met at *
  obtain ⟨hstart, hnodup⟩ := List.nodup_cons.mp hswept.nodup
  have : Nonempty (Discovery g.order (Arc g.order)) :=
    ⟨⟨s, s, ⟨specimenEdge "" "" "" .callGraph, s, s⟩, 0⟩⟩
  obtain ⟨find, hfind⟩ := exists_lookup hnodup
  let dist : Fin g.order → Nat := fun v => if v = s then 0 else (find v).distance
  have hzero : dist s = 0 := if_pos rfl
  have hdist : ∀ found ∈ met, dist found.vertex = found.distance := fun found hfound => by
    have hne : found.vertex ≠ s := fun h => hstart (h ▸ List.mem_map_of_mem hfound)
    change (if found.vertex = s then 0 else (find found.vertex).distance) = _
    rw [if_neg hne, hfind found hfound]
  have hpos : ∀ found ∈ met, found.distance ≠ 0 := fun found hfound h => by
    have hdistance := hswept.exact found hfound
    rw [h] at hdistance
    exact hstart (hdistance.eq_of_zero ▸ List.mem_map_of_mem hfound)
  refine ⟨dist, fun v => (find v).via.edge, hzero, ?_, ?_, ?_, ?_⟩
  · refine List.forall_mem_map.mpr fun found hfound => ?_
    rw [hdist found hfound]
    exact distance_iff_hopDistance.mp (hswept.exact found hfound)
  · refine List.forall_mem_map.mpr fun found hfound => ?_
    have hlayer := filter_eq_layerAt hzero hdist hpos (found.distance - 1)
    have hnearer : ((s :: met.map Discovery.vertex).filter fun u => dist u + 1 = dist found.vertex)
        = Traversal.layerAt s met (found.distance - 1) := by
      rw [← hlayer]
      refine List.filter_congr fun u _ => decide_eq_decide.mpr ?_
      have := hpos found hfound
      rw [hdist found hfound]
      omega
    rw [hnearer, flatMap_edgesInto, List.head?_map, List.head?_filter, hfirst found hfound,
      hfind found hfound]
    rfl
  · rw [hdirect, Impact.directScore, sum_rat, List.filter_map, List.map_map]
    refine congrArg List.sum ?_
    have hone : (met.filter ((fun v => decide (dist v = 1)) ∘ Discovery.vertex))
        = met.filter fun found => found.distance = 1 :=
      List.filter_congr fun found hfound => by rw [Function.comp_apply, hdist found hfound]
    rw [hone]
    refine List.map_congr_left fun found hfound => ?_
    rw [Function.comp_apply, hfind found (List.mem_of_mem_filter hfound)]
    rfl
  · rw [htransitive, Impact.transitiveScore, sum_rat, List.map_map]
    refine congrArg List.sum (List.map_congr_left fun found hfound => ?_)
    rw [Function.comp_apply, hfind found hfound, hdist found hfound, one_div, inv_mul_eq_div]
    rfl

/-! ## When there is an answer -/

theorem numbered_of_communities (hv : g.Valid) {given maxRounds : Value} {journal : Journal}
    {communities : List CodeCommunity}
    (h : (g.communities given maxRounds).outcome journal = .ok communities) :
    ∀ c ∈ communities, Numbered c.membership := by
  unfold Graph.communities at h
  obtain ⟨algorithm, _, -, h⟩ := Logged.exists_of_bind_eq_ok h
  obtain ⟨groups, _, -, h⟩ := Logged.exists_of_bind_eq_ok h
  obtain ⟨described, journal', hdescribed, h⟩ := Logged.exists_of_bind_eq_ok h
  obtain ⟨_, _, -, h⟩ := Logged.exists_of_bind_eq_ok h
  obtain rfl : described = communities := Except.ok.inj h
  rw [mapM_describeGroup] at hdescribed
  have hmapM : (groups.zipIdx.mapM fun entry => g.describeGroup entry.2 entry.1)
      = .ok described := hdescribed
  refine Gives.forall_of_mapM hmapM fun entry c hc => ?_
  obtain ⟨hid, hmembers, -⟩ := describeGroup_eq_ok hc
  refine ⟨⟨_, hid⟩, fun member hmember => ?_⟩
  change member ∈ c.members at hmember
  rw [hmembers] at hmember
  obtain ⟨v, -, rfl⟩ := List.mem_map.mp hmember
  exact hv.scalar_name v

/-- The communities downstream are named if there is nothing to name or they are identified. -/
theorem affected_answers_iff (hv : g.Valid) {q : ImpactQuery} (hknown : q.known = none)
    (down : Impact.Reach g.order) (journal : Journal) :
    (∃ affected, (q.affected g down).outcome journal = .ok affected) ↔
      down = [] ∨ ∃ communities,
        (g.communities q.algorithm defaultRounds).outcome journal = .ok communities := by
  unfold ImpactQuery.affected ImpactQuery.memberships
  rw [hknown]
  cases down with
  | nil => exact ⟨fun _ => .inl rfl, fun _ => ⟨[], rfl⟩⟩
  | cons first rest =>
    simp only [List.isEmpty_cons, Bool.false_eq_true, if_false, reduceCtorEq, false_or]
    constructor
    · rintro ⟨affected, h⟩
      obtain ⟨memberships, _, hmemberships, -⟩ := Logged.exists_of_bind_eq_ok h
      obtain ⟨communities, _, hcommunities, -⟩ := Logged.exists_of_bind_eq_ok hmemberships
      exact ⟨communities, hcommunities⟩
    · rintro ⟨communities, hcommunities⟩
      have hnumbered : ∀ m ∈ communities.map CodeCommunity.membership, Numbered m :=
        List.forall_mem_map.mpr (numbered_of_communities hv hcommunities)
      obtain ⟨affected, haffected, -⟩ :=
        communitiesOf_gives hnumbered (Impact.reached true (first :: rest))
      rw [bind_assoc]
      obtain ⟨journal', hbind⟩ := Logged.outcome_bind_of_ok hcommunities
      rw [hbind, pure_bind, haffected]
      exact ⟨affected, rfl⟩

/-- An answer reports what the two traversals reach and the communities affected. -/
theorem report_eq_ok_iff {α : Type} [Scalar α] {q : ImpactQuery} {down up : Impact.Reach g.order}
    {depth : Value} {journal : Journal} {impact : ImpactIn α} :
    (q.affected g down >>= Impact.report α id depth down up).outcome journal = .ok impact ↔
      ∃ affected, (q.affected g down).outcome journal = .ok affected ∧
        impact = ⟨id, Impact.reached true down, Impact.reached false up, Impact.directScore α down,
          Impact.transitiveScore α down, affected⟩ := by
  constructor
  · intro h
    obtain ⟨affected, _, haffected, h⟩ := Logged.exists_of_bind_eq_ok h
    exact ⟨affected, haffected, (Except.ok.inj h).symm⟩
  · rintro ⟨affected, haffected, rfl⟩
    obtain ⟨journal', hbind⟩ := Logged.outcome_bind_of_ok haffected
    rw [hbind]
    rfl

theorem impactIn_answers_iff (α : Type) [Scalar α] (hv : g.Valid) (hc : g.Closed)
    (hs : g.vertex? id = some s) {q : ImpactQuery} (hdepth : q.depth = .int d)
    {kinds : KindFilter} (hkinds : KindFilter.read q.kinds = .ok kinds)
    {algorithm : CommunityAlgorithm} (halgorithm : Tagged.coerce q.algorithm = .ok algorithm)
    (hknown : q.known = none) (journal : Journal) :
    (∃ impact, (g.impactIn α id q).outcome journal = .ok impact) ↔
      Impact.reach (Index.ofArcs (g.arcs kinds.keeps)) true s d = [] ∨ ∃ communities,
        (g.communities q.algorithm defaultRounds).outcome journal = .ok communities := by
  rw [impactIn_eq α hv hc hs hdepth hkinds halgorithm, ← affected_answers_iff hv hknown]
  simp only [report_eq_ok_iff]
  constructor
  · rintro ⟨impact, affected, haffected, -⟩
    exact ⟨affected, haffected⟩
  · rintro ⟨affected, haffected⟩
    exact ⟨_, affected, haffected, rfl⟩

theorem impactIn_eq_ok {α : Type} [Scalar α] (hv : g.Valid) (hc : g.Closed)
    (hs : g.vertex? id = some s) {q : ImpactQuery} (hdepth : q.depth = .int d)
    {kinds : KindFilter} (hkinds : KindFilter.read q.kinds = .ok kinds)
    {algorithm : CommunityAlgorithm} (halgorithm : Tagged.coerce q.algorithm = .ok algorithm)
    {journal : Journal} {impact : ImpactIn α}
    (h : (g.impactIn α id q).outcome journal = .ok impact) :
    impact.downstream
        = Impact.reached true (Impact.reach (Index.ofArcs (g.arcs kinds.keeps)) true s d) ∧
      impact.reaching
        = Impact.reached false (Impact.reach (Index.ofArcs (g.arcs kinds.keeps)) false s d) ∧
      impact.direct
        = Impact.directScore α (Impact.reach (Index.ofArcs (g.arcs kinds.keeps)) true s d) ∧
      impact.transitive
        = Impact.transitiveScore α (Impact.reach (Index.ofArcs (g.arcs kinds.keeps)) true s d) := by
  rw [impactIn_eq α hv hc hs hdepth hkinds halgorithm] at h
  obtain ⟨affected, -, rfl⟩ := report_eq_ok_iff.mp h
  exact ⟨rfl, rfl, rfl, rfl⟩

/-- The names downstream are those of the vertices at a distance up to the depth along kept edges,
the names upstream those against them, and the scores weigh each vertex downstream by the edge that
enters it first. There is an analysis unless something is downstream and the communities cannot be
identified, as they can if any two names compare and the kinds are texts. -/
theorem impactIn_by_distance (hv : g.Valid) (hc : g.Closed) (hs : g.vertex? id = some s)
    {q : ImpactQuery} (hdepth : q.depth = .int d) {kinds : KindFilter}
    (hkinds : KindFilter.read q.kinds = .ok kinds) {algorithm : CommunityAlgorithm}
    (halgorithm : Tagged.coerce q.algorithm = .ok algorithm) (journal : Journal) :
    ∃ down up, g.Lists kinds.keeps true s d down ∧ g.Lists kinds.keeps false s d up ∧
      (∀ (α : Type) [Scalar α],
        (∀ impact : ImpactIn α, (g.impactIn α id q).outcome journal = .ok impact →
          impact.downstream.map g.vertex? = down.map some ∧
            impact.reaching.map g.vertex? = up.map some) ∧
        (q.known = none →
          ((∃ impact, (g.impactIn α id q).outcome journal = .ok impact) ↔ down = [] ∨
            ∃ communities,
              (g.communities q.algorithm defaultRounds).outcome journal = .ok communities))) ∧
      (∀ impact, (g.impactIn ℚ id q).outcome journal = .ok impact →
        ∃ dist entry, g.Weighed kinds.keeps s down dist entry impact) ∧
      (g.Orderable → (∀ node ∈ g.nodes, node.kind.isText = true) →
        ∃ communities,
          (g.communities q.algorithm defaultRounds).outcome journal = .ok communities) := by
  refine ⟨_, _, lists_reach kinds.keeps true s d, lists_reach kinds.keeps false s d,
    fun α _ => ⟨fun impact h => ?_, fun hknown => ?_⟩, fun impact h => ?_, fun ho hk => ?_⟩
  · obtain ⟨hdown, hup, -⟩ := impactIn_eq_ok hv hc hs hdepth hkinds halgorithm h
    rw [hdown, hup]
    exact ⟨map_vertex?_reached .., map_vertex?_reached ..⟩
  · rw [List.map_eq_nil_iff]
    exact impactIn_answers_iff α hv hc hs hdepth hkinds halgorithm hknown journal
  · obtain ⟨-, -, hdirect, htransitive⟩ := impactIn_eq_ok hv hc hs hdepth hkinds halgorithm h
    exact exists_weighed kinds.keeps s d hdirect htransitive
  · obtain ⟨communities, hcommunities, -⟩ :=
      (ho.communities_gives hv hc hk halgorithm (by decide : (1 : Int) ≤ 100)).outcome journal
    exact ⟨communities, hcommunities⟩

/-- In the specimen, within two steps along all kinds of edges; names and kinds are texts there. -/
theorem impactIn_by_distance_specimen :
    specimen.Valid ∧ specimen.Closed ∧
    ∃ down, specimen.Lists keepAll true ⟨0, by decide⟩ 2 down ∧
      ∃ impact, (specimen.impactIn ℚ (.str "a")
          { ImpactQuery.default with depth := .int (2 : Nat) }).outcome .empty = .ok impact ∧
        impact.downstream.map specimen.vertex? = down.map some ∧
        ∃ dist entry, specimen.Weighed keepAll ⟨0, by decide⟩ down dist entry impact := by
  let q : ImpactQuery := { ImpactQuery.default with depth := .int (2 : Nat) }
  have hdepth : q.depth = .int (2 : Nat) := rfl
  have hkinds : KindFilter.read q.kinds = .ok none := rfl
  have halgorithm : Tagged.coerce q.algorithm = .ok CommunityAlgorithm.louvain := rfl
  obtain ⟨down, up, hdown, -, hanswers, hscores, hcommunities⟩ := impactIn_by_distance
    specimen_valid specimen_closed specimen_vertex.1 hdepth hkinds halgorithm .empty
  obtain ⟨hnames, hiff⟩ := hanswers ℚ
  obtain ⟨impact, himpact⟩ := (hiff rfl).mpr
    (.inr (hcommunities specimen_named.orderable specimen_kinds))
  exact ⟨specimen_valid, specimen_closed, down, hdown, impact, himpact,
    (hnames impact himpact).1, hscores impact himpact⟩

/-! ## Names of different sorts -/

/-- The number is one step from the text and should be listed, but there is no analysis. -/
theorem mixed_lists_nothing :
    mixed.Valid ∧ mixed.Closed ∧
    mixed.HopDistance keepAll ⟨0, by decide⟩ ⟨1, by decide⟩ 1 ∧
    ∀ journal impact, (mixed.impactIn ℚ (.str "a")
      { ImpactQuery.default with depth := .int (1 : Nat) }).outcome journal ≠ .ok impact := by
  obtain ⟨ha, hone⟩ := mixed_vertex
  have hdistance : mixed.HopDistance keepAll ⟨0, by decide⟩ ⟨1, by decide⟩ 1 := by
    refine ⟨⟨mixed.edges, ⟨⟨by simp [mixed], rfl, ha⟩, _, hone, rfl⟩, rfl⟩, fun edges hedges => ?_⟩
    cases edges with
    | nil => exact absurd (show (⟨0, _⟩ : Fin mixed.order) = ⟨1, _⟩ from hedges) (by decide)
    | cons e rest => exact Nat.succ_le_succ (Nat.zero_le _)
  refine ⟨mixed_valid, mixed_closed, hdistance, fun journal impact himpact => ?_⟩
  let q : ImpactQuery := { ImpactQuery.default with depth := .int (1 : Nat) }
  have hdepth : q.depth = .int (1 : Nat) := rfl
  have hkinds : KindFilter.read q.kinds = .ok none := rfl
  have halgorithm : Tagged.coerce q.algorithm = .ok CommunityAlgorithm.louvain := rfl
  have hanswers := (impactIn_answers_iff ℚ mixed_valid mixed_closed ha hdepth hkinds halgorithm rfl
    journal).mp ⟨impact, himpact⟩
  rcases hanswers with hnil | ⟨communities, hcommunities⟩
  · have hmem := (lists_reach keepAll true ⟨0, by decide⟩ 1).mem_iff (⟨1, by decide⟩ : Fin mixed.order)
    have hlisted := hmem.mpr ⟨by decide, 1, le_refl 1, le_refl 1, hdistance⟩
    rw [show Impact.reach (Index.ofArcs (mixed.arcs keepAll)) true ⟨0, by decide⟩ 1 = [] from hnil]
      at hlisted
    cases hlisted
  · obtain ⟨failure, hfailure⟩ := mixed_communities defaultRounds
    rw [show mixed.communities q.algorithm defaultRounds = _ from hfailure] at hcommunities
    cases hcommunities

end Graph

end CodeGraph
