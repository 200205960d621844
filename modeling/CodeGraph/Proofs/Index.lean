import CodeGraph.Proofs.Community.Stability
import CodeGraph.Proofs.Config.Refusal
import CodeGraph.Proofs.Weights

/-!
# The index of a snapshot

Every analysis starts from an index. A snapshot has one exactly if no edge lacks
an end, also of those that are not kept. The index then lists the kept edges
where they leave and where they enter (`Graph.Rows`), and its weights count the
edges between every two nodes (`Graph.Weighs`).

A snapshot without an index is refused, and the refusal names the edges in
question in their order. It may fall short of that and fail in another way: at an
end that cannot be looked up, and at one of the first edges to be named whose name
is no text. `Graph.Nameable` excludes both, and with the declared types there is
neither.
-/

namespace CodeGraph

open Runs (Yields)

/-! ## Edges shared out -/

theorem perm_flatMap_filter {n : Nat} {β : Type} (key : β → Option (Fin n)) {xs : List β}
    (h : ∀ x ∈ xs, ∃ v, key x = some v) :
    ((List.finRange n).flatMap fun v => xs.filter fun x => key x = some v).Perm xs := by
  induction xs with
  | nil => simp
  | cons x rest ih =>
      obtain ⟨u, hu⟩ := h x (List.mem_cons_self ..)
      obtain ⟨before, after, hsplit⟩ := List.append_of_mem (List.mem_finRange u)
      have hnodup : (before ++ u :: after).Nodup := hsplit ▸ List.nodup_finRange n
      have hother : ∀ v, u ≠ v → ((x :: rest).filter fun x => key x = some v)
          = rest.filter fun x => key x = some v := by
        intro v hv
        rw [List.filter_cons_of_neg]
        simpa [hu] using hv
      have hbefore : ∀ v ∈ before, u ≠ v := by
        rintro v hv rfl
        exact (List.nodup_append.mp hnodup).2.2 u hv u (List.mem_cons_self ..) rfl
      have hafter : ∀ v ∈ after, u ≠ v := by
        rintro v hv rfl
        exact (List.nodup_cons.mp (List.nodup_append.mp hnodup).2.1).1 hv
      have ih := ih fun y hy => h y (List.mem_cons_of_mem _ hy)
      rw [hsplit, List.flatMap_append, List.flatMap_cons] at ih ⊢
      rw [List.flatMap_congr fun v hv => hother v (hbefore v hv),
        List.flatMap_congr fun v hv => hother v (hafter v hv),
        List.filter_cons_of_pos (by simpa using hu), List.cons_append]
      exact List.perm_middle.trans (ih.cons x)

namespace Graph

variable {g : Graph} {keep : Edge → Bool}

/-- The arcs of a closed snapshot are its kept edges. -/
theorem map_edge_arcs (hc : g.Closed) (keep : Edge → Bool) :
    (g.arcs keep).map Arc.edge = g.edges.filter keep := by
  rw [arcs, List.map_filterMap]
  refine Eq.trans (List.filterMap_congr fun e he => ?_) List.filterMap_some
  obtain ⟨u, v, hu, hv⟩ := closed_iff.mp hc e (List.mem_of_mem_filter he)
  have harc : g.arc? e = some ⟨e, u, v⟩ := arc?_eq_some.mpr ⟨rfl, hu, hv⟩
  rw [harc]
  rfl

theorem map_edge_filter_arcs (hc : g.Closed) {p : Arc g.order → Bool} {q : Edge → Bool}
    (h : ∀ arc ∈ g.arcs keep, p arc = q arc.edge) :
    ((g.arcs keep).filter p).map Arc.edge = (g.edges.filter keep).filter q := by
  rw [← map_edge_arcs hc keep, List.filter_map, List.filter_congr h]
  rfl

theorem countP_arcs (hc : g.Closed) {p : Arc g.order → Bool} {q : Edge → Bool}
    (h : ∀ arc ∈ g.arcs keep, p arc = q arc.edge) :
    (g.arcs keep).countP p = (g.edges.filter keep).countP q := by
  rw [← map_edge_arcs hc keep, List.countP_map]
  exact List.countP_congr fun arc harc => by rw [h arc harc]; rfl

/-! ## What an index lists -/

/-- The kept edges stand where they leave and where they enter, in their order, and each stands in
one list of either sort. -/
structure Rows (g : Graph) (keep : Edge → Bool) (index : Index g.order) : Prop where
  leaving : ∀ v, (index.out v).map Arc.edge
    = (g.edges.filter keep).filter fun e => g.vertex? e.source = some v
  entering : ∀ v, (index.into v).map Arc.edge
    = (g.edges.filter keep).filter fun e => g.vertex? e.target = some v
  /-- With every edge stand its two ends. -/
  ends : ∀ v, ∀ arc ∈ index.out v ++ index.into v,
    g.vertex? arc.edge.source = some arc.source ∧ g.vertex? arc.edge.target = some arc.target
  leavesOne : ∀ e ∈ g.edges.filter keep, ∃! v, e ∈ (index.out v).map Arc.edge
  entersOne : ∀ e ∈ g.edges.filter keep, ∃! v, e ∈ (index.into v).map Arc.edge
  /-- The lists together are the kept edges, an edge as often as it is given. -/
  leaveOnce : (g.vertices.flatMap fun v => (index.out v).map Arc.edge).Perm (g.edges.filter keep)
  enterOnce : (g.vertices.flatMap fun v => (index.into v).map Arc.edge).Perm (g.edges.filter keep)

theorem rows_ofArcs (hc : g.Closed) (keep : Edge → Bool) :
    g.Rows keep (Index.ofArcs (g.arcs keep)) := by
  have hkept : ∀ e ∈ g.edges.filter keep,
      (∃ u, g.vertex? e.source = some u) ∧ ∃ v, g.vertex? e.target = some v := by
    intro e he
    obtain ⟨u, v, hu, hv⟩ := closed_iff.mp hc e (List.mem_of_mem_filter he)
    exact ⟨⟨u, hu⟩, v, hv⟩
  have hleaving : ∀ v, ((Index.ofArcs (g.arcs keep)).out v).map Arc.edge
      = (g.edges.filter keep).filter fun e => g.vertex? e.source = some v := by
    intro v
    rw [Index.out_ofArcs]
    refine map_edge_filter_arcs hc fun arc harc => decide_eq_decide.mpr ?_
    rw [(mem_arcs.mp harc).2.2.1, Option.some_inj]
  have hentering : ∀ v, ((Index.ofArcs (g.arcs keep)).into v).map Arc.edge
      = (g.edges.filter keep).filter fun e => g.vertex? e.target = some v := by
    intro v
    rw [Index.into_ofArcs]
    refine map_edge_filter_arcs hc fun arc harc => decide_eq_decide.mpr ?_
    rw [(mem_arcs.mp harc).2.2.2, Option.some_inj]
  have hone : ∀ (key : Edge → Option (Fin g.order)), ∀ e ∈ g.edges.filter keep,
      (∃ v, key e = some v) →
        ∃! v, e ∈ (g.edges.filter keep).filter fun e => key e = some v := by
    rintro key e he ⟨v, hv⟩
    refine ⟨v, List.mem_filter.mpr ⟨he, decide_eq_true hv⟩, fun w hw => ?_⟩
    have hw := of_decide_eq_true (List.mem_filter.mp hw).2
    exact (Option.some.inj (hv.symm.trans hw)).symm
  refine ⟨hleaving, hentering, fun v arc harc => ?_, fun e he => ?_, fun e he => ?_, ?_, ?_⟩
  · rw [Index.out_ofArcs, Index.into_ofArcs] at harc
    rcases List.mem_append.mp harc with hout | hinto
    · exact (mem_arcs.mp (List.mem_of_mem_filter hout)).2.2
    · exact (mem_arcs.mp (List.mem_of_mem_filter hinto)).2.2
  · simpa only [hleaving] using hone (fun e => g.vertex? e.source) e he (hkept e he).1
  · simpa only [hentering] using hone (fun e => g.vertex? e.target) e he (hkept e he).2
  · simp only [hleaving]
    exact perm_flatMap_filter (fun e => g.vertex? e.source) fun e he => (hkept e he).1
  · simp only [hentering]
    exact perm_flatMap_filter (fun e => g.vertex? e.target) fun e he => (hkept e he).2

/-! ## What the weights are -/

/-- The number of kept edges between two vertices, in either direction. -/
def joining (g : Graph) (keep : Edge → Bool) (a b : Fin g.order) : Nat :=
  (g.edges.filter keep).countP fun e => g.Joins e a b

/-- The weight that one node lists for another is the number of kept edges between them, and none
is listed where there are no such edges or the two are one. -/
structure Weighs (g : Graph) (keep : Edge → Bool) (weights : Weights g.order) : Prop where
  once : ∀ a, ((weights.get a).map Tie.other).Nodup
  listed : ∀ a b, weights.listed? a b
    = if a ≠ b ∧ 0 < g.joining keep a b then some (g.joining keep a b) else none
  symm : ∀ a b, weights.listed? a b = weights.listed? b a
  /-- The weights together are twice the number of kept edges between different nodes. -/
  total : weights.total
    = 2 * (g.edges.filter keep).countP fun e => g.vertex? e.source ≠ g.vertex? e.target

theorem joining_comm (keep : Edge → Bool) (a b : Fin g.order) :
    g.joining keep a b = g.joining keep b a := by
  refine List.countP_congr fun e _ => ?_
  simp only [decide_eq_true_eq]
  exact or_comm

theorem countP_spans_arcs (hc : g.Closed) (keep : Edge → Bool) {a b : Fin g.order} (hne : a ≠ b) :
    ((g.arcs keep).countP fun arc => arc.Spans arc.source a b) = g.joining keep a b := by
  refine countP_arcs hc fun arc harc => decide_eq_decide.mpr ?_
  obtain ⟨-, -, hsource, htarget⟩ := mem_arcs.mp harc
  rw [Joins, hsource, htarget]
  simp only [Option.some_inj]
  exact ⟨fun h => h.2, fun h => ⟨by grind, h⟩⟩

theorem weighs_ofArcs (hc : g.Closed) (keep : Edge → Bool) :
    g.Weighs keep (Index.ofArcs (g.arcs keep)).weights := by
  have htallies := Index.tallies_ofArcs (g.arcs keep)
  have hlisted : ∀ a b, (Index.ofArcs (g.arcs keep)).weights.listed? a b
      = if a ≠ b ∧ 0 < g.joining keep a b then some (g.joining keep a b) else none := by
    intro a b
    rw [htallies.entry]
    by_cases hab : a = b
    · subst hab
      simp [Arc.not_spans_self]
    · rw [countP_spans_arcs hc keep hab]
      simp only [hab, ne_eq, not_false_eq_true, true_and]
  refine ⟨htallies.once, hlisted, fun a b => ?_, ?_⟩
  · rw [hlisted, hlisted, joining_comm keep a b]
    simp only [ne_comm]
  · rw [Index.total_weights]
    congr 1
    refine countP_arcs hc fun arc harc => decide_eq_decide.mpr ?_
    obtain ⟨-, -, hsource, htarget⟩ := mem_arcs.mp harc
    rw [hsource, htarget]
    simp only [ne_eq, Option.some_inj, eq_comm]

/-! ## Edges without an end -/

def Lacks (g : Graph) (id : Value) : Prop :=
  ∀ node ∈ g.nodes, node.id.same id = false

def LacksEnd (g : Graph) (e : Edge) : Prop :=
  g.Lacks e.source ∨ g.Lacks e.target

instance (id : Value) : Decidable (g.Lacks id) :=
  inferInstanceAs (Decidable (∀ _ ∈ _, _))

instance (e : Edge) : Decidable (g.LacksEnd e) :=
  inferInstanceAs (Decidable (_ ∨ _))

def lacking (g : Graph) : List Edge :=
  g.edges.filter fun e => g.LacksEnd e

/-- What a refusal looks up can be looked up, and what it says can be said. -/
structure Nameable (g : Graph) : Prop where
  source : ∀ e ∈ g.edges, e.source.isScalar = true
  /-- The far end is looked up only when the near one is there. -/
  target : ∀ e ∈ g.edges, ¬g.Lacks e.source → e.target.isScalar = true
  /-- The first edges are named by their texts, the others are only counted. -/
  id : ∀ e ∈ g.lacking.take Failure.danglingShown, e.id.isText = true

theorem vertex?_eq_none {id : Value} : g.vertex? id = none ↔ g.Lacks id :=
  List.findFinIdx?_eq_none_iff.trans (by simp only [Lacks, Bool.not_eq_true])

theorem isDangling_iff {e : Edge} : g.isDangling e = true ↔ g.LacksEnd e := by
  rw [isDangling, Option.isNone_iff_eq_none, LacksEnd, ← vertex?_eq_none, ← vertex?_eq_none, arc?]
  cases g.vertex? e.source <;> cases g.vertex? e.target <;> simp

theorem dangling_eq_lacking : g.dangling = g.lacking :=
  List.filter_congr fun e _ => by rw [Bool.eq_iff_iff, isDangling_iff, decide_eq_true_iff]

theorem closed_iff_lacking : g.Closed ↔ ∀ e ∈ g.edges, ¬g.LacksEnd e := by
  rw [Closed, dangling_eq_lacking, lacking, List.filter_eq_nil_iff]
  simp only [decide_eq_true_eq]

theorem lacking_ne_nil : g.lacking ≠ [] ↔ ∃ e ∈ g.edges, g.LacksEnd e := by
  rw [lacking, Ne, List.filter_eq_nil_iff]
  simp only [decide_eq_true_eq, not_forall, not_not, exists_prop]

end Graph

/-! ## Refusals -/

/-- The failure of something that has the wrong shape. -/
def Failure.IsWrongType (failure : Failure) : Prop :=
  ∃ problem, failure = .wrongType problem

theorem Failure.ofDangling_texts {ids : List Value}
    (h : ∀ id ∈ ids.take danglingShown, id.isText = true) :
    ofDangling ids = .ok (.invalidGraph (ids.map Value.text)) := by
  have hstr : ((ids.take danglingShown).map Value.text).map Value.str = ids.take danglingShown := by
    rw [List.map_map]
    refine (List.map_congr_left fun id hid => ?_).trans (List.map_id _)
    obtain ⟨s, rfl⟩ := Value.isText_iff.mp (h id hid)
    rfl
  have hnamed := Value.texts_map_str ((ids.take danglingShown).map Value.text)
  rw [hstr] at hnamed
  refine bind_eq_ok.mpr ⟨_, hnamed, ?_⟩
  rw [← List.map_append, List.take_append_drop]
  rfl

/-- A list of edges is named if the first ones have texts for names. -/
theorem Failure.ofDangling_yields (ids : List Value) :
    Yields Failure.IsWrongType (ofDangling ids) fun failure =>
      (∀ id ∈ ids.take danglingShown, id.isText = true) ∧
        failure = .invalidGraph (ids.map Value.text) where
  spec failure h := by
    obtain ⟨names, hnames, -⟩ := bind_eq_ok.mp h
    have hall := (Value.texts_yields _).spec names hnames
    exact ⟨hall, Except.ok.inj (h.symm.trans (ofDangling_texts hall))⟩
  failure failure h := by
    have hbind : Yields Failure.IsWrongType (ofDangling ids) fun _ => True :=
      ((Value.texts_yields _).mono fun _ h => h.2).bind fun _ _ => .of_ok trivial
    exact hbind.failure failure h

namespace Graph

variable {g : Graph}

theorem hashable_yields (v : Value) :
    Yields Failure.IsWrongType v.hashable fun _ => v.isScalar = true where
  spec _ h := Value.hashable_eq_ok.mp h
  failure failure h := by
    unfold Value.hashable at h
    split at h
    · cases h
    · exact ⟨_, (Except.error.inj h).symm⟩

theorem checkEnds_yields (e : Edge) :
    Yields Failure.IsWrongType (g.checkEnds e) fun _ =>
      e.source.isScalar = true ∧ (¬g.Lacks e.source → e.target.isScalar = true) := by
  refine (hashable_yields e.source).bind fun _ hsource => ?_
  split
  · exact (hashable_yields e.target).imp fun _ htarget => ⟨hsource, fun _ => htarget⟩
  · next hnone =>
    rw [Option.not_isSome_iff_eq_none, vertex?_eq_none] at hnone
    exact .of_ok ⟨hsource, fun h => absurd hnone h⟩

theorem checkEnds_eq_ok {e : Edge} (hsource : e.source.isScalar = true)
    (htarget : ¬g.Lacks e.source → e.target.isScalar = true) : g.checkEnds e = .ok () := by
  refine bind_eq_ok.mpr ⟨(), Value.hashable_eq_ok.mpr hsource, ?_⟩
  split
  · next hsome =>
    refine Value.hashable_eq_ok.mpr (htarget fun hlacks => ?_)
    rw [vertex?_eq_none.mpr hlacks] at hsome
    cases hsome
  · rfl

/-- How the check of a snapshot ends. -/
def verdict (g : Graph) : Except Failure Unit := do
  g.edges.forM g.checkEnds
  if !g.lacking.isEmpty then throw (← Failure.ofDangling (g.lacking.map Edge.id))

theorem check_comesTo (g : Graph) : g.check.ComesTo g.verdict := by
  unfold check verdict
  rw [Logged.forM_lift, dangling_eq_lacking]
  refine (Logged.ComesTo.lift _).bind fun _ _ => ?_
  dsimp only
  split
  · exact fun journal => by cases Failure.ofDangling (g.lacking.map Edge.id) <;> rfl
  · exact fun journal => rfl

theorem isText_ids_iff {es : List Edge} {k : Nat} :
    (∀ id ∈ (es.map Edge.id).take k, id.isText = true) ↔ ∀ e ∈ es.take k, e.id.isText = true := by
  rw [← List.map_take, List.forall_mem_map]

theorem verdict_of_lacking (hchecked : g.edges.forM g.checkEnds = .ok ()) (hne : g.lacking ≠ []) :
    g.verdict = Failure.ofDangling (g.lacking.map Edge.id) >>= .error := by
  rw [verdict, hchecked]
  change (if (!g.lacking.isEmpty) = true then _ else _) = _
  rw [if_pos (by simpa using hne)]
  rfl

theorem checkEnds_forM_yields (g : Graph) :
    Yields Failure.IsWrongType (g.edges.forM g.checkEnds) fun _ => ∀ e ∈ g.edges,
      e.source.isScalar = true ∧ (¬g.Lacks e.source → e.target.isScalar = true) :=
  Yields.forM fun e _ => checkEnds_yields e

/-- Who is refused has passed the check of the ends. -/
theorem checked_of_refusal {names : List String} (h : g.verdict = .error (.invalidGraph names)) :
    g.edges.forM g.checkEnds = .ok () := by
  cases hchecked : g.edges.forM g.checkEnds with
  | ok _ => rfl
  | error failure =>
      obtain ⟨problem, rfl⟩ := g.checkEnds_forM_yields.failure failure hchecked
      rw [verdict, hchecked] at h
      cases h

/-- A snapshot is refused with the edges that lack an end, if these can be looked up and named. -/
theorem verdict_eq_refusal {names : List String} :
    g.verdict = .error (.invalidGraph names) ↔
      g.lacking ≠ [] ∧ g.Nameable ∧ names = g.lacking.map fun e => e.id.text := by
  constructor
  · intro h
    have hchecked := checked_of_refusal h
    have hscalar := g.checkEnds_forM_yields.spec _ hchecked
    have hne : g.lacking ≠ [] := by
      intro hnone
      rw [verdict, hchecked, hnone] at h
      cases h
    rw [verdict_of_lacking hchecked hne] at h
    have hnames := Failure.ofDangling_yields (g.lacking.map Edge.id)
    cases hdangling : Failure.ofDangling (g.lacking.map Edge.id) with
    | error failure =>
        obtain ⟨problem, rfl⟩ := hnames.failure failure hdangling
        rw [hdangling] at h
        cases h
    | ok failure =>
        obtain ⟨htexts, rfl⟩ := hnames.spec failure hdangling
        rw [hdangling, List.map_map] at h
        refine ⟨hne, ⟨fun e he => (hscalar e he).1, fun e he => (hscalar e he).2,
          isText_ids_iff.mp htexts⟩, ?_⟩
        exact (Failure.invalidGraph.inj (Except.error.inj h)).symm
  · rintro ⟨hne, hnameable, rfl⟩
    have hchecked : g.edges.forM g.checkEnds = .ok () :=
      Gives.forM fun e he => checkEnds_eq_ok (hnameable.source e he) (hnameable.target e he)
    rw [verdict_of_lacking hchecked hne,
      Failure.ofDangling_texts (isText_ids_iff.mpr hnameable.id), List.map_map]
    rfl

theorem lacking_eq_nil_of_verdict (h : g.verdict = .ok ()) : g.lacking = [] := by
  by_contra hne
  obtain ⟨_, hchecked, -⟩ := bind_eq_ok.mp h
  rw [verdict_of_lacking hchecked hne] at h
  obtain ⟨_, -, hrefused⟩ := bind_eq_ok.mp h
  cases hrefused

theorem index_comesTo (g : Graph) (keep : Edge → Bool) :
    (g.index keep).ComesTo (g.verdict >>= fun _ => .ok (Index.ofArcs (g.arcs keep))) :=
  g.check_comesTo.bind fun _ _ _ => rfl

/-- An index is built exactly if no edge lacks an end, kept or not. It then lists the kept edges at
their ends, and its weights are the numbers of kept edges between two nodes. Otherwise the snapshot
is refused with the edges that lack an end, in their order, if these can be looked up and named. -/
theorem index_lists_or_refuses (hv : g.Valid) (keep : Edge → Bool) (journal : Journal) :
    ((∃ failure, (g.index keep).outcome journal = .error failure) ↔
      ∃ e ∈ g.edges, g.LacksEnd e) ∧
    (∀ names, (g.index keep).outcome journal = .error (.invalidGraph names) ↔
      (∃ e ∈ g.edges, g.LacksEnd e) ∧ g.Nameable ∧
        names = (g.edges.filter fun e => g.LacksEnd e).map fun e => e.id.text) ∧
    ((∀ e ∈ g.edges, ¬g.LacksEnd e) → ∃ index,
      (g.index keep).outcome journal = .ok index ∧ g.Rows keep index ∧
        g.Weighs keep index.weights) := by
  have hbuilt : (∀ e ∈ g.edges, ¬g.LacksEnd e) → ∃ index,
      (g.index keep).outcome journal = .ok index ∧ g.Rows keep index ∧
        g.Weighs keep index.weights := by
    intro hends
    have hc := closed_iff_lacking.mpr hends
    refine ⟨Index.ofArcs (g.arcs keep), ?_, rows_ofArcs hc keep, weighs_ofArcs hc keep⟩
    rw [index_eq_pure hv hc]
    rfl
  refine ⟨⟨?_, fun hlacks => ?_⟩, fun names => ?_, hbuilt⟩
  · rintro ⟨failure, hfailure⟩
    by_contra hends
    obtain ⟨index, hindex, -⟩ := hbuilt fun e he hlacks => hends ⟨e, he, hlacks⟩
    rw [hindex] at hfailure
    cases hfailure
  · rw [g.index_comesTo keep journal]
    cases hverdict : g.verdict with
    | error failure => exact ⟨failure, rfl⟩
    | ok _ => exact absurd (lacking_eq_nil_of_verdict hverdict) (lacking_ne_nil.mpr hlacks)
  · rw [g.index_comesTo keep journal, ← lacking_ne_nil, ← lacking, ← verdict_eq_refusal]
    cases g.verdict with
    | error failure => exact ⟨fun h => by cases h; rfl, fun h => by cases h; rfl⟩
    | ok _ => exact iff_of_false (by rintro ⟨⟩) (by rintro ⟨⟩)

/-- The specimen with two more edges, to and from a node that is missing. -/
def frayed : Graph :=
  { specimen with
    edges := specimen.edges ++
      [specimenEdge "bd" "b" "d" .callGraph, specimenEdge "da" "d" "a" .reference] }

/-- The calls of the specimen are indexed, with a weight of two between `b` and `c` from either
side; with the frayed edges there is no index, whatever is kept. -/
theorem index_lists_or_refuses_specimen :
    (∃ index, (specimen.index fun e => e.kind = .callGraph).outcome Journal.empty = .ok index ∧
      index.weights.listed? ⟨1, by decide⟩ ⟨2, by decide⟩ = some 2 ∧
      index.weights.listed? ⟨2, by decide⟩ ⟨1, by decide⟩ = some 2 ∧
      index.weights.total = 6) ∧
    (frayed.index fun e => e.kind = .dataFlow).outcome Journal.empty
      = .error (.invalidGraph ["bd", "da"]) := by
  have hfrayed : frayed.Valid := ⟨specimen_valid.toValidNodes, specimen_valid.same⟩
  constructor
  · obtain ⟨index, hindex, -, hweighs⟩ :=
      (index_lists_or_refuses specimen_valid (fun e => e.kind = .callGraph) Journal.empty).2.2
        (closed_iff_lacking.mp specimen_closed)
    refine ⟨index, hindex, ?_, ?_, ?_⟩
    · exact (hweighs.listed _ _).trans (by decide +kernel)
    · exact (hweighs.listed _ _).trans (by decide +kernel)
    · exact hweighs.total.trans (by decide +kernel)
  · refine ((index_lists_or_refuses hfrayed (fun e => e.kind = .dataFlow) Journal.empty).2.1 _).mpr
      ⟨by decide +kernel, ⟨?_, ?_, ?_⟩, by decide +kernel⟩
    · decide +kernel
    · decide +kernel
    · decide +kernel

/-- An edge to nowhere that has a number for a name. -/
def numbered : Graph where
  nodes := [specimenNode "a"]
  edges := [⟨.int 7, .str "a", .str "b", .callGraph, .null, .empty⟩]
  cache := []
  metadata := []

/-- The edge lacks an end, and yet the snapshot is not refused for it: the refusal fails over a
name that is no text. -/
theorem numbered_edge_not_named :
    numbered.Valid ∧
      (numbered.index keepAll).outcome Journal.empty = .error (.wrongType (.notText 0 "int")) ∧
      ¬((∃ names, (numbered.index keepAll).outcome Journal.empty = .error (.invalidGraph names)) ↔
        ∃ e ∈ numbered.edges, numbered.LacksEnd e) := by
  have hfails : (numbered.index keepAll).outcome Journal.empty
      = .error (.wrongType (.notText 0 "int")) := by
    with_unfolding_all rfl
  refine ⟨⟨⟨by decide +kernel, by decide +kernel⟩, by decide +kernel⟩, hfails, fun hiff => ?_⟩
  obtain ⟨names, hnames⟩ := hiff.mpr (by decide +kernel)
  rw [hfails] at hnames
  cases hnames

end Graph

end CodeGraph
