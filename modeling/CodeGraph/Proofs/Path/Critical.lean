import Mathlib.Data.List.FinRange
import CodeGraph.Proofs.Path.Candidates
import CodeGraph.Proofs.Path.Listing
import CodeGraph.Proofs.Path.Shortest

/-!
# Critical paths in a snapshot

Edges have their places in the list of edges, and paths are compared by the
places of their edges. What is listed are the first simple paths in that order,
and of these the costliest is answered (`criticalPathIn_costliest`).

Where there is no simple path within the bound, the failure tells whether a
larger bound could help: the listing was cut off if some simple path that uses
up the bound could have gone on (`Truncated`). If none could, the target is out
of reach (`criticalPathIn_without_path`).
-/

namespace CodeGraph.Graph

variable {g : Graph} {keep : Edge → Bool} {s t : Fin g.order}

/-! ## Simple paths -/

def entered (g : Graph) (edges : List Edge) : List (Option (Fin g.order)) :=
  edges.map fun e => g.vertex? e.target

/-- The edges lead from `s` to `t` and enter no vertex twice, nor `s` again. -/
def SimplePath (g : Graph) (keep : Edge → Bool) (s : Fin g.order) (edges : List Edge)
    (t : Fin g.order) : Prop :=
  g.Walk keep s edges t ∧ (some s :: g.entered edges).Nodup

def SimplePathWithin (g : Graph) (keep : Edge → Bool) (depth : Option Nat) (s : Fin g.order)
    (edges : List Edge) (t : Fin g.order) : Prop :=
  g.SimplePath keep s edges t ∧ ∀ d ∈ depth, edges.length ≤ d

/-- Some simple path with as many edges as the bound allows, and without the target on it, leads
on to a vertex that is not on it. -/
def Truncated (g : Graph) (keep : Edge → Bool) (depth : Option Nat) (s t : Fin g.order) : Prop :=
  ∃ d, depth = some d ∧ ∃ edges v, g.SimplePath keep s edges v ∧ edges.length = d ∧
    some t ∉ g.entered edges ∧
    ∃ e ∈ g.edges, keep e = true ∧ g.vertex? e.source = some v ∧
      g.vertex? e.target ∉ some s :: g.entered edges

theorem entered_of_walk {p : List (Arc g.order)} {u v : Fin g.order}
    (hp : (Index.ofArcs (g.arcs keep)).Walk u p v) :
    g.entered (p.map Arc.edge) = (p.map Arc.target).map some := by
  rw [entered, List.map_map, List.map_map]
  exact List.map_congr_left fun arc harc => vertex?_target hp harc

theorem simplePath_iff {edges : List Edge} :
    g.SimplePath keep s edges t ↔
      ∃ p, Critical.SimpleWalk (Index.ofArcs (g.arcs keep)) s p t ∧ p.map Arc.edge = edges := by
  have hnodup : ∀ {p : List (Arc g.order)}, (Index.ofArcs (g.arcs keep)).Walk s p t →
      ((some s :: g.entered (p.map Arc.edge)).Nodup ↔ (s :: p.map Arc.target).Nodup) := by
    intro p hp
    rw [entered_of_walk hp, ← List.map_cons]
    exact List.nodup_map_iff (Option.some_injective _)
  constructor
  · rintro ⟨hwalk, hsimple⟩
    obtain ⟨p, hp, rfl⟩ := walk_iff.mp hwalk
    exact ⟨p, ⟨hp, (hnodup hp).mp hsimple⟩, rfl⟩
  · rintro ⟨p, ⟨hp, hsimple⟩, rfl⟩
    exact ⟨walk_iff.mpr ⟨p, hp, rfl⟩, (hnodup hp).mpr hsimple⟩

theorem truncated_iff (hc : g.Closed) {depth : Option Nat} :
    g.Truncated keep depth s t ↔
      Critical.CutOff (Index.ofArcs (g.arcs keep)) s t depth := by
  unfold Truncated Critical.CutOff
  refine exists_congr fun d => and_congr_right fun _ => ?_
  constructor
  · rintro ⟨edges, v, hpath, hlen, htarget, e, he, hkeep, hsource, hnew⟩
    obtain ⟨p, hp, rfl⟩ := simplePath_iff.mp hpath
    obtain ⟨_, w, -, hw⟩ := closed_iff.mp hc e he
    rw [entered_of_walk hp.1] at htarget hnew
    refine ⟨p, v, hp, by simpa using hlen, fun hmem => htarget (List.mem_map_of_mem hmem),
      ⟨e, v, w⟩, ?_, ?_⟩
    · exact Index.mem_out_ofArcs.mpr ⟨mem_arcs.mpr ⟨he, hkeep, hsource, hw⟩, rfl⟩
    · intro hmem
      refine hnew ?_
      rw [hw, ← List.map_cons]
      exact List.mem_map_of_mem hmem
  · rintro ⟨p, v, hp, hlen, htarget, arc, harc, hnew⟩
    obtain ⟨hmem, rfl⟩ := Index.mem_out_ofArcs.mp harc
    obtain ⟨he, hkeep, hsource, hend⟩ := mem_arcs.mp hmem
    have hentered := entered_of_walk hp.1
    refine ⟨p.map Arc.edge, arc.source, simplePath_iff.mpr ⟨p, hp, rfl⟩, by simpa using hlen, ?_,
      arc.edge, he, hkeep, hsource, ?_⟩
    · rw [hentered]
      intro hmem
      obtain ⟨v, hv, hvt⟩ := List.mem_map.mp hmem
      exact htarget (Option.some.inj hvt ▸ hv)
    · rw [hentered, hend, ← List.map_cons]
      intro hmem
      obtain ⟨v, hv, hvt⟩ := List.mem_map.mp hmem
      exact hnew (Option.some.inj hvt ▸ hv)

/-! ## Simple walks from walks -/

theorem exists_simpleWalk {p : List (Arc g.order)}
    (hp : (Index.ofArcs (g.arcs keep)).Walk s p t) :
    ∃ q, Critical.SimpleWalk (Index.ofArcs (g.arcs keep)) s q t ∧ q.length ≤ p.length := by
  have hsound : (⟨Index.ofArcs (g.arcs keep), fun _ => (0 : Rat), s, t, some p.length⟩ :
      Path.Problem g.order Rat).Sound fun _ => .ok 0 :=
    ⟨fun _ _ harc => (Index.mem_out_ofArcs.mp harc).2, fun _ _ _ => rfl,
      fun _ _ _ => Path.fair_rat.mpr le_rfl⟩
  obtain ⟨q, c, -, hq⟩ := (Path.byCost_spec hsound).found_of_within ⟨p, hp, by simp⟩
  exact ⟨q, ⟨hq.admits.walk, hq.simple⟩, hq.admits.fits _ rfl⟩

/-- A simple walk beyond the bound is cut off where the bound ends, if the target is not on it
before. -/
theorem cutOff_of_simpleWalk {index : Index g.order} {p : List (Arc g.order)} {v : Fin g.order}
    (hp : Critical.SimpleWalk index s p v) {d : Nat} (hlong : d < p.length)
    (htarget : t ∉ (p.take d).map Arc.target) :
    Critical.CutOff index s t (some d) := by
  obtain ⟨hwalk, hnodup⟩ := hp
  have hsplit : p = p.take d ++ p[d] :: p.drop (d + 1) := by
    rw [← List.drop_eq_getElem_cons hlong, List.take_append_drop]
  rw [hsplit] at hwalk hnodup
  obtain ⟨w, hfront, hout, -⟩ := hwalk.split
  rw [List.map_append, ← List.cons_append, List.nodup_append] at hnodup
  refine ⟨d, rfl, p.take d, w, ⟨hfront, hnodup.1⟩, ?_, htarget, p[d], hout, ?_⟩
  · rw [List.length_take]
    omega
  · exact fun hmem => hnodup.2.2 _ hmem _ (List.mem_cons_self ..) rfl

/-! ## Places of edges -/

theorem isSome_arc? (hc : g.Closed) {e : Edge} (he : e ∈ g.edges) : (g.arc? e).isSome = true := by
  obtain ⟨u, v, hu, hv⟩ := closed_iff.mp hc e he
  have harc : g.arc? e = some ⟨e, u, v⟩ := arc?_eq_some.mpr ⟨rfl, hu, hv⟩
  rw [harc]
  rfl

/-- The arc of an edge, by the edge's place. -/
def arcAt (g : Graph) (hc : g.Closed) (i : Fin g.edges.length) : Arc g.order :=
  (g.arc? (g.edges.get i)).get (isSome_arc? hc (List.get_mem g.edges i))

theorem arc?_get (hc : g.Closed) (i : Fin g.edges.length) :
    g.arc? (g.edges.get i) = some (g.arcAt hc i) :=
  (Option.some_get _).symm

theorem edge_arcAt (hc : g.Closed) (i : Fin g.edges.length) :
    (g.arcAt hc i).edge = g.edges.get i :=
  (arc?_eq_some.mp (arc?_get hc i)).1

/-- What is read off the edges of a path can be read off their places. -/
theorem map_edge_arcAt {β : Type} (hc : g.Closed) (f : Edge → β)
    (code : List (Fin g.edges.length)) :
    (code.map (g.arcAt hc)).map (fun arc => f arc.edge) = code.map fun i => f (g.edges.get i) := by
  rw [List.map_map]
  refine List.map_congr_left fun i _ => ?_
  rw [Function.comp_apply, edge_arcAt]

theorem arcAt_mem_arcs (hc : g.Closed) {i : Fin g.edges.length} :
    g.arcAt hc i ∈ g.arcs keep ↔ keep (g.edges.get i) = true := by
  obtain ⟨hedge, hsource, htarget⟩ := arc?_eq_some.mp (arc?_get hc i)
  rw [mem_arcs, hedge]
  exact ⟨fun h => h.2.1, fun h => ⟨List.get_mem .., h, hsource, htarget⟩⟩

theorem arcs_eq_map (hc : g.Closed) (keep : Edge → Bool) :
    g.arcs keep
      = ((List.finRange g.edges.length).filter fun i => keep (g.edges.get i)).map (g.arcAt hc) := by
  have harc : ∀ l : List (Fin g.edges.length),
      l.filterMap (fun i => g.arc? (g.edges.get i)) = l.map (g.arcAt hc) := by
    intro l
    simp only [arc?_get hc]
    rw [List.filterMap_eq_map']
  unfold arcs
  nth_rewrite 1 [← List.map_get_finRange g.edges]
  rw [List.filter_map, List.filterMap_map]
  exact harc _

/-- The kept edges that leave each vertex, by place. -/
def places (hc : g.Closed) (keep : Edge → Bool) :
    Critical.Places (Fin g.edges.length) (Index.ofArcs (g.arcs keep)) where
  leaving v := (List.finRange g.edges.length).filter fun i =>
    keep (g.edges.get i) && (g.arcAt hc i).source = v
  arc := g.arcAt hc
  out_eq v := by
    rw [Index.out_ofArcs, arcs_eq_map hc, List.filter_map, List.filter_filter]
    refine congrArg _ (List.filter_congr fun i _ => ?_)
    exact Bool.and_comm _ _
  mem_leaving v i := by
    rw [Index.mem_out_ofArcs, arcAt_mem_arcs]
    simp
  sorted v := (List.pairwise_lt_finRange _).filter _

/-- An edge has one arc only, so a walk over the edges at some places is over the arcs there. -/
theorem eq_map_arcAt (hc : g.Closed) {p : List (Arc g.order)}
    (hp : (Index.ofArcs (g.arcs keep)).Walk s p t) {code : List (Fin g.edges.length)}
    (heq : p.map Arc.edge = code.map g.edges.get) : p = code.map (g.arcAt hc) := by
  have harcs : p.map some = (code.map (g.arcAt hc)).map some := by
    calc p.map some = p.map (fun arc => g.arc? arc.edge) := by
          refine List.map_congr_left fun arc harc => ?_
          obtain ⟨w, hw⟩ := hp.mem_out harc
          exact (arc?_eq_some.mpr
            ⟨rfl, (mem_arcs.mp (Index.mem_out_ofArcs.mp hw).1).2.2⟩).symm
      _ = (p.map Arc.edge).map g.arc? := by rw [List.map_map]; rfl
      _ = (code.map (g.arcAt hc)).map some := by
          rw [heq, List.map_map, List.map_map]
          exact List.map_congr_left fun i _ => arc?_get hc i
  exact List.map_injective_iff.mpr (Option.some_injective _) harcs

theorem walk_arcAt (hc : g.Closed) {code : List (Fin g.edges.length)} :
    (Index.ofArcs (g.arcs keep)).Walk s (code.map (g.arcAt hc)) t ↔
      g.Walk keep s (code.map g.edges.get) t := by
  rw [walk_iff]
  constructor
  · exact fun h => ⟨_, h, map_edge_arcAt hc id code⟩
  · rintro ⟨p, hp, heq⟩
    exact eq_map_arcAt hc hp heq ▸ hp

theorem simpleWalk_arcAt (hc : g.Closed) {code : List (Fin g.edges.length)} :
    Critical.SimpleWalk (Index.ofArcs (g.arcs keep)) s (code.map (g.arcAt hc)) t ↔
      g.SimplePath keep s (code.map g.edges.get) t := by
  rw [simplePath_iff]
  constructor
  · exact fun h => ⟨_, h, map_edge_arcAt hc id code⟩
  · rintro ⟨p, hp, heq⟩
    exact eq_map_arcAt hc hp.1 heq ▸ hp

/-- The simple paths within a bound by place, in lexicographic order. -/
def simplePaths (hc : g.Closed) (keep : Edge → Bool) (depth : Option Nat) (s t : Fin g.order) :
    List (List (Fin g.edges.length)) :=
  (places hc keep).simplePaths s t depth

theorem mem_simplePaths (hc : g.Closed) {depth : Option Nat} (hne : s ≠ t)
    {code : List (Fin g.edges.length)} :
    code ∈ simplePaths hc keep depth s t ↔
      g.SimplePathWithin keep depth s (code.map g.edges.get) t := by
  rw [simplePaths, Critical.Places.mem_simplePaths _ hne]
  refine and_congr (simpleWalk_arcAt hc) ?_
  simp

theorem list_paths_edges (hc : g.Closed) (keep : Edge → Bool) (s t : Fin g.order)
    (depth : Option Nat) (limit : Nat) :
    (Critical.list (Index.ofArcs (g.arcs keep)) s t depth limit).paths.map (List.map Arc.edge)
      = ((simplePaths hc keep depth s t).take limit).map (List.map g.edges.get) := by
  rw [Critical.list_paths (places hc keep), List.map_map]
  exact List.map_congr_left fun code _ => map_edge_arcAt hc id code

theorem Walk.mem_edges {edges : List Edge} (h : g.Walk keep s edges t) :
    ∀ e ∈ edges, e ∈ g.edges := by
  induction edges generalizing s with
  | nil => exact fun e he => absurd he List.not_mem_nil
  | cons first rest ih =>
      obtain ⟨⟨hfirst, -⟩, v, -, hrest⟩ := h
      intro e he
      rcases List.mem_cons.mp he with rfl | he
      · exact hfirst
      · exact ih hrest e he

theorem exists_code {edges : List Edge} (h : ∀ e ∈ edges, e ∈ g.edges) :
    ∃ code : List (Fin g.edges.length), code.map g.edges.get = edges := by
  induction edges with
  | nil => exact ⟨[], rfl⟩
  | cons e rest ih =>
      obtain ⟨code, hcode⟩ := ih fun e' he' => h e' (List.mem_cons_of_mem _ he')
      obtain ⟨i, hi⟩ := List.mem_iff_get.mp (h e (List.mem_cons_self ..))
      exact ⟨i :: code, by rw [List.map_cons, hi, hcode]⟩

theorem simplePaths_ne_nil (hc : g.Closed) {depth : Option Nat} (hne : s ≠ t) {edges : List Edge}
    (h : g.SimplePathWithin keep depth s edges t) : simplePaths hc keep depth s t ≠ [] := by
  obtain ⟨code, rfl⟩ := exists_code h.1.1.mem_edges
  exact List.ne_nil_of_mem ((mem_simplePaths hc hne).mpr h)

theorem list_paths_ne_nil (hc : g.Closed) {depth : Option Nat} {k : Nat} (hk : 1 ≤ k)
    (hsome : simplePaths hc keep depth s t ≠ []) :
    (Critical.list (Index.ofArcs (g.arcs keep)) s t depth k).paths ≠ [] := by
  intro hnil
  have hlisted := list_paths_edges hc keep s t depth k
  rw [hnil, List.map_nil, eq_comm, List.map_eq_nil_iff, List.take_eq_nil_iff] at hlisted
  rcases hlisted with hzero | hnone
  · omega
  · exact hsome hnone

/-- Where kept edges have costs and there is a path, one of the candidates wins. -/
theorem exists_winner {α : Type} [Priced α] (hc : g.Closed) (hne : s ≠ t) {m : CostModel}
    {w : Edge → α} (hw : ∀ e ∈ g.edges, keep e = true → Critical.Costs m g e (w e))
    {depth : Option Nat} {k : Nat} (hk : 1 ≤ k)
    (hsome : simplePaths hc keep depth s t ≠ []) :
    ∃ cs winner,
      Critical.candidates m g
        (Critical.list (Index.ofArcs (g.arcs keep)) s t depth k).paths = .ok cs ∧
      Critical.best cs = some winner ∧
      cs.map Critical.Candidate.arcs
        = ((simplePaths hc keep depth s t).take k).map (List.map (g.arcAt hc)) ∧
      ∀ c ∈ cs, c.cost = Path.walkCost w c.arcs := by
  have hpaths := list_paths_ne_nil hc hk hsome
  rw [Critical.list_paths (places hc keep)] at hpaths ⊢
  change ∃ cs winner, Critical.candidates m g
    (((simplePaths hc keep depth s t).take k).map (List.map (g.arcAt hc))) = .ok cs ∧ _
  have hcosts : ∀ p ∈ ((simplePaths hc keep depth s t).take k).map (List.map (g.arcAt hc)),
      ∀ arc ∈ p, Critical.Costs m g arc.edge (w arc.edge) := by
    intro p hp arc harc
    obtain ⟨code, hcode, rfl⟩ := List.mem_map.mp hp
    have hsimple := (mem_simplePaths hc hne).mp (List.mem_of_mem_take hcode)
    obtain ⟨v, hv⟩ := ((simpleWalk_arcAt hc).mpr hsimple.1).1.mem_out harc
    obtain ⟨he, hkeep, -⟩ := mem_arcs.mp (Index.mem_out_ofArcs.mp hv).1
    exact hw _ he hkeep
  obtain ⟨cs, hcs, harcs, hcost⟩ := Critical.candidates_gives hcosts
  obtain ⟨winner, hbest⟩ := Critical.exists_best hcs hpaths
  exact ⟨cs, winner, hcs, hbest, harcs, hcost⟩

/-! ## The answer -/

section Answer

variable {source target given : Value} {pathType : PathType} {k : Nat}
  {listing : Critical.Listing g.order} {depth : Option Nat}

section Outcome

variable (α : Type) [Priced α] (hv : g.Valid) (hc : g.Closed) (hs : g.vertex? source = some s)
  (ht : g.vertex? target = some t) (hne : s ≠ t)
  (hgiven : Tagged.coerce given = .ok pathType) (m : CostModel) (hk : 1 ≤ k)
  (hlisting : listing
    = Critical.list (Index.ofArcs (g.arcs pathType.edgeKinds.keeps)) s t depth k)

include hv hc hs ht hne hgiven hk hlisting

/-- Nothing before the listing can fail. -/
theorem criticalPathIn_eq :
    g.criticalPathIn α source target (.ok m) ⟨given, depthValue depth, .int k⟩
      = (liftM (Critical.candidates m g listing.paths) >>= fun candidates =>
          Critical.conclude source target pathType (depthValue depth) listing
            (Critical.best candidates)) := by
  have hfs : g.find source = .ok s := find_eq_ok.mpr ⟨hv.scalar_of_vertex? hs, hs⟩
  have hft : g.find target = .ok t := find_eq_ok.mpr ⟨hv.scalar_of_vertex? ht, ht⟩
  have hlt : Value.lt (.int k) (.int 1) = .ok false := by
    rw [Value.lt_int, decide_eq_false]
    omega
  have hlimit : candidateLimit (.int k) = k := rfl
  subst hlisting
  unfold criticalPathIn
  simp only [hgiven, checkBudget_depthValue, hlt, index_eq_pure hv hc, hfs, hft,
    budgetSteps_depthValue, hlimit, Logged.lift_ok, pure_bind, if_neg hne, Bool.false_eq_true,
    if_false]

theorem outcome_criticalPathIn_nil (hnil : listing.paths = []) (journal : Journal) :
    (g.criticalPathIn α source target (.ok m)
        ⟨given, depthValue depth, .int k⟩).outcome journal
      = .error (if listing.cut then .depthReached source target (depthValue depth)
          else .noPath source target) := by
  rw [criticalPathIn_eq α hv hc hs ht hne hgiven m hk hlisting, hnil]
  change (Critical.conclude source target pathType (depthValue depth) listing none).outcome _ = _
  unfold Critical.conclude
  cases listing.cut <;> rfl

theorem outcome_criticalPathIn_best {cs : List (Critical.Candidate g.order α)}
    {winner : Critical.Candidate g.order α}
    (hcandidates : Critical.candidates m g listing.paths = .ok cs)
    (hbest : Critical.best cs = some winner) (journal : Journal) :
    (g.criticalPathIn α source target (.ok m)
        ⟨given, depthValue depth, .int k⟩).outcome journal
      = .ok ⟨source :: winner.arcs.map fun arc => arc.edge.target,
          winner.arcs.map fun arc => arc.edge.id, winner.cost, winner.factors,
          listing.paths.length⟩ := by
  rw [criticalPathIn_eq α hv hc hs ht hne hgiven m hk hlisting, hcandidates, Logged.lift_ok,
    pure_bind, hbest]
  rfl

end Outcome

/-! ### The costliest path -/

def placesCost (g : Graph) (w : Edge → Rat) (code : List (Fin g.edges.length)) : Rat :=
  Scalar.sum (code.map fun i => w (g.edges.get i))

/-- The costliest of some paths, of several the one with fewest edges, of several the first. -/
def FirstCostliest (g : Graph) (w : Edge → Rat) (codes : List (List (Fin g.edges.length)))
    (code : List (Fin g.edges.length)) : Prop :=
  ∃ before after, codes = before ++ code :: after ∧
    (∀ c ∈ before, g.placesCost w c < g.placesCost w code ∨
      g.placesCost w c = g.placesCost w code ∧ code.length < c.length) ∧
    ∀ c ∈ after, g.placesCost w c < g.placesCost w code ∨
      g.placesCost w c = g.placesCost w code ∧ code.length ≤ c.length

theorem walkCost_arcAt (hc : g.Closed) (w : Edge → Rat) (code : List (Fin g.edges.length)) :
    Path.walkCost w (code.map (g.arcAt hc)) = g.placesCost w code := by
  unfold Path.walkCost placesCost
  rw [map_edge_arcAt]

/-- The best candidate is the costliest of the paths listed. -/
theorem firstCostliest_of_best (hc : g.Closed) {w : Edge → Rat}
    {codes : List (List (Fin g.edges.length))} {cs : List (Critical.Candidate g.order Rat)}
    (harcs : cs.map Critical.Candidate.arcs = codes.map (List.map (g.arcAt hc)))
    (hcosts : ∀ c ∈ cs, c.cost = Path.walkCost w c.arcs)
    {winner : Critical.Candidate g.order Rat} (hbest : Critical.best cs = some winner) :
    ∃ code, g.FirstCostliest w codes code ∧ winner.arcs = code.map (g.arcAt hc) ∧
      winner.cost = g.placesCost w code := by
  obtain ⟨pre, post, rfl, hpre, hpost⟩ := Critical.best_spec hbest
  rw [List.map_append, List.map_cons] at harcs
  obtain ⟨before, rest, rfl, hbefore, hrest⟩ := List.map_eq_append_iff.mp harcs.symm
  obtain ⟨code, after, rfl, hcode, hafter⟩ := List.map_eq_cons_iff.mp hrest
  -- A candidate has the cost and the number of edges of the path it comes from.
  have hscore : ∀ c ∈ pre ++ winner :: post, ∀ code, code.map (g.arcAt hc) = c.arcs →
      c.cost = g.placesCost w code ∧ c.arcs.length = code.length := by
    intro c hmem code heq
    rw [hcosts c hmem, ← heq, walkCost_arcAt, List.length_map]
    exact ⟨rfl, rfl⟩
  obtain ⟨hcost, hlen⟩ := hscore winner (by simp) code hcode
  refine ⟨code, ⟨before, after, rfl, fun d hd => ?_, fun d hd => ?_⟩, hcode.symm, hcost⟩
  · have hmem : d.map (g.arcAt hc) ∈ pre.map Critical.Candidate.arcs :=
      hbefore ▸ List.mem_map_of_mem hd
    obtain ⟨c, hmem, heq⟩ := List.mem_map.mp hmem
    obtain ⟨hcost', hlen'⟩ := hscore c (by simp [hmem]) d heq.symm
    have hbeats := Critical.beats_iff.mp (hpre c hmem)
    rw [hcost, hcost', hlen, hlen'] at hbeats
    exact hbeats.imp id fun h => ⟨h.1.symm, h.2⟩
  · have hmem : d.map (g.arcAt hc) ∈ post.map Critical.Candidate.arcs :=
      hafter ▸ List.mem_map_of_mem hd
    obtain ⟨c, hmem, heq⟩ := List.mem_map.mp hmem
    obtain ⟨hcost', hlen'⟩ := hscore c (by simp [hmem]) d heq.symm
    have hbeats := Critical.not_beats_iff.mp (hpost c hmem)
    rwa [hcost, hcost', hlen, hlen'] at hbeats

/-- The candidates are the first simple paths in the order of their places, and the answer is the
costliest of them. -/
theorem criticalPathIn_costliest (hv : g.Valid) (hc : g.Closed)
    (hs : g.vertex? source = some s) (ht : g.vertex? target = some t) (hne : s ≠ t)
    (hgiven : Tagged.coerce given = .ok pathType) {m : CostModel} {w : Edge → Rat}
    (hw : ∀ e ∈ g.edges, pathType.edgeKinds.keeps e = true → m.exactCost g e = .ok (w e))
    (depth : Option Nat) (hk : 1 ≤ k) (journal : Journal) :
    ∃ codes : List (List (Fin g.edges.length)),
      codes.Pairwise (· < ·) ∧
      (∀ code, code ∈ codes ↔
        g.SimplePathWithin pathType.edgeKinds.keeps depth s (code.map g.edges.get) t) ∧
      (Critical.list (Index.ofArcs (g.arcs pathType.edgeKinds.keeps)) s t depth k).paths.map
          (List.map Arc.edge)
        = (codes.take k).map (List.map g.edges.get) ∧
      (codes ≠ [] → ∃ code result,
        g.FirstCostliest w (codes.take k) code ∧
        (g.criticalPathIn Rat source target (.ok m)
          ⟨given, depthValue depth, .int k⟩).outcome journal = .ok result ∧
        result.considered = min k codes.length ∧
        result.cost = g.placesCost w code ∧
        result.edges = code.map (fun i => (g.edges.get i).id) ∧
        result.path = source :: code.map (fun i => (g.edges.get i).target)) := by
  refine ⟨simplePaths hc pathType.edgeKinds.keeps depth s t, Critical.Places.codes_sorted .., ?_,
    list_paths_edges hc _ s t depth k, fun hsome => ?_⟩
  · exact fun code => mem_simplePaths hc hne
  · obtain ⟨cs, winner, hcs, hbest, harcs, hcosts⟩ := exists_winner hc hne
      (fun e he hkeep => Critical.costs_of_exactCost (hw e he hkeep)) hk hsome
    obtain ⟨code, hfirst, hwinner, hcost⟩ := firstCostliest_of_best hc harcs hcosts hbest
    refine ⟨code, _, hfirst, outcome_criticalPathIn_best Rat hv hc hs ht hne hgiven m hk rfl hcs hbest
      journal, ?_, hcost, ?_, ?_⟩
    · have hlength := congrArg List.length (list_paths_edges hc
        pathType.edgeKinds.keeps s t depth k)
      simpa using hlength
    · rw [hwinner, map_edge_arcAt hc Edge.id]
    · rw [hwinner, map_edge_arcAt hc Edge.target]

/-- The nodes of the specimen under edges of two refinements, one of which earns a unit back. -/
def tolled : Graph where
  nodes := specimen.nodes
  edges := [⟨.str "ab", .str "a", .str "b", .callGraph, .str "direct_call", .empty⟩,
    ⟨.str "bc", .str "b", .str "c", .callGraph, .str "loop_back", .empty⟩,
    ⟨.str "bc2", .str "b", .str "c", .callGraph, .str "direct_call", .empty⟩]
  cache := []
  metadata := []

def tolls : CostModel :=
  ⟨[], [("direct_call", .int 2), ("loop_back", .int (-1))]⟩

def toll (e : Edge) : Rat :=
  if e.subkind.same (.str "loop_back") then -1 else 2

theorem tolled_valid : tolled.Valid :=
  ⟨specimen_valid.toValidNodes, specimen_valid.same⟩

theorem tolled_vertex :
    tolled.vertex? (.str "a") = some ⟨0, by decide⟩ ∧
      tolled.vertex? (.str "b") = some ⟨1, by decide⟩ ∧
      tolled.vertex? (.str "c") = some ⟨2, by decide⟩ :=
  specimen_vertex

theorem tolled_closed : tolled.Closed := by
  obtain ⟨ha, hb, hc⟩ := tolled_vertex
  refine closed_iff.mpr fun e he => ?_
  simp only [tolled, List.mem_cons, List.not_mem_nil, or_false] at he
  rcases he with rfl | rfl | rfl
  · exact ⟨_, _, ha, hb⟩
  · exact ⟨_, _, hb, hc⟩
  · exact ⟨_, _, hb, hc⟩

theorem tolls_exactCost : ∀ e ∈ tolled.edges, tolls.exactCost tolled e = .ok (toll e) := by
  obtain ⟨-, hb, hc⟩ := tolled_vertex
  intro e he
  simp only [tolled, List.mem_cons, List.not_mem_nil, or_false] at he
  rcases he with rfl | rfl | rfl <;> unfold CostModel.exactCost CostModel.breakdown
  · simp only [hb]
    exact congrArg Except.ok (by decide +kernel : ((2 : Int) : Rat) + Scalar.sum [] = toll _)
  · simp only [hc]
    exact congrArg Except.ok (by decide +kernel : ((-1 : Int) : Rat) + Scalar.sum [] = toll _)
  · simp only [hc]
    exact congrArg Except.ok (by decide +kernel : ((2 : Int) : Rat) + Scalar.sum [] = toll _)

theorem coerce_any : Tagged.coerce (.str "any") = .ok PathType.any := rfl

/-- Between the two paths of the specimen with tolls. -/
theorem criticalPathIn_tolled :
    tolled.Valid ∧ tolled.Closed ∧
    (∀ e ∈ tolled.edges, tolls.exactCost tolled e = .ok (toll e)) ∧
    ∃ codes : List (List (Fin tolled.edges.length)),
      codes.Pairwise (· < ·) ∧ codes ≠ [] ∧
      ∃ code result, tolled.FirstCostliest toll (codes.take 2) code ∧
        (tolled.criticalPathIn Rat (.str "a") (.str "c") (.ok tolls)
          ⟨.str "any", depthValue (some 3), .int 2⟩).outcome .empty = .ok result ∧
        result.considered = min 2 codes.length ∧ result.cost = tolled.placesCost toll code := by
  obtain ⟨ha, hb, hc⟩ := tolled_vertex
  obtain ⟨codes, hsorted, hmem, -, hanswer⟩ := criticalPathIn_costliest tolled_valid
    tolled_closed ha hc (by decide) coerce_any (fun e he _ => tolls_exactCost e he) (some 3)
    (by decide : 1 ≤ 2) .empty
  have hsome : codes ≠ [] := by
    refine List.ne_nil_of_mem ((hmem [⟨0, by decide⟩, ⟨1, by decide⟩]).mpr ⟨⟨?_, ?_⟩, by simp⟩)
    · exact ⟨⟨by simp, rfl, ha⟩, _, hb, ⟨by simp, rfl, hb⟩, _, hc, rfl⟩
    · change [some _, tolled.vertex? (.str "b"), tolled.vertex? (.str "c")].Nodup
      rw [hb, hc]
      decide
  obtain ⟨code, result, hcode, houtcome, hconsidered, hcost, -⟩ := hanswer hsome
  exact ⟨tolled_valid, tolled_closed, tolls_exactCost, codes, hsorted, hsome, code, result, hcode,
    houtcome, hconsidered, hcost⟩

/-! ### Why there is no path -/

theorem target_not_mem_take {index : Index g.order} {p : List (Arc g.order)}
    (hp : Critical.SimpleWalk index s p t) {d : Nat} (hlong : d < p.length) :
    t ∉ (p.take d).map Arc.target := by
  rcases List.eq_nil_or_concat p with rfl | ⟨front, last, rfl⟩
  · exact absurd hlong (Nat.not_lt_zero d)
  · rw [List.concat_eq_append] at hp hlong ⊢
    obtain ⟨_, -, -, hend⟩ := hp.1.split
    have hle : d ≤ front.length := by
      rw [List.length_append, List.length_singleton] at hlong
      omega
    have hnodup := (List.nodup_cons.mp hp.2).2
    rw [List.map_append, List.nodup_append] at hnodup
    rw [List.take_append_of_le_length hle]
    intro hmem
    have hfront : t ∈ front.map Arc.target := by
      rw [List.map_take] at hmem
      exact List.mem_of_mem_take hmem
    exact hnodup.2.2 t hfront last.target (by simp) (Eq.symm hend)

/-- A target out of bounds is out of reach, unless the listing was cut off. -/
theorem not_reaches_of_not_truncated (hc : g.Closed)
    (hnone : ∀ edges, ¬g.SimplePathWithin keep depth s edges t)
    (hcut : ¬g.Truncated keep depth s t) : ¬g.Reaches keep s t := by
  intro hreach
  obtain ⟨p, hp⟩ := reaches_iff.mp hreach
  obtain ⟨q, hq, -⟩ := exists_simpleWalk hp
  have hpath : g.SimplePath keep s (q.map Arc.edge) t := simplePath_iff.mpr ⟨q, hq, rfl⟩
  cases depth with
  | none => exact hnone _ ⟨hpath, by simp⟩
  | some d =>
      have hlong : d < q.length := by
        by_contra hle
        exact hnone _ ⟨hpath, by simpa using hle⟩
      exact hcut ((truncated_iff hc).mpr
        (cutOff_of_simpleWalk hq hlong (target_not_mem_take hq hlong)))

theorem outcome_without_path (α : Type) [Priced α] (hv : g.Valid) (hc : g.Closed)
    (hs : g.vertex? source = some s) (ht : g.vertex? target = some t) (hne : s ≠ t)
    (hgiven : Tagged.coerce given = .ok pathType)
    (hnone : ∀ edges, ¬g.SimplePathWithin pathType.edgeKinds.keeps depth s edges t)
    (m : CostModel) (hk : 1 ≤ k) (journal : Journal) :
    ∃ cut : Bool, (cut = true ↔ g.Truncated pathType.edgeKinds.keeps depth s t) ∧
      (g.criticalPathIn α source target (.ok m)
          ⟨given, depthValue depth, .int k⟩).outcome journal
        = .error (if cut then .depthReached source target (depthValue depth)
            else .noPath source target) := by
  have hcodes : simplePaths hc pathType.edgeKinds.keeps depth s t = [] :=
    List.eq_nil_iff_forall_not_mem.mpr fun code hcode =>
      hnone _ ((mem_simplePaths hc hne).mp hcode)
  have hnil : (Critical.list (Index.ofArcs (g.arcs pathType.edgeKinds.keeps)) s t depth k).paths
      = [] := by
    rw [Critical.list_paths (places hc pathType.edgeKinds.keeps)]
    change ((simplePaths hc pathType.edgeKinds.keeps depth s t).take k).map _ = []
    rw [hcodes, List.take_nil, List.map_nil]
  have hcut := (Critical.list_cut (places hc pathType.edgeKinds.keeps) hk hcodes).trans
    (truncated_iff hc).symm
  exact ⟨_, hcut, outcome_criticalPathIn_nil α hv hc hs ht hne hgiven m hk rfl hnil journal⟩

/-- Without a simple path within the bound, the failure says whether the listing was cut off, and
if it was not, the target is out of reach. -/
theorem criticalPathIn_without_path (α : Type) [Priced α] (hv : g.Valid) (hc : g.Closed)
    (hs : g.vertex? source = some s) (ht : g.vertex? target = some t) (hne : s ≠ t)
    (hgiven : Tagged.coerce given = .ok pathType)
    (hnone : ∀ edges, ¬g.SimplePathWithin pathType.edgeKinds.keeps depth s edges t)
    (m : CostModel) (hk : 1 ≤ k) (journal : Journal) :
    ((g.criticalPathIn α source target (.ok m)
        ⟨given, depthValue depth, .int k⟩).outcome journal
        = .error (.depthReached source target (depthValue depth)) ↔
      g.Truncated pathType.edgeKinds.keeps depth s t) ∧
    ((g.criticalPathIn α source target (.ok m)
        ⟨given, depthValue depth, .int k⟩).outcome journal = .error (.noPath source target) ↔
      ¬g.Truncated pathType.edgeKinds.keeps depth s t) ∧
    ((g.criticalPathIn α source target (.ok m)
        ⟨given, depthValue depth, .int k⟩).outcome journal = .error (.noPath source target) →
      ¬g.Reaches pathType.edgeKinds.keeps s t) := by
  obtain ⟨cut, hcut, houtcome⟩ :=
    outcome_without_path α hv hc hs ht hne hgiven hnone m hk journal
  rw [houtcome]
  by_cases htrunc : g.Truncated pathType.edgeKinds.keeps depth s t
  · rw [hcut.mpr htrunc]
    simp [htrunc]
  · rw [Bool.eq_false_iff.mpr fun h => htrunc (hcut.mp h)]
    simpa [htrunc] using not_reaches_of_not_truncated hc hnone htrunc

end Answer

/-- In the specimen, with a bound that ends one step too early. -/
theorem criticalPathIn_specimen :
    specimen.Valid ∧ specimen.Closed ∧
    (∀ edges, ¬specimen.SimplePathWithin PathType.any.edgeKinds.keeps (some 1) ⟨0, by decide⟩ edges
      ⟨2, by decide⟩) ∧
    ((specimen.criticalPathIn Rat (.str "a") (.str "c") (.ok .neutral)
        ⟨.str "any", depthValue (some 1), .int 1⟩).outcome .empty
        = .error (.depthReached (.str "a") (.str "c") (depthValue (some 1))) ↔
      specimen.Truncated PathType.any.edgeKinds.keeps (some 1) ⟨0, by decide⟩ ⟨2, by decide⟩) := by
  obtain ⟨ha, hb, hc⟩ := specimen_vertex
  have hnone : ∀ edges, ¬specimen.SimplePathWithin PathType.any.edgeKinds.keeps (some 1)
      ⟨0, by decide⟩ edges ⟨2, by decide⟩ := by
    rintro edges ⟨⟨hwalk, -⟩, hfits⟩
    have hlen := hfits 1 rfl
    cases edges with
    | nil => exact absurd (Fin.val_eq_of_eq hwalk) (by decide)
    | cons e rest =>
        obtain rfl : rest = [] := List.length_eq_zero_iff.mp (by simpa using hlen)
        obtain ⟨⟨he, -, hsource⟩, w, htarget, hend⟩ := hwalk
        obtain rfl : w = ⟨2, by decide⟩ := hend
        -- The one edge out of the first node ends in the second.
        simp only [specimen, List.mem_cons, List.not_mem_nil, or_false] at he
        rcases he with rfl | rfl | rfl | rfl | rfl
        · exact absurd (Option.some.inj (hb.symm.trans htarget)) (by decide)
        · exact absurd (Option.some.inj (hb.symm.trans hsource)) (by decide)
        · exact absurd (Option.some.inj (hb.symm.trans hsource)) (by decide)
        · exact absurd (Option.some.inj (hb.symm.trans hsource)) (by decide)
        · exact absurd (Option.some.inj (hc.symm.trans hsource)) (by decide)
  exact ⟨specimen_valid, specimen_closed, hnone,
    (criticalPathIn_without_path Rat specimen_valid specimen_closed ha hc (by decide)
      coerce_any hnone .neutral (Nat.le_refl 1) .empty).1⟩

end CodeGraph.Graph
