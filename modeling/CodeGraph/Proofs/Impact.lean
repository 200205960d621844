import CodeGraph.Impact
import CodeGraph.Proofs.Community
import CodeGraph.Proofs.Cost
import CodeGraph.Proofs.Path.Critical

/-!
# Traversals of a snapshot

The analysis of impact traverses a snapshot along its edges and against them.
What it meets are the nodes within so many steps (`exists_met_iff`), and steps
along the edges are those of walks (`hops_iff_walk`). Beside the communities
affected, which it names under their numbers (`communitiesOf_gives`), nothing in
the analysis can fail (`impactOf_eq`).
-/

namespace CodeGraph.Graph

open Traversal (Leads)

variable {g : Graph} {source target : Value} {s t : Fin g.order} {keep : Edge → Bool}

/-! ## Steps along edges and against them -/

theorem mem_into_ofArcs {n : Nat} {arcs : List (Arc n)} {v : Fin n} {arc : Arc n} :
    arc ∈ (Index.ofArcs arcs).into v ↔ arc ∈ arcs ∧ arc.target = v := by
  simp [Index.into_ofArcs]

theorem mem_steps {forward : Bool} {v w : Fin g.order} {arc : Arc g.order} :
    (arc, w) ∈ (Index.ofArcs (g.arcs keep)).steps forward v ↔
      arc ∈ g.arcs keep ∧ arc.tip forward = w ∧ arc.tip (!forward) = v := by
  cases forward with
  | true =>
      simp only [Index.steps, Index.onward, if_true, List.mem_map, Index.mem_out_ofArcs, Arc.tip,
        Prod.mk.injEq]
      constructor
      · rintro ⟨_, ⟨harc, hsource⟩, rfl, htarget⟩
        exact ⟨harc, htarget, hsource⟩
      · rintro ⟨harc, htarget, hsource⟩
        exact ⟨arc, ⟨harc, hsource⟩, rfl, htarget⟩
  | false =>
      simp only [Index.steps, Index.onward, Bool.false_eq_true, if_false, List.mem_map,
        mem_into_ofArcs, Arc.tip, Prod.mk.injEq]
      constructor
      · rintro ⟨_, ⟨harc, htarget⟩, rfl, hsource⟩
        exact ⟨harc, hsource, htarget⟩
      · rintro ⟨harc, hsource, htarget⟩
        exact ⟨arc, ⟨harc, htarget⟩, rfl, hsource⟩

theorem leads_reverse {forward : Bool} (v w : Fin g.order)
    (h : Leads ((Index.ofArcs (g.arcs keep)).steps forward) v w) :
    Leads ((Index.ofArcs (g.arcs keep)).steps !forward) w v := by
  obtain ⟨arc, harc⟩ := h
  obtain ⟨hmem, hw, hv⟩ := mem_steps.mp harc
  exact ⟨arc, mem_steps.mpr ⟨hmem, hv, by rwa [Bool.not_not]⟩⟩

theorem hops_backward_iff {k : Nat} :
    Hops (Leads ((Index.ofArcs (g.arcs keep)).steps false)) t k s ↔
      Hops (Leads ((Index.ofArcs (g.arcs keep)).steps true)) s k t :=
  ⟨Hops.reverse leads_reverse, Hops.reverse leads_reverse⟩

theorem hops_iff_walk {k : Nat} :
    Hops (Leads ((Index.ofArcs (g.arcs keep)).steps true)) s k t ↔
      ∃ edges, g.Walk keep s edges t ∧ edges.length = k := by
  rw [Path.hops_iff_walk]
  constructor
  · rintro ⟨p, hp, rfl⟩
    exact ⟨p.map Arc.edge, walk_iff.mpr ⟨p, hp, rfl⟩, List.length_map ..⟩
  · rintro ⟨edges, hedges, rfl⟩
    obtain ⟨p, hp, rfl⟩ := walk_iff.mp hedges
    exact ⟨p, hp, (List.length_map ..).symm⟩

/-! ## What a traversal reaches -/

/-- A traversal meets the vertices within its limit, other than the start. -/
theorem exists_met_iff {start v : Fin g.order} (hne : v ≠ start) (forward : Bool) (d : Nat) :
    (∃ found ∈ Impact.reach (Index.ofArcs (g.arcs keep)) forward start d, found.vertex = v) ↔
      ∃ k ≤ d, Hops (Leads ((Index.ofArcs (g.arcs keep)).steps forward)) start k v := by
  have hswept := Traversal.swept_within ((Index.ofArcs (g.arcs keep)).steps forward) start d
  constructor
  · rintro ⟨found, hfound, rfl⟩
    exact ⟨found.distance, hswept.within found hfound, (hswept.exact found hfound).1⟩
  · rintro ⟨k, hk, hhops⟩
    obtain ⟨j, hj, hdistance⟩ := hhops.distance
    have hknown := hswept.complete v j hdistance (hj.trans hk)
    exact (Traversal.known_iff.mp hknown).resolve_left hne

theorem vertex?_of_met {forward : Bool} {start : Fin g.order} {d : Nat}
    {found : Discovery g.order (Arc g.order)}
    (h : found ∈ Impact.reach (Index.ofArcs (g.arcs keep)) forward start d) :
    g.vertex? (found.via.endAt forward).2 = some found.vertex := by
  have hstepped := Traversal.stepped_within ((Index.ofArcs (g.arcs keep)).steps forward) start d
  obtain ⟨harc, htip, -⟩ := mem_steps.mp (hstepped found h)
  obtain ⟨-, -, hsource, htarget⟩ := mem_arcs.mp harc
  rw [← htip]
  cases forward with
  | true => exact htarget
  | false => exact hsource

/-! ## The analysis answers -/

/-- A community under a number whose members can be looked up. -/
def Numbered (m : Membership) : Prop :=
  (∃ n : Nat, m.community = .int n) ∧ ∀ member ∈ m.members, member.isScalar = true

theorem communitiesOf_gives {memberships : List Membership}
    (h : ∀ m ∈ memberships, Numbered m) (ids : List Value) :
    Gives (communitiesOf memberships ids) fun _ => True := by
  have hmembers : (memberships.forM fun m => m.members.forM Value.hashable) = .ok () :=
    Gives.forM fun m hm => Gives.forM fun member hmember =>
      Value.hashable_eq_ok.mpr ((h m hm).2 member hmember)
  have hfound : ∀ id ∈ ids.filterMap (communityOf? memberships), ∃ n : Nat, id = .int n := by
    intro id hid
    obtain ⟨member, -, hcommunity⟩ := List.mem_filterMap.mp hid
    obtain ⟨m, hm, rfl⟩ := Option.map_eq_some_iff.mp hcommunity
    exact (h m (List.mem_reverse.mp (List.mem_of_find?_eq_some hm))).1
  have hscalar : (ids.filterMap (communityOf? memberships)).forM Value.hashable = .ok () := by
    refine Gives.forM fun id hid => ?_
    obtain ⟨n, rfl⟩ := hfound id hid
    rfl
  have hints : ∀ id ∈ distinct (ids.filterMap (communityOf? memberships)), ∃ n, id = .int n := by
    intro id hid
    obtain ⟨entry, hentry, rfl⟩ := List.mem_map.mp hid
    obtain ⟨n, hn⟩ := hfound _ ((tally_spec _).1 entry hentry)
    exact ⟨n, hn⟩
  have horder : Value.orderly ((distinct (ids.filterMap (communityOf? memberships))).map id)
      = true := by
    rw [List.map_id]
    exact Value.orderly_of_ints hints
  unfold communitiesOf
  simp only [hmembers, hscalar]
  exact (Value.sortOn_gives horder).imp fun _ _ => trivial

/-- Nothing before the search for communities can fail. -/
theorem impactOf_eq (α : Type) [Scalar α] (hv : g.Valid) (hc : g.Closed) {q : ImpactQuery}
    (hbudget : checkBudget "depth" q.depth = .ok ()) {d : Nat}
    (hsteps : impactDepth g.order q.depth = .ok d) {kinds : KindFilter}
    (hkinds : KindFilter.read q.kinds = .ok kinds) {algorithm : CommunityAlgorithm}
    (halgorithm : Tagged.coerce q.algorithm = .ok algorithm) :
    g.impactOf α source (.ok s) q
      = q.affected g (Impact.reach (Index.ofArcs (g.arcs kinds.keeps)) true s d) >>=
        Impact.report α source q.depth (Impact.reach (Index.ofArcs (g.arcs kinds.keeps)) true s d)
          (Impact.reach (Index.ofArcs (g.arcs kinds.keeps)) false s d) := by
  unfold impactOf
  simp only [hbudget, halgorithm, hkinds, hsteps, Logged.lift_ok, pure_bind, index_eq_pure hv hc]

theorem impactIn_eq (α : Type) [Scalar α] (hv : g.Valid) (hc : g.Closed)
    (hs : g.vertex? source = some s) {q : ImpactQuery} {d : Nat} (hdepth : q.depth = .int d)
    {kinds : KindFilter} (hkinds : KindFilter.read q.kinds = .ok kinds)
    {algorithm : CommunityAlgorithm} (halgorithm : Tagged.coerce q.algorithm = .ok algorithm) :
    g.impactIn α source q
      = q.affected g (Impact.reach (Index.ofArcs (g.arcs kinds.keeps)) true s d) >>=
        Impact.report α source q.depth (Impact.reach (Index.ofArcs (g.arcs kinds.keeps)) true s d)
          (Impact.reach (Index.ofArcs (g.arcs kinds.keeps)) false s d) := by
  have hfs : g.find source = .ok s := find_eq_ok.mpr ⟨hv.scalar_of_vertex? hs, hs⟩
  have hbudget : checkBudget "depth" q.depth = .ok () :=
    hdepth ▸ checkBudget_depthValue "depth" (some d)
  have hsteps : impactDepth g.order q.depth = .ok d := by rw [hdepth]; rfl
  unfold impactIn
  rw [hfs]
  exact impactOf_eq α hv hc hbudget hsteps hkinds halgorithm

end CodeGraph.Graph
