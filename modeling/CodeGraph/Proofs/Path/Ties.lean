import CodeGraph.Proofs.Path.ByCost
import CodeGraph.Proofs.Path.ByHops
import CodeGraph.Proofs.Path.EdgeOrder

/-!
# Ties go to the walk that is first in edge order

Of several shortest paths, the search by number of steps answers with the first
one in edge order (`byHops_first`), and so does the search by cost where every
arc costs one (`byCost_first`). They find the same path for this reason, though
one goes layer by layer and stops at the discovery of the target, while the
other keeps a queue of routes, some of them dominated, and stops when the target
is settled.

Both are held against `Lined`. For the traversal the settled walks are those to
the vertices whose layer has been left or is being left (`Marching`). For the
search by cost they are the settled routes. Its queue is in edge order, so the
cheapest route is the one in front; a route that comes too late ends in a
settled vertex, and is not a first walk.
-/

namespace CodeGraph.Path

variable {n : Nat} {index : Index n} {rank : Arc n → Nat} {start : Fin n}

/-! ## By number of steps -/

section PathTo

variable {β : Type} {met added : List (Discovery n β)} {v : Fin n}

theorem pathTo_snoc (met : List (Discovery n β)) (d : Discovery n β) (v : Fin n) :
    pathTo (met ++ [d]) v
      = if d.vertex = v then pathTo met d.parent ++ [d.via] else pathTo met v := by
  have hacc : ∀ (w : Fin n) (path : List β),
      met.foldr stepBack (w, path) = ((met.foldr stepBack (w, [])).1, pathTo met w ++ path) := by
    intro w path
    unfold pathTo
    induction met with
    | nil => rfl
    | cons e rest ih =>
        rw [List.foldr_cons, List.foldr_cons, ih]
        unfold stepBack
        dsimp only
        split <;> rfl
  rw [pathTo, List.foldr_append, List.foldr_cons, List.foldr_nil]
  by_cases h : d.vertex = v
  · rw [if_pos h, stepBack, if_pos h, hacc]
  · rw [if_neg h, stepBack, if_neg h, pathTo]

theorem pathTo_append_of_ne (h : ∀ d ∈ added, d.vertex ≠ v) :
    pathTo (met ++ added) v = pathTo met v := by
  induction added using List.reverseRecOn with
  | nil => rw [List.append_nil]
  | append_singleton added d ih =>
      rw [← List.append_assoc, pathTo_snoc, if_neg (h d (by simp))]
      exact ih fun e he => h e (List.mem_append_left _ he)

theorem pathTo_append_of_mem (hnodup : (added.map Discovery.vertex).Nodup) {d : Discovery n β}
    (hd : d ∈ added) (hparent : ∀ e ∈ added, e.vertex ≠ d.parent) :
    pathTo (met ++ added) d.vertex = pathTo met d.parent ++ [d.via] := by
  obtain ⟨pre, post, rfl⟩ := List.append_of_mem hd
  have hpost : ∀ e ∈ post, e.vertex ≠ d.vertex := fun e he heq => by
    rw [List.map_append, List.map_cons] at hnodup
    have := (List.nodup_cons.mp (List.nodup_append.mp hnodup).2.1).1
    exact this (heq ▸ List.mem_map_of_mem he)
  rw [show met ++ (pre ++ d :: post) = ((met ++ pre) ++ [d]) ++ post by simp,
    pathTo_append_of_ne hpost, pathTo_snoc, if_pos rfl,
    pathTo_append_of_ne fun e he => hparent e (List.mem_append_left _ he)]

end PathTo

theorem known_snoc (met : List (Discovery n (Arc n))) (v : Fin n) (arc : Arc n) (k : Nat) :
    Traversal.known start (met ++ [⟨arc.target, v, arc, k⟩])
      = fun w => Traversal.known start met w || decide (w = arc.target) := by
  funext w
  simp [Traversal.known, Bool.or_assoc, eq_comm]

theorem foldl_meet (v : Fin n) (k : Nat) (arcs : List (Arc n))
    (met : List (Discovery n (Arc n))) :
    (arcs.map fun arc => (arc, arc.target)).foldl (Traversal.meet start v k) met
      = met ++ (newArcs (Traversal.known start met) arcs).map
          fun arc => ⟨arc.target, v, arc, k⟩ := by
  induction arcs generalizing met with
  | nil => simp [newArcs]
  | cons arc rest ih =>
      rw [List.map_cons, List.foldl_cons, ih, newArcs, Traversal.meet]
      by_cases hknown : Traversal.known start met arc.target = true
      · simp [hknown]
      · simp only [hknown, Bool.false_eq_true, if_false, known_snoc, List.map_cons]
        simp

/-- The discoveries made along the steps out of `v`. -/
def metFrom (index : Index n) (start : Fin n) (met : List (Discovery n (Arc n))) (v : Fin n)
    (k : Nat) : List (Discovery n (Arc n)) :=
  (newArcs (Traversal.known start met) (index.out v)).map fun arc => ⟨arc.target, v, arc, k⟩

section MetFrom

variable {met : List (Discovery n (Arc n))} {v w : Fin n}

theorem map_vertex_metFrom (k : Nat) : (metFrom index start met v k).map Discovery.vertex
    = (newArcs (Traversal.known start met) (index.out v)).map Arc.target := by
  rw [metFrom, List.map_map]
  rfl

theorem ne_of_mem_metFrom {k : Nat} (hw : Traversal.known start met w = true)
    {d : Discovery n (Arc n)} (hd : d ∈ metFrom index start met v k) : d.vertex ≠ w := by
  rintro rfl
  obtain ⟨arc, harc, rfl⟩ := List.mem_map.mp hd
  have := (mem_newArcs harc).2
  rw [hw] at this
  cases this

theorem pathTo_metFrom_of_known (k : Nat) (hw : Traversal.known start met w = true) :
    pathTo (met ++ metFrom index start met v k) w = pathTo met w :=
  pathTo_append_of_ne fun _ hd => ne_of_mem_metFrom hw hd

theorem pathTo_metFrom_of_new (k : Nat) (hv : Traversal.known start met v = true)
    {arc : Arc n} (harc : arc ∈ newArcs (Traversal.known start met) (index.out v)) :
    pathTo (met ++ metFrom index start met v k) arc.target = pathTo met v ++ [arc] := by
  have hnodup : ((metFrom index start met v k).map Discovery.vertex).Nodup := by
    rw [map_vertex_metFrom]
    exact nodup_newArcs ..
  exact pathTo_append_of_mem (d := ⟨arc.target, v, arc, k⟩) hnodup
    (List.mem_map.mpr ⟨arc, harc, rfl⟩) fun _ he => ne_of_mem_metFrom hv he

end MetFrom

/-- A traversal on its way: the vertices it has gone on from, those of the layer still to go, and
those of the next layer met so far. -/
structure Marching (index : Index n) (rank : Arc n → Nat) (start : Fin n) (k : Nat)
    (done layer next : List (Fin n)) (met : List (Discovery n (Arc n))) : Prop where
  order : start :: met.map Discovery.vertex = done ++ (layer ++ next)
  walk : ∀ v ∈ done ++ (layer ++ next), index.Walk start (pathTo met v) v
  here : ∀ v ∈ layer, (pathTo met v).length = k
  ahead : ∀ v ∈ next, (pathTo met v).length = k + 1
  lined : Lined index rank start none (done.map (pathTo met)) ((layer ++ next).map (pathTo met))

namespace Marching

variable {k : Nat} {done layer next : List (Fin n)} {met : List (Discovery n (Arc n))}
  {v : Fin n}

theorem init : Marching index rank start 0 [] [start] [] [] where
  order := rfl
  walk v hv := by
    obtain rfl : v = start := by simpa using hv
    rfl
  here := by simp [pathTo]
  ahead := by simp
  lined := .init

theorem known_iff (h : Marching index rank start k done layer next met) :
    Traversal.known start met v = true ↔ v ∈ done ++ (layer ++ next) := by
  rw [Traversal.known_iff, ← h.order, List.mem_cons, List.mem_map]

theorem step (hrank : index.Ranks rank)
    (h : Marching index rank start k done (v :: layer) next met) (d : Nat) :
    Marching index rank start k (done ++ [v]) layer
      (next ++ (metFrom index start met v d).map Discovery.vertex)
      (met ++ metFrom index start met v d) := by
  have hv : v ∈ done ++ ((v :: layer) ++ next) := by simp
  have hold : ∀ w ∈ done ++ ((v :: layer) ++ next),
      pathTo (met ++ metFrom index start met v d) w = pathTo met w :=
    fun w hw => pathTo_metFrom_of_known d (h.known_iff.mpr hw)
  have hnew : ∀ arc ∈ newArcs (Traversal.known start met) (index.out v),
      pathTo (met ++ metFrom index start met v d) arc.target = pathTo met v ++ [arc] :=
    fun arc harc => pathTo_metFrom_of_new d (h.known_iff.mpr hv) harc
  refine ⟨?_, fun w hw => ?_, fun w hw => ?_, fun w hw => ?_, ?_⟩
  · rw [List.map_append, ← List.cons_append, h.order]
    simp
  · have hsplit : w ∈ done ++ ((v :: layer) ++ next) ∨
        w ∈ (metFrom index start met v d).map Discovery.vertex := by
      simp only [List.mem_append, List.mem_cons, List.not_mem_nil, or_false] at hw ⊢
      tauto
    rcases hsplit with hw | hw
    · rw [hold w hw]
      exact h.walk w hw
    · rw [map_vertex_metFrom] at hw
      obtain ⟨arc, harc, rfl⟩ := List.mem_map.mp hw
      rw [hnew arc harc]
      exact (h.walk v hv).snoc (mem_newArcs harc).1
  · rw [hold w (by simp [hw])]
    exact h.here w (List.mem_cons_of_mem _ hw)
  · rcases List.mem_append.mp hw with hw | hw
    · rw [hold w (by simp [hw])]
      exact h.ahead w hw
    · rw [map_vertex_metFrom] at hw
      obtain ⟨arc, harc, rfl⟩ := List.mem_map.mp hw
      rw [hnew arc harc, List.length_append, h.here v (List.mem_cons_self ..)]
      rfl
  · have hlined := h.lined.expand hrank (h.walk v hv)
      (Traversal.known start met) fun w hw => by
        have hmem := h.known_iff.mp hw
        refine ⟨pathTo met w, ?_, h.walk w hmem⟩
        have := List.mem_map_of_mem (f := pathTo met) hmem
        rwa [List.map_append] at this
    have hdone : (done ++ [v]).map (pathTo (met ++ metFrom index start met v d))
        = done.map (pathTo met) ++ [pathTo met v] := by
      rw [← List.map_singleton, ← List.map_append]
      refine List.map_congr_left fun w hw => hold w ?_
      simp only [List.mem_append, List.mem_cons, List.not_mem_nil, or_false] at hw ⊢
      tauto
    have htodo : (layer ++ next).map (pathTo (met ++ metFrom index start met v d))
        = (layer ++ next).map (pathTo met) := by
      refine List.map_congr_left fun w hw => hold w ?_
      simp only [List.mem_append, List.mem_cons] at hw ⊢
      tauto
    have hchildren : ((metFrom index start met v d).map Discovery.vertex).map
        (pathTo (met ++ metFrom index start met v d))
        = (newArcs (Traversal.known start met) (index.out v)).map
          fun arc => pathTo met v ++ [arc] := by
      rw [map_vertex_metFrom, List.map_map]
      exact List.map_congr_left hnew
    rw [hdone, ← List.append_assoc, List.map_append, htodo, hchildren]
    exact hlined

theorem expand (hrank : index.Ranks rank) (h : Marching index rank start k done layer next met)
    (d : Nat) :
    ∃ added, Traversal.expand (index.steps true) start d layer met = met ++ added ∧
      Marching index rank start k (done ++ layer) []
        (next ++ added.map Discovery.vertex) (met ++ added) := by
  induction layer generalizing done next met with
  | nil => exact ⟨[], by simp [Traversal.expand], by simpa using h⟩
  | cons v layer ih =>
      have hmeet : (index.steps true v).foldl (Traversal.meet start v d) met
          = met ++ metFrom index start met v d := foldl_meet v d (index.out v) met
      obtain ⟨added, hadded, hmarch⟩ := ih (h.step hrank d)
      refine ⟨metFrom index start met v d ++ added, ?_, ?_⟩
      · rw [Traversal.expand, List.foldl_cons, hmeet, ← List.append_assoc]
        exact hadded
      · simpa [List.append_assoc] using hmarch

/-- With a layer left, the next one is there in full. -/
theorem turn (h : Marching index rank start k done [] next met) :
    Marching index rank start (k + 1) done next [] met where
  order := by simpa using h.order
  walk := by simpa using h.walk
  here := h.ahead
  ahead := by simp
  lined := by simpa using h.lined

/-- Whatever has been met by the end of a layer has been met along a first walk. -/
theorem first (h : Marching index rank start k done layer [] met)
    (hv : Traversal.known start met v = true) :
    First index rank start (pathTo met v) v := by
  have hmem := h.known_iff.mp hv
  have hwalk := h.walk v hmem
  obtain ⟨p, hp⟩ := exists_first rank hwalk
  have hself : ∀ w ∈ done ++ (layer ++ []), pathTo met w = p → pathTo met v = p := by
    intro w hw heq
    rw [← heq] at hp ⊢
    rw [(h.walk w hw).end_unique hp.walk]
  suffices pathTo met v = p from this ▸ hp
  rcases h.lined.reach hp (by simp [Fits]) with hdone | ⟨q, hq, hpre⟩
  · obtain ⟨w, hw, heq⟩ := List.mem_map.mp hdone
    exact hself w (List.mem_append_left _ hw) heq
  · obtain ⟨w, hw, rfl⟩ := List.mem_map.mp hq
    rcases List.mem_append.mp hmem with hdone | hlayer
    · -- `v` was left before `w` was
      have hbefore := (List.pairwise_append.mp h.lined.sorted).2.2
        (pathTo met v) (List.mem_map_of_mem hdone) (pathTo met w) hq
      refine absurd ?_ (hp.least _ hwalk)
      rcases Before.of_prefix rank hpre with heq | hlt
      · exact heq ▸ hbefore
      · exact hbefore.trans hlt
    · refine hself w (List.mem_append_right _ hw) (hpre.eq_of_length_le ?_)
      rw [List.append_nil] at hw hlayer
      rw [h.here w hw, ← h.here v hlayer]
      exact hp.length_le hwalk

theorem layers (hrank : index.Ranks rank) (left : Nat)
    (h : Marching index rank start k done layer [] met)
    (hv : Traversal.known start
      (Traversal.layers (index.steps true) start left k layer met) v = true) :
    First index rank start
      (pathTo (Traversal.layers (index.steps true) start left k layer met) v) v := by
  induction left generalizing k done layer met with
  | zero => exact h.first hv
  | succ left ih =>
      cases layer with
      | nil => exact h.first hv
      | cons w layer =>
          obtain ⟨added, hadded, hmarch⟩ := h.expand hrank (k + 1)
          have hnext : ((met ++ added).drop met.length).map Discovery.vertex
              = added.map Discovery.vertex := by rw [List.drop_left]
          rw [Traversal.layers, hadded] at hv ⊢
          simp only [hnext] at hv ⊢
          exact ih hmarch.turn hv

end Marching

/-- The search by number of steps answers with the first of all walks to the target. -/
theorem byHops_first {α : Type} [Scalar α] (hrank : index.Ranks rank) {source target : Fin n}
    {budget : Option Nat} {p : List (Arc n)} {c : α}
    (h : byHops index source target budget = .found p c) : First index rank source p target := by
  unfold byHops at h
  simp only at h
  split at h
  · next d hfind =>
    obtain ⟨rfl, -⟩ := Outcome.found.inj h
    have hknown : Traversal.known source
        (Traversal.within (index.steps true) source (budget.getD n)) target = true :=
      Traversal.known_iff.mpr (Or.inr ⟨d, List.mem_of_find?_eq_some hfind,
        by simpa using List.find?_some hfind⟩)
    exact Marching.init.layers hrank _ hknown
  · split at h
    · cases h
    · split at h <;> cases h

theorem byHops_cost {α : Type} [Scalar α] (hrank : index.Ranks rank) {source target : Fin n}
    {budget : Option Nat} {p : List (Arc n)} {c : α}
    (h : byHops index source target budget = .found p c) : c = Scalar.ofNat p.length := by
  have hfirst := byHops_first hrank h
  have hswept := Traversal.swept_within (index.steps true) source (budget.getD n)
  unfold byHops at h
  simp only at h
  split at h
  · next d hfind =>
    obtain ⟨-, rfl⟩ := Outcome.found.inj h
    have hdist := hswept.exact d (List.mem_of_find?_eq_some hfind)
    have hvertex : d.vertex = target := by simpa using List.find?_some hfind
    rw [hvertex] at hdist
    obtain ⟨q, hq, hlength⟩ := hops_iff_walk.mp hdist.1
    have hle := hdist.2 _ (hops_iff_walk.mpr ⟨p, hfirst.walk, rfl⟩)
    have hge := hfirst.length_le hq
    rw [show d.distance = p.length by omega]
  · split at h
    · cases h
    · split at h <;> cases h

/-! ## By cost, where every arc costs one -/

theorem walkCost_one (p : List (Arc n)) : walkCost (fun _ => (1 : Rat)) p = p.length := by
  induction p using List.reverseRecOn with
  | nil => rfl
  | append_singleton p arc ih =>
      rw [walkCost_snoc, ih]
      simp

/-- The arcs of a route, from the source on. -/
def Route.walk {α : Type} (r : Route n α) : List (Arc n) :=
  r.trail.reverse

@[simp] theorem Route.walk_prolong (P : Problem n Rat) (route : Route n Rat) (arc : Arc n) :
    (route.prolong P arc).walk = route.walk ++ [arc] := by
  simp [Route.walk, Route.prolong]

theorem popCheapest_cons {route : Route n Rat} {rest : List (Route n Rat)}
    (hfront : ∀ q ∈ rest, ¬q.cost < route.cost) :
    popCheapest (route :: rest) = some (route, rest) := by
  rw [popCheapest]
  cases hpop : popCheapest rest with
  | none => rw [popCheapest_eq_none.mp hpop]
  | some pair =>
      obtain ⟨cheapest, others⟩ := pair
      have hmem : cheapest ∈ rest :=
        (popCheapest_perm hpop).mem_iff.mpr (List.mem_cons_self ..)
      simp [hfront cheapest hmem]

structure UnitCosts (P : Problem n Rat) (weigh : Edge → Except Failure Rat) : Prop
    extends P.Sound weigh where
  one : P.cost = fun _ => 1

section UnitCosts

variable {P : Problem n Rat} {weigh : Edge → Except Failure Rat} {done : List (Route n Rat)}
  {settled : Settled n} {stopped : List (Fin n)} {frontier : Frontier n Rat}
  {route : Route n Rat} {queue : List (Route n Rat)}

theorem Trip.cost_eq_length (hP : UnitCosts P weigh) {r : Route n Rat} (h : Trip P r) :
    r.cost = r.walk.length := by
  rw [h.cost_eq, hP.one]
  exact walkCost_one _

/-- A vertex that the search would not queue a route to with this many steps. -/
def heldAt (settled : Settled n) (frontier : Frontier n Rat) (hops : Nat) (w : Fin n) : Bool :=
  settled.covers w hops || (frontier.best.lookup (w, hops)).isSome

/-- Continuing a route queues its prolongations to the vertices that are not held, in order. -/
theorem relaxAll_eq (hP : UnitCosts P weigh) (settled : Settled n) (frontier : Frontier n Rat)
    (arcs : List (Arc n)) (harcs : ∀ arc ∈ arcs, arc ∈ P.index.out route.vertex)
    (hnoted : ∀ label c, frontier.best.lookup label = some c → c ≤ route.cost + 1) :
    ∃ next, arcs.foldlM (relaxArc weigh settled P.budget.isSome route) frontier = .ok next ∧
      next.queue = frontier.queue ++
        (newArcs (heldAt settled frontier (P.nextHops route.hops)) arcs).map (route.prolong P) ∧
      ∀ label c, next.best.lookup label = some c → c ≤ route.cost + 1 := by
  induction arcs generalizing frontier with
  | nil => exact ⟨frontier, rfl, by simp [newArcs], hnoted⟩
  | cons arc rest ih =>
      have harc := harcs arc (List.mem_cons_self ..)
      have hrest : ∀ a ∈ rest, a ∈ P.index.out route.vertex := fun a ha =>
        harcs a (List.mem_cons_of_mem _ ha)
      have hcost : P.cost arc.edge = 1 := by rw [hP.one]
      rw [List.foldlM_cons, newArcs]
      by_cases hheld : heldAt settled frontier (P.nextHops route.hops) arc.target = true
      · have hstay : relaxArc weigh settled P.budget.isSome route frontier arc = .ok frontier := by
          cases hcov : settled.covers arc.target (P.nextHops route.hops) with
          | true => exact relaxArc_covered (hP.passes harc) hcov
          | false =>
              rw [heldAt, hcov, Bool.false_or, Option.isSome_iff_exists] at hheld
              obtain ⟨known, hknown⟩ := hheld
              refine relaxArc_known (hP.passes harc) hcov hknown ?_
              rw [hcost]
              exact not_lt.mpr (hnoted _ _ hknown)
        rw [hstay, if_pos hheld]
        exact ih frontier hrest hnoted
      · obtain ⟨hcov, hlookup⟩ := Bool.or_eq_false_iff.mp (Bool.eq_false_iff.mpr hheld)
        rw [Option.isSome_eq_false_iff, Option.isNone_iff_eq_none] at hlookup
        rw [relaxArc_better (hP.passes harc) hcov (by simp [hlookup]), if_neg hheld]
        obtain ⟨next, hnext, hqueue, hbest⟩ := ih ⟨frontier.queue ++
            [route.prolong P arc], setBest frontier.best (arc.target, P.nextHops route.hops)
              (route.cost + P.cost arc.edge)⟩ hrest fun label c hc => by
          rw [lookup_setBest] at hc
          split at hc
          · rw [← Option.some.inj hc, hcost]
          · exact hnoted label c hc
        refine ⟨next, hnext, ?_, hbest⟩
        have hheld' : heldAt settled ⟨frontier.queue ++ [route.prolong P arc],
            setBest frontier.best (arc.target, P.nextHops route.hops)
              (route.cost + P.cost arc.edge)⟩ (P.nextHops route.hops)
            = fun w => heldAt settled frontier (P.nextHops route.hops) w ||
                decide (w = arc.target) := by
          funext w
          unfold heldAt
          rw [lookup_setBest]
          by_cases hw : w = arc.target <;> simp [hw]
        rw [hqueue, hheld']
        simp

/-- The routes are settled and queued in edge order, and no cost is noted that a route to come
would improve. -/
structure InOrder (P : Problem n Rat) (rank : Arc n → Nat) (done : List (Route n Rat))
    (frontier : Frontier n Rat) : Prop where
  lined : Lined P.index rank P.source P.budget (done.reverse.map Route.walk)
    (frontier.queue.map Route.walk)
  noted : ∀ label c, frontier.best.lookup label = some c →
    ∀ q ∈ frontier.queue, c ≤ q.cost + 1

theorem inOrder_start (P : Problem n Rat) (rank : Arc n → Nat) :
    InOrder P rank [] (Frontier.start P.source) where
  lined := .init
  noted label c hc q hq := by
    obtain rfl : q = ⟨P.source, 0, 0, []⟩ := by simpa [Frontier.start] using hq
    simp only [Frontier.start, List.lookup_cons, List.lookup_nil] at hc
    split at hc
    · rw [← Option.some.inj hc]
      norm_num
    · cases hc

/-- The route that is taken off the queue is the one in front. -/
theorem InOrder.queue_eq (hP : UnitCosts P weigh) (ho : InOrder P rank done frontier)
    (h : Inv P done settled stopped frontier)
    (hpop : popCheapest frontier.queue = some (route, queue)) :
    frontier.queue = route :: queue := by
  cases hq : frontier.queue with
  | nil => rw [hq] at hpop; cases hpop
  | cons front rest =>
      have htrip : ∀ q ∈ front :: rest, Trip P q := fun q hmem =>
        h.trip q (List.mem_append_right _ (hq ▸ hmem))
      have hlined := ho.lined
      rw [hq, List.map_cons] at hlined
      have hpop' := popCheapest_cons fun q hmem => by
          have hbefore := hlined.front_before (List.mem_map_of_mem hmem)
          rw [(htrip q (List.mem_cons_of_mem _ hmem)).cost_eq_length hP,
            (htrip front (List.mem_cons_self ..)).cost_eq_length hP, Nat.cast_lt]
          rcases before_iff.mp hbefore with hlt | ⟨heq, -⟩ <;> omega
      rw [hq, hpop'] at hpop
      obtain ⟨rfl, rfl⟩ := Prod.mk.inj (Option.some.inj hpop)
      rfl

theorem Trip.walk_iff {r : Route n Rat} (h : Trip P r) {v : Fin n} :
    P.index.Walk P.source r.walk v ↔ r.vertex = v :=
  ⟨fun hv => h.admits.walk.end_unique hv, fun hv => hv ▸ h.admits.walk⟩

/-- A route that comes too late ends in a settled vertex. -/
theorem Inv.settled_of_late (h : Inv P done settled stopped frontier)
    (hpop : Popped frontier route queue)
    (hlate : (frontier.outdated route || settled.covers route.vertex route.hops) = true) :
    ∃ r ∈ done, r.vertex = route.vertex := by
  rcases Bool.or_eq_true_iff.mp hlate with hout | hcov
  · unfold Frontier.outdated at hout
    cases hknown : frontier.best.lookup (route.vertex, route.hops) with
    | none => rw [hknown] at hout; cases hout
    | some known =>
        rw [hknown] at hout
        have hlt : known < route.cost := of_decide_eq_true hout
        obtain ⟨-, r, hr, hv, -, hle⟩ := h.best _ _ hknown
        rcases List.mem_append.mp hr with hr | hr
        · exact ⟨r, hr, hv⟩
        · exact absurd (lt_of_le_of_lt (not_lt.mp hle) hlt) (hpop.cheapest r hr)
  · obtain ⟨r, hr, hv, -⟩ := (h.settled_iff _ _).mp hcov
    exact ⟨r, hr, hv⟩

theorem InOrder.skip (ho : InOrder P rank done frontier) (h : Inv P done settled stopped frontier)
    (hqueue : frontier.queue = route :: queue) (hpop : Popped frontier route queue)
    (hlate : (frontier.outdated route || settled.covers route.vertex route.hops) = true) :
    InOrder P rank done ⟨queue, frontier.best⟩ := by
  have hlined := ho.lined
  rw [hqueue, List.map_cons] at hlined
  obtain ⟨r, hr, hv⟩ := h.settled_of_late hpop hlate
  have hroute := h.trip route (List.mem_append_right _ hpop.mem)
  refine ⟨hlined.drop hroute.admits.walk fun hfirst => ?_, fun label c hc q hq =>
    ho.noted label c hc q (hpop.rest q hq)⟩
  have hmem : r.walk ∈ done.reverse.map Route.walk :=
    List.mem_map_of_mem (List.mem_reverse.mpr hr)
  exact hfirst.least r.walk ((h.trip r (List.mem_append_left _ hr)).walk_iff.mpr hv)
    (hlined.before_front hmem)

theorem InOrder.stop (ho : InOrder P rank done frontier) (h : Inv P done settled stopped frontier)
    (hqueue : frontier.queue = route :: queue) (hpop : Popped frontier route queue)
    (hspent : P.spent route.hops = true) :
    InOrder P rank (route :: done) ⟨queue, frontier.best⟩ := by
  have hlined := ho.lined
  rw [hqueue, List.map_cons] at hlined
  have hroute := h.trip route (List.mem_append_right _ hpop.mem)
  have hfull : ¬Fits P.budget (route.walk.length + 1) := by
    intro hfits
    have hhops : route.hops ≤ P.level route.walk.length := by
      rw [hroute.hops_eq, Route.walk, List.length_reverse]
    rw [P.spent_level hhops hfits] at hspent
    cases hspent
  refine ⟨?_, fun label c hc q hq => ho.noted label c hc q (hpop.rest q hq)⟩
  have hsettled := hlined.settle [] List.Pairwise.nil
    fun _ _ _ hfits => absurd hfits hfull
  simpa using hsettled

theorem InOrder.expand (hP : UnitCosts P weigh) (hrank : P.index.Ranks rank)
    (ho : InOrder P rank done frontier) (h : Inv P done settled stopped frontier)
    (hqueue : frontier.queue = route :: queue) (hpop : Popped frontier route queue)
    (hnew : settled.covers route.vertex route.hops = false) {next : Frontier n Rat}
    (hnext : (P.index.out route.vertex).foldlM
      (relaxArc weigh (settled.set route.vertex (some route.hops)) P.budget.isSome route)
      ⟨queue, frontier.best⟩ = .ok next) :
    InOrder P rank (route :: done) next := by
  have hlined := ho.lined
  rw [hqueue, List.map_cons] at hlined
  have hroute := h.trip route (List.mem_append_right _ hpop.mem)
  have hnoted : ∀ label c, frontier.best.lookup label = some c → c ≤ route.cost + 1 :=
    fun label c hc => ho.noted label c hc route hpop.mem
  obtain ⟨next', hnext', hqueue', hbest⟩ :=
    relaxAll_eq hP (settled.set route.vertex (some route.hops)) ⟨queue, frontier.best⟩
      (P.index.out route.vertex) (fun _ harc => harc) hnoted
  obtain rfl := Except.ok.inj (hnext.symm.trans hnext')
  -- every vertex that is held is the end of a route, settled or waiting
  have hheld : ∀ w, heldAt (settled.set route.vertex (some route.hops)) ⟨queue, frontier.best⟩
      (P.nextHops route.hops) w = true →
      ∃ q ∈ done.reverse.map Route.walk ++ route.walk :: queue.map Route.walk,
        P.index.Walk P.source q w := by
    intro w hw
    have hfound : ∃ r ∈ done ++ frontier.queue, r.vertex = w := by
      rcases Bool.or_eq_true_iff.mp hw with hcov | hlookup
      · obtain ⟨r, hr, hv, -⟩ := (h.settled_iff_set hnew w _).mp hcov
        rcases List.mem_cons.mp hr with rfl | hr
        · exact ⟨r, List.mem_append_right _ hpop.mem, hv⟩
        · exact ⟨r, List.mem_append_left _ hr, hv⟩
      · obtain ⟨c, hc⟩ := Option.isSome_iff_exists.mp hlookup
        obtain ⟨-, r, hr, hv, -⟩ := h.best _ _ hc
        exact ⟨r, hr, hv⟩
    obtain ⟨r, hr, hv⟩ := hfound
    refine ⟨r.walk, ?_, (h.trip r hr).walk_iff.mpr hv⟩
    rw [hqueue] at hr
    have := List.mem_map_of_mem (f := Route.walk) hr
    simpa using this
  refine ⟨?_, fun label c hc q hq => ?_⟩
  · have hexpanded := hlined.expand hrank hroute.admits.walk _ hheld
    rw [hqueue', List.map_append, List.map_map]
    simpa [Function.comp_def] using hexpanded
  · have hle : route.cost ≤ q.cost := by
      rw [hqueue'] at hq
      rcases List.mem_append.mp hq with hq | hq
      · exact not_lt.mp (hpop.cheapest q (hpop.rest q hq))
      · obtain ⟨arc, -, rfl⟩ := List.mem_map.mp hq
        simp [Route.prolong, hP.one]
    exact (hbest label c hc).trans (add_le_add_left hle 1)

/-- What the search finds from any state that it reaches in order. -/
theorem settle_first (hP : UnitCosts P weigh) (hrank : P.index.Ranks rank)
    (h : Inv P done settled stopped frontier) (ho : InOrder P rank done frontier)
    {p : List (Arc n)} {c : Rat}
    (hfound : settle P.index weigh P.target P.budget settled stopped frontier = .found p c) :
    First P.index rank P.source p P.target := by
  have fresh : ∀ {late covered : Bool}, ¬(late || covered) = true → covered = false :=
    fun hlate => (Bool.or_eq_false_iff.mp (Bool.eq_false_iff.mpr hlate)).2
  fun_induction settle P.index weigh P.target P.budget settled stopped frontier generalizing done
  case case1 => cases hfound
  case case2 => cases hfound
  case case3 hpop hlate ih =>
    exact ih (h.skip hP.toSound (h.popped hpop) hlate)
      (ho.skip h (ho.queue_eq hP h hpop) (h.popped hpop) hlate) hfound
  case case4 route queue hpop hlate htarget =>
    obtain ⟨rfl, -⟩ := Outcome.found.inj hfound
    have hlined := ho.lined
    rw [ho.queue_eq hP h hpop, List.map_cons] at hlined
    have hroute := h.trip route (List.mem_append_right _ (h.popped hpop).mem)
    refine hlined.front_first (hroute.walk_iff.mpr htarget) hroute.admits.fits fun q hq hwalk => ?_
    obtain ⟨r, hr, rfl⟩ := List.mem_map.mp hq
    have hr' := List.mem_reverse.mp hr
    exact h.target_open r hr' ((h.trip r (List.mem_append_left _ hr')).walk_iff.mp hwalk)
  case case5 hpop hlate htarget hspent ih =>
    exact ih (h.stop (h.popped hpop) (fresh hlate) htarget hspent)
      (ho.stop h (ho.queue_eq hP h hpop) (h.popped hpop) hspent) hfound
  case case6 hpop hlate htarget hspent _ herror =>
    obtain ⟨next, hnext, -⟩ :=
      h.expand hP.toSound (h.popped hpop) (fresh hlate) htarget (Bool.eq_false_iff.mpr hspent)
    cases herror.symm.trans hnext
  case case7 hpop hlate htarget hspent _ hok ih =>
    obtain ⟨next, hnext, hinv⟩ :=
      h.expand hP.toSound (h.popped hpop) (fresh hlate) htarget (Bool.eq_false_iff.mpr hspent)
    obtain rfl := Except.ok.inj (hok.symm.trans hnext)
    exact ih hinv (ho.expand hP hrank h (ho.queue_eq hP h hpop) (h.popped hpop) (fresh hlate) hok)
      hfound

/-- Where every arc costs one, the search by cost answers with the first of all walks to the
target. -/
theorem byCost_first (hP : UnitCosts P weigh) (hrank : P.index.Ranks rank) {p : List (Arc n)}
    {c : Rat} (hfound : byCost P.index weigh P.source P.target P.budget = .found p c) :
    First P.index rank P.source p P.target :=
  settle_first hP hrank (inv_start P) (inOrder_start P rank) hfound

/-- The two searches have the same outcome, path and cost included. -/
theorem byHops_eq_byCost (hP : UnitCosts P weigh) (hrank : P.index.Ranks rank)
    (hne : P.source ≠ P.target) :
    byHops P.index P.source P.target P.budget
      = byCost P.index weigh P.source P.target P.budget := by
  have hhops := byHops_spec P hne
  have hcost := byCost_spec hP.toSound
  cases hresult : byCost P.index weigh P.source P.target P.budget with
  | found p c =>
      rw [hresult] at hcost
      obtain ⟨q, d, hfound, -⟩ := hhops.found_of_within ⟨p, hcost.admits⟩
      obtain rfl := (byHops_first hrank hfound).unique hrank (byCost_first hP hrank hresult)
      have hd : d = q.length := byHops_cost hrank hfound
      have hc : c = q.length := by
        rw [hcost.cost_eq, hP.one]
        exact walkCost_one q
      rw [hfound, hd, hc]
  | beyondBudget =>
      rw [hresult] at hcost
      exact (hhops.eq_of_not_within hcost.1).1 hcost.2
  | unreachable =>
      rw [hresult] at hcost
      exact (hhops.eq_of_not_within hcost.1).2 hcost.2
  | badWeight => rw [hresult] at hcost; exact hcost.elim
  | failed => rw [hresult] at hcost; exact hcost.elim

end UnitCosts

end CodeGraph.Path
