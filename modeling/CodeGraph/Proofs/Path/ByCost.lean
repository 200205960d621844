import Mathlib.Data.List.Induction
import Mathlib.Data.List.Nodup
import Mathlib.Data.List.Perm.Basic
import CodeGraph.Proofs.Path.Problem

/-!
# Searching by cost

The search by cost answers with a cheapest walk within its budget, or tells
truly why there is none (`byCost_spec`).

With a budget a vertex may be settled several times, each time with fewer
steps and at a higher cost, so "settled" does not mean "done". What carries the
proof is *covering*: a set of routes covers `(v, hops, cost)` if one of them
ends in `v` with no more steps and no higher cost. The settled and the waiting
routes together cover the start, every cost noted in the frontier, and every
continuation of a settled route that the budget admits. A route may be
dropped because the others cover it, and dropping it then uncovers nothing
(`Covers.drop`): this one lemma stands for both places where the search prunes
and for the skipping of outdated routes.

Covering is carried along a walk arc by arc (`Inv.covers_walk`). At the end of
a walk there is a settled route that is as good as the walk, or a waiting route
that is no more expensive; the cheapest waiting route is therefore no more
expensive than any walk to a target that is not settled yet.
-/

namespace CodeGraph.Path

variable {n : Nat} {α : Type}

/-! ## Routes -/

theorem append_subset_append_left (done : List (Route n α)) {queue queue' : List (Route n α)}
    (h : queue ⊆ queue') : done ++ queue ⊆ done ++ queue' :=
  List.append_subset.mpr
    ⟨List.subset_append_left .., fun _ hr => List.mem_append_right _ (h hr)⟩

theorem lookup_setBest (best : List ((Fin n × Nat) × α)) (label label' : Fin n × Nat) (c : α) :
    (setBest best label c).lookup label'
      = if label' = label then some c else best.lookup label' := by
  unfold setBest
  by_cases hl : label' = label
  · simp [hl]
  · rw [List.lookup_cons, if_neg hl]
    simp only [beq_eq_false_iff_ne.mpr hl]
    induction best with
    | nil => rfl
    | cons entry rest ih =>
        by_cases he : entry.1 = label
        · rw [List.filter_cons_of_neg (by simpa using he), ih, List.lookup_cons]
          have : (label' == entry.1) = false := by rw [he]; exact beq_eq_false_iff_ne.mpr hl
          simp [this]
        · rw [List.filter_cons_of_pos (by simpa using he), List.lookup_cons, List.lookup_cons, ih]

variable [Scalar α]

/-! ## Covering -/

/-- One of the routes ends in `v` with no more steps and at no higher cost. -/
def Covers (routes : List (Route n α)) (v : Fin n) (hops : Nat) (c : α) : Prop :=
  ∃ r ∈ routes, r.vertex = v ∧ r.hops ≤ hops ∧ ¬c < r.cost

section Covering

variable {routes routes' : List (Route n α)} {v : Fin n} {hops : Nat} {c : α}

theorem Covers.mono (h : Covers routes v hops c) (hsub : routes ⊆ routes') :
    Covers routes' v hops c := by
  obtain ⟨r, hr, hrest⟩ := h
  exact ⟨r, hsub hr, hrest⟩

theorem Covers.weaken [LawfulCost α] (h : Covers routes v hops c)
    (hfair : ∀ r ∈ routes, Fair r.cost) {hops' : Nat} {c' : α} (hc : Fair c) (hc' : Fair c')
    (hhops : hops ≤ hops') (hle : ¬c' < c) : Covers routes v hops' c' := by
  obtain ⟨r, hr, hv, hrhops, hrc⟩ := h
  exact ⟨r, hr, hv, Nat.le_trans hrhops hhops, LawfulCost.not_lt_trans (hfair r hr) hc hc' hrc hle⟩

theorem covers_self [LawfulCost α] {r : Route n α} (hr : r ∈ routes) (hfair : Fair r.cost) :
    Covers routes r.vertex r.hops r.cost :=
  ⟨r, hr, rfl, Nat.le_refl _, not_lt_self hfair⟩

theorem Covers.drop [LawfulCost α] (h : Covers routes v hops c)
    (hfair : ∀ r ∈ routes, Fair r.cost) (hc : Fair c) {route : Route n α}
    (hsub : routes ⊆ route :: routes') (hsub' : routes' ⊆ routes) (hroute : Fair route.cost)
    (hcover : Covers routes' route.vertex route.hops route.cost) : Covers routes' v hops c := by
  obtain ⟨r, hr, hv, hrhops, hrc⟩ := h
  rcases List.mem_cons.mp (hsub hr) with rfl | hmem
  · rw [← hv]
    exact hcover.weaken (fun r hr => hfair r (hsub' hr)) hroute hc hrhops hrc
  · exact ⟨r, hmem, hv, hrhops, hrc⟩

end Covering

/-! ## Taking the cheapest route -/

theorem popCheapest_eq_none {queue : List (Route n α)} :
    popCheapest queue = none ↔ queue = [] := by
  cases queue with
  | nil => simp [popCheapest]
  | cons route rest =>
      simp only [popCheapest, reduceCtorEq, iff_false]
      split
      · simp
      · split <;> simp

theorem popCheapest_perm {queue others : List (Route n α)} {route : Route n α}
    (h : popCheapest queue = some (route, others)) : queue.Perm (route :: others) := by
  induction queue generalizing route others with
  | nil => cases h
  | cons first rest ih =>
      rw [popCheapest] at h
      cases hpop : popCheapest rest with
      | none =>
          rw [hpop] at h
          obtain ⟨rfl, rfl⟩ := Prod.mk.inj (Option.some.inj h)
          rw [popCheapest_eq_none.mp hpop]
      | some pair =>
          obtain ⟨cheapest, left⟩ := pair
          rw [hpop] at h
          by_cases hlt : cheapest.cost < first.cost
          · simp only [hlt, if_true] at h
            obtain ⟨rfl, rfl⟩ := Prod.mk.inj (Option.some.inj h)
            exact ((ih hpop).cons first).trans (.swap ..)
          · simp only [hlt, if_false] at h
            obtain ⟨rfl, rfl⟩ := Prod.mk.inj (Option.some.inj h)
            exact .refl _

theorem popCheapest_least [LawfulCost α] {queue others : List (Route n α)} {route : Route n α}
    (hfair : ∀ q ∈ queue, Fair q.cost) (h : popCheapest queue = some (route, others)) :
    ∀ q ∈ queue, ¬q.cost < route.cost := by
  induction queue generalizing route others with
  | nil => cases h
  | cons first rest ih =>
      have hfirst := hfair first (List.mem_cons_self ..)
      have hrest : ∀ q ∈ rest, Fair q.cost := fun q hq => hfair q (List.mem_cons_of_mem _ hq)
      rw [popCheapest] at h
      cases hpop : popCheapest rest with
      | none =>
          rw [hpop] at h
          obtain ⟨rfl, rfl⟩ := Prod.mk.inj (Option.some.inj h)
          obtain rfl := popCheapest_eq_none.mp hpop
          intro q hq
          rw [List.mem_singleton.mp hq]
          exact not_lt_self hfirst
      | some pair =>
          obtain ⟨cheapest, left⟩ := pair
          rw [hpop] at h
          have hleast := ih hrest hpop
          have hcheapest := hrest cheapest
            ((popCheapest_perm hpop).mem_iff.mpr (List.mem_cons_self ..))
          by_cases hlt : cheapest.cost < first.cost
          · simp only [hlt, if_true] at h
            obtain ⟨rfl, rfl⟩ := Prod.mk.inj (Option.some.inj h)
            intro q hq
            rcases List.mem_cons.mp hq with rfl | hq
            · exact LawfulCost.lt_asymm hcheapest hfirst hlt
            · exact hleast q hq
          · simp only [hlt, if_false] at h
            obtain ⟨rfl, rfl⟩ := Prod.mk.inj (Option.some.inj h)
            intro q hq
            rcases List.mem_cons.mp hq with rfl | hq
            · exact not_lt_self hfirst
            · exact LawfulCost.not_lt_trans hfirst hcheapest (hrest q hq) hlt (hleast q hq)

/-! ## The invariant -/

/-- A route as the search builds them. -/
structure Trip (P : Problem n α) (r : Route n α) : Prop where
  admits : P.Admits r.trail.reverse r.vertex
  cost_eq : r.cost = walkCost P.cost r.trail.reverse
  hops_eq : r.hops = P.level r.trail.length
  fair : Fair r.cost

/-- What holds of the settled routes `done`, the tables that record them, and the frontier. -/
structure Base (P : Problem n α) (done : List (Route n α)) (settled : Settled n)
    (stopped : List (Fin n)) (frontier : Frontier n α) : Prop where
  trip : ∀ r ∈ done ++ frontier.queue, Trip P r
  start : Covers (done ++ frontier.queue) P.source 0 0
  best : ∀ label c, frontier.best.lookup label = some c →
    Fair c ∧ Covers (done ++ frontier.queue) label.1 label.2 c
  /-- Routes are settled in order of cost. -/
  ordered : ∀ r ∈ done, ∀ q ∈ frontier.queue, ¬q.cost < r.cost
  settled_iff : ∀ v hops, settled.covers v hops = true ↔
    ∃ r ∈ done, r.vertex = v ∧ r.hops ≤ hops
  stopped_iff : ∀ v, v ∈ stopped ↔ ∃ r ∈ done, r.vertex = v ∧ P.spent r.hops = true
  target_open : ∀ r ∈ done, r.vertex ≠ P.target
  /-- On the way of a waiting route no vertex comes twice, and each is settled. -/
  simple : ∀ q ∈ frontier.queue, (q.trail.map Arc.source).Nodup ∧
    ∀ u ∈ q.trail.map Arc.source, settled.covers u q.hops = true

/-- The routes cover every way to go on from `r`, unless the budget is spent there. -/
def Onward (P : Problem n α) (routes : List (Route n α)) (r : Route n α) : Prop :=
  P.spent r.hops = false → ∀ arc ∈ P.index.out r.vertex,
    Covers routes arc.target (P.nextHops r.hops) (r.cost + P.cost arc.edge)

structure Inv (P : Problem n α) (done : List (Route n α)) (settled : Settled n)
    (stopped : List (Fin n)) (frontier : Frontier n α) : Prop
    extends Base P done settled stopped frontier where
  onward : ∀ r ∈ done, Onward P (done ++ frontier.queue) r

section Steps

variable {P : Problem n α} {weigh : Edge → Except Failure α} {done : List (Route n α)}
  {settled : Settled n} {stopped : List (Fin n)} {frontier : Frontier n α}

theorem Base.fair (h : Base P done settled stopped frontier) :
    ∀ r ∈ done ++ frontier.queue, Fair r.cost :=
  fun r hr => (h.trip r hr).fair

/-- What is known of the route that is taken off the queue. -/
structure Popped (frontier : Frontier n α) (route : Route n α) (queue : List (Route n α)) :
    Prop where
  mem : route ∈ frontier.queue
  rest : ∀ q ∈ queue, q ∈ frontier.queue
  split : ∀ q ∈ frontier.queue, q = route ∨ q ∈ queue
  cheapest : ∀ q ∈ frontier.queue, ¬q.cost < route.cost

/-! ## Settling a route -/

theorem covers_set {v w : Fin n} {hops k : Nat} :
    Settled.covers (settled.set v (some hops)) w k
      = if v = w then decide (hops ≤ k) else settled.covers w k := by
  unfold Settled.covers
  rw [Table.get_set]
  by_cases hv : v = w <;> simp [hv]

theorem Popped.settle_subset {route : Route n α} {queue : List (Route n α)}
    (hpop : Popped frontier route queue) : done ++ frontier.queue ⊆ (route :: done) ++ queue := by
  intro r hr
  rcases List.mem_append.mp hr with hr | hr
  · exact List.mem_cons_of_mem _ (List.mem_append_left _ hr)
  · rcases hpop.split r hr with rfl | hr
    · exact List.mem_cons_self ..
    · exact List.mem_cons_of_mem _ (List.mem_append_right _ hr)

theorem Base.settled_iff_set (h : Base P done settled stopped frontier) {route : Route n α}
    (hnew : settled.covers route.vertex route.hops = false) (v : Fin n) (hops : Nat) :
    Settled.covers (settled.set route.vertex (some route.hops)) v hops = true ↔
      ∃ r ∈ route :: done, r.vertex = v ∧ r.hops ≤ hops := by
  rw [covers_set]
  by_cases hv : route.vertex = v
  · subst hv
    rw [if_pos rfl, decide_eq_true_eq]
    refine ⟨fun hle => ⟨route, List.mem_cons_self .., rfl, hle⟩, ?_⟩
    rintro ⟨r, hr, hrv, hle⟩
    rcases List.mem_cons.mp hr with rfl | hr
    · exact hle
    · -- an earlier route to the same vertex had more steps, or `route` would be covered
      by_contra hlt
      have hcov := (h.settled_iff route.vertex route.hops).mpr ⟨r, hr, hrv, by omega⟩
      rw [hnew] at hcov; cases hcov
  · rw [if_neg hv, h.settled_iff]
    constructor
    · rintro ⟨r, hr, hrest⟩
      exact ⟨r, List.mem_cons_of_mem _ hr, hrest⟩
    · rintro ⟨r, hr, hrv, hle⟩
      rcases List.mem_cons.mp hr with rfl | hr
      · exact absurd hrv hv
      · exact ⟨r, hr, hrv, hle⟩

theorem Base.stopped_iff_append (h : Base P done settled stopped frontier) (route : Route n α)
    (v : Fin n) :
    (v ∈ if P.spent route.hops then stopped ++ [route.vertex] else stopped) ↔
      ∃ r ∈ route :: done, r.vertex = v ∧ P.spent r.hops = true := by
  by_cases hspent : P.spent route.hops = true
  · rw [if_pos hspent, List.mem_append, h.stopped_iff, List.mem_singleton]
    constructor
    · rintro (⟨r, hr, hrest⟩ | rfl)
      · exact ⟨r, List.mem_cons_of_mem _ hr, hrest⟩
      · exact ⟨route, List.mem_cons_self .., rfl, hspent⟩
    · rintro ⟨r, hr, hrv, hrs⟩
      rcases List.mem_cons.mp hr with rfl | hr
      · exact Or.inr hrv.symm
      · exact Or.inl ⟨r, hr, hrv, hrs⟩
  · rw [if_neg hspent, h.stopped_iff]
    constructor
    · rintro ⟨r, hr, hrest⟩
      exact ⟨r, List.mem_cons_of_mem _ hr, hrest⟩
    · rintro ⟨r, hr, hrv, hrs⟩
      rcases List.mem_cons.mp hr with rfl | hr
      · exact absurd hrs hspent
      · exact ⟨r, hr, hrv, hrs⟩

/-- The invariant after settling `route`, of which nothing has been continued yet. -/
theorem Base.settle (h : Base P done settled stopped frontier) {route : Route n α}
    {queue : List (Route n α)} (hpop : Popped frontier route queue)
    (hnew : settled.covers route.vertex route.hops = false) (htarget : route.vertex ≠ P.target) :
    Base P (route :: done) (settled.set route.vertex (some route.hops))
      (if P.spent route.hops then stopped ++ [route.vertex] else stopped)
      ⟨queue, frontier.best⟩ := by
  have hback : ∀ r ∈ (route :: done) ++ queue, r ∈ done ++ frontier.queue := fun r hr => by
    rcases List.mem_cons.mp hr with rfl | hr
    · exact List.mem_append_right _ hpop.mem
    · exact append_subset_append_left done (fun q hq => hpop.rest q hq) hr
  have hforth : done ++ frontier.queue ⊆ (route :: done) ++ queue := hpop.settle_subset
  exact {
    trip := fun r hr => h.trip r (hback r hr)
    start := h.start.mono hforth
    best := fun label c hc => ⟨(h.best label c hc).1, (h.best label c hc).2.mono hforth⟩
    ordered := fun r hr q hq => by
      rcases List.mem_cons.mp hr with rfl | hr
      · exact hpop.cheapest q (hpop.rest q hq)
      · exact h.ordered r hr q (hpop.rest q hq)
    settled_iff := h.settled_iff_set hnew
    stopped_iff := h.stopped_iff_append route
    target_open := fun r hr => by
      rcases List.mem_cons.mp hr with rfl | hr
      · exact htarget
      · exact h.target_open r hr
    simple := fun q hq => by
      obtain ⟨hnodup, hcov⟩ := h.simple q (hpop.rest q hq)
      refine ⟨hnodup, fun u hu => (h.settled_iff_set hnew u q.hops).mpr ?_⟩
      obtain ⟨r, hr, hrest⟩ := (h.settled_iff u q.hops).mp (hcov u hu)
      exact ⟨r, List.mem_cons_of_mem _ hr, hrest⟩ }

theorem Base.nodup_of_new (h : Base P done settled stopped frontier) {route : Route n α}
    (hmem : route ∈ frontier.queue) (hnew : settled.covers route.vertex route.hops = false) :
    (route.vertex :: route.trail.map Arc.source).Nodup := by
  obtain ⟨hnodup, hcovers⟩ := h.simple route hmem
  refine List.nodup_cons.mpr ⟨fun hin => ?_, hnodup⟩
  have := hcovers _ hin
  rw [hnew] at this
  cases this

theorem Inv.stop (h : Inv P done settled stopped frontier) {route : Route n α}
    {queue : List (Route n α)} (hpop : Popped frontier route queue)
    (hnew : settled.covers route.vertex route.hops = false) (htarget : route.vertex ≠ P.target)
    (hspent : P.spent route.hops = true) :
    Inv P (route :: done) (settled.set route.vertex (some route.hops))
      (stopped ++ [route.vertex]) ⟨queue, frontier.best⟩ := by
  have hbase := h.settle hpop hnew htarget
  rw [if_pos hspent] at hbase
  refine ⟨hbase, fun r hr hopen arc harc => ?_⟩
  rcases List.mem_cons.mp hr with rfl | hr
  · rw [hspent] at hopen
    cases hopen
  · exact (h.onward r hr hopen arc harc).mono hpop.settle_subset

/-! ## The start, and routes that come too late -/

variable [LawfulCost α]

theorem inv_start (P : Problem n α) :
    Inv P [] (Vector.replicate n none) [] (Frontier.start P.source) where
  trip r hr := by
    obtain rfl : r = ⟨P.source, 0, 0, []⟩ := by simpa [Frontier.start] using hr
    refine ⟨⟨rfl, by simp⟩, rfl, ?_, LawfulCost.fair_zero⟩
    simp [Problem.level]
  start := covers_self (List.mem_singleton.mpr rfl) LawfulCost.fair_zero
  best label c h := by
    simp only [Frontier.start, List.lookup_cons, List.lookup_nil] at h
    split at h
    · next heq =>
      obtain rfl : label = (P.source, 0) := by simpa using heq
      obtain rfl := Option.some.inj h
      exact ⟨LawfulCost.fair_zero,
        covers_self (List.mem_singleton.mpr rfl) LawfulCost.fair_zero⟩
    · cases h
  ordered := by simp
  settled_iff v hops := by rw [Settled.covers, Table.get_replicate]; simp
  stopped_iff := by simp
  target_open := by simp
  simple q hq := by
    obtain rfl : q = ⟨P.source, 0, 0, []⟩ := by simpa [Frontier.start] using hq
    simp
  onward := by simp

theorem Base.popped (h : Base P done settled stopped frontier) {route : Route n α}
    {queue : List (Route n α)} (hpop : popCheapest frontier.queue = some (route, queue)) :
    Popped frontier route queue := by
  have hperm := popCheapest_perm hpop
  have hleast := popCheapest_least (fun q hq => h.fair q (List.mem_append_right _ hq)) hpop
  exact ⟨hperm.mem_iff.mpr (List.mem_cons_self ..),
    fun q hq => hperm.mem_iff.mpr (List.mem_cons_of_mem _ hq),
    fun q hq => List.mem_cons.mp (hperm.mem_iff.mp hq), hleast⟩

theorem Base.late_covered (h : Base P done settled stopped frontier) {route : Route n α}
    {queue : List (Route n α)} (hpop : Popped frontier route queue)
    (hlate : (frontier.outdated route || settled.covers route.vertex route.hops) = true) :
    Covers (done ++ queue) route.vertex route.hops route.cost := by
  have hroute := h.fair route (List.mem_append_right _ hpop.mem)
  rcases Bool.or_eq_true_iff.mp hlate with hout | hcov
  · unfold Frontier.outdated at hout
    cases hknown : frontier.best.lookup (route.vertex, route.hops) with
    | none => rw [hknown] at hout; cases hout
    | some known =>
        rw [hknown] at hout
        have hlt : known < route.cost := of_decide_eq_true hout
        obtain ⟨hfair, r, hr, hv, hhops, hle⟩ := h.best _ _ hknown
        refine ⟨r, ?_, hv, hhops, LawfulCost.not_lt_trans (h.fair r hr) hfair hroute hle
          (LawfulCost.lt_asymm hfair hroute hlt)⟩
        rcases List.mem_append.mp hr with hr | hr
        · exact List.mem_append_left _ hr
        · refine List.mem_append_right _ ((hpop.split r hr).resolve_left fun heq => ?_)
          exact hle (heq ▸ hlt)
  · obtain ⟨r, hr, hv, hhops⟩ := (h.settled_iff _ _).mp hcov
    exact ⟨r, List.mem_append_left _ hr, hv, hhops, h.ordered r hr route hpop.mem⟩

theorem Inv.skip (hP : P.Sound weigh) (h : Inv P done settled stopped frontier)
    {route : Route n α} {queue : List (Route n α)} (hpop : Popped frontier route queue)
    (hlate : (frontier.outdated route || settled.covers route.vertex route.hops) = true) :
    Inv P done settled stopped ⟨queue, frontier.best⟩ := by
  have hroute := h.fair route (List.mem_append_right _ hpop.mem)
  have hsub : done ++ queue ⊆ done ++ frontier.queue :=
    append_subset_append_left done fun q hq => hpop.rest q hq
  have hsplit : done ++ frontier.queue ⊆ route :: (done ++ queue) := fun q hq => by
    rcases List.mem_append.mp hq with hq | hq
    · exact List.mem_cons_of_mem _ (List.mem_append_left _ hq)
    · rcases hpop.split q hq with rfl | hq
      · exact List.mem_cons_self ..
      · exact List.mem_cons_of_mem _ (List.mem_append_right _ hq)
  have hdrop : ∀ {v hops c}, Fair c → Covers (done ++ frontier.queue) v hops c →
      Covers (done ++ queue) v hops c := fun hc hcov =>
    hcov.drop h.fair hc hsplit hsub hroute (h.late_covered hpop hlate)
  exact {
    trip := fun r hr => h.trip r (hsub hr)
    start := hdrop LawfulCost.fair_zero h.start
    best := fun label c hc =>
      ⟨(h.best label c hc).1, hdrop (h.best label c hc).1 (h.best label c hc).2⟩
    ordered := fun r hr q hq => h.ordered r hr q (hpop.rest q hq)
    settled_iff := h.settled_iff
    stopped_iff := h.stopped_iff
    target_open := h.target_open
    simple := fun q hq => h.simple q (hpop.rest q hq)
    onward := fun r hr hspent arc harc =>
      hdrop (LawfulCost.fair_add (h.fair r (List.mem_append_left _ hr)) (hP.fair _ arc harc))
        (h.onward r hr hspent arc harc) }

/-! ## Continuing a settled route -/

/-- A settled route that is being continued. -/
structure Continued (P : Problem n α) (done : List (Route n α)) (route : Route n α) : Prop where
  mem : route ∈ done
  last : ∀ r ∈ done, ¬route.cost < r.cost
  unspent : P.spent route.hops = false
  nodup : (route.vertex :: route.trail.map Arc.source).Nodup
  settled : ∀ u ∈ route.vertex :: route.trail.map Arc.source,
    ∃ r ∈ done, r.vertex = u ∧ r.hops ≤ route.hops

def Route.prolong (P : Problem n α) (route : Route n α) (arc : Arc n) : Route n α :=
  ⟨arc.target, P.nextHops route.hops, route.cost + P.cost arc.edge, arc :: route.trail⟩

theorem Trip.prolong (hP : P.Sound weigh) {route : Route n α} (h : Trip P route)
    (hopen : P.spent route.hops = false) {arc : Arc n} (harc : arc ∈ P.index.out route.vertex) :
    Trip P (route.prolong P arc) where
  admits := by
    rw [h.hops_eq, ← List.length_reverse] at hopen
    simpa [Route.prolong] using h.admits.snoc hopen harc
  cost_eq := by
    simp only [Route.prolong, List.reverse_cons, walkCost_snoc, h.cost_eq]
  hops_eq := by
    simp only [Route.prolong, List.length_cons, h.hops_eq, P.nextHops_level]
  fair := LawfulCost.fair_add h.fair (hP.fair _ arc harc)

theorem Base.push (hP : P.Sound weigh) (h : Base P done settled stopped frontier)
    {route : Route n α} (hroute : Continued P done route) {arc : Arc n}
    (harc : arc ∈ P.index.out route.vertex) :
    Base P done settled stopped
      ⟨frontier.queue ++ [route.prolong P arc],
        setBest frontier.best (arc.target, P.nextHops route.hops)
          (route.cost + P.cost arc.edge)⟩ := by
  have htrip := h.trip route (List.mem_append_left _ hroute.mem)
  have hnew := htrip.prolong hP hroute.unspent harc
  have hsub : done ++ frontier.queue ⊆ done ++ (frontier.queue ++ [route.prolong P arc]) := by
    rw [← List.append_assoc]
    exact List.subset_append_left ..
  exact {
    trip := fun r hr => by
      rw [← List.append_assoc] at hr
      rcases List.mem_append.mp hr with hr | hr
      · exact h.trip r hr
      · rw [List.mem_singleton.mp hr]; exact hnew
    start := h.start.mono hsub
    best := fun label c hc => by
      rw [lookup_setBest] at hc
      split at hc
      · next heq =>
        obtain rfl := Option.some.inj hc
        subst heq
        exact ⟨hnew.fair, covers_self (by simp) hnew.fair⟩
      · exact ⟨(h.best label c hc).1, (h.best label c hc).2.mono hsub⟩
    ordered := fun r hr q hq => by
      rcases List.mem_append.mp hq with hq | hq
      · exact h.ordered r hr q hq
      · rw [List.mem_singleton.mp hq]
        exact LawfulCost.not_lt_trans (h.fair r (List.mem_append_left _ hr)) htrip.fair hnew.fair
          (hroute.last r hr) (LawfulCost.le_add htrip.fair (hP.fair _ arc harc))
    settled_iff := h.settled_iff
    stopped_iff := h.stopped_iff
    target_open := h.target_open
    simple := fun q hq => by
      rcases List.mem_append.mp hq with hq | hq
      · exact h.simple q hq
      · rw [List.mem_singleton.mp hq]
        simp only [Route.prolong, List.map_cons, hP.source _ arc harc]
        refine ⟨hroute.nodup, fun u hu => (h.settled_iff _ _).mpr ?_⟩
        obtain ⟨r, hr, hv, hle⟩ := hroute.settled u hu
        refine ⟨r, hr, hv, Nat.le_trans hle ?_⟩
        rw [htrip.hops_eq]
        exact P.le_nextHops_level _ }

section RelaxArc

variable {route : Route n α} {arc : Arc n}

omit [LawfulCost α]

theorem relaxArc_covered (harc : P.Passes weigh arc)
    (hcov : settled.covers arc.target (P.nextHops route.hops) = true) :
    relaxArc weigh settled P.budget.isSome route frontier arc = .ok frontier := by
  have hgood : isBadWeight (P.cost arc.edge) = false := harc.fair
  unfold Problem.nextHops at hcov
  unfold relaxArc
  simp only [harc.weigh, bind, Except.bind, hgood, hcov]
  rfl

theorem relaxArc_known (harc : P.Passes weigh arc)
    (hcov : settled.covers arc.target (P.nextHops route.hops) = false) {known : α}
    (hlookup : frontier.best.lookup (arc.target, P.nextHops route.hops) = some known)
    (hle : ¬route.cost + P.cost arc.edge < known) :
    relaxArc weigh settled P.budget.isSome route frontier arc = .ok frontier := by
  have hgood : isBadWeight (P.cost arc.edge) = false := harc.fair
  unfold Problem.nextHops at hcov hlookup
  unfold relaxArc
  simp only [harc.weigh, bind, Except.bind, hgood, hcov, hlookup, decide_eq_false hle]
  rfl

theorem relaxArc_better (harc : P.Passes weigh arc)
    (hcov : settled.covers arc.target (P.nextHops route.hops) = false)
    (hlt : ∀ known ∈ frontier.best.lookup (arc.target, P.nextHops route.hops),
      route.cost + P.cost arc.edge < known) :
    relaxArc weigh settled P.budget.isSome route frontier arc =
      .ok ⟨frontier.queue ++ [route.prolong P arc],
        setBest frontier.best (arc.target, P.nextHops route.hops)
          (route.cost + P.cost arc.edge)⟩ := by
  have hgood : isBadWeight (P.cost arc.edge) = false := harc.fair
  unfold Problem.nextHops at hcov hlt
  unfold relaxArc
  simp only [harc.weigh, bind, Except.bind, hgood, hcov]
  cases hlookup : frontier.best.lookup
      (arc.target, if P.budget.isSome = true then route.hops + 1 else 0) with
  | none => rfl
  | some known =>
      simp only [decide_eq_true (hlt known hlookup)]
      rfl

/-- Weighing an arc that passes: its end was settled before, a cost as low is known for it, or the
prolonged route joins the queue. -/
theorem relaxArc_of_passes (settled : Settled n) (frontier : Frontier n α) (route : Route n α)
    (harc : P.Passes weigh arc) :
    (settled.covers arc.target (P.nextHops route.hops) = true ∧
      relaxArc weigh settled P.budget.isSome route frontier arc = .ok frontier) ∨
    (∃ known, frontier.best.lookup (arc.target, P.nextHops route.hops) = some known ∧
      ¬route.cost + P.cost arc.edge < known ∧
      relaxArc weigh settled P.budget.isSome route frontier arc = .ok frontier) ∨
    relaxArc weigh settled P.budget.isSome route frontier arc =
      .ok ⟨frontier.queue ++ [route.prolong P arc],
        setBest frontier.best (arc.target, P.nextHops route.hops)
          (route.cost + P.cost arc.edge)⟩ := by
  cases hcov : settled.covers arc.target (P.nextHops route.hops) with
  | true => exact .inl ⟨rfl, relaxArc_covered harc hcov⟩
  | false =>
      by_cases hlt : ∀ known ∈ frontier.best.lookup (arc.target, P.nextHops route.hops),
          route.cost + P.cost arc.edge < known
      · exact .inr (.inr (relaxArc_better harc hcov hlt))
      · rw [not_forall] at hlt
        obtain ⟨known, hknown⟩ := hlt
        rw [Classical.not_imp] at hknown
        exact .inr (.inl ⟨known, hknown.1, hknown.2, relaxArc_known harc hcov hknown.1 hknown.2⟩)

end RelaxArc

theorem relaxArc_spec (hP : P.Sound weigh) (h : Base P done settled stopped frontier)
    {route : Route n α} (hroute : Continued P done route) {arc : Arc n}
    (harc : arc ∈ P.index.out route.vertex) :
    ∃ next, relaxArc weigh settled P.budget.isSome route frontier arc = .ok next ∧
      Base P done settled stopped next ∧ frontier.queue ⊆ next.queue ∧
      Covers (done ++ next.queue) arc.target (P.nextHops route.hops)
        (route.cost + P.cost arc.edge) := by
  have htrip := h.trip route (List.mem_append_left _ hroute.mem)
  have hfair := hP.fair _ arc harc
  have hsum := LawfulCost.fair_add htrip.fair hfair
  have hgrow := LawfulCost.le_add htrip.fair hfair
  rcases relaxArc_of_passes settled frontier route (hP.passes harc) with
    ⟨hcov, heq⟩ | ⟨known, hlookup, hle, heq⟩ | heq
  · refine ⟨frontier, heq, h, List.Subset.refl _, ?_⟩
    obtain ⟨r, hr, hv, hle⟩ := (h.settled_iff _ _).mp hcov
    exact ⟨r, List.mem_append_left _ hr, hv, hle, LawfulCost.not_lt_trans
      (h.fair r (List.mem_append_left _ hr)) htrip.fair hsum (hroute.last r hr) hgrow⟩
  · obtain ⟨hfk, hcovers⟩ := h.best _ _ hlookup
    exact ⟨frontier, heq, h, List.Subset.refl _,
      hcovers.weaken h.fair hfk hsum (Nat.le_refl _) hle⟩
  · exact ⟨_, heq, h.push hP hroute harc, List.subset_append_left ..,
      covers_self (by simp : route.prolong P arc ∈ _) hsum⟩

theorem relaxAll_spec (hP : P.Sound weigh) (h : Base P done settled stopped frontier)
    {route : Route n α} (hroute : Continued P done route) (arcs : List (Arc n))
    (harcs : ∀ arc ∈ arcs, arc ∈ P.index.out route.vertex) :
    ∃ next, arcs.foldlM (relaxArc weigh settled P.budget.isSome route) frontier = .ok next ∧
      Base P done settled stopped next ∧ frontier.queue ⊆ next.queue ∧
      ∀ arc ∈ arcs, Covers (done ++ next.queue) arc.target (P.nextHops route.hops)
        (route.cost + P.cost arc.edge) := by
  induction arcs generalizing frontier with
  | nil => exact ⟨frontier, rfl, h, List.Subset.refl _, by simp⟩
  | cons arc rest ih =>
      obtain ⟨mid, hmid, hbase, hsub, hcov⟩ :=
        relaxArc_spec hP h hroute (harcs arc (List.mem_cons_self ..))
      obtain ⟨next, hnext, hbase', hsub', hcov'⟩ :=
        ih hbase fun a ha => harcs a (List.mem_cons_of_mem _ ha)
      refine ⟨next, ?_, hbase', fun q hq => hsub' (hsub hq), fun a ha => ?_⟩
      · rw [List.foldlM_cons, hmid]
        exact hnext
      · rcases List.mem_cons.mp ha with rfl | ha
        · exact hcov.mono (append_subset_append_left _ hsub')
        · exact hcov' a ha

theorem Inv.expand (hP : P.Sound weigh) (h : Inv P done settled stopped frontier)
    {route : Route n α} {queue : List (Route n α)} (hpop : Popped frontier route queue)
    (hnew : settled.covers route.vertex route.hops = false) (htarget : route.vertex ≠ P.target)
    (hopen : P.spent route.hops = false) :
    ∃ next, (P.index.out route.vertex).foldlM
        (relaxArc weigh (settled.set route.vertex (some route.hops)) P.budget.isSome route)
        ⟨queue, frontier.best⟩ = .ok next ∧
      Inv P (route :: done) (settled.set route.vertex (some route.hops)) stopped next := by
  have hbase := h.settle hpop hnew htarget
  rw [if_neg (by simp [hopen])] at hbase
  have hroute : Continued P (route :: done) route := {
    mem := List.mem_cons_self ..
    last := fun r hr => by
      rcases List.mem_cons.mp hr with rfl | hr
      · exact not_lt_self (h.fair r (List.mem_append_right _ hpop.mem))
      · exact h.ordered r hr route hpop.mem
    unspent := hopen
    nodup := h.nodup_of_new hpop.mem hnew
    settled := fun u hu => by
      rcases List.mem_cons.mp hu with rfl | hu
      · exact ⟨route, List.mem_cons_self .., rfl, Nat.le_refl _⟩
      · obtain ⟨r, hr, hrest⟩ := (h.settled_iff _ _).mp ((h.simple route hpop.mem).2 u hu)
        exact ⟨r, List.mem_cons_of_mem _ hr, hrest⟩ }
  obtain ⟨next, hnext, hbase', hsub, hcov⟩ :=
    relaxAll_spec hP hbase hroute (P.index.out route.vertex) fun _ harc => harc
  refine ⟨next, hnext, hbase', fun r hr hopen' arc harc => ?_⟩
  rcases List.mem_cons.mp hr with rfl | hr
  · exact hcov arc harc
  · exact ((h.onward r hr hopen' arc harc).mono hpop.settle_subset).mono
      (append_subset_append_left _ hsub)

/-! ## Walks are covered -/

/-- At the end of a walk within the budget there is a settled route that is as good as the walk,
or some waiting route is no more expensive. -/
theorem Inv.covers_walk (hP : P.Sound weigh) (h : Inv P done settled stopped frontier)
    {p : List (Arc n)} {v : Fin n} (hp : P.Admits p v) :
    Covers done v (P.level p.length) (walkCost P.cost p) ∨
      ∃ q ∈ frontier.queue, ¬walkCost P.cost p < q.cost := by
  induction p using List.reverseRecOn generalizing v with
  | nil =>
      obtain rfl : P.source = v := hp.walk
      obtain ⟨r, hr, hv, hhops, hcost⟩ := h.start
      rcases List.mem_append.mp hr with hr | hr
      · exact Or.inl ⟨r, hr, hv, Nat.le_trans hhops (Nat.zero_le _), hcost⟩
      · exact Or.inr ⟨r, hr, hcost⟩
  | append_singleton p arc ih =>
      obtain ⟨u, hu, harc, rfl⟩ := hp.walk.split
      have hfits : ∀ limit ∈ P.budget, p.length + 1 ≤ limit := fun limit hl => by
        simpa using hp.fits limit hl
      have hadmits : P.Admits p u := ⟨hu, fun limit hl => Nat.le_of_succ_le (hfits limit hl)⟩
      have hfair := hP.fair u arc harc
      have hp' := hP.walk_fair hu
      have hsum := LawfulCost.fair_add hp' hfair
      rw [walkCost_snoc]
      rcases ih hadmits with ⟨r, hr, rfl, hhops, hcost⟩ | ⟨q, hq, hcost⟩
      · have hrfair := h.fair r (List.mem_append_left _ hr)
        have hstep := LawfulCost.fair_add hrfair hfair
        have hgoes := h.onward r hr (P.spent_level hhops hfits) arc harc
        obtain ⟨r', hr', hv, hhops', hcost'⟩ := hgoes.weaken h.fair hstep hsum
          (Nat.le_trans (P.nextHops_mono hhops) (Nat.le_of_eq (P.nextHops_level _)))
          (LawfulCost.add_mono hrfair hp' hfair hcost)
        rcases List.mem_append.mp hr' with hr' | hr'
        · exact Or.inl ⟨r', hr', hv, by simpa using hhops', hcost'⟩
        · exact Or.inr ⟨r', hr', hcost'⟩
      · exact Or.inr ⟨q, hq, LawfulCost.not_lt_trans (h.fair q (List.mem_append_right _ hq))
          hp' hsum hcost (LawfulCost.le_add hp' hfair)⟩

/-- A route to the target that is taken off the queue is a cheapest one. -/
theorem Inv.cheapest (hP : P.Sound weigh) (h : Inv P done settled stopped frontier)
    {route : Route n α} {queue : List (Route n α)} (hpop : Popped frontier route queue)
    (hnew : settled.covers route.vertex route.hops = false) (htarget : route.vertex = P.target) :
    P.Cheapest route.trail.reverse route.cost := by
  have htrip := h.trip route (List.mem_append_right _ hpop.mem)
  refine ⟨htarget ▸ htrip.admits, ?_, htrip.cost_eq, fun q hq => ?_⟩
  · rw [hP.vertices_eq htrip.admits.walk, List.map_reverse, ← List.reverse_cons,
      List.nodup_reverse]
    exact h.nodup_of_new hpop.mem hnew
  · rcases h.covers_walk hP hq with ⟨r, hr, hv, -⟩ | ⟨r, hr, hcost⟩
    · exact absurd hv (h.target_open r hr)
    · exact LawfulCost.not_lt_trans htrip.fair (h.fair r (List.mem_append_right _ hr))
        (hP.walk_fair hq.walk) (hpop.cheapest r hr) hcost

/-! ## An exhausted search -/

/-- With nothing waiting, every vertex within the budget is settled. -/
theorem Inv.settled_of_admits (hP : P.Sound weigh) (h : Inv P done settled stopped frontier)
    (hempty : frontier.queue = []) {p : List (Arc n)} {v : Fin n} (hp : P.Admits p v) :
    ∃ r ∈ done, r.vertex = v := by
  rcases h.covers_walk hP hp with ⟨r, hr, hv, -⟩ | ⟨q, hq, -⟩
  · exact ⟨r, hr, hv⟩
  · rw [hempty] at hq
    cases hq

theorem Inv.not_within (hP : P.Sound weigh) (h : Inv P done settled stopped frontier)
    (hempty : frontier.queue = []) : ¬P.Within := by
  rintro ⟨p, hp⟩
  obtain ⟨r, hr, hv⟩ := h.settled_of_admits hP hempty hp
  exact h.target_open r hr hv

omit [LawfulCost α] in
theorem Base.get_isNone (h : Base P done settled stopped frontier) (v : Fin n) :
    (settled.get v).isNone = true ↔ ¬∃ r ∈ done, r.vertex = v := by
  have hcovers : (∃ r ∈ done, r.vertex = v) ↔ ∃ hops, settled.covers v hops = true := by
    simp only [h.settled_iff]
    exact ⟨fun ⟨r, hr, hv⟩ => ⟨r.hops, r, hr, hv, Nat.le_refl _⟩,
      fun ⟨_, r, hr, hv, _⟩ => ⟨r, hr, hv⟩⟩
  rw [hcovers]
  unfold Settled.covers
  cases settled.get v with
  | none => simp
  | some fewest => simpa using ⟨fewest, Nat.le_refl _⟩

omit [LawfulCost α] in
/-- Going on from a settled vertex leads to a settled one, if no arc leads out. -/
theorem Inv.settled_of_walk (h : Inv P done settled stopped frontier)
    (hempty : frontier.queue = []) (hout : leadsOut P.index settled stopped = false)
    {u v : Fin n} {p : List (Arc n)} (hu : ∃ r ∈ done, r.vertex = u) (hp : P.index.Walk u p v) :
    ∃ r ∈ done, r.vertex = v := by
  induction p generalizing u with
  | nil =>
      obtain rfl : u = v := hp
      exact hu
  | cons arc rest ih =>
      refine ih ?_ hp.2
      obtain ⟨r, hr, rfl⟩ := hu
      cases hspent : P.spent r.hops with
      | false =>
          obtain ⟨r', hr', hv, -⟩ := h.onward r hr hspent arc hp.1
          rw [hempty, List.append_nil] at hr'
          exact ⟨r', hr', hv⟩
      | true =>
          -- the budget was spent at `r`, and no arc out of there leads to a new vertex
          have hstopped := (h.stopped_iff r.vertex).mpr ⟨r, hr, rfl, hspent⟩
          by_contra hnot
          have : leadsOut P.index settled stopped = true :=
            List.any_eq_true.mpr ⟨r.vertex, hstopped, List.any_eq_true.mpr
              ⟨arc.target, List.mem_map.mpr ⟨arc, hp.1, rfl⟩, (h.get_isNone _).mpr hnot⟩⟩
          rw [hout] at this
          cases this

/-- Something lies beyond the budget exactly if an arc leads out of where it was spent. -/
theorem Inv.leadsOut_iff (hP : P.Sound weigh) (h : Inv P done settled stopped frontier)
    (hempty : frontier.queue = []) :
    leadsOut P.index settled stopped = true ↔ P.Beyond := by
  constructor
  · intro hout
    obtain ⟨v, hv, hsucc⟩ := List.any_eq_true.mp hout
    obtain ⟨w, hw, hnone⟩ := List.any_eq_true.mp hsucc
    obtain ⟨arc, harc, rfl⟩ := List.mem_map.mp hw
    obtain ⟨r, hr, rfl, hspent⟩ := (h.stopped_iff v).mp hv
    have htrip := h.trip r (List.mem_append_left _ hr)
    obtain ⟨limit, hlimit⟩ := P.budget_of_spent hspent
    refine ⟨limit, hlimit, arc.target, ⟨_, htrip.admits.walk.snoc harc⟩, fun p hp => ?_⟩
    by_contra hle
    refine (h.get_isNone _).mp hnone (h.settled_of_admits hP hempty ⟨hp, fun l hl => ?_⟩)
    obtain rfl : limit = l := Option.some.inj (hlimit.symm.trans hl)
    exact Nat.not_lt.mp hle
  · rintro ⟨limit, hlimit, v, ⟨p, hp⟩, hfar⟩
    by_contra hout
    have hstart : P.Admits [] P.source := ⟨rfl, by simp⟩
    obtain ⟨r, hr, rfl⟩ := h.settled_of_walk hempty (by simpa using hout)
      (h.settled_of_admits hP hempty hstart) hp
    have htrip := h.trip r (List.mem_append_left _ hr)
    have := htrip.admits.fits limit hlimit
    have := hfar _ htrip.admits.walk
    omega

end Steps

/-! ## The search -/

/-- What the search answers from any state that it reaches. -/
theorem settle_spec [LawfulCost α] {P : Problem n α} {weigh : Edge → Except Failure α}
    (hP : P.Sound weigh) {done : List (Route n α)} {settled : Settled n}
    {stopped : List (Fin n)} {frontier : Frontier n α}
    (h : Inv P done settled stopped frontier) :
    P.Verdict P.Cheapest (settle P.index weigh P.target P.budget settled stopped frontier) := by
  have fresh : ∀ {late covered : Bool}, ¬(late || covered) = true → covered = false :=
    fun hlate => (Bool.or_eq_false_iff.mp (Bool.eq_false_iff.mpr hlate)).2
  fun_induction settle P.index weigh P.target P.budget settled stopped frontier generalizing done
  case case1 hnone hout =>
    have hempty := popCheapest_eq_none.mp hnone
    exact ⟨h.not_within hP hempty, (h.leadsOut_iff hP hempty).mp hout⟩
  case case2 hnone hout =>
    have hempty := popCheapest_eq_none.mp hnone
    exact ⟨h.not_within hP hempty, fun hbeyond => hout ((h.leadsOut_iff hP hempty).mpr hbeyond)⟩
  case case3 hpop hlate ih => exact ih (h.skip hP (h.popped hpop) hlate)
  case case4 hpop hlate htarget => exact h.cheapest hP (h.popped hpop) (fresh hlate) htarget
  case case5 hpop hlate htarget hspent ih =>
    exact ih (h.stop (h.popped hpop) (fresh hlate) htarget hspent)
  case case6 hpop hlate htarget hspent _ herror =>
    obtain ⟨next, hnext, -⟩ :=
      h.expand hP (h.popped hpop) (fresh hlate) htarget (Bool.eq_false_iff.mpr hspent)
    cases herror.symm.trans hnext
  case case7 hpop hlate htarget hspent _ hok ih =>
    obtain ⟨next, hnext, hinv⟩ :=
      h.expand hP (h.popped hpop) (fresh hlate) htarget (Bool.eq_false_iff.mpr hspent)
    obtain rfl := Except.ok.inj (hok.symm.trans hnext)
    exact ih hinv

/-- The search by cost finds a cheapest path within the budget, or tells why there is none. -/
theorem byCost_spec [LawfulCost α] {P : Problem n α} {weigh : Edge → Except Failure α}
    (hP : P.Sound weigh) :
    P.Verdict P.Cheapest (byCost P.index weigh P.source P.target P.budget) :=
  settle_spec hP (inv_start P)

end CodeGraph.Path
