import CodeGraph.Proofs.Path.Shortest

/-!
# Weights that are not fair

A search by cost weighs edges as it goes along, and stops at the first weight
that is negative or not a number. Weights that it does not come to are not
looked at, so it may well answer in a snapshot that has such weights somewhere.
What it says is true all the same (`Graph.shortestUnder_heeds_weights`): an edge
that it complains of has a bad weight and is within its reach, and a path that it
answers with has fair weights only.

None of this takes laws of addition or of order. Costs decide which route is
settled next, and no more than that: whichever it is, it goes along edges that
have been weighed (`Vetted`). So the statements hold of doubles as they are.

Laws are needed for the converse. A search that complains of nothing has met fair
weights only, and is the search under any other weights that are the same where
they are fair (`Path.byCost_agrees`). With the bad ones replaced by zero the
weights are fair throughout, and then there is a path if the target is near.
-/

namespace CodeGraph.Path

variable {n : Nat} {α : Type} [Scalar α]

theorem not_fair_iff {x : α} : ¬Fair x ↔ x < 0 ∨ (x == x) = false := by
  simp only [Fair, isBadWeight, Bool.not_eq_false, Bool.or_eq_true, decide_eq_true_eq,
    Bool.not_eq_true']

/-! ## Routes over weighed edges -/

/-- The costs are the weights, of the edges that have one. -/
def Problem.Reads (P : Problem n α) (weigh : Edge → Except Failure α) : Prop :=
  ∀ e x, weigh e = .ok x → x = P.cost e

/-- An arc that a search may come to weigh: it leaves a vertex other than the target, at the end
of a walk that does not use up the budget. -/
def Problem.Exposes (P : Problem n α) (arc : Arc n) : Prop :=
  ∃ p v, P.index.Walk P.source p v ∧ (∀ limit ∈ P.budget, p.length < limit) ∧ v ≠ P.target ∧
    arc ∈ P.index.out v

/-- A route within the budget, over arcs of fair weight. -/
structure Vetted (P : Problem n α) (weigh : Edge → Except Failure α) (r : Route n α) : Prop where
  admits : P.Admits r.trail.reverse r.vertex
  hops_eq : r.hops = P.level r.trail.length
  cost_eq : r.cost = walkCost P.cost r.trail.reverse
  passes : ∀ arc ∈ r.trail, P.Passes weigh arc

/-- What an outcome says of the weights. -/
def Heeds (P : Problem n α) (weigh : Edge → Except Failure α) : Outcome n α → Prop
  | .found p c => P.Admits p P.target ∧ c = walkCost P.cost p ∧ ∀ arc ∈ p, P.Passes weigh arc
  | .beyondBudget => True
  | .unreachable => True
  | .badWeight e x => ¬Fair x ∧ weigh e = .ok x ∧ ∃ arc, P.Exposes arc ∧ arc.edge = e
  | .failed f => ∃ arc, P.Exposes arc ∧ weigh arc.edge = .error f

section Steps

variable {P : Problem n α} {weigh : Edge → Except Failure α} {settled : Settled n}
  {stopped : List (Fin n)} {frontier : Frontier n α} {route : Route n α} {arc : Arc n}

theorem Vetted.prolong (h : Vetted P weigh route) (hopen : P.spent route.hops = false)
    (harc : arc ∈ P.index.out route.vertex) (hpass : P.Passes weigh arc) :
    Vetted P weigh (route.prolong P arc) where
  admits := by
    rw [h.hops_eq, ← List.length_reverse] at hopen
    simpa [Route.prolong] using h.admits.snoc hopen harc
  hops_eq := by
    simp only [Route.prolong, List.length_cons, h.hops_eq, P.nextHops_level]
  cost_eq := by
    simp only [Route.prolong, List.reverse_cons, walkCost_snoc, h.cost_eq]
  passes := List.forall_mem_cons.mpr ⟨hpass, h.passes⟩

theorem Vetted.exposes (h : Vetted P weigh route) (hopen : P.spent route.hops = false)
    (htarget : route.vertex ≠ P.target) (harc : arc ∈ P.index.out route.vertex) :
    P.Exposes arc := by
  refine ⟨_, _, h.admits.walk, fun limit hlimit => ?_, htarget, harc⟩
  rw [h.hops_eq, ← List.length_reverse] at hopen
  have hfits := (h.admits.snoc hopen harc).fits limit hlimit
  rw [List.length_append, List.length_singleton] at hfits
  exact hfits

/-- Weighing an arc ends the search, for a reason that lies in the weight, or adds at most the
prolonged route to the queue. -/
theorem relaxArc_cases (hreads : P.Reads weigh) (settled : Settled n) (route : Route n α)
    (frontier : Frontier n α) (arc : Arc n) :
    (∃ next, relaxArc weigh settled P.budget.isSome route frontier arc = .ok next ∧
      P.Passes weigh arc ∧ ∀ q ∈ next.queue, q ∈ frontier.queue ∨ q = route.prolong P arc) ∨
    (∃ x, relaxArc weigh settled P.budget.isSome route frontier arc
        = .error (.badWeight arc.edge x) ∧ weigh arc.edge = .ok x ∧ ¬Fair x) ∨
    ∃ f, relaxArc weigh settled P.budget.isSome route frontier arc = .error (.failed f) ∧
      weigh arc.edge = .error f := by
  cases hweigh : weigh arc.edge with
  | error f =>
      refine .inr (.inr ⟨f, ?_, rfl⟩)
      unfold relaxArc
      rw [hweigh]
      rfl
  | ok x =>
      obtain rfl := hreads _ _ hweigh
      by_cases hfair : Fair (P.cost arc.edge)
      · have hpass : P.Passes weigh arc := ⟨hweigh, hfair⟩
        refine .inl ?_
        rcases relaxArc_of_passes settled frontier route hpass with
          ⟨-, heq⟩ | ⟨_, -, -, heq⟩ | heq
        · exact ⟨frontier, heq, hpass, fun q hq => .inl hq⟩
        · exact ⟨frontier, heq, hpass, fun q hq => .inl hq⟩
        · refine ⟨_, heq, hpass, fun q hq => ?_⟩
          exact (List.mem_append.mp hq).imp id List.mem_singleton.mp
      · refine .inr (.inl ⟨_, ?_, rfl, hfair⟩)
        have hbad : isBadWeight (P.cost arc.edge) = true := by simpa [Fair] using hfair
        unfold relaxArc
        simp only [hweigh, bind, Except.bind, hbad]
        rfl

/-- Weighing some arcs out of a vetted route leaves vetted routes in the queue, or ends the
search. -/
theorem relaxAll_vetted (hreads : P.Reads weigh) (hroute : Vetted P weigh route)
    (hopen : P.spent route.hops = false) (htarget : route.vertex ≠ P.target)
    (settled : Settled n) (frontier : Frontier n α) (arcs : List (Arc n))
    (harcs : ∀ arc ∈ arcs, arc ∈ P.index.out route.vertex)
    (hqueue : ∀ q ∈ frontier.queue, Vetted P weigh q) :
    (∃ next, arcs.foldlM (relaxArc weigh settled P.budget.isSome route) frontier = .ok next ∧
      ∀ q ∈ next.queue, Vetted P weigh q) ∨
    ∃ outcome, arcs.foldlM (relaxArc weigh settled P.budget.isSome route) frontier
      = .error outcome ∧ Heeds P weigh outcome := by
  induction arcs generalizing frontier with
  | nil => exact .inl ⟨frontier, rfl, hqueue⟩
  | cons arc rest ih =>
      obtain ⟨harc, hrest⟩ := List.forall_mem_cons.mp harcs
      have hexposed := hroute.exposes hopen htarget harc
      rw [List.foldlM_cons]
      rcases relaxArc_cases hreads settled route frontier arc with
        ⟨next, hnext, hpass, hsplit⟩ | ⟨x, hbad, hweigh, hfair⟩ | ⟨f, hfailed, hweigh⟩
      · rw [hnext]
        refine ih _ hrest fun q hq => ?_
        rcases hsplit q hq with hold | rfl
        · exact hqueue q hold
        · exact hroute.prolong hopen harc hpass
      · rw [hbad]
        exact .inr ⟨_, rfl, hfair, hweigh, arc, hexposed, rfl⟩
      · rw [hfailed]
        exact .inr ⟨_, rfl, arc, hexposed, hweigh⟩

theorem vetted_popped (h : ∀ q ∈ frontier.queue, Vetted P weigh q) {queue : List (Route n α)}
    (hpop : popCheapest frontier.queue = some (route, queue)) :
    Vetted P weigh route ∧ ∀ q ∈ queue, Vetted P weigh q :=
  List.forall_mem_cons.mp fun q hq => h q ((popCheapest_perm hpop).mem_iff.mpr hq)

/-- From a queue of vetted routes, whatever their costs. -/
theorem settle_heeds (hreads : P.Reads weigh) (h : ∀ q ∈ frontier.queue, Vetted P weigh q) :
    Heeds P weigh (settle P.index weigh P.target P.budget settled stopped frontier) := by
  -- Only the queue matters: which vertices are settled, and at which costs, decides what is left
  -- out, never what is put in.
  fun_induction settle P.index weigh P.target P.budget settled stopped frontier
  case case1 => trivial
  case case2 => trivial
  case case3 hpop _ ih => exact ih (vetted_popped h hpop).2
  case case4 hpop _ htarget =>
    obtain ⟨hroute, -⟩ := vetted_popped h hpop
    exact ⟨htarget ▸ hroute.admits, hroute.cost_eq,
      fun arc harc => hroute.passes arc (List.mem_reverse.mp harc)⟩
  case case5 hpop _ _ _ ih => exact ih (vetted_popped h hpop).2
  case case6 hpop _ htarget hspent _ herror =>
    obtain ⟨hroute, hqueue⟩ := vetted_popped h hpop
    rcases relaxAll_vetted hreads hroute (Bool.eq_false_iff.mpr hspent) htarget _ ⟨_, _⟩ _
      (fun _ harc => harc) hqueue with ⟨next, hnext, -⟩ | ⟨outcome, houtcome, hheeds⟩
    · cases herror.symm.trans hnext
    · obtain rfl := Except.error.inj (herror.symm.trans houtcome)
      exact hheeds
  case case7 hpop _ htarget hspent _ hok ih =>
    obtain ⟨hroute, hqueue⟩ := vetted_popped h hpop
    rcases relaxAll_vetted hreads hroute (Bool.eq_false_iff.mpr hspent) htarget _ ⟨_, _⟩ _
      (fun _ harc => harc) hqueue with ⟨next, hnext, hvetted⟩ | ⟨outcome, houtcome, -⟩
    · obtain rfl := Except.ok.inj (hok.symm.trans hnext)
      exact ih hvetted
    · cases hok.symm.trans houtcome

theorem vetted_start : ∀ q ∈ (Frontier.start (α := α) P.source).queue, Vetted P weigh q := by
  simp only [Frontier.start, List.mem_singleton, forall_eq]
  refine ⟨⟨rfl, fun limit _ => Nat.zero_le limit⟩, ?_, rfl, by simp⟩
  unfold Problem.level
  split <;> rfl

theorem byCost_heeds (hreads : P.Reads weigh) :
    Heeds P weigh (byCost P.index weigh P.source P.target P.budget) :=
  settle_heeds hreads vetted_start

/-! ## Weights put right

As long as nothing is complained of, the search goes as if bad weights were not there. -/

section Agreement

variable {weigh' : Edge → Except Failure α}

/-- A weight was complained of. -/
def Outcome.Complains : Outcome n α → Prop
  | .badWeight .. => True
  | .failed _ => True
  | _ => False

/-- Weighing arcs out of a route ends with a complaint, or goes the same way under both weights. -/
theorem relaxAll_agrees (hreads : P.Reads weigh)
    (hagree : ∀ arc, P.Passes weigh arc → weigh' arc.edge = weigh arc.edge)
    (settled : Settled n) (route : Route n α) (frontier : Frontier n α) (arcs : List (Arc n)) :
    (∃ outcome, arcs.foldlM (relaxArc weigh settled P.budget.isSome route) frontier
      = .error outcome ∧ outcome.Complains) ∨
    (∃ next, arcs.foldlM (relaxArc weigh settled P.budget.isSome route) frontier = .ok next ∧
      arcs.foldlM (relaxArc weigh' settled P.budget.isSome route) frontier = .ok next) := by
  induction arcs generalizing frontier with
  | nil => exact .inr ⟨_, rfl, rfl⟩
  | cons arc rest ih =>
    rw [List.foldlM_cons, List.foldlM_cons]
    rcases relaxArc_cases hreads settled route frontier arc with
        ⟨next, hnext, hpass, -⟩ | ⟨x, hbad, -, -⟩ | ⟨f, hfailed, -⟩
    · have hnext' : relaxArc weigh' settled P.budget.isSome route frontier arc = .ok next := by
        -- An arc is weighed once, and all else depends on that weight.
        rw [← hnext]
        unfold relaxArc
        rw [hagree arc hpass]
      rw [hnext, hnext']
      exact ih next
    · rw [hbad]
      exact .inl ⟨_, rfl, trivial⟩
    · rw [hfailed]
      exact .inl ⟨_, rfl, trivial⟩

/-- One turn of the search: what becomes of the route that is taken off the queue. -/
structure Turn (index : Index n) (weigh : Edge → Except Failure α) (target : Fin n)
    (budget : Option Nat) (settled : Settled n) (stopped : List (Fin n)) (frontier : Frontier n α)
    (route : Route n α) (queue : List (Route n α)) (outcome : Outcome n α) : Prop where
  late : (frontier.outdated route || settled.covers route.vertex route.hops) = true →
    outcome = settle index weigh target budget settled stopped ⟨queue, frontier.best⟩
  arrived : ¬(frontier.outdated route || settled.covers route.vertex route.hops) = true →
    route.vertex = target → outcome = .found route.trail.reverse route.cost
  spent : ¬(frontier.outdated route || settled.covers route.vertex route.hops) = true →
    route.vertex ≠ target → budget.any (· ≤ route.hops) = true →
    outcome = settle index weigh target budget (settled.set route.vertex (some route.hops))
      (stopped ++ [route.vertex]) ⟨queue, frontier.best⟩
  onward : ¬(frontier.outdated route || settled.covers route.vertex route.hops) = true →
    route.vertex ≠ target → ¬budget.any (· ≤ route.hops) = true →
    ∀ next, (index.out route.vertex).foldlM
        (relaxArc weigh (settled.set route.vertex (some route.hops)) budget.isSome route)
        ⟨queue, frontier.best⟩ = .ok next →
      outcome = settle index weigh target budget (settled.set route.vertex (some route.hops))
        stopped next

theorem settle_turn {index : Index n} {target : Fin n} {budget : Option Nat}
    {queue : List (Route n α)}
    (hpop : popCheapest frontier.queue = some (route, queue)) :
    Turn index weigh target budget settled stopped frontier route queue
      (settle index weigh target budget settled stopped frontier) := by
  rw [settle]
  split
  · next hnone => cases hpop.symm.trans hnone
  · next hpop' =>
    cases hpop.symm.trans hpop'
    refine ⟨fun hlate => ?_, fun hlate harrived => ?_, fun hlate harrived hspent => ?_,
      fun hlate harrived hspent next hnext => ?_⟩
    · rw [dif_pos hlate]
    · rw [dif_neg hlate, if_pos harrived]
    · rw [dif_neg hlate, if_neg harrived, if_pos hspent]
    · rw [dif_neg hlate, if_neg harrived, if_neg hspent, hnext]

theorem settle_agrees (hreads : P.Reads weigh)
    (hagree : ∀ arc, P.Passes weigh arc → weigh' arc.edge = weigh arc.edge) :
    (settle P.index weigh P.target P.budget settled stopped frontier).Complains ∨
      settle P.index weigh' P.target P.budget settled stopped frontier
        = settle P.index weigh P.target P.budget settled stopped frontier := by
  fun_induction settle P.index weigh P.target P.budget settled stopped frontier
  case case1 hnone hout | case2 hnone hout =>
    refine .inr ?_
    rw [settle]
    split
    · simp only [hout, if_true, if_false, Bool.false_eq_true]
    · next hpop => cases hnone.symm.trans hpop
  case case3 hpop hlate ih =>
    exact ih.imp_right fun heq => ((settle_turn hpop).late hlate).trans heq
  case case4 hpop hlate htarget => exact .inr ((settle_turn hpop).arrived hlate htarget)
  case case5 hpop hlate htarget hspent ih =>
    exact ih.imp_right fun heq => ((settle_turn hpop).spent hlate htarget hspent).trans heq
  case case6 hpop hlate htarget hspent _ herror =>
    rcases relaxAll_agrees hreads hagree _ _ ⟨_, _⟩ _ with
      ⟨outcome, houtcome, hcomplains⟩ | ⟨next, hnext, -⟩
    · exact .inl (Except.error.inj (herror.symm.trans houtcome) ▸ hcomplains)
    · cases herror.symm.trans hnext
  case case7 hpop hlate htarget hspent _ hok ih =>
    rcases relaxAll_agrees hreads hagree _ _ ⟨_, _⟩ _ with
      ⟨outcome, houtcome, -⟩ | ⟨next, hnext, hnext'⟩
    · cases hok.symm.trans houtcome
    · obtain rfl := Except.ok.inj (hok.symm.trans hnext)
      exact ih.imp_right fun heq =>
        ((settle_turn hpop).onward hlate htarget hspent _ hnext').trans heq

/-- A search that does not complain of a weight is one under any weights that agree on arcs that
pass. -/
theorem byCost_agrees (hreads : P.Reads weigh) (weigh' : Edge → Except Failure α)
    (hagree : ∀ arc, P.Passes weigh arc → weigh' arc.edge = weigh arc.edge) :
    (byCost P.index weigh P.source P.target P.budget).Complains ∨
      byCost P.index weigh' P.source P.target P.budget
        = byCost P.index weigh P.source P.target P.budget :=
  settle_agrees hreads hagree

end Agreement

end Steps

end CodeGraph.Path

namespace CodeGraph.Graph

/-! ## Weights in a snapshot -/

variable {α : Type} [Scalar α]

/-- An edge that a search may come to weigh: it leaves a node other than the target, to which a
walk leads that is shorter than the bound. -/
def Exposed (g : Graph) (depth : Option Nat) (s t : Fin g.order) (e : Edge) : Prop :=
  ∃ walk v, g.Walk keepAll s walk v ∧ (∀ d ∈ depth, walk.length < d) ∧ v ≠ t ∧
    e ∈ g.edges ∧ g.vertex? e.source = some v

/-- What an answer says of the weights of edges. -/
structure HeedsWeights (g : Graph) (measure : Edge → Except Failure α) (source target : Value)
    (depth : Option Nat) (s t : Fin g.order) (answer : Except Failure (List Value × α)) :
    Prop where
  /-- There is an answer. A failure is one of the search, or is that of weighing an edge. -/
  ends : (∃ found, answer = .ok found) ∨
    answer = .error (.depthReached source target (depthValue depth)) ∨
    answer = .error (.noPath source target) ∨
    (∃ id value, answer = .error (.invalidWeight id value)) ∨
    ∃ e f, g.Exposed depth s t e ∧ measure e = .error f ∧ answer = .error f
  /-- An edge complained of has a negative weight, or one that is not a number. -/
  invalid : ∀ id value, answer = .error (.invalidWeight id value) →
    ∃ e x, g.Exposed depth s t e ∧ e.id = id ∧ measure e = .ok x ∧
      value = .float (Scalar.toFloat x) ∧ (x < 0 ∨ (x == x) = false)
  /-- A path is along edges of fair weight, and their sum is its cost. -/
  path : ∀ names cost, answer = .ok (names, cost) →
    ∃ edges weights, g.WalkWithin depth s edges t ∧ names = source :: edges.map Edge.target ∧
      edges.mapM measure = .ok weights ∧ (∀ x ∈ weights, Path.Fair x) ∧ cost = Scalar.sum weights
  /-- Where no edge within reach has a bad weight, none is complained of. -/
  valid : (∀ e x, g.Exposed depth s t e → measure e = .ok x → Path.Fair x) →
    ∀ id value, answer ≠ .error (.invalidWeight id value)
  /-- Where no weight is complained of, there is a path if the target is near enough. -/
  told : Path.LawfulCost α → (∀ e ∈ g.edges, ∃ x, measure e = .ok x) →
    (∀ id value, answer ≠ .error (.invalidWeight id value)) →
    ∀ {β : Type} (f : List Value × α → β), g.ToldApart source target depth s t (answer.map f)

variable {g : Graph} {source target : Value} {s t : Fin g.order}

omit [Scalar α] in
theorem exposed_of_exposes {w : Edge → α} {depth : Option Nat} {arc : Arc g.order}
    (h : (g.pathProblem w depth s t).Exposes arc) : g.Exposed depth s t arc.edge := by
  obtain ⟨p, v, hp, hshort, hne, harc⟩ := h
  obtain ⟨hmem, rfl⟩ := Index.mem_out_ofArcs.mp harc
  obtain ⟨hedge, -, hsource, -⟩ := mem_arcs.mp hmem
  exact ⟨p.map Arc.edge, arc.source, walk_iff.mpr ⟨p, hp, rfl⟩,
    fun d hd => by simpa using hshort d hd, hne, hedge, hsource⟩

theorem mapM_edges_of_passes {measure : Edge → Except Failure α} {P : Path.Problem g.order α}
    {p : List (Arc g.order)} (h : ∀ arc ∈ p, P.Passes measure arc) :
    (p.map Arc.edge).mapM measure = .ok ((p.map Arc.edge).map P.cost) := by
  induction p with
  | nil => rfl
  | cons arc rest ih =>
      obtain ⟨hpass, hrest⟩ := List.forall_mem_cons.mp h
      rw [List.map_cons, List.mapM_cons, hpass.weigh, ih hrest]
      rfl

section Answer

variable {measure : Edge → Except Failure α} {w : Edge → α} {depth : Option Nat}
  {outcome : Path.Outcome g.order α}

/-- The edge complained of. Weighing an edge may fail by itself, but not with this complaint. -/
theorem exists_bad_of_invalidWeight
    (hown : ∀ e ∈ g.edges, ∀ id value, measure e ≠ .error (.invalidWeight id value))
    (h : Path.Heeds (g.pathProblem w depth s t) measure outcome) {id value : Value}
    (heq : resolve (costNames source) source target (depthValue depth) outcome
      = .error (.invalidWeight id value)) :
    ∃ e x, g.Exposed depth s t e ∧ e.id = id ∧ measure e = .ok x ∧
      value = .float (Scalar.toFloat x) ∧ ¬Path.Fair x := by
  cases outcome with
  | found p c => cases heq
  | beyondBudget => cases heq
  | unreachable => cases heq
  | badWeight e x =>
      obtain ⟨hbad, hweigh, arc, hexposes, rfl⟩ := h
      cases heq
      exact ⟨arc.edge, x, exposed_of_exposes hexposes, rfl, hweigh, rfl, hbad⟩
  | failed f =>
      obtain ⟨arc, hexposes, hweigh⟩ := h
      cases heq
      obtain ⟨-, -, -, -, -, hedge, -⟩ := exposed_of_exposes hexposes
      exact absurd hweigh (hown _ hedge _ _)

theorem exists_fair_of_ok (h : Path.Heeds (g.pathProblem w depth s t) measure outcome)
    {names : List Value} {cost : α}
    (heq : resolve (costNames source) source target (depthValue depth) outcome
      = .ok (names, cost)) :
    ∃ edges weights, g.WalkWithin depth s edges t ∧ names = source :: edges.map Edge.target ∧
      edges.mapM measure = .ok weights ∧ (∀ x ∈ weights, Path.Fair x) ∧
      cost = Scalar.sum weights := by
  cases outcome with
  | found p c =>
      obtain ⟨hadmits, hcost, hpasses⟩ := h
      obtain ⟨rfl, rfl⟩ := Prod.mk.inj (Except.ok.inj heq)
      refine ⟨p.map Arc.edge, _, admits_iff.mpr ⟨p, hadmits, rfl⟩, by simp [costNames],
        mapM_edges_of_passes hpasses, fun x hx => ?_, ?_⟩
      · simp only [List.mem_map, exists_exists_and_eq_and] at hx
        obtain ⟨arc, harc, rfl⟩ := hx
        exact (hpasses arc harc).fair
      · rw [hcost, List.map_map]
        rfl
  | beyondBudget => cases heq
  | unreachable => cases heq
  | badWeight e x => cases heq
  | failed f => cases heq

/-- The weights of a snapshot with bad ones replaced by zero. -/
def mended (w : Edge → α) (e : Edge) : α :=
  if Path.isBadWeight (w e) then 0 else w e

theorem mended_fair [Path.LawfulCost α] (e : Edge) : Path.Fair (mended w e) := by
  unfold mended
  split
  · exact Path.LawfulCost.fair_zero
  · next h => exact Bool.eq_false_iff.mpr h

/-- A search that does not complain answers as it does under the mended weights. -/
theorem complains_or_verdict [Path.LawfulCost α]
    (hreads : (g.pathProblem w depth s t).Reads measure) :
    (Path.byCost (Index.ofArcs (g.arcs keepAll)) measure s t depth).Complains ∨
      (g.pathProblem (mended w) depth s t).Verdict (fun _ _ => g.Near depth s t)
        (Path.byCost (Index.ofArcs (g.arcs keepAll)) measure s t depth) := by
  have hagree : ∀ arc, (g.pathProblem w depth s t).Passes measure arc →
      (.ok (mended w arc.edge) : Except Failure α) = measure arc.edge := by
    intro arc harc
    have hfair : Path.isBadWeight (w arc.edge) = false := harc.fair
    rw [harc.weigh, mended, hfair]
    rfl
  have hsound : (g.pathProblem (mended w) depth s t).Sound fun e => .ok (mended w e) :=
    sound_pathProblem (fun e _ => ⟨rfl, mended_fair e⟩) depth s t
  refine (Path.byCost_agrees hreads (fun e => .ok (mended w e)) hagree).imp_right fun heq => ?_
  have hverdict := (Path.byCost_spec hsound).imp fun p _ hp =>
    within_pathProblem.mp ⟨p, hp.admits⟩
  exact heq ▸ hverdict

theorem heedsWeights_of_heeds
    (hown : ∀ e ∈ g.edges, ∀ id value, measure e ≠ .error (.invalidWeight id value))
    (h : Path.Heeds (g.pathProblem w depth s t) measure outcome)
    (htold : Path.LawfulCost α → outcome.Complains ∨
      (g.pathProblem (mended w) depth s t).Verdict (fun _ _ => g.Near depth s t) outcome) :
    g.HeedsWeights measure source target depth s t
      (resolve (costNames source) source target (depthValue depth) outcome) where
  ends := by
    cases outcome with
    | found p c => exact .inl ⟨_, rfl⟩
    | beyondBudget => exact .inr (.inl rfl)
    | unreachable => exact .inr (.inr (.inl rfl))
    | badWeight e x => exact .inr (.inr (.inr (.inl ⟨_, _, rfl⟩)))
    | failed f =>
        obtain ⟨arc, hexposes, hweigh⟩ := h
        exact .inr (.inr (.inr (.inr ⟨_, f, exposed_of_exposes hexposes, hweigh, rfl⟩)))
  invalid id value heq := by
    obtain ⟨e, x, hexposed, hid, hx, hvalue, hbad⟩ := exists_bad_of_invalidWeight hown h heq
    exact ⟨e, x, hexposed, hid, hx, hvalue, Path.not_fair_iff.mp hbad⟩
  path _ _ heq := exists_fair_of_ok h heq
  valid hfair id value heq := by
    obtain ⟨e, x, hexposed, -, hx, -, hbad⟩ := exists_bad_of_invalidWeight hown h heq
    exact hbad (hfair e x hexposed hx)
  told hlawful htotal hquiet _ f := by
    rcases htold hlawful with hcomplains | hverdict
    · cases outcome with
      | found | beyondBudget | unreachable => exact hcomplains.elim
      | badWeight e x => exact absurd rfl (hquiet _ _)
      | failed failure =>
        obtain ⟨arc, hexposes, hweigh⟩ := h
        obtain ⟨-, -, -, -, -, hedge, -⟩ := exposed_of_exposes hexposes
        obtain ⟨x, hx⟩ := htotal _ hedge
        cases hx.symm.trans hweigh
    · exact toldApart_of_verdict f hverdict

end Answer

/-- A weighted search ends, whatever the weights. If it complains of the weight of an edge, then
this is a bad weight of an edge within reach; if it answers with a path, then the weights along it
are fair. Weights that the search does not come to do not matter. -/
theorem shortestUnder_heeds_weights (hv : g.Valid) (hc : g.Closed)
    (hs : g.vertex? source = some s) (ht : g.vertex? target = some t) (hne : s ≠ t)
    (measure : Edge → Except Failure α)
    (hown : ∀ e ∈ g.edges, ∀ id value, measure e ≠ .error (.invalidWeight id value))
    (depth : Option Nat) (journal : Journal) :
    ∃ answer : Except Failure (List Value × α),
      (g.shortestPathUnder source target (some measure) (depthValue depth)).outcome journal
        = answer.map Prod.fst ∧
      (g.shortestLengthUnder source target (some measure) (depthValue depth)).outcome journal
        = answer.map Prod.snd ∧
      g.HeedsWeights measure source target depth s t answer := by
  have hanswer := shortestUnder_eq hv hc hs ht hne (some measure) depth
  let w : Edge → α := fun e => (measure e).toOption.getD 0
  have hreads : (g.pathProblem w depth s t).Reads measure := by
    intro e x hx
    change x = (measure e).toOption.getD 0
    rw [hx]
    rfl
  exact ⟨_, outcome_shortestPathUnder hanswer journal, outcome_shortestLengthUnder hanswer journal,
    heedsWeights_of_heeds hown (Path.byCost_heeds hreads) fun _ => complains_or_verdict hreads⟩

/-- Weights for the specimen: a unit for each edge, but less than nothing for the loop. -/
def specimenToll (e : Edge) : Rat :=
  if e.kind = .reference then -1 else 1

/-- The loop of the specimen leaves the target, so its weight is not looked at. -/
theorem specimenToll_fair {depth : Option Nat} {e : Edge}
    (h : specimen.Exposed depth ⟨0, by decide⟩ ⟨2, by decide⟩ e) : Path.Fair (specimenToll e) := by
  obtain ⟨_, v, -, -, hne, he, hsource⟩ := h
  simp only [specimen, List.mem_cons, List.not_mem_nil, or_false] at he
  rcases he with rfl | rfl | rfl | rfl | rfl
  case inr.inr.inr.inr =>
    exact absurd (Option.some.inj (hsource.symm.trans specimen_vertex.2.2)) hne
  all_goals
    exact Path.fair_rat.mpr (by decide +kernel)

/-- In the specimen, where one edge has a bad weight that nobody complains of. -/
theorem shortestUnder_heeds_specimen :
    specimen.Valid ∧ specimen.Closed ∧
    (∃ e ∈ specimen.edges, ¬Path.Fair (specimenToll e)) ∧
    ∃ names edges,
      (specimen.shortestPathUnder (.str "a") (.str "c") (some fun e => .ok (specimenToll e))
        (depthValue (some 2))).outcome .empty = .ok names ∧
      specimen.WalkWithin (some 2) ⟨0, by decide⟩ edges ⟨2, by decide⟩ ∧
      names = .str "a" :: edges.map Edge.target := by
  refine ⟨specimen_valid, specimen_closed,
    ⟨specimenEdge "cc" "c" "c" .reference, by simp [specimen], ?_⟩, ?_⟩
  · rw [Path.fair_rat]
    decide +kernel
  · obtain ⟨answer, hpath, -, hheeds⟩ := shortestUnder_heeds_weights specimen_valid
      specimen_closed specimen_vertex.1 specimen_vertex.2.2 (by decide)
      (fun e => .ok (specimenToll e)) (fun _ _ _ _ heq => by cases heq) (some 2) .empty
    have hquiet := hheeds.valid fun e x hexposed hx =>
      Except.ok.inj hx ▸ specimenToll_fair hexposed
    obtain ⟨_, hfound⟩ :=
      (hheeds.told inferInstance (fun _ _ => ⟨_, rfl⟩) hquiet id).ok_iff.mpr specimen_near
    cases answer with
    | error failure => cases hfound
    | ok found =>
      obtain ⟨edges, -, hwalk, hnames, -⟩ := hheeds.path found.1 found.2 rfl
      exact ⟨found.1, edges, hpath, hwalk, hnames⟩

end CodeGraph.Graph
