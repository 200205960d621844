import CodeGraph.Path.Shortest
import CodeGraph.Proofs.Path.ByCost
import CodeGraph.Proofs.Path.ByHops

/-!
# Shortest paths in a snapshot

The path searches stated for snapshots, their edges and the values that callers
pass. By cost, the path is a cheapest one. By cost or by number of edges, there
is a path if the target is near enough, and otherwise the failure tells whether
a larger budget could help (`ToldApart`).

Both are read off one equation, `shortestUnder_eq`: in a closed snapshot nothing
before the search can fail. The path problem of a snapshot (`pathProblem`)
takes the statements about searches over to walks of edges.
-/

namespace CodeGraph.Graph

/-! ## Budgets and problems -/

/-- A bound on the number of edges, or none, as callers state it. -/
def depthValue (depth : Option Nat) : Value :=
  Value.ofOption (depth.map fun d => .int d)

theorem checkBudget_depthValue (name : String) (depth : Option Nat) :
    checkBudget name (depthValue depth) = .ok () := by
  cases depth with
  | none => rfl
  | some d =>
      have hlt : Value.lt (.int d) (.int 0) = .ok false := by
        rw [Value.lt_int]
        simp
      change (do if ← Value.lt (.int d) (.int 0) then throw _ : Except Failure Unit) = _
      rw [hlt]
      rfl

theorem budgetSteps_depthValue (up : Bool) (order : Nat) (depth : Option Nat) :
    budgetSteps up order (depthValue depth) = depth := by
  cases depth with
  | none => rfl
  | some d => rfl

def WalkWithin (g : Graph) (depth : Option Nat) (s : Fin g.order) (walk : List Edge)
    (t : Fin g.order) : Prop :=
  g.Walk keepAll s walk t ∧ ∀ d ∈ depth, walk.length ≤ d

/-- The vertex is at most `depth` edges away. -/
def Near (g : Graph) (depth : Option Nat) (s t : Fin g.order) : Prop :=
  ∃ walk, g.WalkWithin depth s walk t

/-- Some vertex can be reached, but only along more than `depth` edges. -/
def LeadsBeyond (g : Graph) (depth : Option Nat) (s : Fin g.order) : Prop :=
  ∃ d, depth = some d ∧ ∃ v, g.Reaches keepAll s v ∧
    ∀ walk, g.Walk keepAll s walk v → d < walk.length

def pathProblem {α : Type} (g : Graph) (w : Edge → α) (depth : Option Nat) (s t : Fin g.order) :
    Path.Problem g.order α :=
  ⟨Index.ofArcs (g.arcs keepAll), w, s, t, depth⟩

section Problem

variable {g : Graph} {α : Type} {w : Edge → α} {depth : Option Nat} {s t : Fin g.order}

theorem admits_iff {walk : List Edge} {v : Fin g.order} :
    g.WalkWithin depth s walk v ↔
      ∃ p, (g.pathProblem w depth s t).Admits p v ∧ p.map Arc.edge = walk := by
  constructor
  · rintro ⟨hwalk, hfits⟩
    obtain ⟨p, hp, rfl⟩ := walk_iff.mp hwalk
    exact ⟨p, ⟨hp, fun d hd => by simpa using hfits d hd⟩, rfl⟩
  · rintro ⟨p, hp, rfl⟩
    exact ⟨walk_iff.mpr ⟨p, hp.walk, rfl⟩, fun d hd => by simpa using hp.fits d hd⟩

theorem within_pathProblem : (g.pathProblem w depth s t).Within ↔ g.Near depth s t := by
  constructor
  · rintro ⟨p, hp⟩
    exact ⟨p.map Arc.edge, admits_iff.mpr ⟨p, hp, rfl⟩⟩
  · rintro ⟨walk, hwalk⟩
    obtain ⟨p, hp, -⟩ := admits_iff.mp hwalk
    exact ⟨p, hp⟩

theorem beyond_pathProblem : (g.pathProblem w depth s t).Beyond ↔ g.LeadsBeyond depth s := by
  have hfar : ∀ d v, (∀ p, (g.pathProblem w depth s t).index.Walk s p v → d < p.length) ↔
      ∀ walk, g.Walk keepAll s walk v → d < walk.length := by
    intro d v
    constructor
    · intro h walk hwalk
      obtain ⟨p, hp, rfl⟩ := walk_iff.mp hwalk
      simpa using h p hp
    · intro h p hp
      simpa using h _ (walk_iff.mpr ⟨p, hp, rfl⟩)
  unfold Path.Problem.Beyond LeadsBeyond
  simp only [reaches_iff, ← hfar]
  rfl

theorem sound_pathProblem [Scalar α] {measure : Edge → Except Failure α}
    (hmeasure : ∀ e ∈ g.edges, measure e = .ok (w e) ∧ Path.Fair (w e)) (depth : Option Nat)
    (s t : Fin g.order) :
    (g.pathProblem w depth s t).Sound measure where
  source _ _ harc := (Index.mem_out_ofArcs.mp harc).2
  weigh _ _ harc := (hmeasure _ (mem_arcs.mp (Index.mem_out_ofArcs.mp harc).1).1).1
  fair _ _ harc := (hmeasure _ (mem_arcs.mp (Index.mem_out_ofArcs.mp harc).1).1).2

end Problem

/-! ## The answers of the searches -/

section Answers

variable {g : Graph} {α : Type} [Scalar α] {source target : Value} {s t : Fin g.order}
  {measure : Option (Edge → Except Failure α)}

theorem shortestUnder_eq (hv : g.Valid) (hc : g.Closed) (hs : g.vertex? source = some s)
    (ht : g.vertex? target = some t) (hne : s ≠ t)
    (measure : Option (Edge → Except Failure α)) (depth : Option Nat) :
    g.shortestUnder source target measure (depthValue depth) =
      liftM (match measure with
        | none => resolve (hopNames source target) source target (depthValue depth)
            (Path.byHops (Index.ofArcs (g.arcs keepAll)) s t depth)
        | some measure => resolve (costNames source) source target (depthValue depth)
            (Path.byCost (Index.ofArcs (g.arcs keepAll)) measure s t depth)) := by
  have hfs : g.find source = .ok s := find_eq_ok.mpr ⟨hv.scalar_of_vertex? hs, hs⟩
  have hft : g.find target = .ok t := find_eq_ok.mpr ⟨hv.scalar_of_vertex? ht, ht⟩
  unfold shortestUnder
  rw [checkBudget_depthValue, index_eq_pure hv hc, hfs, hft, budgetSteps_depthValue]
  simp only [Logged.lift_ok, pure_bind, if_neg hne]
  cases measure <;> rfl

theorem outcome_shortestPathUnder {limit : Value} {answer : Except Failure (List Value × α)}
    (h : g.shortestUnder source target measure limit = liftM answer) (journal : Journal) :
    (g.shortestPathUnder source target measure limit).outcome journal
      = answer.map Prod.fst := by
  unfold shortestPathUnder
  rw [h]
  cases answer <;> rfl

theorem outcome_shortestLengthUnder {limit : Value} {answer : Except Failure (List Value × α)}
    (h : g.shortestUnder source target measure limit = liftM answer) (journal : Journal) :
    (g.shortestLengthUnder source target measure limit).outcome journal
      = answer.map Prod.snd := by
  unfold shortestLengthUnder
  rw [h]
  cases answer <;> rfl

end Answers

/-! ## Cheapest paths -/

section Cheapest

variable {g : Graph} {source : Value} {s t : Fin g.order} {p : List (Arc g.order)}

theorem vertices_costNames (hs : g.vertex? source = some s)
    (hp : (Index.ofArcs (g.arcs keepAll)).Walk s p t) :
    (costNames source p).map g.vertex? = (s :: p.map Arc.target).map some := by
  simp only [costNames, List.map_cons, hs, List.map_map, List.cons.injEq, true_and]
  exact List.map_congr_left fun arc harc => vertex?_target hp harc

/-- By cost, the path found is a simple one within the budget, and no walk within the budget costs
less. Costs are summed along the way, from the source on. -/
theorem shortestPathUnder_cheapest {α : Type} [Scalar α] [Path.LawfulCost α] (hv : g.Valid)
    (hc : g.Closed) {target : Value} (hs : g.vertex? source = some s)
    (ht : g.vertex? target = some t) (hne : s ≠ t) {measure : Edge → Except Failure α}
    {w : Edge → α} (hmeasure : ∀ e ∈ g.edges, measure e = .ok (w e) ∧ Path.Fair (w e))
    {depth : Option Nat} (hnear : g.Near depth s t) (journal : Journal) :
    ∃ (names : List Value) (cost : α) (edges : List Edge),
      (g.shortestPathUnder source target (some measure) (depthValue depth)).outcome journal
        = .ok names ∧
      (g.shortestLengthUnder source target (some measure) (depthValue depth)).outcome journal
        = .ok cost ∧
      names = source :: edges.map Edge.target ∧
      (names.map g.vertex?).getLast? = some (some t) ∧
      (names.map g.vertex?).Nodup ∧
      g.WalkWithin depth s edges t ∧
      cost = Scalar.sum (edges.map w) ∧
      ∀ walk, g.WalkWithin depth s walk t → ¬Scalar.sum (walk.map w) < cost := by
  have hsound := sound_pathProblem hmeasure depth s t
  obtain ⟨p, c, hfound, hcheapest⟩ :=
    (Path.byCost_spec hsound).found_of_within (within_pathProblem.mpr hnear)
  have hanswer : g.shortestUnder source target (some measure) (depthValue depth)
      = liftM (.ok (costNames source p, c) : Except Failure (List Value × α)) := by
    have hfound' : Path.byCost (Index.ofArcs (g.arcs keepAll)) measure s t depth = .found p c :=
      hfound
    rw [shortestUnder_eq hv hc hs ht hne]
    simp only [hfound', resolve]
  have hvertices := vertices_costNames hs hcheapest.admits.walk
  have hends : s :: p.map Arc.target = p.map Arc.source ++ [t] :=
    hsound.vertices_eq hcheapest.admits.walk
  refine ⟨costNames source p, c, p.map Arc.edge, outcome_shortestPathUnder hanswer journal,
    outcome_shortestLengthUnder hanswer journal, by simp [costNames], ?_, ?_,
    admits_iff.mpr ⟨p, hcheapest.admits, rfl⟩, ?_, fun walk hwalk => ?_⟩
  · rw [hvertices, hends]
    simp
  · rw [hvertices]
    exact hcheapest.simple.map (Option.some_injective _)
  · rw [hcheapest.cost_eq, List.map_map]
    rfl
  · obtain ⟨q, hq, rfl⟩ := admits_iff.mp hwalk
    rw [List.map_map]
    exact hcheapest.least q hq

end Cheapest

/-- Costs for the specimen: half a unit for a call, three units for anything else. -/
def specimenCost (e : Edge) : Rat :=
  if e.kind = .callGraph then 1 / 2 else 3

theorem specimenCost_fair (e : Edge) : Path.Fair (specimenCost e) := by
  rw [Path.fair_rat]
  unfold specimenCost
  split <;> decide +kernel

theorem specimen_near : specimen.Near (some 2) ⟨0, by decide⟩ ⟨2, by decide⟩ := by
  obtain ⟨ha, hb, hc⟩ := specimen_vertex
  refine ⟨[specimenEdge "ab" "a" "b" .callGraph, specimenEdge "bc" "b" "c" .callGraph], ?_, ?_⟩
  · exact ⟨⟨by simp [specimen], rfl, ha⟩, _, hb, ⟨by simp [specimen], rfl, hb⟩, _, hc, rfl⟩
  · simp

/-- In the specimen, two calls away. -/
theorem shortestPathUnder_specimen :
    specimen.Valid ∧ specimen.Closed ∧ specimen.Near (some 2) ⟨0, by decide⟩ ⟨2, by decide⟩ ∧
    (∀ e ∈ specimen.edges, Path.Fair (specimenCost e)) ∧
    ∃ (names : List Value) (cost : Rat) (edges : List Edge),
      (specimen.shortestPathUnder (.str "a") (.str "c") (some fun e => .ok (specimenCost e))
        (depthValue (some 2))).outcome .empty = .ok names ∧
      (specimen.shortestLengthUnder (.str "a") (.str "c") (some fun e => .ok (specimenCost e))
        (depthValue (some 2))).outcome .empty = .ok cost ∧
      names = .str "a" :: edges.map Edge.target ∧
      (names.map specimen.vertex?).getLast? = some (some ⟨2, by decide⟩) ∧
      (names.map specimen.vertex?).Nodup ∧
      specimen.WalkWithin (some 2) ⟨0, by decide⟩ edges ⟨2, by decide⟩ ∧
      cost = Scalar.sum (edges.map specimenCost) ∧
      ∀ walk, specimen.WalkWithin (some 2) ⟨0, by decide⟩ walk ⟨2, by decide⟩ →
        ¬Scalar.sum (walk.map specimenCost) < cost :=
  ⟨specimen_valid, specimen_closed, specimen_near, fun e _ => specimenCost_fair e,
    shortestPathUnder_cheapest specimen_valid specimen_closed specimen_vertex.1
      specimen_vertex.2.2 (by decide) (fun e _ => ⟨rfl, specimenCost_fair e⟩) specimen_near .empty⟩

/-! ## Why there is no path -/

/-- There is an answer exactly if the target is near enough. Otherwise the failure says whether
something lies beyond the bound. -/
structure ToldApart {β : Type} (g : Graph) (source target : Value) (depth : Option Nat)
    (s t : Fin g.order) (outcome : Except Failure β) : Prop where
  ok_iff : (∃ b, outcome = .ok b) ↔ g.Near depth s t
  depthReached_iff : outcome = .error (.depthReached source target (depthValue depth)) ↔
    ¬g.Near depth s t ∧ g.LeadsBeyond depth s
  noPath_iff : outcome = .error (.noPath source target) ↔
    ¬g.Near depth s t ∧ ¬g.LeadsBeyond depth s
  /-- Without a path there is none at any depth. -/
  not_reaches : outcome = .error (.noPath source target) → ¬g.Reaches keepAll s t

section Failures

variable {g : Graph} {α : Type} [Scalar α] {source target : Value} {s t : Fin g.order}
  {depth : Option Nat}

/-- Where nothing lies beyond the bound, a vertex that is not near is out of reach. -/
theorem not_reaches_of_not_near (hnear : ¬g.Near depth s t) (hbeyond : ¬g.LeadsBeyond depth s) :
    ¬g.Reaches keepAll s t := by
  rintro ⟨walk, hwalk⟩
  cases depth with
  | none => exact hnear ⟨walk, hwalk, by simp⟩
  | some d =>
      refine hbeyond ⟨d, rfl, t, ⟨walk, hwalk⟩, fun other hother => ?_⟩
      by_contra hle
      exact hnear ⟨other, hother, by simpa using hle⟩

theorem toldApart_of_verdict {β : Type} {w : Edge → α} {outcome : Path.Outcome g.order α}
    {names : List (Arc g.order) → List Value} (f : List Value × α → β)
    (h : (g.pathProblem w depth s t).Verdict (fun _ _ => g.Near depth s t) outcome) :
    g.ToldApart source target depth s t
      ((resolve names source target (depthValue depth) outcome).map f) := by
  cases outcome with
  | found p c =>
      have hnear : g.Near depth s t := h
      constructor <;> simp [resolve, Except.map, hnear]
  | beyondBudget =>
      obtain ⟨hnot, hbeyond⟩ := h
      rw [within_pathProblem] at hnot
      rw [beyond_pathProblem] at hbeyond
      constructor <;> simp [resolve, Except.map, hnot, hbeyond]
  | unreachable =>
      obtain ⟨hnot, hbeyond⟩ := h
      rw [within_pathProblem] at hnot
      rw [beyond_pathProblem] at hbeyond
      have hreach := not_reaches_of_not_near hnot hbeyond
      constructor <;> simp [resolve, Except.map, hnot, hbeyond, hreach]
  | badWeight => exact h.elim
  | failed => exact h.elim

theorem shortestUnder_answer [Path.LawfulCost α] (hv : g.Valid) (hc : g.Closed)
    (hs : g.vertex? source = some s) (ht : g.vertex? target = some t) (hne : s ≠ t)
    {measure : Option (Edge → Except Failure α)}
    (hmeasure : ∀ m ∈ measure, ∀ e ∈ g.edges, ∃ x, m e = .ok x ∧ Path.Fair x)
    (depth : Option Nat) :
    ∃ answer : Except Failure (List Value × α),
      g.shortestUnder source target measure (depthValue depth) = liftM answer ∧
      ∀ {β : Type} (f : List Value × α → β),
        g.ToldApart source target depth s t (answer.map f) := by
  refine ⟨_, shortestUnder_eq hv hc hs ht hne measure depth, fun f => ?_⟩
  cases measure with
  | none =>
      have hspec := Path.byHops_spec (g.pathProblem (fun _ => (0 : α)) depth s t) hne
      exact toldApart_of_verdict f (hspec.imp fun _ _ => within_pathProblem.mp)
  | some measure =>
      have hw : ∀ e ∈ g.edges, measure e = .ok ((measure e).toOption.getD 0) ∧
          Path.Fair ((measure e).toOption.getD 0) := fun e he => by
        obtain ⟨x, hx, hfair⟩ := hmeasure measure rfl e he
        rw [hx]
        exact ⟨rfl, hfair⟩
      have hspec := Path.byCost_spec (sound_pathProblem hw depth s t)
      exact toldApart_of_verdict f
        (hspec.imp fun p _ hp => within_pathProblem.mp ⟨p, hp.admits⟩)

/-- The outcome is of the same class by number of edges and by any fair costs: it depends on
distances alone. -/
theorem shortestUnder_told_apart [Path.LawfulCost α] (hv : g.Valid) (hc : g.Closed)
    (hs : g.vertex? source = some s) (ht : g.vertex? target = some t) (hne : s ≠ t)
    {measure : Option (Edge → Except Failure α)}
    (hmeasure : ∀ m ∈ measure, ∀ e ∈ g.edges, ∃ x, m e = .ok x ∧ Path.Fair x)
    (depth : Option Nat) (journal : Journal) :
    g.ToldApart source target depth s t
      ((g.shortestPathUnder source target measure (depthValue depth)).outcome journal) ∧
    g.ToldApart source target depth s t
      ((g.shortestLengthUnder source target measure (depthValue depth)).outcome journal) := by
  obtain ⟨answer, hanswer, htold⟩ := shortestUnder_answer hv hc hs ht hne hmeasure depth
  rw [outcome_shortestPathUnder hanswer, outcome_shortestLengthUnder hanswer]
  exact ⟨htold _, htold _⟩

omit [Scalar α] in
/-- Without weights, as paths are asked for in practice. -/
theorem toldApart_byHops (hv : g.Valid) (hc : g.Closed) (hs : g.vertex? source = some s)
    (ht : g.vertex? target = some t) (hne : s ≠ t) (depth : Option Nat) (journal : Journal) :
    g.ToldApart source target depth s t
      ((g.shortestPath source target none (depthValue depth)).outcome journal) := by
  have hspec := Path.byHops_spec (g.pathProblem (fun _ => (0 : Float)) depth s t) hne
  have hanswer := shortestUnder_eq hv hc hs ht hne (none : Option (Edge → Except Failure Float))
    depth
  change g.ToldApart source target depth s t ((g.shortestPathUnder source target
    (none : Option (Edge → Except Failure Float)) (depthValue depth)).outcome journal)
  rw [outcome_shortestPathUnder hanswer]
  exact toldApart_of_verdict Prod.fst (hspec.imp fun _ _ => within_pathProblem.mp)

end Failures

/-- In the specimen, with a bound that ends one step too early. -/
theorem shortestUnder_specimen :
    specimen.Valid ∧ specimen.Closed ∧
    (∀ e ∈ specimen.edges, Path.Fair (specimenCost e)) ∧
    specimen.ToldApart (.str "a") (.str "c") (some 1) ⟨0, by decide⟩ ⟨2, by decide⟩
      ((specimen.shortestPathUnder (.str "a") (.str "c") (some fun e => .ok (specimenCost e))
        (depthValue (some 1))).outcome .empty) ∧
    specimen.ToldApart (.str "a") (.str "c") (some 1) ⟨0, by decide⟩ ⟨2, by decide⟩
      ((specimen.shortestLengthUnder (.str "a") (.str "c") (some fun e => .ok (specimenCost e))
        (depthValue (some 1))).outcome .empty) := by
  refine ⟨specimen_valid, specimen_closed, fun e _ => specimenCost_fair e, ?_⟩
  refine shortestUnder_told_apart specimen_valid specimen_closed specimen_vertex.1
    specimen_vertex.2.2 (by decide) (fun m hm e _ => ?_) (some 1) .empty
  obtain rfl := Option.some.inj hm
  exact ⟨_, rfl, specimenCost_fair e⟩

end CodeGraph.Graph
