import CodeGraph.Traversal
import CodeGraph.Scalar

/-!
# Shortest path searches

Two searches with the same outcomes. `byHops` follows a breadth-first traversal;
`byCost` settles routes in order of cost, and among equal costs in the order in
which they were found.

With a budget, a cheap route to a vertex may be too long to go on from, so routes
are kept apart by their number of steps: a route is dropped only when its vertex
was settled before with no more steps. Without a budget all routes count as having
no steps, and a vertex is settled once.

A search that ends without the target tells whether something was left beyond
the budget or the target cannot be reached at all.
-/

namespace CodeGraph.Path

inductive Outcome (n : Nat) (α : Type) where
  | found (path : List (Arc n)) (cost : α)
  | beyondBudget
  | unreachable
  /-- A weight below zero, or not a number. -/
  | badWeight (edge : Edge) (weight : α)
  | failed (failure : Failure)

variable {n : Nat} {α : Type} [Scalar α]

/-! ## By number of steps -/

/-- Go back by a discovery if it is how the vertex in hand was met, keeping its step. -/
def stepBack {β : Type} (d : Discovery n β) (trace : Fin n × List β) : Fin n × List β :=
  if d.vertex = trace.1 then (d.parent, d.via :: trace.2) else trace

/-- Follow the discoveries back from a vertex to the start, collecting the steps. -/
def pathTo {β : Type} (met : List (Discovery n β)) (v : Fin n) : List β :=
  (met.foldr stepBack (v, [])).2

def rim {β : Type} (start : Fin n) (met : List (Discovery n β)) (distance : Nat) :
    List (Fin n) :=
  if distance = 0 then [start]
  else (met.filter fun d => d.distance = distance).map Discovery.vertex

def byHops (index : Index n) (source target : Fin n) (budget : Option Nat) : Outcome n α :=
  let met := Traversal.within (index.steps true) source (budget.getD n)
  match met.find? fun d => d.vertex = target with
  | some d => .found (pathTo met target) (Scalar.ofNat d.distance)
  | none =>
    match budget with
    | none => .unreachable
    | some limit =>
      let leadsOn v := (index.successors v).any fun w => !Traversal.known source met w
      if (rim source met limit).any leadsOn then .beyondBudget else .unreachable

/-! ## By cost -/

/-- A way from the source, its arcs newest first. -/
structure Route (n : Nat) (α : Type) where
  vertex : Fin n
  hops : Nat
  cost : α
  trail : List (Arc n)

/-- Take out the first of the cheapest routes. -/
def popCheapest : List (Route n α) → Option (Route n α × List (Route n α))
  | [] => none
  | route :: rest =>
    match popCheapest rest with
    | none => some (route, [])
    | some (cheapest, others) =>
      if cheapest.cost < route.cost then some (cheapest, route :: others) else some (route, rest)

theorem length_of_popCheapest {queue others : List (Route n α)} {route : Route n α}
    (h : popCheapest queue = some (route, others)) : others.length < queue.length := by
  induction queue generalizing route others with
  | nil => simp [popCheapest] at h
  | cons first rest ih =>
    rw [popCheapest] at h
    split at h
    · simp only [Option.some.injEq, Prod.mk.injEq] at h
      simp [← h.2]
    · next cheapest left hleft =>
      split at h <;> simp only [Option.some.injEq, Prod.mk.injEq] at h
      · have := ih hleft
        simp only [← h.2, List.length_cons]
        omega
      · simp [← h.2]

/-- The fewest steps of a settled route to each vertex. -/
abbrev Settled (n : Nat) := Table n (Option Nat)

/-- Whether a route to `v` with this many steps comes too late. -/
def Settled.covers (settled : Settled n) (v : Fin n) (hops : Nat) : Bool :=
  match settled.get v with
  | none => false
  | some fewest => fewest ≤ hops

/-- Waiting routes in the order they were found, and the least cost known for every vertex
and number of steps. -/
structure Frontier (n : Nat) (α : Type) where
  queue : List (Route n α)
  best : List ((Fin n × Nat) × α)

def Frontier.start (source : Fin n) : Frontier n α :=
  ⟨[⟨source, 0, 0, []⟩], [((source, 0), 0)]⟩

def setBest (best : List ((Fin n × Nat) × α)) (label : Fin n × Nat) (cost : α) :
    List ((Fin n × Nat) × α) :=
  (label, cost) :: best.filter fun entry => entry.1 ≠ label

def isBadWeight (w : α) : Bool :=
  w < 0 || !(w == w)

def relaxArc (weigh : Edge → Except Failure α) (settled : Settled n) (bounded : Bool)
    (route : Route n α) (frontier : Frontier n α) (arc : Arc n) :
    Except (Outcome n α) (Frontier n α) := do
  let weight ←
    match weigh arc.edge with
    | .ok w => .ok w
    | .error f => .error (.failed f)
  if isBadWeight weight then throw (.badWeight arc.edge weight)
  let label := (arc.target, if bounded then route.hops + 1 else 0)
  if settled.covers label.1 label.2 then return frontier
  let cost := route.cost + weight
  let improves :=
    match frontier.best.lookup label with
    | none => true
    | some known => cost < known
  if improves then
    return ⟨frontier.queue ++ [⟨label.1, label.2, cost, arc :: route.trail⟩],
      setBest frontier.best label cost⟩
  else return frontier

/-- Whether a cheaper route to the same vertex with as many steps was found since. -/
def Frontier.outdated (frontier : Frontier n α) (route : Route n α) : Bool :=
  match frontier.best.lookup (route.vertex, route.hops) with
  | none => false
  | some known => known < route.cost

/-! Settling ends because every step settles a vertex for the first time, or settles one
with fewer steps than before, or takes a route off the queue. -/

def total (f : Fin n → Nat) : Nat :=
  addAll ((List.finRange n).map f)

theorem sum_map_le {β : Type} {f g : β → Nat} (h : ∀ b, f b ≤ g b) (l : List β) :
    addAll (l.map f) ≤ addAll (l.map g) := by
  induction l with
  | nil => exact Nat.le_refl _
  | cons b l ih => simpa using Nat.add_le_add (h b) ih

theorem sum_map_lt {β : Type} {f g : β → Nat} (h : ∀ b, f b ≤ g b) {a : β} (ha : f a < g a)
    {l : List β} (hl : a ∈ l) : addAll (l.map f) < addAll (l.map g) := by
  induction l with
  | nil => simp at hl
  | cons b l ih =>
    simp only [List.map_cons, addAll_cons]
    rcases List.mem_cons.1 hl with rfl | hl
    · exact Nat.add_lt_add_of_lt_of_le ha (sum_map_le h l)
    · exact Nat.add_lt_add_of_le_of_lt (h b) (ih hl)

theorem total_lt {f g : Fin n → Nat} (h : ∀ v, f v ≤ g v) {v : Fin n} (hv : f v < g v) :
    total f < total g :=
  sum_map_lt h hv (List.mem_finRange v)

def Settled.open (settled : Settled n) : Nat :=
  total fun v => if (settled.get v).isNone then 1 else 0

def Settled.hops (settled : Settled n) : Nat :=
  total fun v => (settled.get v).getD 0

/-- A vertex settled before is settled again only with fewer steps. -/
theorem Settled.decreases {settled : Settled n} {v : Fin n} {hops : Nat}
    (h : settled.covers v hops = false) :
    Settled.open (settled.set v (some hops)) < settled.open ∨
      Settled.open (settled.set v (some hops)) = settled.open ∧
        Settled.hops (settled.set v (some hops)) < settled.hops := by
  unfold covers at h
  split at h
  · next hv =>
    left
    refine total_lt (v := v) (fun w => ?_) ?_
    · rw [Table.get_set]
      split <;> simp
    · simp [Table.get_set, hv]
  · next fewest hv =>
    right
    have hlt : hops < fewest := by simpa using h
    constructor
    · unfold Settled.open
      congr 1
      funext w
      rw [Table.get_set]
      split
      · next hw => simp [← hw, hv]
      · rfl
    · refine total_lt (v := v) (fun w => ?_) ?_
      · rw [Table.get_set]
        split
        · next hw => simp [← hw, hv, Nat.le_of_lt hlt]
        · exact Nat.le_refl _
      · simp [Table.get_set, hv, hlt]

/-- Whether an arc leads from one of the vertices to one that no route has settled. -/
def leadsOut (index : Index n) (settled : Settled n) (vs : List (Fin n)) : Bool :=
  vs.any fun v => (index.successors v).any fun w => (settled.get w).isNone

/-- Settle the waiting routes; `stopped` holds the vertices at which the budget was spent. -/
def settle (index : Index n) (weigh : Edge → Except Failure α) (target : Fin n)
    (budget : Option Nat) (settled : Settled n) (stopped : List (Fin n))
    (frontier : Frontier n α) : Outcome n α :=
  match _ : popCheapest frontier.queue with
  | none => if leadsOut index settled stopped then .beyondBudget else .unreachable
  | some (route, queue) =>
    if _ : frontier.outdated route || settled.covers route.vertex route.hops then
      settle index weigh target budget settled stopped ⟨queue, frontier.best⟩
    else if route.vertex = target then .found route.trail.reverse route.cost
    else if budget.any (· ≤ route.hops) then
      settle index weigh target budget (settled.set route.vertex (some route.hops))
        (stopped ++ [route.vertex]) ⟨queue, frontier.best⟩
    else
      match (index.out route.vertex).foldlM
          (relaxArc weigh (settled.set route.vertex (some route.hops)) budget.isSome route)
          ⟨queue, frontier.best⟩ with
      | .error outcome => outcome
      | .ok next =>
        settle index weigh target budget (settled.set route.vertex (some route.hops)) stopped next
termination_by (settled.open, settled.hops, frontier.queue.length)
decreasing_by
  · exact Prod.Lex.right _ (Prod.Lex.right _ (length_of_popCheapest (by assumption)))
  · have h : settled.covers route.vertex route.hops = false := by simp_all
    rcases Settled.decreases h with h | ⟨h, h'⟩
    · exact Prod.Lex.left _ _ h
    · rw [h]
      exact Prod.Lex.right _ (Prod.Lex.left _ _ h')
  · have h : settled.covers route.vertex route.hops = false := by simp_all
    rcases Settled.decreases h with h | ⟨h, h'⟩
    · exact Prod.Lex.left _ _ h
    · rw [h]
      exact Prod.Lex.right _ (Prod.Lex.left _ _ h')

def byCost (index : Index n) (weigh : Edge → Except Failure α) (source target : Fin n)
    (budget : Option Nat) : Outcome n α :=
  settle index weigh target budget (Vector.replicate n none) [] (Frontier.start source)

end CodeGraph.Path
