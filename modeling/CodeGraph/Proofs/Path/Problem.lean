import Mathlib.Algebra.Order.Ring.Rat
import CodeGraph.Path.Search
import CodeGraph.Proofs.Snapshot

/-!
# Path problems

What is asked of a path search, and what its outcome says: the same for a search
by number of steps and for one by cost.

Costs may be numbers of any sort whose addition is monotone on the left and
never decreases a cost (`LawfulCost`). Nothing else is asked of them, so the
order in which the costs along a walk are added matters and is always that of
the walk (`walkCost`).
-/

namespace CodeGraph.Path

/-! ## Costs -/

section Costs

variable {α : Type} [Scalar α]

/-- A number that a weight may be: neither negative nor not-a-number. -/
def Fair (x : α) : Prop :=
  isBadWeight x = false

/-- What a search relies on when it adds and compares costs. Addition has to be monotone on the
left and must not decrease a cost; it need be neither associative nor commutative nor exact, so
that rounded sums qualify. -/
class LawfulCost (α : Type) [Scalar α] : Prop where
  fair_zero : Fair (0 : α)
  fair_add {a w : α} : Fair a → Fair w → Fair (a + w)
  lt_asymm {a b : α} : Fair a → Fair b → a < b → ¬b < a
  not_lt_trans {a b c : α} : Fair a → Fair b → Fair c → ¬b < a → ¬c < b → ¬c < a
  add_mono {a b w : α} : Fair a → Fair b → Fair w → ¬b < a → ¬b + w < a + w
  le_add {a w : α} : Fair a → Fair w → ¬a + w < a

theorem not_lt_self [LawfulCost α] {a : α} (ha : Fair a) : ¬a < a :=
  fun h => LawfulCost.lt_asymm ha ha h h

/-- The costs of a walk, added from its start on. -/
def walkCost {n : Nat} (cost : Edge → α) (p : List (Arc n)) : α :=
  Scalar.sum (p.map fun arc => cost arc.edge)

theorem walkCost_snoc {n : Nat} (cost : Edge → α) (p : List (Arc n)) (arc : Arc n) :
    walkCost cost (p ++ [arc]) = walkCost cost p + cost arc.edge := by
  simp [walkCost, Scalar.sum]

theorem sum_fair [LawfulCost α] {xs : List α} (h : ∀ x ∈ xs, Fair x) : Fair (Scalar.sum xs) := by
  suffices ∀ a : α, Fair a → Fair (xs.foldl (· + ·) a) from this 0 LawfulCost.fair_zero
  induction xs with
  | nil => exact fun a ha => ha
  | cons x rest ih =>
      intro a ha
      exact ih (fun y hy => h y (List.mem_cons_of_mem _ hy)) _
        (LawfulCost.fair_add ha (h x (List.mem_cons_self ..)))

end Costs

theorem fair_rat {x : Rat} : Fair x ↔ 0 ≤ x := by
  simp [Fair, isBadWeight]

/-- Exact costs are lawful. -/
instance : LawfulCost Rat where
  fair_zero := fair_rat.mpr le_rfl
  fair_add ha hw := fair_rat.mpr (add_nonneg (fair_rat.mp ha) (fair_rat.mp hw))
  lt_asymm _ _ h := not_lt.mpr (le_of_lt h)
  not_lt_trans _ _ _ hab hbc := not_lt.mpr (le_trans (not_lt.mp hab) (not_lt.mp hbc))
  add_mono {_ _ w} _ _ _ h := not_lt.mpr (add_le_add_left (not_lt.mp h) w)
  le_add _ hw := not_lt.mpr (le_add_of_nonneg_right (fair_rat.mp hw))

/-! ## What is asked of a search -/

/-- From where to where, along which arcs, at which cost, and with how many arcs at most. -/
structure Problem (n : Nat) (α : Type) where
  index : Index n
  cost : Edge → α
  source : Fin n
  target : Fin n
  budget : Option Nat

variable {n : Nat} {α : Type}

namespace Problem

/-- A walk from the source that keeps to the budget. -/
structure Admits (P : Problem n α) (p : List (Arc n)) (v : Fin n) : Prop where
  walk : P.index.Walk P.source p v
  fits : ∀ limit ∈ P.budget, p.length ≤ limit

def Within (P : Problem n α) : Prop :=
  ∃ p, P.Admits p P.target

/-- Some vertex can be reached, but not within the budget. -/
def Beyond (P : Problem n α) : Prop :=
  ∃ limit, P.budget = some limit ∧
    ∃ v, (∃ p, P.index.Walk P.source p v) ∧ ∀ p, P.index.Walk P.source p v → limit < p.length

/-- A simple walk to the target within the budget, no more expensive than any other. -/
structure Cheapest [Scalar α] (P : Problem n α) (p : List (Arc n)) (c : α) : Prop where
  admits : P.Admits p P.target
  simple : (P.source :: p.map Arc.target).Nodup
  cost_eq : c = walkCost P.cost p
  least : ∀ q, P.Admits q P.target → ¬walkCost P.cost q < c

/-- Arcs leave the vertex they are listed at, and none has a bad weight. -/
structure Sound [Scalar α] (P : Problem n α) (weigh : Edge → Except Failure α) : Prop where
  source : ∀ v, ∀ arc ∈ P.index.out v, arc.source = v
  weigh : ∀ v, ∀ arc ∈ P.index.out v, weigh arc.edge = .ok (P.cost arc.edge)
  fair : ∀ v, ∀ arc ∈ P.index.out v, Fair (P.cost arc.edge)

/-- The arc has a fair weight, which is its cost. -/
structure Passes [Scalar α] (P : Problem n α) (weigh : Edge → Except Failure α) (arc : Arc n) :
    Prop where
  weigh : weigh arc.edge = .ok (P.cost arc.edge)
  fair : Fair (P.cost arc.edge)

theorem Sound.passes [Scalar α] {P : Problem n α} {weigh : Edge → Except Failure α}
    (hP : P.Sound weigh) {v : Fin n} {arc : Arc n} (harc : arc ∈ P.index.out v) :
    P.Passes weigh arc :=
  ⟨hP.weigh v arc harc, hP.fair v arc harc⟩

theorem Sound.walk_fair [Scalar α] [LawfulCost α] {P : Problem n α}
    {weigh : Edge → Except Failure α} (hP : P.Sound weigh) {u v : Fin n} {p : List (Arc n)}
    (hp : P.index.Walk u p v) : Fair (walkCost P.cost p) := by
  refine sum_fair fun x hx => ?_
  obtain ⟨arc, harc, rfl⟩ := List.mem_map.mp hx
  obtain ⟨w, hw⟩ := hp.mem_out harc
  exact hP.fair w arc hw

/-- The vertices along a walk, read off the ends of its arcs or off their starts. -/
theorem Sound.vertices_eq [Scalar α] {P : Problem n α} {weigh : Edge → Except Failure α}
    (hP : P.Sound weigh) {u v : Fin n} {p : List (Arc n)} (hp : P.index.Walk u p v) :
    u :: p.map Arc.target = p.map Arc.source ++ [v] := by
  induction p generalizing u with
  | nil =>
      obtain rfl : u = v := hp
      rfl
  | cons arc rest ih =>
      rw [List.map_cons, List.map_cons, ih hp.2, hP.source u arc hp.1, List.cons_append]

/-- What an outcome says of a problem, where `good` is what a path found has to be. -/
def Verdict (P : Problem n α) (good : List (Arc n) → α → Prop) : Outcome n α → Prop
  | .found p c => good p c
  | .beyondBudget => ¬P.Within ∧ P.Beyond
  | .unreachable => ¬P.Within ∧ ¬P.Beyond
  | .badWeight .. => False
  | .failed _ => False

theorem Verdict.imp {P : Problem n α} {good good' : List (Arc n) → α → Prop}
    (himp : ∀ p c, good p c → good' p c) {outcome : Outcome n α} (h : P.Verdict good outcome) :
    P.Verdict good' outcome := by
  cases outcome with
  | found p c => exact himp p c h
  | beyondBudget => exact h
  | unreachable => exact h
  | badWeight => exact h
  | failed => exact h

theorem Verdict.found_of_within {P : Problem n α} {good : List (Arc n) → α → Prop}
    {outcome : Outcome n α} (h : P.Verdict good outcome) (hwithin : P.Within) :
    ∃ p c, outcome = .found p c ∧ good p c := by
  cases outcome with
  | found p c => exact ⟨p, c, rfl, h⟩
  | beyondBudget => exact absurd hwithin h.1
  | unreachable => exact absurd hwithin h.1
  | badWeight => exact h.elim
  | failed => exact h.elim

/-- Without a path, the outcome is told by whether something lies beyond the budget. -/
theorem Verdict.eq_of_not_within {P : Problem n α} {outcome : Outcome n α}
    (h : P.Verdict (fun _ _ => P.Within) outcome) (hnot : ¬P.Within) :
    (P.Beyond → outcome = .beyondBudget) ∧ (¬P.Beyond → outcome = .unreachable) := by
  cases outcome with
  | found p c => exact absurd h hnot
  | beyondBudget => exact ⟨fun _ => rfl, fun hfar => absurd h.2 hfar⟩
  | unreachable => exact ⟨fun hbeyond => absurd hbeyond h.2, fun _ => rfl⟩
  | badWeight => exact h.elim
  | failed => exact h.elim

/-- The steps by which a search tells routes of the given length apart. -/
def level (P : Problem n α) (k : Nat) : Nat :=
  if P.budget.isSome then k else 0

theorem level_mono (P : Problem n α) {j k : Nat} (h : j ≤ k) : P.level j ≤ P.level k := by
  unfold level
  split
  · exact h
  · exact Nat.le_refl _

/-- The steps of a route after one more arc. -/
def nextHops (P : Problem n α) (hops : Nat) : Nat :=
  if P.budget.isSome then hops + 1 else 0

theorem nextHops_level (P : Problem n α) (k : Nat) :
    P.nextHops (P.level k) = P.level (k + 1) := by
  unfold nextHops level
  split <;> rfl

theorem nextHops_mono (P : Problem n α) {j k : Nat} (h : j ≤ k) :
    P.nextHops j ≤ P.nextHops k := by
  unfold nextHops
  split
  · exact Nat.succ_le_succ h
  · exact Nat.le_refl _

theorem le_nextHops_level (P : Problem n α) (k : Nat) :
    P.level k ≤ P.nextHops (P.level k) := by
  rw [nextHops_level]
  exact P.level_mono (Nat.le_succ k)

/-- The budget ends routes with these steps. -/
def spent (P : Problem n α) (hops : Nat) : Bool :=
  P.budget.any (· ≤ hops)

theorem budget_of_spent (P : Problem n α) {hops : Nat} (h : P.spent hops = true) :
    ∃ limit, P.budget = some limit := by
  cases hb : P.budget with
  | none => simp [spent, hb] at h
  | some limit => exact ⟨limit, rfl⟩

theorem spent_level (P : Problem n α) {hops k : Nat} (hhops : hops ≤ P.level k)
    (hfits : ∀ limit ∈ P.budget, k + 1 ≤ limit) : P.spent hops = false := by
  cases hb : P.budget with
  | none => simp [spent, hb]
  | some limit =>
      have hle : hops ≤ k := by simpa [level, hb] using hhops
      have hlt := hfits limit (by rw [hb]; rfl)
      simp only [spent, hb, Option.any_some, decide_eq_false_iff_not]
      omega

theorem Admits.snoc {P : Problem n α} {p : List (Arc n)} {v : Fin n} (h : P.Admits p v)
    (hopen : P.spent (P.level p.length) = false) {arc : Arc n} (harc : arc ∈ P.index.out v) :
    P.Admits (p ++ [arc]) arc.target := by
  refine ⟨h.walk.snoc harc, fun limit hlimit => ?_⟩
  have hb : P.budget = some limit := hlimit
  simp only [spent, level, hb, Option.isSome_some, if_true, Option.any_some,
    decide_eq_false_iff_not] at hopen
  rw [List.length_append, List.length_singleton]
  omega

end Problem

end CodeGraph.Path
