import Mathlib.Data.List.Induction
import CodeGraph.Path.Critical
import CodeGraph.Proofs.Answers
import CodeGraph.Proofs.Path.Problem

/-!
# Candidates for a critical path

Listed paths are scored and the best of them wins. Where every edge has a cost
(`Costs`), every path has a score, which is the sum of these costs in the order
of the path (`candidates_gives`). An edge without a cost on any of them leaves no
candidate at all (`candidates_answer_iff`).

With exact costs, to beat another candidate is a strict weak order, and the
winner is the first of the best: it beats every candidate listed before it, and
none listed after it beats it (`best_spec`).
-/

namespace CodeGraph

/-- The cost of an edge, added up without rounding. -/
def CostModel.exactCost (m : CostModel) (g : Graph) (e : Edge) : Except Failure Rat := do
  Priced.whole (← m.breakdown g e)

namespace Critical

variable {n : Nat}

/-! ## Scores -/

section Scores

variable {α : Type} [Priced α] {m : CostModel} {g : Graph}

/-- The edge costs `x`, and every part of its cost can be counted by itself. -/
def Costs (m : CostModel) (g : Graph) (e : Edge) (x : α) : Prop :=
  ∃ b, m.breakdown g e = .ok b ∧ Priced.whole b = .ok x ∧
    ∀ v, v = b.base ∨ v ∈ b.penalties.map Prod.snd → ∃ y : α, Priced.part v = .ok y

theorem add_gives (factors : Factors α) {b : Breakdown}
    (hparts : ∀ v, v = b.base ∨ v ∈ b.penalties.map Prod.snd → ∃ y : α, Priced.part v = .ok y) :
    Gives (factors.add b) fun _ => True := by
  obtain ⟨base, hbase⟩ := hparts b.base (.inl rfl)
  unfold Factors.add
  rw [hbase]
  refine (Gives.foldlM (I := fun _ => True) trivial fun amounts entry hentry _ => ?_).bind ?_
  · obtain ⟨y, hy⟩ := hparts entry.2 (.inr (List.mem_map_of_mem hentry))
    unfold addPenalty
    rw [hy]
    exact Gives.of_ok trivial
  · intro penalties _
    cases b.matched with
    | none => exact Gives.of_ok trivial
    | some subkind => exact Gives.of_ok trivial

theorem addArc_gives (total : α × Factors α) {arc : Arc n} {x : α} (h : Costs m g arc.edge x) :
    Gives (addArc m g total arc) fun result => result.1 = total.1 + x := by
  obtain ⟨b, hb, hwhole, hparts⟩ := h
  unfold addArc
  rw [hb]
  refine (add_gives total.2 hparts).bind fun factors _ => ?_
  rw [hwhole]
  exact Gives.of_ok rfl

theorem score_gives {w : Edge → α} {path : List (Arc n)}
    (h : ∀ arc ∈ path, Costs m g arc.edge (w arc.edge)) :
    Gives (score m g path) fun result : α × Factors α => result.1 = Path.walkCost w path := by
  suffices ∀ start : α × Factors α, Gives (path.foldlM (addArc m g) start) fun result =>
      result.1 = (path.map fun arc => w arc.edge).foldl (· + ·) start.1 from
    this (0, Factors.zero)
  induction path with
  | nil => exact fun start => Gives.of_ok rfl
  | cons arc rest ih =>
      intro start
      rw [List.foldlM_cons]
      refine (addArc_gives start (h arc (List.mem_cons_self ..))).bind fun next hnext => ?_
      rw [List.map_cons, List.foldl_cons, ← hnext]
      exact ih (fun other hother => h other (List.mem_cons_of_mem _ hother)) next

/-- Every path becomes a candidate with its cost, in the order listed. -/
theorem candidates_gives {w : Edge → α} {paths : List (List (Arc n))}
    (h : ∀ p ∈ paths, ∀ arc ∈ p, Costs m g arc.edge (w arc.edge)) :
    Gives (candidates m g paths) fun cs : List (Candidate n α) =>
      cs.map Candidate.arcs = paths ∧ ∀ c ∈ cs, c.cost = Path.walkCost w c.arcs := by
  have hall : Gives (candidates m g paths) (List.Forall₂
      (fun p (c : Candidate n α) => c.arcs = p ∧ c.cost = Path.walkCost w c.arcs) paths) := by
    refine Gives.mapM fun p hp => (score_gives (h p hp)).bind ?_
    rintro ⟨cost, factors⟩ hcost
    exact Gives.of_ok ⟨rfl, hcost⟩
  refine hall.imp fun cs hcs => ?_
  clear h hall
  induction hcs with
  | nil => exact ⟨rfl, by simp⟩
  | cons hc _ ih =>
      obtain ⟨harcs, hcosts⟩ := ih
      refine ⟨by rw [List.map_cons, hc.1, harcs], fun c hmem => ?_⟩
      rcases List.mem_cons.mp hmem with rfl | hmem
      · exact hc.2
      · exact hcosts c hmem

theorem best_ne_none {cs : List (Candidate n α)} (h : cs ≠ []) : ∃ winner, best cs = some winner := by
  cases cs with
  | nil => exact absurd rfl h
  | cons c rest => exact ⟨_, rfl⟩

theorem parts_of_add {factors factors' : Factors α} {b : Breakdown}
    (h : factors.add b = .ok factors') :
    ∀ v, v = b.base ∨ v ∈ b.penalties.map Prod.snd → ∃ y : α, Priced.part v = .ok y := by
  obtain ⟨base, hbase, h⟩ := bind_eq_ok.mp h
  obtain ⟨_, hpenalties, -⟩ := bind_eq_ok.mp h
  rintro v (rfl | hv)
  · exact ⟨base, hbase⟩
  · obtain ⟨entry, hentry, rfl⟩ := List.mem_map.mp hv
    obtain ⟨_, _, hadded⟩ := Gives.of_foldlM hpenalties entry hentry
    obtain ⟨y, hy, -⟩ := bind_eq_ok.mp hadded
    exact ⟨y, hy⟩

theorem costs_of_addArc {total total' : α × Factors α} {arc : Arc n}
    (h : addArc m g total arc = .ok total') : ∃ x : α, Costs m g arc.edge x := by
  obtain ⟨b, hb, h⟩ := bind_eq_ok.mp h
  obtain ⟨_, hadd, h⟩ := bind_eq_ok.mp h
  obtain ⟨x, hwhole, -⟩ := bind_eq_ok.mp h
  exact ⟨x, b, hb, hwhole, parts_of_add hadd⟩

/-- Paths are scored exactly if all of their edges have costs. -/
theorem candidates_answer_iff {paths : List (List (Arc n))} :
    (∃ cs : List (Candidate n α), candidates m g paths = .ok cs) ↔
      ∀ p ∈ paths, ∀ arc ∈ p, ∃ x : α, Costs m g arc.edge x := by
  constructor
  · rintro ⟨cs, hcs⟩ p hp arc harc
    obtain ⟨_, hscored⟩ := Gives.of_mapM hcs p hp
    obtain ⟨_, hscore, -⟩ := bind_eq_ok.mp hscored
    obtain ⟨_, _, hadded⟩ := Gives.of_foldlM hscore arc harc
    exact costs_of_addArc hadded
  · intro h
    have hcost : ∀ e, (∃ x : α, Costs m g e x) → ∃ x : α, Costs m g e x := fun _ he => he
    choose! w hw using hcost
    obtain ⟨cs, hcs, -⟩ := candidates_gives fun p hp arc harc => hw arc.edge (h p hp arc harc)
    exact ⟨cs, hcs⟩

theorem exists_best {paths : List (List (Arc n))} {cs : List (Candidate n α)}
    (h : candidates m g paths = .ok cs) (hne : paths ≠ []) : ∃ winner, best cs = some winner := by
  refine best_ne_none ?_
  rintro rfl
  exact hne (List.forall₂_nil_right_iff.mp (Gives.forall₂_of_mapM h))

end Scores

theorem costs_of_exactCost {m : CostModel} {g : Graph} {e : Edge} {x : Rat}
    (h : m.exactCost g e = .ok x) : Costs m g e x := by
  obtain ⟨b, hb, hwhole⟩ := bind_eq_ok.mp h
  refine ⟨b, hb, hwhole, ?_⟩
  obtain ⟨amounts, hamounts, hrest⟩ := bind_eq_ok.mp hwhole
  obtain ⟨base, hbase, -⟩ := bind_eq_ok.mp hrest
  rintro v (rfl | hv)
  · exact ⟨base, hbase⟩
  · obtain ⟨entry, hentry, rfl⟩ := List.mem_map.mp hv
    exact Gives.of_mapM hamounts entry hentry

/-! ## The winner -/

section Winner

variable {a b c : Candidate n Rat}

theorem beats_iff : a.beats b = true ↔
    b.cost < a.cost ∨ (a.cost = b.cost ∧ a.arcs.length < b.arcs.length) := by
  simp [Candidate.beats]

theorem not_beats_iff : a.beats b = false ↔
    a.cost < b.cost ∨ (a.cost = b.cost ∧ b.arcs.length ≤ a.arcs.length) := by
  rw [Bool.eq_false_iff, ne_eq, beats_iff]
  constructor
  · intro h
    rcases lt_trichotomy a.cost b.cost with hlt | heq | hgt
    · exact .inl hlt
    · exact .inr ⟨heq, Nat.le_of_not_lt fun hlen => h (.inr ⟨heq, hlen⟩)⟩
    · exact absurd (.inl hgt) h
  · rintro (hlt | ⟨heq, hlen⟩) (hgt | ⟨heq', hlen'⟩)
    · exact lt_asymm hlt hgt
    · exact hlt.ne heq'
    · exact hgt.ne heq.symm
    · omega

theorem beats_asymm (h : a.beats b = true) : b.beats a = false := by
  rw [beats_iff] at h
  rw [not_beats_iff]
  rcases h with hlt | ⟨heq, hlen⟩
  · exact .inl hlt
  · exact .inr ⟨heq.symm, hlen.le⟩

theorem beats_of_not_beats (hab : a.beats b = true) (hcb : c.beats b = false) :
    a.beats c = true := by
  rw [beats_iff] at hab ⊢
  rw [not_beats_iff] at hcb
  rcases hab with hlt | ⟨heq, hlen⟩ <;> rcases hcb with hlt' | ⟨heq', hlen'⟩
  · exact .inl (hlt'.trans hlt)
  · exact .inl (heq' ▸ hlt)
  · exact .inl (heq ▸ hlt')
  · exact .inr ⟨heq.trans heq'.symm, hlen.trans_le hlen'⟩

/-- The winner is the first of the best. -/
theorem best_spec {cs : List (Candidate n Rat)} {winner : Candidate n Rat}
    (h : best cs = some winner) :
    ∃ pre post, cs = pre ++ winner :: post ∧ (∀ c ∈ pre, winner.beats c = true) ∧
      ∀ c ∈ post, c.beats winner = false := by
  cases cs with
  | nil => cases h
  | cons first rest =>
      obtain rfl := Option.some.inj h
      clear h
      -- Candidates are compared from the front, so the induction takes the last one off.
      induction rest using List.reverseRecOn with
      | nil => exact ⟨[], [], rfl, by simp, by simp⟩
      | append_singleton rest c ih =>
          obtain ⟨pre, post, hsplit, hpre, hpost⟩ := ih
          rw [List.foldl_concat]
          generalize rest.foldl (fun best c => if c.beats best then c else best) first = held at *
          by_cases hbeats : c.beats held = true
          · rw [if_pos hbeats]
            refine ⟨first :: rest, [], by simp, fun d hd => ?_, by simp⟩
            rw [hsplit] at hd
            rcases List.mem_append.mp hd with hd | hd
            · exact beats_of_not_beats hbeats (beats_asymm (hpre d hd))
            · rcases List.mem_cons.mp hd with rfl | hd
              · exact hbeats
              · exact beats_of_not_beats hbeats (hpost d hd)
          · rw [if_neg hbeats]
            refine ⟨pre, post ++ [c], ?_, hpre, fun d hd => ?_⟩
            · rw [← List.cons_append, hsplit]
              simp
            · rcases List.mem_append.mp hd with hd | hd
              · exact hpost d hd
              · rw [List.mem_singleton.mp hd]
                exact Bool.eq_false_iff.mpr hbeats

end Winner

end Critical

end CodeGraph
