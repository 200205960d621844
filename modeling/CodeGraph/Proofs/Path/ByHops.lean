import Mathlib.Data.List.Induction
import CodeGraph.Proofs.Path.Problem
import CodeGraph.Proofs.Traversal

/-!
# Searching by number of steps

The search by number of steps finds a path exactly if the target is within the
budget, and tells truly whether something lies beyond it (`byHops_spec`).

The traversal below the search has met exactly the vertices within its limit
(`Traversal.Swept`). Without a budget the limit is the number of vertices, which
no distance attains. With a budget, something lies beyond it if and only if
some vertex at exactly that distance leads to one not met: of the vertices further
out, one is a single step away (`Distance.nearer`).
-/

namespace CodeGraph.Path

variable {n : Nat}

/-! ## Walks and distances -/

section Distances

variable {index : Index n} {u v : Fin n} {k : Nat}

theorem leads_steps_iff {w : Fin n} :
    Traversal.Leads (index.steps true) v w ↔ w ∈ index.successors v := by
  simp [Traversal.Leads, Index.steps, Index.onward, Index.successors, Arc.tip]

theorem hops_iff_walk :
    Hops (Traversal.Leads (index.steps true)) u k v ↔
      ∃ p, index.Walk u p v ∧ p.length = k := by
  constructor
  · intro h
    induction h with
    | start => exact ⟨[], rfl, rfl⟩
    | step _ hleads ih =>
        obtain ⟨p, hp, rfl⟩ := ih
        obtain ⟨arc, harc, rfl⟩ := List.mem_map.mp (leads_steps_iff.mp hleads)
        exact ⟨p ++ [arc], hp.snoc harc, by simp⟩
  · rintro ⟨p, hp, rfl⟩
    induction p using List.reverseRecOn generalizing v with
    | nil =>
        obtain rfl : u = v := hp
        exact .start
    | append_singleton p arc ih =>
        obtain ⟨w, hw, harc, rfl⟩ := hp.split
        rw [List.length_append, List.length_singleton]
        exact (ih hw).step (leads_steps_iff.mpr (List.mem_map.mpr ⟨arc, harc, rfl⟩))

theorem distance_of_walk {p : List (Arc n)} (h : index.Walk u p v) :
    ∃ j ≤ p.length, Distance (Traversal.Leads (index.steps true)) u v j :=
  (hops_iff_walk.mpr ⟨p, h, rfl⟩).distance

end Distances

namespace Problem

variable {α : Type} {P : Problem n α}

theorem within_iff : P.Within ↔
    ∃ k ≤ P.budget.getD n,
      Distance (Traversal.Leads (P.index.steps true)) P.source P.target k := by
  constructor
  · rintro ⟨p, hp⟩
    obtain ⟨k, hk, hdist⟩ := distance_of_walk hp.walk
    refine ⟨k, ?_, hdist⟩
    cases hb : P.budget with
    | none => exact Nat.le_of_lt hdist.lt_order
    | some limit => exact Nat.le_trans hk (hp.fits limit hb)
  · rintro ⟨k, hk, hdist⟩
    obtain ⟨p, hp, rfl⟩ := hops_iff_walk.mp hdist.1
    exact ⟨p, hp, fun limit hl => by simpa [show P.budget = some limit from hl] using hk⟩

theorem beyond_iff {limit : Nat} (hb : P.budget = some limit) : P.Beyond ↔
    ∃ v, Distance (Traversal.Leads (P.index.steps true)) P.source v (limit + 1) := by
  constructor
  · rintro ⟨l, hl, v, ⟨p, hp⟩, hfar⟩
    obtain rfl : limit = l := Option.some.inj (hb.symm.trans hl)
    obtain ⟨k, -, hdist⟩ := distance_of_walk hp
    obtain ⟨q, hq, rfl⟩ := hops_iff_walk.mp hdist.1
    exact hdist.nearer (hfar q hq)
  · rintro ⟨v, hdist⟩
    obtain ⟨p, hp, -⟩ := hops_iff_walk.mp hdist.1
    exact ⟨limit, hb, v, ⟨p, hp⟩, fun q hq => hdist.2 _ (hops_iff_walk.mpr ⟨q, hq, rfl⟩)⟩

end Problem

/-! ## The search -/

section Rim

variable {β : Type} {steps : Fin n → List (β × Fin n)} {start : Fin n} {limit : Nat}
  {met : List (Discovery n β)}

theorem known_iff_distance (h : Traversal.Swept steps start limit met) {v : Fin n} :
    Traversal.known start met v = true ↔
      ∃ k ≤ limit, Distance (Traversal.Leads steps) start v k := by
  constructor
  · intro hknown
    rcases Traversal.known_iff.mp hknown with rfl | ⟨d, hd, rfl⟩
    · exact ⟨0, Nat.zero_le _, .self⟩
    · exact ⟨d.distance, h.within d hd, h.exact d hd⟩
  · rintro ⟨k, hk, hdist⟩
    exact h.complete v k hdist hk

theorem mem_rim (h : Traversal.Swept steps start limit met) {v : Fin n} :
    v ∈ rim start met limit ↔ Distance (Traversal.Leads steps) start v limit := by
  unfold rim
  by_cases hzero : limit = 0
  · subst hzero
    rw [if_pos rfl, List.mem_singleton]
    exact ⟨fun hv => hv ▸ .self, Distance.eq_of_zero⟩
  · rw [if_neg hzero]
    simp only [List.mem_map, List.mem_filter, decide_eq_true_eq]
    constructor
    · rintro ⟨d, ⟨hd, rfl⟩, rfl⟩
      exact h.exact d hd
    · intro hdist
      rcases Traversal.known_iff.mp (h.complete v limit hdist (Nat.le_refl _)) with
        rfl | ⟨d, hd, rfl⟩
      · exact absurd (hdist.unique .self) hzero
      · exact ⟨d, ⟨hd, (h.exact d hd).unique hdist⟩, rfl⟩

/-- Something lies beyond a limit exactly if the rim leads to a vertex that was not met. -/
theorem rim_leads_on_iff (h : Traversal.Swept steps start limit met) :
    (∃ v ∈ rim start met limit, ∃ w, Traversal.Leads steps v w ∧
        Traversal.known start met w = false) ↔
      ∃ w, Distance (Traversal.Leads steps) start w (limit + 1) := by
  constructor
  · rintro ⟨v, hv, w, hvw, hnew⟩
    obtain ⟨j, hj, hdist⟩ := ((mem_rim h).mp hv).next hvw
    rcases Nat.lt_or_ge limit j with hlt | hle
    · obtain rfl : j = limit + 1 := by omega
      exact ⟨w, hdist⟩
    · have := h.complete w j hdist hle
      rw [hnew] at this
      cases this
  · rintro ⟨w, hdist⟩
    obtain ⟨v, hv, hvw⟩ := hdist.pred
    refine ⟨v, (mem_rim h).mpr hv, w, hvw, Bool.eq_false_iff.mpr fun hknown => ?_⟩
    obtain ⟨k, hk, hdist'⟩ := (known_iff_distance h).mp hknown
    have := hdist'.unique hdist
    omega

end Rim

/-- The search by number of steps finds a path if there is one within the budget, and otherwise
tells why not. -/
theorem byHops_spec {α : Type} [Scalar α] (P : Problem n α) (hne : P.source ≠ P.target) :
    P.Verdict (fun _ _ => P.Within) (byHops P.index P.source P.target P.budget) := by
  have hswept := Traversal.swept_within (P.index.steps true) P.source (P.budget.getD n)
  unfold byHops
  simp only
  cases hfind : (Traversal.within (P.index.steps true) P.source (P.budget.getD n)).find?
      fun d => d.vertex = P.target with
  | some d =>
      have hmem := List.mem_of_find?_eq_some hfind
      have hvertex : d.vertex = P.target := by simpa using List.find?_some hfind
      exact Problem.within_iff.mpr ⟨d.distance, hswept.within d hmem, hvertex ▸ hswept.exact d hmem⟩
  | none =>
      have hnot : ¬P.Within := fun hwithin => by
        obtain ⟨k, hk, hdist⟩ := Problem.within_iff.mp hwithin
        rcases Traversal.known_iff.mp (hswept.complete _ k hdist hk) with heq | ⟨d, hd, heq⟩
        · exact hne heq.symm
        · exact List.find?_eq_none.mp hfind d hd (decide_eq_true heq)
      cases hb : P.budget with
      | none =>
          refine ⟨hnot, ?_⟩
          rintro ⟨limit, hlimit, -⟩
          cases hb.symm.trans hlimit
      | some limit =>
          simp only [hb, Option.getD_some] at hswept
          have hbeyond : P.Beyond ↔
              ((rim P.source (Traversal.within (P.index.steps true) P.source limit) limit).any
                fun v => (P.index.successors v).any fun w => !Traversal.known P.source
                  (Traversal.within (P.index.steps true) P.source limit) w) = true := by
            rw [Problem.beyond_iff hb, ← rim_leads_on_iff hswept]
            simp only [List.any_eq_true, leads_steps_iff, Bool.not_eq_true']
          simp only [Option.getD_some]
          split
          · next hany => exact ⟨hnot, hbeyond.mpr hany⟩
          · next hany => exact ⟨hnot, fun h => hany (hbeyond.mp h)⟩

end CodeGraph.Path
