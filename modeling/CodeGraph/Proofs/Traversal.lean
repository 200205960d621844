import Mathlib.Data.Fintype.Card
import Mathlib.Data.List.Nodup
import CodeGraph.Proofs.Snapshot
import CodeGraph.Traversal

/-!
# Traversals meet every vertex at its distance

The distance of a vertex is the least number of steps that lead to it. A
traversal with a limit meets exactly the vertices whose distance is within the
limit, each once, nearer ones first, and notes their distances (`swept_within`).

`Swept` states this for a given limit, and doubles as the invariant of the
layers: after layer `k` the discoveries are those of a traversal with limit
`k`, and the layer consists of the vertices at distance `k`. One more layer is
one more limit; an empty layer means that nothing lies further out.

The step noted with a vertex is the first that leads there out of the layer
before (`first_within`). A traversal to a greater limit notes the same and goes
on (`exists_further`).
-/

namespace CodeGraph

section Distance

variable {n : Nat} {r : Fin n → Fin n → Prop} {u v w : Fin n} {j k : Nat}

/-- In `k` steps one may get from `u` to a vertex. -/
inductive Hops (r : Fin n → Fin n → Prop) (u : Fin n) : Nat → Fin n → Prop
  | start : Hops r u 0 u
  | step {k : Nat} {v w : Fin n} : Hops r u k v → r v w → Hops r u (k + 1) w

/-- The least number of steps from `u` to `v` is `k`. -/
def Distance (r : Fin n → Fin n → Prop) (u v : Fin n) (k : Nat) : Prop :=
  Hops r u k v ∧ ∀ j, Hops r u j v → k ≤ j

theorem Hops.distance (h : Hops r u k v) : ∃ j ≤ k, Distance r u v j := by
  classical
  have hex : ∃ j, Hops r u j v := ⟨k, h⟩
  exact ⟨Nat.find hex, Nat.find_min' hex h, Nat.find_spec hex, fun _ hj => Nat.find_min' hex hj⟩

theorem Hops.cons (huv : r u v) (h : Hops r v k w) : Hops r u (k + 1) w := by
  induction h with
  | start => exact .step .start huv
  | step _ hstep ih => exact ih.step hstep

theorem Hops.reverse {r' : Fin n → Fin n → Prop} (hr : ∀ a b, r a b → r' b a)
    (h : Hops r u k v) : Hops r' v k u := by
  induction h with
  | start => exact .start
  | step _ hstep ih => exact .cons (hr _ _ hstep) ih

namespace Distance

theorem self : Distance r u u 0 :=
  ⟨.start, fun _ _ => Nat.zero_le _⟩

theorem unique (hj : Distance r u v j) (hk : Distance r u v k) : j = k :=
  Nat.le_antisymm (hj.2 k hk.1) (hk.2 j hj.1)

theorem eq_of_zero (h : Distance r u v 0) : v = u := by
  cases h.1
  rfl

theorem pred (h : Distance r u w (k + 1)) : ∃ v, Distance r u v k ∧ r v w := by
  obtain ⟨hops, hleast⟩ := h
  cases hops with
  | @step _ v _ hv hvw =>
      refine ⟨v, ⟨hv, fun j hj => ?_⟩, hvw⟩
      have := hleast (j + 1) (hj.step hvw)
      omega

theorem next (h : Distance r u v k) (hvw : r v w) : ∃ j ≤ k + 1, Distance r u w j :=
  (h.1.step hvw).distance

theorem nearer (h : Distance r u v k) (hj : j ≤ k) : ∃ w, Distance r u w j := by
  induction k generalizing v with
  | zero =>
      obtain rfl : j = 0 := by omega
      exact ⟨v, h⟩
  | succ k ih =>
      rcases Nat.lt_or_ge k j with hlt | hle
      · obtain rfl : j = k + 1 := by omega
        exact ⟨v, h⟩
      · obtain ⟨w, hw, -⟩ := h.pred
        exact ih hw hle

/-- Distances are below the number of vertices, for each of them has a vertex of its own. -/
theorem lt_order (h : Distance r u v k) : k < n := by
  choose f hf using fun j : Fin (k + 1) => h.nearer (Nat.le_of_lt_succ j.isLt)
  have hinj : Function.Injective f := fun a b hab =>
    Fin.ext ((hf a).unique (hab ▸ hf b))
  have hcard := Fintype.card_le_of_injective f hinj
  rwa [Fintype.card_fin, Fintype.card_fin] at hcard

end Distance

end Distance

namespace Traversal

variable {n : Nat} {β : Type} {steps : Fin n → List (β × Fin n)} {start : Fin n}

/-- Some step leads from `v` to `w`. -/
def Leads (steps : Fin n → List (β × Fin n)) (v w : Fin n) : Prop :=
  ∃ b, (b, w) ∈ steps v

theorem known_iff {met : List (Discovery n β)} {v : Fin n} :
    known start met v = true ↔ v = start ∨ ∃ d ∈ met, d.vertex = v := by
  simp [known]

/-- The discoveries are those of a traversal with the given limit. -/
structure Swept (steps : Fin n → List (β × Fin n)) (start : Fin n) (limit : Nat)
    (met : List (Discovery n β)) : Prop where
  nodup : (start :: met.map Discovery.vertex).Nodup
  exact : ∀ d ∈ met, Distance (Leads steps) start d.vertex d.distance
  within : ∀ d ∈ met, d.distance ≤ limit
  complete : ∀ v k, Distance (Leads steps) start v k → k ≤ limit → known start met v = true
  sorted : met.Pairwise fun d e => d.distance ≤ e.distance

namespace Swept

variable {limit : Nat} {met : List (Discovery n β)}

theorem nil : Swept steps start 0 ([] : List (Discovery n β)) where
  nodup := by simp
  exact := by simp
  within := by simp
  complete v k hv hk := by
    obtain rfl : k = 0 := Nat.le_zero.mp hk
    exact known_iff.mpr (Or.inl hv.eq_of_zero)
  sorted := List.Pairwise.nil

theorem of_empty (h : Swept steps start limit met)
    (hempty : ∀ v, ¬Distance (Leads steps) start v limit) (limit' : Nat) (hle : limit ≤ limit') :
    Swept steps start limit' met :=
  { h with
    within := fun d hd => Nat.le_trans (h.within d hd) hle
    complete := fun v k hv _ => by
      rcases Nat.lt_or_ge limit k with hlt | hk
      · obtain ⟨w, hw⟩ := hv.nearer (Nat.le_of_lt hlt)
        exact absurd hw (hempty w)
      · exact h.complete v k hv hk }

end Swept

/-! ## One more layer -/

/-- Part of a layer: the discoveries before it and new ones, all at the next distance. -/
structure Growing (steps : Fin n → List (β × Fin n)) (start : Fin n) (k : Nat)
    (met current : List (Discovery n β)) : Prop where
  nodup : (start :: current.map Discovery.vertex).Nodup
  split : ∃ added, current = met ++ added ∧
    ∀ d ∈ added, d.distance = k + 1 ∧ Distance (Leads steps) start d.vertex (k + 1)

section Layer

variable {k : Nat} {met current : List (Discovery n β)}

theorem growing_meet (hmet : Swept steps start k met)
    (h : Growing steps start k met current) {v : Fin n} (hv : Distance (Leads steps) start v k)
    {step : β × Fin n} (hstep : step ∈ steps v) :
    Growing steps start k met (meet start v (k + 1) current step) ∧
      known start (meet start v (k + 1) current step) step.2 = true := by
  unfold meet
  by_cases hknown : known start current step.2 = true
  · rw [if_pos hknown]
    exact ⟨h, hknown⟩
  · rw [if_neg hknown]
    obtain ⟨added, rfl, hadded⟩ := h.split
    have hfresh : ¬(step.2 = start ∨ ∃ d ∈ met ++ added, d.vertex = step.2) :=
      fun hor => hknown (known_iff.mpr hor)
    have hdist : Distance (Leads steps) start step.2 (k + 1) := by
      obtain ⟨j, hj, hdist⟩ := hv.next (w := step.2) ⟨step.1, hstep⟩
      rcases Nat.lt_or_ge k j with hlt | hle
      · rwa [show k + 1 = j by omega]
      · have hold := known_iff.mp (hmet.complete step.2 j hdist hle)
        refine absurd (hold.imp_right ?_) hfresh
        rintro ⟨d, hd, heq⟩
        exact ⟨d, List.mem_append_left _ hd, heq⟩
    refine ⟨⟨?_, added ++ [⟨step.2, v, step.1, k + 1⟩], by simp, fun d hd => ?_⟩,
      known_iff.mpr (Or.inr ⟨_, List.mem_append_right _ (List.mem_singleton.mpr rfl), rfl⟩)⟩
    · rw [List.map_append, ← List.cons_append]
      refine List.nodup_append.mpr ⟨h.nodup, by simp, fun a ha b hb hab => hfresh ?_⟩
      obtain rfl : b = step.2 := by simpa using hb
      subst hab
      rcases List.mem_cons.mp ha with rfl | ha
      · exact Or.inl rfl
      · exact Or.inr (List.mem_map.mp ha)
    · rcases List.mem_append.mp hd with hd | hd
      · exact hadded d hd
      · rw [List.mem_singleton.mp hd]
        exact ⟨rfl, hdist⟩

theorem known_meet {v w : Fin n} {step : β × Fin n} {distance : Nat}
    (h : known start current w = true) :
    known start (meet start v distance current step) w = true := by
  unfold meet
  split
  · exact h
  · rw [known_iff] at h ⊢
    exact h.imp_right fun ⟨d, hd, heq⟩ => ⟨d, List.mem_append_left _ hd, heq⟩

theorem growing_foldl (hmet : Swept steps start k met) (pairs : List (Fin n × (β × Fin n)))
    (hpairs : ∀ p ∈ pairs, Distance (Leads steps) start p.1 k ∧ p.2 ∈ steps p.1)
    (h : Growing steps start k met current) :
    Growing steps start k met
        (pairs.foldl (fun met p => meet start p.1 (k + 1) met p.2) current) ∧
      (∀ w, known start current w = true →
        known start (pairs.foldl (fun met p => meet start p.1 (k + 1) met p.2) current) w = true) ∧
      ∀ p ∈ pairs,
        known start (pairs.foldl (fun met p => meet start p.1 (k + 1) met p.2) current) p.2.2
          = true := by
  induction pairs generalizing current with
  | nil => exact ⟨h, fun _ hw => hw, by simp⟩
  | cons p rest ih =>
      obtain ⟨hdist, hstep⟩ := hpairs p (List.mem_cons_self ..)
      obtain ⟨hgrow, hp⟩ := growing_meet hmet h hdist hstep
      obtain ⟨hall, hmono, hrest⟩ :=
        ih (fun q hq => hpairs q (List.mem_cons_of_mem _ hq)) hgrow
      refine ⟨hall, fun w hw => hmono w (known_meet hw), fun q hq => ?_⟩
      rcases List.mem_cons.mp hq with rfl | hq
      · exact hmono _ hp
      · exact hrest q hq

theorem expand_eq_foldl (distance : Nat) (layer : List (Fin n)) (met : List (Discovery n β)) :
    expand steps start distance layer met =
      (layer.flatMap fun v => (steps v).map fun step => (v, step)).foldl
        (fun met p => meet start p.1 distance met p.2) met := by
  simp only [expand, List.foldl_flatMap, List.foldl_map]

/-- A layer that has everything at the next distance completes the next limit. -/
theorem Growing.swept (h : Growing steps start k met current) (hmet : Swept steps start k met)
    (hkept : ∀ v, known start met v = true → known start current v = true)
    (hreached : ∀ v, Distance (Leads steps) start v (k + 1) → known start current v = true) :
    Swept steps start (k + 1) current := by
  obtain ⟨added, rfl, hadded⟩ := h.split
  exact {
    nodup := h.nodup
    exact := fun d hd => by
      rcases List.mem_append.mp hd with hd | hd
      · exact hmet.exact d hd
      · rw [(hadded d hd).1]; exact (hadded d hd).2
    within := fun d hd => by
      rcases List.mem_append.mp hd with hd | hd
      · exact Nat.le_succ_of_le (hmet.within d hd)
      · exact Nat.le_of_eq (hadded d hd).1
    complete := fun v j hv hj => by
      rcases Nat.lt_or_ge k j with hlt | hle
      · obtain rfl : j = k + 1 := by omega
        exact hreached v hv
      · exact hkept v (hmet.complete v j hv hle)
    sorted := by
      refine List.pairwise_append.mpr ⟨hmet.sorted, ?_, fun d hd e he => ?_⟩
      · exact List.pairwise_of_forall_mem_list fun d hd e he => by
          rw [(hadded d hd).1, (hadded e he).1]
      · rw [(hadded e he).1]
        exact Nat.le_succ_of_le (hmet.within d hd) }

theorem Growing.mem_new (h : Growing steps start k met current) (hmet : Swept steps start k met)
    (hreached : ∀ v, Distance (Leads steps) start v (k + 1) → known start current v = true)
    (v : Fin n) : v ∈ (current.drop met.length).map Discovery.vertex ↔
      Distance (Leads steps) start v (k + 1) := by
  obtain ⟨added, rfl, hadded⟩ := h.split
  rw [List.drop_left]
  constructor
  · intro hv
    obtain ⟨d, hd, rfl⟩ := List.mem_map.mp hv
    exact (hadded d hd).2
  · intro hv
    rcases known_iff.mp (hreached v hv) with rfl | ⟨d, hd, rfl⟩
    · exact absurd (hv.unique .self) (Nat.succ_ne_zero k)
    · rcases List.mem_append.mp hd with hd | hd
      · have := hmet.within d hd
        have := (hmet.exact d hd).unique hv
        omega
      · exact List.mem_map.mpr ⟨d, hd, rfl⟩

/-- Taking all steps out of the layer at distance `k`. -/
theorem expand_spec (hmet : Swept steps start k met) {layer : List (Fin n)}
    (hlayer : ∀ v, v ∈ layer ↔ Distance (Leads steps) start v k) :
    Swept steps start (k + 1) (expand steps start (k + 1) layer met) ∧
      ∀ v, v ∈ ((expand steps start (k + 1) layer met).drop met.length).map Discovery.vertex ↔
        Distance (Leads steps) start v (k + 1) := by
  have hpairs : ∀ p ∈ layer.flatMap fun v => (steps v).map fun step => (v, step),
      Distance (Leads steps) start p.1 k ∧ p.2 ∈ steps p.1 := by
    intro p hp
    obtain ⟨v, hv, hp⟩ := List.mem_flatMap.mp hp
    obtain ⟨step, hstep, rfl⟩ := List.mem_map.mp hp
    exact ⟨(hlayer v).mp hv, hstep⟩
  have hstart : Growing steps start k met met := ⟨hmet.nodup, [], by simp, by simp⟩
  obtain ⟨hgrow, hkept, hall⟩ := growing_foldl hmet _ hpairs hstart
  rw [← expand_eq_foldl] at hgrow hkept hall
  have hreached : ∀ v, Distance (Leads steps) start v (k + 1) →
      known start (expand steps start (k + 1) layer met) v = true := by
    intro v hv
    obtain ⟨u, hu, b, hb⟩ := hv.pred
    exact hall (u, (b, v)) (List.mem_flatMap.mpr
      ⟨u, (hlayer u).mpr hu, List.mem_map.mpr ⟨(b, v), hb, rfl⟩⟩)
  exact ⟨hgrow.swept hmet hkept hreached, hgrow.mem_new hmet hreached⟩

end Layer

/-! ## Whole traversals -/

theorem swept_layers (left : Nat) {k : Nat} {layer : List (Fin n)}
    {met : List (Discovery n β)} (hmet : Swept steps start k met)
    (hlayer : ∀ v, v ∈ layer ↔ Distance (Leads steps) start v k) :
    Swept steps start (k + left) (layers steps start left k layer met) := by
  induction left generalizing k layer met with
  | zero => simpa [layers] using hmet
  | succ left ih =>
      cases layer with
      | nil =>
          rw [layers]
          exact hmet.of_empty (fun v hv => List.not_mem_nil ((hlayer v).mpr hv)) _
            (Nat.le_add_right ..)
      | cons v rest =>
          rw [layers, show k + (left + 1) = (k + 1) + left by omega]
          obtain ⟨hnext, hfront⟩ := expand_spec hmet hlayer
          exact ih hnext hfront

theorem mem_singleton_iff {v : Fin n} : v ∈ [start] ↔ Distance (Leads steps) start v 0 := by
  rw [List.mem_singleton]
  exact ⟨fun hv => hv ▸ .self, Distance.eq_of_zero⟩

theorem swept_within (steps : Fin n → List (β × Fin n)) (start : Fin n) (limit : Nat) :
    Swept steps start limit (within steps start limit) := by
  have hnil : Swept steps start 0 [] := .nil
  have h := swept_layers limit hnil fun _ => mem_singleton_iff
  rwa [Nat.zero_add] at h

/-! ## The steps remembered -/

/-- Every discovery was made by a step out of its parent. -/
def Stepped (steps : Fin n → List (β × Fin n)) (met : List (Discovery n β)) : Prop :=
  ∀ d ∈ met, (d.via, d.vertex) ∈ steps d.parent

theorem stepped_meet {met : List (Discovery n β)} (h : Stepped steps met) {v : Fin n}
    {step : β × Fin n} (hstep : step ∈ steps v) (distance : Nat) :
    Stepped steps (meet start v distance met step) := by
  unfold meet
  split
  · exact h
  · intro d hd
    rcases List.mem_append.mp hd with hd | hd
    · exact h d hd
    · obtain rfl := List.mem_singleton.mp hd
      exact hstep

theorem stepped_expand {met : List (Discovery n β)} (h : Stepped steps met) (distance : Nat)
    (layer : List (Fin n)) : Stepped steps (expand steps start distance layer met) := by
  rw [expand_eq_foldl]
  have hpairs : ∀ p ∈ layer.flatMap fun v => (steps v).map fun step => (v, step),
      p.2 ∈ steps p.1 := by
    intro p hp
    obtain ⟨v, -, hp⟩ := List.mem_flatMap.mp hp
    obtain ⟨step, hstep, rfl⟩ := List.mem_map.mp hp
    exact hstep
  generalize layer.flatMap (fun v => (steps v).map fun step => (v, step)) = pairs at hpairs
  induction pairs generalizing met with
  | nil => exact h
  | cons p rest ih =>
      rw [List.foldl_cons]
      exact ih (stepped_meet h (hpairs p (List.mem_cons_self ..)) distance)
        fun q hq => hpairs q (List.mem_cons_of_mem _ hq)

theorem stepped_within (steps : Fin n → List (β × Fin n)) (start : Fin n) (limit : Nat) :
    Stepped steps (within steps start limit) := by
  suffices ∀ (k : Nat) (layer : List (Fin n)) (met : List (Discovery n β)),
      Stepped steps met → Stepped steps (layers steps start limit k layer met) from
    this 0 [start] [] (by simp [Stepped])
  induction limit with
  | zero => exact fun k layer met h => h
  | succ left ih =>
      intro k layer met h
      cases layer with
      | nil => exact h
      | cons v rest => exact ih _ _ _ (stepped_expand h _ _)

/-! ## The first step into a vertex -/

/-- All steps out of a layer, with the vertices they leave, in the order they are taken. -/
def stepsFrom (steps : Fin n → List (β × Fin n)) (layer : List (Fin n)) :
    List (Fin n × (β × Fin n)) :=
  layer.flatMap fun v => (steps v).map fun step => (v, step)

/-- The vertices met at a distance, in the order they were met. -/
def layerAt (start : Fin n) (met : List (Discovery n β)) (k : Nat) : List (Fin n) :=
  if k = 0 then [start] else (met.filter fun d => d.distance = k).map Discovery.vertex

/-- Every discovery was made by the first step into its vertex out of the layer before. -/
def First (steps : Fin n → List (β × Fin n)) (start : Fin n) (met : List (Discovery n β)) : Prop :=
  ∀ d ∈ met, (stepsFrom steps (layerAt start met (d.distance - 1))).find? (·.2.2 = d.vertex)
    = some (d.parent, (d.via, d.vertex))

/-- Taking steps one by one, what is new was met by the first step that leads there. -/
theorem exists_added (start : Fin n) (k : Nat) (pairs : List (Fin n × (β × Fin n)))
    (met : List (Discovery n β)) :
    ∃ added, pairs.foldl (fun met p => meet start p.1 k met p.2) met = met ++ added ∧
      ∀ d ∈ added, d.distance = k ∧ known start met d.vertex = false ∧
        pairs.find? (·.2.2 = d.vertex) = some (d.parent, (d.via, d.vertex)) := by
  induction pairs generalizing met with
  | nil => exact ⟨[], (List.append_nil met).symm, by simp⟩
  | cons p rest ih =>
    rw [List.foldl_cons]
    by_cases hknown : known start met p.2.2 = true
    · obtain ⟨added, hfold, hadded⟩ := ih met
      rw [meet, if_pos hknown]
      refine ⟨added, hfold, fun d hd => ?_⟩
      obtain ⟨hdistance, hnew, hfirst⟩ := hadded d hd
      have hne : p.2.2 ≠ d.vertex := fun heq => by
        rw [heq, hnew] at hknown
        cases hknown
      exact ⟨hdistance, hnew, by rw [List.find?_cons_of_neg (by simpa using hne), hfirst]⟩
    · obtain ⟨added, hfold, hadded⟩ := ih (met ++ [⟨p.2.2, p.1, p.2.1, k⟩])
      rw [meet, if_neg hknown, hfold, List.append_assoc]
      refine ⟨_, rfl, List.forall_mem_cons.mpr
        ⟨⟨rfl, by simpa using hknown, List.find?_cons_of_pos (by simp)⟩, fun d hd => ?_⟩⟩
      obtain ⟨hdistance, hnew, hfirst⟩ := hadded d hd
      simp only [known, List.any_append, List.any_cons, List.any_nil, Bool.or_false,
        Bool.or_eq_false_iff, decide_eq_false_iff_not] at hnew ⊢
      obtain ⟨hstart, hmet, hne⟩ := hnew
      exact ⟨hdistance, ⟨hstart, hmet⟩, by rw [List.find?_cons_of_neg (by simpa using hne), hfirst]⟩

/-- The layers of a longer list of discoveries are the old ones and the new one. -/
theorem layerAt_append (start : Fin n) {met added : List (Discovery n β)} {k : Nat}
    (hmet : ∀ d ∈ met, d.distance ≤ k) (hadded : ∀ d ∈ added, d.distance = k + 1) :
    (∀ j ≤ k, layerAt start (met ++ added) j = layerAt start met j) ∧
      layerAt start (met ++ added) (k + 1) = added.map Discovery.vertex := by
  constructor
  · intro j hj
    have hnone : added.filter (fun d => d.distance = j) = [] := by
      refine List.filter_eq_nil_iff.mpr fun d hd => ?_
      have := hadded d hd
      rw [decide_eq_true_eq]
      omega
    rw [layerAt, layerAt, List.filter_append, hnone, List.append_nil]
  · have hnone : met.filter (fun d => d.distance = k + 1) = [] := by
      refine List.filter_eq_nil_iff.mpr fun d hd => ?_
      have := hmet d hd
      rw [decide_eq_true_eq]
      omega
    have hall : added.filter (fun d => d.distance = k + 1) = added :=
      List.filter_eq_self.mpr fun d hd => decide_eq_true (hadded d hd)
    rw [layerAt, if_neg (Nat.succ_ne_zero k), List.filter_append, hnone, hall, List.nil_append]

theorem first_layers (left : Nat) {k : Nat} {layer : List (Fin n)} {met : List (Discovery n β)}
    (hmet : Swept steps start k met)
    (hlayer : ∀ v, v ∈ layer ↔ Distance (Leads steps) start v k)
    (hat : layerAt start met k = layer) (h : First steps start met) :
    First steps start (layers steps start left k layer met) := by
  induction left generalizing k layer met with
  | zero => exact h
  | succ left ih =>
    cases layer with
    | nil => exact h
    | cons v rest =>
      rw [layers]
      obtain ⟨hnext, hfront⟩ := expand_spec hmet hlayer
      obtain ⟨added, hexpand, hadded⟩ :=
        exists_added start (k + 1) (stepsFrom steps (v :: rest)) met
      rw [stepsFrom, ← expand_eq_foldl] at hexpand
      rw [hexpand] at hnext hfront ⊢
      obtain ⟨hold, hnew⟩ := layerAt_append start hmet.within fun d hd => (hadded d hd).1
      refine ih hnext hfront ?_ fun d hd => ?_
      · rw [hnew, List.drop_left]
      · rcases List.mem_append.mp hd with hd | hd
        · have := hmet.within d hd
          rw [hold _ (by omega)]
          exact h d hd
        · obtain ⟨hdistance, -, hfirst⟩ := hadded d hd
          rw [hdistance, Nat.add_sub_cancel, hold k (Nat.le_refl k), hat]
          exact hfirst

theorem first_within (steps : Fin n → List (β × Fin n)) (start : Fin n) (limit : Nat) :
    First steps start (within steps start limit) :=
  first_layers limit .nil (fun _ => mem_singleton_iff) rfl (by simp [First])

/-! ## Traversals to a greater limit -/

theorem prefix_expand (distance : Nat) (layer : List (Fin n)) (met : List (Discovery n β)) :
    met <+: expand steps start distance layer met := by
  obtain ⟨added, hadded, -⟩ := exists_added start distance (stepsFrom steps layer) met
  rw [expand_eq_foldl]
  exact ⟨added, hadded.symm⟩

/-- What was met stays where it is while layers are added. -/
theorem prefix_layers (left k : Nat) (layer : List (Fin n)) (met : List (Discovery n β)) :
    met <+: layers steps start left k layer met := by
  induction left generalizing k layer met with
  | zero => exact List.prefix_refl met
  | succ left ih =>
    cases layer with
    | nil => exact List.prefix_refl met
    | cons v rest => exact (prefix_expand (k + 1) (v :: rest) met).trans (ih _ _ _)

theorem layers_prefix_layers {left left' : Nat} (h : left ≤ left') (k : Nat)
    (layer : List (Fin n)) (met : List (Discovery n β)) :
    layers steps start left k layer met <+: layers steps start left' k layer met := by
  induction left generalizing left' k layer met with
  | zero => exact prefix_layers left' k layer met
  | succ left ih =>
    obtain ⟨left', rfl⟩ := Nat.exists_eq_add_of_le' (Nat.one_le_of_lt h)
    cases layer with
    | nil => exact List.prefix_refl met
    | cons v rest => exact ih (Nat.le_of_succ_le_succ h) _ _ _

/-- A traversal goes on where one to a smaller limit ends, and what it adds lies further out. -/
theorem exists_further (steps : Fin n → List (β × Fin n)) (start : Fin n) {limit limit' : Nat}
    (h : limit ≤ limit') :
    ∃ further, within steps start limit' = within steps start limit ++ further ∧
      ∀ d ∈ further, limit < d.distance := by
  obtain ⟨further, hfurther⟩ : within steps start limit <+: within steps start limit' :=
    layers_prefix_layers h 0 [start] []
  refine ⟨further, hfurther.symm, fun d hd => Nat.lt_of_not_le fun hle => ?_⟩
  -- a vertex within the smaller limit was met before, and no vertex is met twice
  have hswept := swept_within steps start limit'
  rw [← hfurther] at hswept
  have hdistance := hswept.exact d (List.mem_append_right _ hd)
  have hknown := (swept_within steps start limit).complete d.vertex d.distance hdistance hle
  have hnodup := hswept.nodup
  rw [List.map_append, ← List.cons_append] at hnodup
  refine (List.nodup_append.mp hnodup).2.2 d.vertex ?_ d.vertex (List.mem_map_of_mem hd) rfl
  rcases known_iff.mp hknown with hstart | ⟨e, he, hvertex⟩
  · exact hstart ▸ List.mem_cons_self
  · exact List.mem_cons_of_mem _ (hvertex ▸ List.mem_map_of_mem he)

end Traversal

end CodeGraph
