import Mathlib.Algebra.BigOperators.Field
import Mathlib.Algebra.Order.Field.Rat
import Mathlib.Data.Set.Card
import CodeGraph.Proofs.Traversal

/-!
# Counting shortest paths

Paths over a relation between vertices, how many of them are shortest, and how
many of those pass through a given vertex.

A path is given by the vertices that it goes on to, so its length is its number
of steps. The paths of a given length form a finite set (`paths`), and its size
satisfies a recurrence at either end: over the first step (`card_paths_succ`) and
over the last one (`card_paths_succ_last`). The shortest paths from `s` to `t`
are the paths whose length is the distance. One that passes through `v` is a
shortest path to `v` followed by a path from `v` to `t` of the remaining length,
so the number of these is a product (`ncard_shortest_through`).
-/

namespace CodeGraph

variable {n : Nat}

/-- From `u`, the vertices of the list lead on to `v`. -/
def IsPath (r : Fin n → Fin n → Prop) : Fin n → List (Fin n) → Fin n → Prop
  | u, [], v => u = v
  | u, w :: rest, v => r u w ∧ IsPath r w rest v

/-- A path with the fewest steps. It passes no vertex twice. -/
def IsShortest (r : Fin n → Fin n → Prop) (s : Fin n) (p : List (Fin n)) (t : Fin n) : Prop :=
  IsPath r s p t ∧ ∀ q, IsPath r s q t → p.length ≤ q.length

section Paths

variable {r : Fin n → Fin n → Prop} {u v w : Fin n} {p q : List (Fin n)} {j k : Nat}

theorem isPath_append : IsPath r u (p ++ q) w ↔ ∃ v, IsPath r u p v ∧ IsPath r v q w := by
  induction p generalizing u with
  | nil =>
      constructor
      · intro h; exact ⟨u, rfl, h⟩
      · rintro ⟨v, rfl, h⟩; exact h
  | cons x rest ih =>
      constructor
      · rintro ⟨hux, hrest⟩
        obtain ⟨v, hp, hq⟩ := ih.mp hrest
        exact ⟨v, ⟨hux, hp⟩, hq⟩
      · rintro ⟨v, ⟨hux, hp⟩, hq⟩
        exact ⟨hux, ih.mpr ⟨v, hp, hq⟩⟩

theorem IsPath.mem (h : IsPath r u p v) (hne : v ≠ u) : v ∈ p := by
  induction p generalizing u with
  | nil => exact absurd h.symm hne
  | cons x rest ih =>
      by_cases hx : v = x
      · rw [hx]; exact List.mem_cons_self ..
      · exact List.mem_cons_of_mem _ (ih h.2 hx)

theorem IsPath.split_at (h : IsPath r u p w) (hv : v ∈ p) :
    ∃ p₁ p₂, p = p₁ ++ p₂ ∧ IsPath r u p₁ v ∧ IsPath r v p₂ w := by
  induction p generalizing u with
  | nil => cases hv
  | cons x rest ih =>
      rcases List.mem_cons.mp hv with rfl | hv
      · exact ⟨[v], rest, rfl, ⟨h.1, rfl⟩, h.2⟩
      · obtain ⟨p₁, p₂, rfl, hp₁, hp₂⟩ := ih h.2 hv
        exact ⟨x :: p₁, p₂, rfl, ⟨h.1, hp₁⟩, hp₂⟩

theorem hops_iff_isPath : Hops r u k v ↔ ∃ p, IsPath r u p v ∧ p.length = k := by
  constructor
  · intro h
    induction h with
    | start => exact ⟨[], rfl, rfl⟩
    | @step k v w _ hvw ih =>
        obtain ⟨p, hp, rfl⟩ := ih
        exact ⟨p ++ [w], isPath_append.mpr ⟨v, hp, hvw, rfl⟩, by simp⟩
  · rintro ⟨p, hp, rfl⟩
    induction p using List.reverseRecOn generalizing v with
    | nil =>
        obtain rfl : u = v := hp
        exact .start
    | append_singleton p x ih =>
        obtain ⟨y, hy, hyx, rfl⟩ := isPath_append.mp hp
        rw [List.length_append, List.length_singleton]
        exact (ih hy).step hyx

theorem Distance.le_length (h : Distance r u v k) (hp : IsPath r u p v) : k ≤ p.length :=
  h.2 _ (hops_iff_isPath.mpr ⟨p, hp, rfl⟩)

/-- Shortest paths are the paths whose length is the distance. -/
theorem Distance.isShortest_iff (h : Distance r u v k) :
    IsShortest r u p v ↔ IsPath r u p v ∧ p.length = k := by
  obtain ⟨q, hq, hlen⟩ := hops_iff_isPath.mp h.1
  constructor
  · rintro ⟨hp, hleast⟩
    exact ⟨hp, Nat.le_antisymm (hlen ▸ hleast q hq) (h.le_length hp)⟩
  · rintro ⟨hp, rfl⟩
    exact ⟨hp, fun q hq => h.le_length hq⟩

theorem Distance.trans (h : Distance r u v j) (hk : Hops r v k w) :
    ∃ i ≤ j + k, Distance r u w i := by
  obtain ⟨p, hp, hplen⟩ := hops_iff_isPath.mp h.1
  obtain ⟨q, hq, hqlen⟩ := hops_iff_isPath.mp hk
  have hpq := isPath_append.mpr ⟨v, hp, hq⟩
  exact (hops_iff_isPath.mpr ⟨p ++ q, hpq, by simp [hplen, hqlen]⟩).distance

end Paths

/-! ## The number of paths of a given length -/

section Counting

variable (r : Fin n → Fin n → Prop) [DecidableRel r]

def paths : Nat → Fin n → Fin n → Finset (List (Fin n))
  | 0, u, v => if u = v then {[]} else ∅
  | k + 1, u, v =>
    (Finset.univ.filter (r u)).biUnion fun w => (paths k w v).image (List.cons w)

variable {r} {u v : Fin n} {k : Nat}

theorem mem_paths {p : List (Fin n)} : p ∈ paths r k u v ↔ IsPath r u p v ∧ p.length = k := by
  induction k generalizing u p with
  | zero =>
      rw [paths, List.length_eq_zero_iff]
      by_cases huv : u = v
      · rw [if_pos huv, Finset.mem_singleton]
        constructor
        · rintro rfl; exact ⟨huv, rfl⟩
        · exact fun h => h.2
      · rw [if_neg huv]
        constructor
        · intro h; simp at h
        · rintro ⟨hp, rfl⟩; exact absurd hp huv
  | succ k ih =>
      simp only [paths, Finset.mem_biUnion, Finset.mem_filter, Finset.mem_univ, true_and,
        Finset.mem_image, ih]
      constructor
      · rintro ⟨w, huw, q, ⟨hq, rfl⟩, rfl⟩
        exact ⟨⟨huw, hq⟩, rfl⟩
      · rintro ⟨hp, hlen⟩
        cases p with
        | nil => cases hlen
        | cons w q => exact ⟨w, hp.1, q, ⟨hp.2, Nat.succ.inj hlen⟩, rfl⟩

theorem card_paths_zero : (paths r 0 u v).card = if u = v then 1 else 0 := by
  rw [paths]
  split <;> simp

theorem card_paths_succ :
    (paths r (k + 1) u v).card = ∑ w with r u w, (paths r k w v).card := by
  rw [paths, Finset.card_biUnion]
  · exact Finset.sum_congr rfl fun w _ =>
      Finset.card_image_of_injective _ (List.cons_injective (a := w))
  · intro w _ w' _ hne
    refine Finset.disjoint_left.mpr fun p hp hp' => ?_
    obtain ⟨q, -, rfl⟩ := Finset.mem_image.mp hp
    obtain ⟨q', -, heq⟩ := Finset.mem_image.mp hp'
    exact hne (List.cons.inj heq).1.symm

theorem card_paths_succ_last :
    (paths r (k + 1) u v).card = ∑ w with r w v, (paths r k u w).card := by
  induction k generalizing u with
  | zero =>
      rw [card_paths_succ]
      simp only [card_paths_zero, Finset.sum_ite_eq, Finset.sum_ite_eq', Finset.mem_filter,
        Finset.mem_univ, true_and]
  | succ k ih =>
      calc (paths r (k + 1 + 1) u v).card
          = ∑ w with r u w, ∑ x with r x v, (paths r k w x).card := by
            rw [card_paths_succ]
            exact Finset.sum_congr rfl fun w _ => ih
        _ = ∑ x with r x v, ∑ w with r u w, (paths r k w x).card := Finset.sum_comm
        _ = ∑ x with r x v, (paths r (k + 1) u x).card :=
            Finset.sum_congr rfl fun x _ => card_paths_succ.symm

theorem card_paths_pos : 0 < (paths r k u v).card ↔ Hops r u k v := by
  rw [Finset.card_pos, hops_iff_isPath]
  exact ⟨fun ⟨p, hp⟩ => ⟨p, mem_paths.mp hp⟩, fun ⟨p, hp⟩ => ⟨p, mem_paths.mpr hp⟩⟩

end Counting

/-! ## Shortest paths through a vertex -/

section Through

variable {r : Fin n → Fin n → Prop} {s t v : Fin n} {j k : Nat}

/-- No shortest path passes through a vertex that is further away than its end. -/
theorem ncard_shortest_through_eq_zero (ht : Distance r s t k)
    (hv : ∀ j ≤ k, ¬Distance r s v j) : {p | IsShortest r s p t ∧ v ∈ p}.ncard = 0 := by
  have hempty : {p | IsShortest r s p t ∧ v ∈ p} = ∅ := by
    refine Set.eq_empty_iff_forall_notMem.mpr ?_
    rintro p ⟨hp, hmem⟩
    obtain ⟨hpath, hlen⟩ := ht.isShortest_iff.mp hp
    obtain ⟨p₁, p₂, rfl, hp₁, -⟩ := hpath.split_at hmem
    obtain ⟨j, hj, hdist⟩ := (hops_iff_isPath.mpr ⟨p₁, hp₁, rfl⟩).distance
    rw [List.length_append] at hlen
    exact hv j (by omega) hdist
  rw [hempty, Set.ncard_empty]

variable [DecidableRel r]

theorem ncard_shortest (ht : Distance r s t k) :
    {p | IsShortest r s p t}.ncard = (paths r k s t).card := by
  rw [← Set.ncard_coe_finset]
  congr 1
  ext p
  rw [Set.mem_ofPred_eq, ht.isShortest_iff, Finset.mem_coe, mem_paths]

/-- A shortest path through `v` is a shortest path to `v` and one from there on. -/
theorem ncard_shortest_through (ht : Distance r s t k) (hv : Distance r s v j) (hjk : j ≤ k)
    (hne : v ≠ s) :
    {p | IsShortest r s p t ∧ v ∈ p}.ncard
      = (paths r j s v).card * (paths r (k - j) v t).card := by
  have hset : {p | IsShortest r s p t ∧ v ∈ p}
      = ((paths r j s v ×ˢ paths r (k - j) v t).image fun x => x.1 ++ x.2 :
          Finset (List (Fin n))) := by
    ext p
    simp only [Set.mem_ofPred_eq, ht.isShortest_iff, Finset.coe_image, Set.mem_image,
      Finset.mem_coe, Finset.mem_product, mem_paths, Prod.exists]
    constructor
    · rintro ⟨⟨hp, hlen⟩, hmem⟩
      obtain ⟨p₁, p₂, rfl, hp₁, hp₂⟩ := hp.split_at hmem
      have hj := hv.le_length hp₁
      rw [List.length_append] at hlen
      -- a longer way to `v` would make a shorter one to `t` possible
      obtain ⟨q, hq, hqlen⟩ := hops_iff_isPath.mp hv.1
      have hk := ht.le_length (isPath_append.mpr ⟨v, hq, hp₂⟩)
      rw [List.length_append] at hk
      exact ⟨p₁, p₂, ⟨⟨hp₁, by omega⟩, hp₂, by omega⟩, rfl⟩
    · rintro ⟨p₁, p₂, ⟨⟨hp₁, hlen₁⟩, hp₂, hlen₂⟩, rfl⟩
      refine ⟨⟨isPath_append.mpr ⟨v, hp₁, hp₂⟩, ?_⟩, List.mem_append_left _ (hp₁.mem hne)⟩
      rw [List.length_append]
      omega
  rw [hset, Set.ncard_coe_finset, Finset.card_image_of_injOn, Finset.card_product]
  rintro ⟨p₁, p₂⟩ hp ⟨q₁, q₂⟩ hq heq
  simp only [Finset.coe_product, Set.mem_prod, Finset.mem_coe, mem_paths] at hp hq
  obtain ⟨rfl, rfl⟩ := List.append_inj heq (hp.1.2.trans hq.1.2.symm)
  rfl

end Through

end CodeGraph
