import CodeGraph.Proofs.Centrality.ShortestPaths

/-!
# Dependencies of a source

Betweenness is defined by pairs: a vertex gets from every pair `s`, `t` the part
of the shortest paths that passes through it (`pairSum`). Here `s` stays
fixed, and what a vertex gets from all `t` together is expressed without pairs.

`Levels` collects the vertices within reach of `s` with their distances. A
shortest path that passes `x` on its way to a vertex further out goes on to a
vertex one step further than `x` (`Levels.sum_further`), so the part that `x` has
in the paths to `y` is made up of the parts that those vertices have
(`portion_eq`). Summed over all `y`, this is the recurrence `share_eq`, in which
every vertex depends only on vertices further out; `sum_pairDependency` says
that its solution is the sum over pairs.
-/

namespace CodeGraph.Betweenness

variable {n : Nat}

/-! ## Betweenness by pairs -/

/-- The part of the shortest paths from `s` to `t` that passes through `v`. -/
noncomputable def pairDependency (r : Fin n → Fin n → Prop) (s t v : Fin n) : ℚ :=
  {p | IsShortest r s p t ∧ v ∈ p}.ncard / {p | IsShortest r s p t}.ncard

open Classical in
/-- The dependencies on `v` of all ordered pairs of two other vertices, of which the first reaches
the second. -/
noncomputable def pairSum (r : Fin n → Fin n → Prop) (v : Fin n) : ℚ :=
  ∑ x : Fin n × Fin n with x.1 ≠ x.2 ∧ x.1 ≠ v ∧ x.2 ≠ v ∧ ∃ p, IsPath r x.1 p x.2,
    pairDependency r x.1 x.2 v

/-! ## Levels -/

/-- The vertices within reach of `s`, each with its distance. -/
def Levels (r : Fin n → Fin n → Prop) (s : Fin n) (S : Finset (Fin n × Nat)) : Prop :=
  ∀ v k, (v, k) ∈ S ↔ Distance r s v k

namespace Levels

variable {r : Fin n → Fin n → Prop} {s v w t : Fin n} {S : Finset (Fin n × Nat)} {j k : Nat}

theorem eq_of_fst (hS : Levels r s S) {x y : Fin n × Nat} (hx : x ∈ S) (hy : y ∈ S)
    (h : x.1 = y.1) : x = y := by
  have hdist := (hS x.1 x.2).mp hx
  rw [h] at hdist
  exact Prod.ext h (hdist.unique ((hS y.1 y.2).mp hy))

/-- A sum over part of the levels as a sum over vertices, where the other vertices add nothing. -/
theorem sum_fst {M : Type} [AddCommMonoid M] (hS : Levels r s S) {P : Fin n × Nat → Prop}
    [DecidablePred P] {Q : Fin n → Prop} [DecidablePred Q] (f : Fin n → M)
    (hP : ∀ x ∈ S, P x → Q x.1) (hQ : ∀ w, Q w → f w ≠ 0 → ∃ k, (w, k) ∈ S ∧ P (w, k)) :
    ∑ x ∈ S with P x, f x.1 = ∑ w with Q w, f w := by
  refine Finset.sum_of_injOn Prod.fst ?_ ?_ ?_ fun x _ => rfl
  · intro x hx y hy hxy
    exact hS.eq_of_fst (Finset.mem_filter.mp hx).1 (Finset.mem_filter.mp hy).1 hxy
  · intro x hx
    obtain ⟨hmem, hPx⟩ := Finset.mem_filter.mp hx
    simpa using hP x hmem hPx
  · intro w hw hnot
    by_contra hne
    obtain ⟨k, hk, hPk⟩ := hQ w (by simpa using hw) hne
    exact hnot ⟨(w, k), by simpa using ⟨hk, hPk⟩, rfl⟩

variable [DecidableRel r]

/-- Shortest paths to `w` come from the vertices one step closer. -/
theorem sum_closer (hS : Levels r s S) (hw : Distance r s w (k + 1)) :
    ∑ x ∈ S with x.2 = k ∧ r x.1 w, (paths r k s x.1).card = (paths r (k + 1) s w).card := by
  rw [card_paths_succ_last]
  refine hS.sum_fst (fun v => (paths r k s v).card) (fun x _ h => h.2) fun v hvw hne => ?_
  obtain ⟨j, hj, hdist⟩ := (card_paths_pos.mp (Nat.pos_of_ne_zero hne)).distance
  obtain ⟨i, hi, hnext⟩ := hdist.next hvw
  obtain rfl : i = k + 1 := hnext.unique hw
  obtain rfl : j = k := by omega
  exact ⟨j, (hS v j).mpr hdist, rfl, hvw⟩

/-- Shortest paths that pass `v` go on over the vertices one step further. -/
theorem sum_further (hS : Levels r s S) (hv : Distance r s v j) (ht : Distance r s t (j + 1 + k)) :
    ∑ x ∈ S with x.2 = j + 1 ∧ r v x.1, (paths r k x.1 t).card
      = (paths r (k + 1) v t).card := by
  rw [card_paths_succ]
  refine hS.sum_fst (fun w => (paths r k w t).card) (fun x _ h => h.2) fun w hvw hne => ?_
  have hhops := card_paths_pos.mp (Nat.pos_of_ne_zero hne)
  obtain ⟨i, hi, hdist⟩ := hv.next hvw
  obtain ⟨d, hd, hfar⟩ := hdist.trans hhops
  obtain rfl := hfar.unique ht
  obtain rfl : i = j + 1 := by omega
  exact ⟨j + 1, (hS w _).mpr hdist, rfl, hvw⟩

end Levels

/-! ## The recurrence for dependencies -/

section Shares

variable (r : Fin n → Fin n → Prop) [DecidableRel r] (s : Fin n) (S : Finset (Fin n × Nat))

def count (x : Fin n × Nat) : ℚ :=
  (paths r x.2 s x.1).card

/-- The part that a vertex has in the shortest paths to `y`. -/
def portion (x y : Fin n × Nat) : ℚ :=
  count r s x * (paths r (y.2 - x.2) x.1 y.1).card / count r s y

/-- The part that a vertex has in the shortest paths to all vertices further away. -/
def share (x : Fin n × Nat) : ℚ :=
  ∑ y ∈ S with x.2 < y.2, portion r s x y

variable {r s S}

theorem count_ne_zero (hS : Levels r s S) {x : Fin n × Nat} (hx : x ∈ S) : count r s x ≠ 0 := by
  have hpos := card_paths_pos.mpr ((hS x.1 x.2).mp hx).1
  exact Nat.cast_ne_zero.mpr hpos.ne'

/-- Of the vertices as far away as itself, a vertex is on the shortest paths to itself only. -/
theorem portion_of_level (hS : Levels r s S) {x y : Fin n × Nat} (hx : x ∈ S) (hy : y ∈ S)
    (h : y.2 = x.2) : portion r s x y = if y = x then 1 else 0 := by
  unfold portion
  rw [h, Nat.sub_self, card_paths_zero]
  by_cases hxy : y = x
  · rw [if_pos hxy, hxy, if_pos rfl, Nat.cast_one, mul_one]
    exact div_self (count_ne_zero hS hx)
  · have hne : x.1 ≠ y.1 := fun heq => hxy (hS.eq_of_fst hy hx heq.symm)
    rw [if_neg hxy, if_neg hne, Nat.cast_zero, mul_zero, zero_div]

theorem one_add_share (hS : Levels r s S) {x : Fin n × Nat} (hx : x ∈ S) :
    1 + share r s S x = ∑ y ∈ S with x.2 ≤ y.2, portion r s x y := by
  have hone : (1 : ℚ) = ∑ y ∈ S, if y = x then 1 else 0 := by
    rw [Finset.sum_ite_eq', if_pos hx]
  rw [share, Finset.sum_filter, Finset.sum_filter, hone, ← Finset.sum_add_distrib]
  refine Finset.sum_congr rfl fun y hy => ?_
  rcases Nat.lt_trichotomy x.2 y.2 with hlt | heq | hgt
  · have hne : y ≠ x := fun h => by rw [h] at hlt; exact lt_irrefl _ hlt
    rw [if_neg hne, if_pos hlt, if_pos hlt.le, zero_add]
  · rw [portion_of_level hS hx hy heq.symm, if_neg heq.not_lt, if_pos heq.le, add_zero]
  · have hne : y ≠ x := fun h => by rw [h] at hgt; exact lt_irrefl _ hgt
    rw [if_neg hne, if_neg hgt.not_gt, if_neg hgt.not_ge, add_zero]

/-- The shortest paths that pass `x` towards `y` are split over the vertices one step further. -/
theorem portion_eq (hS : Levels r s S) {x y : Fin n × Nat} (hx : x ∈ S) (hy : y ∈ S)
    (h : x.2 < y.2) :
    portion r s x y = ∑ w ∈ S with w.2 = x.2 + 1 ∧ r x.1 w.1,
      count r s x * (portion r s w y / count r s w) := by
  obtain ⟨k, hk⟩ : ∃ k, y.2 = x.2 + 1 + k := Nat.exists_eq_add_of_lt h |>.imp fun _ h => by omega
  have hsum := hS.sum_further ((hS x.1 x.2).mp hx) (hk ▸ (hS y.1 y.2).mp hy)
  have hleft : y.2 - x.2 = k + 1 := by omega
  unfold portion
  rw [hleft, ← hsum, Nat.cast_sum, Finset.mul_sum, Finset.sum_div]
  refine Finset.sum_congr rfl fun w hw => ?_
  obtain ⟨hw, hlevel, -⟩ := Finset.mem_filter.mp hw
  have hright : y.2 - w.2 = k := by omega
  have hne := count_ne_zero hS hw
  rw [hright, mul_div_assoc, mul_div_assoc (count r s w), mul_div_cancel_left₀ _ hne]

/-- What `x` has in the paths to vertices further away, from what the vertices one step further
have. -/
theorem share_eq (hS : Levels r s S) {x : Fin n × Nat} (hx : x ∈ S) :
    share r s S x = ∑ w ∈ S with w.2 = x.2 + 1 ∧ r x.1 w.1,
      count r s x * ((1 + share r s S w) / count r s w) := by
  calc share r s S x
      = ∑ y ∈ S with x.2 < y.2, ∑ w ∈ S with w.2 = x.2 + 1 ∧ r x.1 w.1,
          count r s x * (portion r s w y / count r s w) :=
        Finset.sum_congr rfl fun y hy =>
          portion_eq hS hx (Finset.mem_filter.mp hy).1 (Finset.mem_filter.mp hy).2
    _ = ∑ w ∈ S with w.2 = x.2 + 1 ∧ r x.1 w.1, ∑ y ∈ S with x.2 < y.2,
          count r s x * (portion r s w y / count r s w) := Finset.sum_comm
    _ = ∑ w ∈ S with w.2 = x.2 + 1 ∧ r x.1 w.1,
          count r s x * ((1 + share r s S w) / count r s w) :=
        Finset.sum_congr rfl fun w hw => by
          obtain ⟨hw, hlevel, -⟩ := Finset.mem_filter.mp hw
          rw [one_add_share hS hw, hlevel, Finset.sum_div, Finset.mul_sum]
          rfl

end Shares

/-! ## All ends of a source -/

section Pairs

variable {r : Fin n → Fin n → Prop} [DecidableRel r] {s t v : Fin n} {S : Finset (Fin n × Nat)}
  {j k : Nat}

theorem pairDependency_eq_portion (hne : v ≠ s) (hv : Distance r s v j) (ht : Distance r s t k)
    (hjk : j ≤ k) : pairDependency r s t v = portion r s (v, j) (t, k) := by
  unfold pairDependency portion count
  rw [ncard_shortest ht, ncard_shortest_through ht hv hjk hne, Nat.cast_mul]

omit [DecidableRel r] in
theorem pairDependency_eq_zero (ht : Distance r s t k) (hv : ∀ j ≤ k, ¬Distance r s v j) :
    pairDependency r s t v = 0 := by
  unfold pairDependency
  rw [ncard_shortest_through_eq_zero ht hv, Nat.cast_zero, zero_div]

open Classical in
theorem sum_pairDependency (hS : Levels r s S) (hne : v ≠ s) (hv : Distance r s v j) :
    ∑ t with s ≠ t ∧ s ≠ v ∧ t ≠ v ∧ ∃ p, IsPath r s p t, pairDependency r s t v
      = share r s S (v, j) := by
  have hportion : share r s S (v, j)
      = ∑ y ∈ S with j < y.2, pairDependency r s y.1 v :=
    Finset.sum_congr rfl fun y hy => by
      obtain ⟨hy, hlt⟩ := Finset.mem_filter.mp hy
      exact (pairDependency_eq_portion hne hv ((hS y.1 y.2).mp hy) (le_of_lt hlt)).symm
  rw [hportion]
  refine (hS.sum_fst (fun t => pairDependency r s t v) ?_ ?_).symm
  · intro y hy hlt
    have hdist := (hS y.1 y.2).mp hy
    obtain ⟨p, hp, -⟩ := hops_iff_isPath.mp hdist.1
    refine ⟨fun heq => ?_, hne.symm, fun heq => ?_, p, hp⟩
    · have := (heq ▸ hdist).unique .self
      omega
    · have := (heq ▸ hdist).unique hv
      omega
  · rintro t ⟨-, -, htv, p, hp⟩ hdep
    obtain ⟨k, -, hdist⟩ := (hops_iff_isPath.mpr ⟨p, hp, rfl⟩).distance
    refine ⟨k, (hS t k).mpr hdist, ?_⟩
    -- a vertex no further away than `v` is not reached through it
    by_contra hle
    rcases Nat.lt_or_eq_of_le (Nat.not_lt.mp hle) with hlt | rfl
    · refine hdep (pairDependency_eq_zero hdist fun i hi hdist' => ?_)
      have := hdist'.unique hv
      omega
    · refine hdep ?_
      rw [pairDependency_eq_portion hne hv hdist (Nat.le_refl _),
        portion_of_level hS ((hS v k).mpr hv) ((hS t k).mpr hdist) rfl]
      exact if_neg fun heq => htv (congrArg Prod.fst heq)

end Pairs

end CodeGraph.Betweenness
