import Mathlib.Algebra.Order.BigOperators.Group.Finset
import Mathlib.Algebra.Order.BigOperators.Group.List
import Mathlib.Tactic.GCongr
import CodeGraph.Proofs.Centrality.PageRank

/-!
# Ranks settle

A round of PageRank brings any two lots of ranks closer: added up over all
vertices, their distance shrinks to at most `damping` times what it was
(`change_update_le`). Shares, flow and stranded rank are sums of ranks, so the
distance between two outcomes of a round is at most what the round makes of the
distances as if they were ranks (`gap`, `abs_update_sub_le`); and a round keeps
sums.

Taken for two successive lots of ranks this says that every round changes the
ranks by at most `damping` times as much as the round before. The first round
leads from one distribution to another, and those are never more than two apart.
So the changes are below a geometric sequence that no graph enters into
(`roundChange_le`), and the rounds come to an end by tolerance as soon as the
sequence does (`Graph.pagerankIn_settles`).
-/

namespace CodeGraph

theorem below_iff_place {q : ℚ} {x : Float} :
    Scalar.below q x = true ↔ ∃ p, Decimal.place x = some p ∧ Decimal.placeOfRat q < p := by
  unfold Decimal.place
  dsimp only [Scalar.below]
  cases Decimal.Binary.ofFloat x with
  | nan => simp
  | infinite negative =>
    cases negative with
    | false => simpa using Decimal.placeOfRat_lt_top q
    | true => simp
  | finite d => simp [Decimal.placeOfRat_strictMono.lt_iff_lt]

namespace PageRank

variable {n : Nat} {d : ℚ}

/-! ## Two lots of ranks -/

theorem abs_rat (x : ℚ) : Scalar.abs x = |x| := by
  unfold Scalar.abs
  split
  · next h => rw [abs_of_neg h, zero_sub]
  · next h => rw [abs_of_nonneg (not_lt.mp h)]

theorem change_eq (before after : Table n ℚ) :
    change before after = ∑ v, |after.get v - before.get v| := by
  unfold change
  simp only [abs_rat]
  rw [balancedSum_rat, ← List.sum_ofFn, List.ofFn_eq_map]

/-- How far two lots of ranks are apart at every vertex. -/
def gap (before after : Table n ℚ) : Table n ℚ :=
  Vector.ofFn fun v => |after.get v - before.get v|

theorem get_gap (before after : Table n ℚ) (v : Fin n) :
    (gap before after).get v = |after.get v - before.get v| :=
  Table.get_ofFn _ v

variable (index : Index n) (before after : Table n ℚ)

theorem abs_share_sub (v : Fin n) :
    |share index after v - share index before v| = share index (gap before after) v := by
  have hdegree : (0 : ℚ) ≤ if (index.out v).length = 0 then 1 else ((index.out v).length : ℚ) := by
    split
    · exact zero_le_one
    · exact Nat.cast_nonneg _
  change |after.get v / _ - before.get v / _| = (gap before after).get v / _
  rw [← sub_div, abs_div, get_gap]
  congr 1
  exact abs_of_nonneg hdegree

theorem abs_flow_sub_le (v : Fin n) :
    |flow index after v - flow index before v| ≤ flow index (gap before after) v := by
  unfold flow
  simp only [sum_rat]
  induction index.into v with
  | nil => simp
  | cons arc rest ih =>
    simp only [List.map_cons, List.sum_cons, ← abs_share_sub index before after arc.source]
    rw [add_sub_add_comm]
    exact (abs_add_le _ _).trans (add_le_add_right ih _)

theorem abs_strandedRank_sub_le :
    |strandedRank index after - strandedRank index before|
      ≤ strandedRank index (gap before after) := by
  simp only [strandedRank_eq, ← Finset.sum_sub_distrib, get_gap]
  exact Finset.abs_sum_le_sum_abs _ _

/-- The distance after a round, at one vertex, is at most what the round makes of the distances
before it, without what it hands out to every vertex. -/
theorem abs_update_sub_le (hd : 0 ≤ d) (v : Fin n) :
    |(update index d after).get v - (update index d before).get v|
      ≤ (update index d (gap before after)).get v - (1 - d) / n := by
  have hflow := abs_flow_sub_le index before after v
  have hstranded := abs_strandedRank_sub_le index before after
  have hsize : (0 : ℚ) ≤ n := Nat.cast_nonneg n
  simp only [get_update]
  calc _ = d * |(flow index after v - flow index before v)
            + (strandedRank index after - strandedRank index before) / n| := by
        rw [← abs_of_nonneg hd, ← abs_mul, abs_of_nonneg hd]
        congr 1
        ring
    _ ≤ d * (|flow index after v - flow index before v|
            + |strandedRank index after - strandedRank index before| / n) := by
        rw [← abs_of_nonneg hsize, ← abs_div, abs_of_nonneg hsize]
        exact mul_le_mul_of_nonneg_left (abs_add_le _ _) hd
    _ ≤ d * (flow index (gap before after) v + strandedRank index (gap before after) / n) := by
        gcongr
    _ = _ := by ring

theorem change_update_le (arcs : List (Arc n)) (hn : 0 < n) (hd : 0 ≤ d) :
    change (update (Index.ofArcs arcs) d before) (update (Index.ofArcs arcs) d after)
      ≤ d * change before after := by
  have hcast : (n : ℚ) ≠ 0 := Nat.cast_ne_zero.mpr hn.ne'
  have hheld : ∑ _v : Fin n, (1 - d) / n = 1 - d := by
    rw [Finset.sum_const, Finset.card_univ, Fintype.card_fin, nsmul_eq_mul,
      mul_div_cancel₀ _ hcast]
  rw [change_eq, change_eq]
  calc ∑ v, |(update (Index.ofArcs arcs) d after).get v
          - (update (Index.ofArcs arcs) d before).get v|
      ≤ ∑ v, ((update (Index.ofArcs arcs) d (gap before after)).get v - (1 - d) / n) :=
        Finset.sum_le_sum fun v _ => abs_update_sub_le _ before after hd v
    _ = d * ∑ v, (gap before after).get v := by
        rw [Finset.sum_sub_distrib, sum_update arcs hn, hheld, add_sub_cancel_right]
    _ = d * ∑ v, |after.get v - before.get v| := by simp only [get_gap]

theorem change_le_two {least least' : ℚ} {before after : Table n ℚ}
    (hbefore : Distribution least before) (hafter : Distribution least' after) :
    change before after ≤ 2 := by
  rw [change_eq]
  calc ∑ v, |after.get v - before.get v| ≤ ∑ v, (after.get v + before.get v) := by
        refine Finset.sum_le_sum fun v _ => (abs_sub _ _).trans ?_
        rw [abs_of_nonneg (hafter.nonneg v), abs_of_nonneg (hbefore.nonneg v)]
    _ = 2 := by
        rw [Finset.sum_add_distrib, hafter.sum_eq, hbefore.sum_eq]
        norm_num

/-! ## Round after round -/

section Rounds

variable {α : Type} [Scalar α]

def ranksAfter (index : Index n) (damping : α) (k : Nat) : Table n α :=
  (update index damping)^[k] (uniform n α)

/-- By how much the round after `k` others changes the ranks. -/
def roundChange (index : Index n) (damping : α) (k : Nat) : α :=
  change (ranksAfter index damping k) (ranksAfter index damping (k + 1))

/-- Rounds come to an end with the first one whose change is below the tolerance, if there are
enough of them. -/
theorem rounds_eq_of_first (index : Index n) (damping : α) (tolerance : Float) {k left : Nat}
    (hleft : k ≤ left) (done : Nat) (ranks : Table n α)
    (hfirst : ∀ j < k, Scalar.below (change ((update index damping)^[j] ranks)
      ((update index damping)^[j + 1] ranks)) tolerance = false)
    (hbelow : Scalar.below (change ((update index damping)^[k] ranks)
      ((update index damping)^[k + 1] ranks)) tolerance = true) :
    rounds index damping tolerance left done ranks
      = ⟨(update index damping)^[k + 1] ranks, done + k + 1,
          change ((update index damping)^[k] ranks) ((update index damping)^[k + 1] ranks)⟩ := by
  induction k generalizing left done ranks with
  | zero =>
    cases left with
    | zero => rfl
    | succ left => exact if_pos hbelow
  | succ k ih =>
    obtain ⟨left, rfl⟩ := Nat.exists_eq_succ_of_ne_zero (Nat.ne_zero_of_lt hleft)
    have hgoesOn : ¬Scalar.below (change ranks (update index damping ranks)) tolerance = true := by
      simpa using hfirst 0 (Nat.succ_pos k)
    have hrest := ih (Nat.le_of_succ_le_succ hleft) (done + 1) (update index damping ranks)
      (fun j hj => hfirst (j + 1) (Nat.succ_lt_succ hj)) hbelow
    rw [rounds, if_neg hgoesOn, hrest, Nat.add_right_comm done 1 k]
    rfl

theorem run_eq_of_first (index : Index n) (damping : α) (tolerance : Float) {k limit : Nat}
    (hlimit : k < limit)
    (hfirst : ∀ j < k, Scalar.below (roundChange index damping j) tolerance = false)
    (hbelow : Scalar.below (roundChange index damping k) tolerance = true) :
    run index damping tolerance limit
      = ⟨ranksAfter index damping (k + 1), k + 1, roundChange index damping k⟩ := by
  have hrun := rounds_eq_of_first index damping tolerance (Nat.le_sub_one_of_lt hlimit) 0
    (uniform n α) hfirst hbelow
  rw [Nat.zero_add] at hrun
  exact hrun

end Rounds

section Bounds

variable (arcs : List (Arc n)) (hn : 0 < n) (hd : 0 ≤ d)

include hn hd

/-- Every round changes the ranks less than the one before, by the damping. -/
theorem roundChange_succ_le (k : Nat) :
    roundChange (Index.ofArcs arcs) d (k + 1) ≤ d * roundChange (Index.ofArcs arcs) d k := by
  have hnext : ∀ j, ranksAfter (Index.ofArcs arcs) d (j + 1)
      = update (Index.ofArcs arcs) d (ranksAfter (Index.ofArcs arcs) d j) := fun j =>
    Function.iterate_succ_apply' ..
  unfold roundChange
  rw [hnext (k + 1), hnext k]
  exact change_update_le _ _ arcs hn hd

/-- The changes are below a sequence that depends on the damping only. -/
theorem roundChange_le (hd' : d ≤ 1) (k : Nat) :
    roundChange (Index.ofArcs arcs) d k ≤ 2 * d ^ k := by
  induction k with
  | zero =>
    rw [pow_zero, mul_one]
    exact change_le_two (distribution_iterate arcs hn hd hd' 0)
      (distribution_iterate arcs hn hd hd' 1)
  | succ k ih =>
    calc roundChange (Index.ofArcs arcs) d (k + 1)
        ≤ d * roundChange (Index.ofArcs arcs) d k := roundChange_succ_le arcs hn hd k
      _ ≤ d * (2 * d ^ k) := mul_le_mul_of_nonneg_left ih hd
      _ = 2 * d ^ (k + 1) := by ring

/-- Once the sequence is below the tolerance, so is some change, and there is a first one. -/
theorem exists_first_below (hd' : d ≤ 1) {tolerance : Float} {k : Nat} (hk : 1 ≤ k)
    (hbelow : Scalar.below (2 * d ^ (k - 1)) tolerance = true) :
    ∃ j < k, Scalar.below (roundChange (Index.ofArcs arcs) d j) tolerance = true ∧
      ∀ i < j, Scalar.below (roundChange (Index.ofArcs arcs) d i) tolerance = false := by
  obtain ⟨p, hp, hlt⟩ := below_iff_place.mp hbelow
  have hle := Decimal.placeOfRat_strictMono.monotone (roundChange_le arcs hn hd hd' (k - 1))
  have hsome : ∃ j, Scalar.below (roundChange (Index.ofArcs arcs) d j) tolerance = true :=
    ⟨k - 1, below_iff_place.mpr ⟨p, hp, lt_of_le_of_lt hle hlt⟩⟩
  have hfind : Nat.find hsome ≤ k - 1 :=
    Nat.find_min' hsome (below_iff_place.mpr ⟨p, hp, lt_of_le_of_lt hle hlt⟩)
  exact ⟨Nat.find hsome, by omega, Nat.find_spec hsome, fun i hi =>
    Bool.eq_false_iff.mpr (Nat.find_min hsome hi)⟩

end Bounds

end PageRank

namespace Graph

variable {g : Graph}

/-- Every round of PageRank changes the ranks by at most `d` times as much as the one before. So
where `2 * d ^ (k - 1)` is less than the tolerance, the rounds stop by tolerance after at most `k`
of them, and a greater limit gives the same ranks as the limit `k`. -/
theorem pagerankIn_settles (hv : g.Valid) (hc : g.Closed) (horder : 0 < g.order)
    {settings : PageRank.Settings} {d : ℚ} (hdamping : settings.damping.rational? = some d)
    (hd : 0 ≤ d) (hd' : d ≤ 1) {tolerance : Float}
    (htolerance : settings.readTolerance = .ok tolerance) (journal : Journal) :
    (∀ k, PageRank.roundChange (Index.ofArcs (g.arcs keepAll)) d (k + 1)
      ≤ d * PageRank.roundChange (Index.ofArcs (g.arcs keepAll)) d k) ∧
    ∀ k : Nat, 1 ≤ k →
      (∃ p, Decimal.place tolerance = some p ∧ Decimal.placeOfRat (2 * d ^ (k - 1)) < p) →
      ∃ j < k,
        Scalar.below (PageRank.roundChange (Index.ofArcs (g.arcs keepAll)) d j) tolerance = true ∧
        ∀ (limit : Value) (m : Int), limit.asInt? = some m → k ≤ m →
          PageRank.run (Index.ofArcs (g.arcs keepAll)) d tolerance m.toNat
            = ⟨PageRank.ranksAfter (Index.ofArcs (g.arcs keepAll)) d (j + 1), j + 1,
                PageRank.roundChange (Index.ofArcs (g.arcs keepAll)) d j⟩ ∧
          (g.pagerankIn ℚ { settings with maxIterations := limit }).outcome journal
            = .ok (g.score
                (PageRank.ranksAfter (Index.ofArcs (g.arcs keepAll)) d (j + 1)).get) ∧
          (g.pagerankIn ℚ { settings with maxIterations := limit }).outcome journal
            = (g.pagerankIn ℚ { settings with maxIterations := .int k }).outcome journal := by
  refine ⟨PageRank.roundChange_succ_le _ horder hd, fun k hk hsmall => ?_⟩
  obtain ⟨j, hj, hbelow, hfirst⟩ := PageRank.exists_first_below (g.arcs keepAll) horder hd hd' hk
    (below_iff_place.mpr hsmall)
  have hrun : ∀ m : Int, k ≤ m →
      PageRank.run (Index.ofArcs (g.arcs keepAll)) d tolerance m.toNat
        = ⟨PageRank.ranksAfter (Index.ofArcs (g.arcs keepAll)) d (j + 1), j + 1,
            PageRank.roundChange (Index.ofArcs (g.arcs keepAll)) d j⟩ := fun m hm =>
    PageRank.run_eq_of_first _ d tolerance (by omega) hfirst hbelow
  have hscores : ∀ (limit : Value) (m : Int), limit.asInt? = some m → k ≤ m →
      (g.pagerankIn ℚ { settings with maxIterations := limit }).outcome journal
        = .ok (g.score (PageRank.ranksAfter (Index.ofArcs (g.arcs keepAll)) d (j + 1)).get) := by
    intro limit m hlimit hm
    let limited : PageRank.Settings := { settings with maxIterations := limit }
    have hdamping' : limited.damping.rational? = some d := hdamping
    have htolerance' : limited.readTolerance = .ok tolerance := htolerance
    rw [pagerankIn_comesTo hv hc horder hdamping' hd hd' hlimit (by omega) htolerance' journal,
      hrun m hm]
  refine ⟨j, hj, hbelow, fun limit m hlimit hm => ⟨hrun m hm, hscores limit m hlimit hm, ?_⟩⟩
  rw [hscores limit m hlimit hm, hscores (.int k) k rfl le_rfl]

/-- With the usual settings 91 rounds are enough for any graph, and 100 are allowed. -/
theorem pagerankIn_settles_specimen :
    specimen.Valid ∧ specimen.Closed ∧ 0 < specimen.order ∧
    PageRank.Settings.default.damping.rational? = some (7656119366529843 / 9007199254740992) ∧
    PageRank.Settings.default.readTolerance = .ok 1e-6 ∧
    (∃ p, Decimal.place 1e-6 = some p ∧
      Decimal.placeOfRat (2 * (7656119366529843 / 9007199254740992) ^ (91 - 1)) < p) ∧
    (specimen.pagerankIn ℚ .default).outcome .empty
      = (specimen.pagerankIn ℚ
          { PageRank.Settings.default with maxIterations := .int 91 }).outcome .empty := by
  have hdamping : PageRank.Settings.default.damping.rational?
      = some (7656119366529843 / 9007199254740992) := by decide +kernel
  have hvalue : (Value.float 1e-6).rational?
      = some (4722366482869645 / 4722366482869645213696) := by decide +kernel
  have hsmall : ∃ p, Decimal.place 1e-6 = some p ∧
      Decimal.placeOfRat (2 * (7656119366529843 / 9007199254740992) ^ (91 - 1)) < p :=
    ⟨_, Value.place?_of_rational? hvalue, Decimal.placeOfRat_strictMono (by norm_num)⟩
  obtain ⟨-, hsettles⟩ := pagerankIn_settles specimen_valid specimen_closed (by decide) hdamping
    (by norm_num) (by norm_num) rfl .empty
  obtain ⟨j, -, -, hstays⟩ := hsettles 91 (by decide) hsmall
  exact ⟨specimen_valid, specimen_closed, by decide, hdamping, rfl, hsmall,
    (hstays (.int 100) 100 rfl (by decide)).2.2⟩

end Graph

end CodeGraph
