import Mathlib.Algebra.BigOperators.Field
import Mathlib.Algebra.BigOperators.Ring.Finset
import Mathlib.Algebra.Order.BigOperators.Group.Finset
import Mathlib.Logic.Function.Iterate
import Mathlib.Tactic.FieldSimp
import Mathlib.Tactic.Linarith
import Mathlib.Tactic.Positivity
import CodeGraph.Centrality.PageRank
import CodeGraph.Proofs.Order
import CodeGraph.Proofs.Snapshot
import CodeGraph.Proofs.Sums

/-!
# Ranks are a distribution

Over the rationals a round of PageRank takes ranks that sum to one to ranks that
sum to one (`distribution_update`). What leaves a vertex leaves it along its arcs
in equal shares, and every share arrives where its arc ends: counted by the arcs
that enter and by the arcs that leave, it is the same sum, the rank of the
vertices with arcs to leave by (`sum_flow`). The rank of the others is spread
evenly, and so is what is held back by the damping; the latter alone gives every
vertex its least rank. This goes for every round, and the ranks answered are
those after one of them (`rounds_ranks`).
-/

namespace CodeGraph

namespace PageRank

variable {n : Nat} {d : ℚ} {ranks : Table n ℚ}

/-- Ranks that sum to one, none of them negative or below the least rank. -/
structure Distribution (least : ℚ) (ranks : Table n ℚ) : Prop where
  nonneg : ∀ v, 0 ≤ ranks.get v
  least_le : ∀ v, least ≤ ranks.get v
  sum_eq : ∑ v, ranks.get v = 1

/-! ## One round -/

theorem get_update (index : Index n) (d : ℚ) (ranks : Table n ℚ) (v : Fin n) :
    (update index d ranks).get v
      = d * (flow index ranks v + strandedRank index ranks / n) + (1 - d) / n :=
  Table.get_ofFn _ v

theorem share_nonneg (index : Index n) (h : ∀ v, 0 ≤ ranks.get v) (v : Fin n) :
    0 ≤ share index ranks v := by
  refine div_nonneg (h v) ?_
  split
  · exact zero_le_one
  · exact Nat.cast_nonneg (α := ℚ) _

theorem flow_nonneg (index : Index n) (h : ∀ v, 0 ≤ ranks.get v) (v : Fin n) :
    0 ≤ flow index ranks v := by
  unfold flow
  rw [sum_rat]
  exact List.sum_nonneg (List.forall_mem_map.mpr fun arc _ => share_nonneg index h arc.source)

theorem strandedRank_eq (index : Index n) (ranks : Table n ℚ) :
    strandedRank index ranks = ∑ v with (index.out v).isEmpty, ranks.get v := by
  rw [strandedRank, balancedSum_rat, ← sum_rat, sum_filter_finRange]

theorem strandedRank_nonneg (index : Index n) (h : ∀ v, 0 ≤ ranks.get v) :
    0 ≤ strandedRank index ranks := by
  rw [strandedRank_eq]
  exact Finset.sum_nonneg fun v _ => h v

/-- The shares of a vertex make up its rank, if it has any arc to send them along. -/
theorem length_mul_share (index : Index n) (ranks : Table n ℚ) (v : Fin n) :
    ((index.out v).length : ℚ) * share index ranks v
      = if (index.out v).isEmpty then 0 else ranks.get v := by
  by_cases h : index.out v = []
  · simp [h]
  · have hlength : (index.out v).length ≠ 0 := fun hzero => h (List.length_eq_zero_iff.mp hzero)
    have hcast : ((index.out v).length : ℚ) ≠ 0 := Nat.cast_ne_zero.mpr hlength
    rw [if_neg (by simpa using h)]
    change _ * (ranks.get v / if (index.out v).length = 0 then 1 else ((index.out v).length : ℚ)) = _
    rw [if_neg hlength, mul_div_cancel₀ _ hcast]

theorem sum_flow (arcs : List (Arc n)) (ranks : Table n ℚ) :
    ∑ v, flow (Index.ofArcs arcs) ranks v
      = ∑ v with ¬((Index.ofArcs arcs).out v).isEmpty, ranks.get v := by
  have hinto : ∀ v, flow (Index.ofArcs arcs) ranks v
      = ((arcs.filter fun arc => arc.target = v).map
          fun arc => share (Index.ofArcs arcs) ranks arc.source).sum := by
    intro v
    rw [flow, sum_rat, Index.into_ofArcs]
  have hout : ∀ v, ((arcs.filter fun arc => arc.source = v).map
        fun arc => share (Index.ofArcs arcs) ranks arc.source).sum
      = if ((Index.ofArcs arcs).out v).isEmpty then 0 else ranks.get v := by
    intro v
    have hconst : (arcs.filter fun arc => arc.source = v).map
          (fun arc => share (Index.ofArcs arcs) ranks arc.source)
        = ((Index.ofArcs arcs).out v).map fun _ => share (Index.ofArcs arcs) ranks v := by
      rw [Index.out_ofArcs]
      refine List.map_congr_left fun arc harc => ?_
      rw [of_decide_eq_true (List.mem_filter.mp harc).2]
    rw [hconst, List.map_const', List.sum_replicate, nsmul_eq_mul, length_mul_share]
  calc ∑ v, flow (Index.ofArcs arcs) ranks v
      = (arcs.map fun arc => share (Index.ofArcs arcs) ranks arc.source).sum := by
        simp only [hinto, sum_fibers Arc.target]
    _ = ∑ v, if ((Index.ofArcs arcs).out v).isEmpty then 0 else ranks.get v := by
        rw [← sum_fibers Arc.source]
        exact Finset.sum_congr rfl fun v _ => hout v
    _ = ∑ v with ¬((Index.ofArcs arcs).out v).isEmpty, ranks.get v := by
        rw [Finset.sum_filter]
        exact Finset.sum_congr rfl fun v _ => by rw [ite_not]

theorem sum_update (arcs : List (Arc n)) (hn : 0 < n) (d : ℚ) (ranks : Table n ℚ) :
    ∑ v, (update (Index.ofArcs arcs) d ranks).get v = d * ∑ v, ranks.get v + (1 - d) := by
  have hsplit := Finset.sum_filter_add_sum_filter_not Finset.univ
    (fun v => ((Index.ofArcs arcs).out v).isEmpty = true) ranks.get
  have hcast : (n : ℚ) ≠ 0 := Nat.cast_ne_zero.mpr hn.ne'
  simp only [get_update, Finset.sum_add_distrib, ← Finset.mul_sum, Finset.sum_const,
    Finset.card_univ, Fintype.card_fin, nsmul_eq_mul, mul_div_cancel₀ _ hcast]
  rw [sum_flow, strandedRank_eq, add_comm (∑ v with _, _), hsplit]

/-- A round keeps the ranks a distribution, whatever the least rank was before. -/
theorem distribution_update (arcs : List (Arc n)) (hn : 0 < n) (hd : 0 ≤ d) (hd' : d ≤ 1)
    {least : ℚ} (h : Distribution least ranks) :
    Distribution ((1 - d) / n) (update (Index.ofArcs arcs) d ranks) := by
  have hheld : 0 ≤ (1 - d) / n := div_nonneg (by linarith) (Nat.cast_nonneg n)
  have hleast : ∀ v, (1 - d) / n ≤ (update (Index.ofArcs arcs) d ranks).get v := by
    intro v
    have hflow := flow_nonneg (Index.ofArcs arcs) h.nonneg v
    have hstranded : 0 ≤ strandedRank (Index.ofArcs arcs) ranks / n :=
      div_nonneg (strandedRank_nonneg _ h.nonneg) (Nat.cast_nonneg n)
    rw [get_update]
    have := mul_nonneg hd (add_nonneg hflow hstranded)
    linarith
  refine ⟨fun v => hheld.trans (hleast v), hleast, ?_⟩
  rw [sum_update arcs hn, h.sum_eq]
  ring

/-! ## All rounds -/

theorem distribution_uniform (hn : 0 < n) (hd : 0 ≤ d) :
    Distribution ((1 - d) / n) (uniform n ℚ) := by
  have hcast : (0 : ℚ) < n := Nat.cast_pos.mpr hn
  have hget : ∀ v, (uniform n ℚ).get v = 1 / n := Table.get_replicate _
  refine ⟨fun v => ?_, fun v => ?_, ?_⟩
  · rw [hget]
    positivity
  · rw [hget]
    exact div_le_div_of_nonneg_right (by linarith) hcast.le
  · simp only [hget, Finset.sum_const, Finset.card_univ, Fintype.card_fin, nsmul_eq_mul]
    exact mul_one_div_cancel hcast.ne'

theorem distribution_iterate (arcs : List (Arc n)) (hn : 0 < n) (hd : 0 ≤ d) (hd' : d ≤ 1)
    (k : Nat) : Distribution ((1 - d) / n) ((update (Index.ofArcs arcs) d)^[k] (uniform n ℚ)) := by
  induction k with
  | zero => exact distribution_uniform hn hd
  | succ k ih =>
    rw [Function.iterate_succ_apply']
    exact distribution_update arcs hn hd hd' ih

theorem rounds_ranks {α : Type} [Scalar α] (index : Index n) (damping : α) (tolerance : Float)
    (left done : Nat) (ranks : Table n α) :
    ∃ k ≤ left, (rounds index damping tolerance left done ranks).ranks
      = (update index damping)^[k + 1] ranks := by
  induction left generalizing done ranks with
  | zero => exact ⟨0, le_refl 0, rfl⟩
  | succ left ih =>
    rw [rounds]
    split
    · exact ⟨0, Nat.zero_le _, rfl⟩
    · obtain ⟨k, hk, hranks⟩ := ih (done + 1) (update index damping ranks)
      exact ⟨k + 1, Nat.succ_le_succ hk, hranks⟩

/-! ## Settings -/

/-- Numbers between zero and one are doubles: the integers among them are zero and one. -/
theorem toDouble_gives {damping : Value} (h : damping.rational? = some d) (hd : 0 ≤ d)
    (hd' : d ≤ 1) : Gives damping.toDouble fun x => Decimal.rational? x = some d := by
  cases damping with
  | float x => exact Gives.of_ok h
  | int n =>
    obtain rfl : (n : ℚ) = d := Option.some.inj h
    have hn : n = 0 ∨ n = 1 := by
      have : 0 ≤ n := by exact_mod_cast hd
      have : n ≤ 1 := by exact_mod_cast hd'
      omega
    have hsmall : ¬Value.beyondDoubles ≤ n.natAbs := by
      rcases hn with rfl | rfl <;> decide +kernel
    have hdouble : Value.toDouble (.int n) = .ok (Decimal.ofInt n) := by
      rw [Value.toDouble, Value.doubleOfInt, if_neg hsmall]
    refine ⟨_, hdouble, ?_⟩
    rcases hn with rfl | rfl <;> decide +kernel
  | bool b =>
    obtain rfl := Option.some.inj h
    refine Gives.of_ok ?_
    cases b <;> decide +kernel
  | _ => cases h

/-- A damping between zero and one is accepted, as a double of its exact value. -/
theorem readDamping_gives {settings : Settings} (h : settings.damping.rational? = some d)
    (hd : 0 ≤ d) (hd' : d ≤ 1) :
    Gives settings.readDamping fun x => Decimal.rational? x = some d := by
  have hzero : (Value.float 0).rational? = some 0 := by decide +kernel
  have hone : (Value.float 1).rational? = some 1 := by decide +kernel
  unfold Settings.readDamping
  rw [Value.le_of_rational? hzero h hd, Value.le_of_rational? h hone hd']
  exact toDouble_gives h hd hd'

theorem readTolerance_gives {settings : Settings} (h : settings.tolerance.isNumber = true) :
    Gives settings.readTolerance fun _ => True := by
  unfold Settings.readTolerance
  cases htolerance : settings.tolerance with
  | float x => exact Gives.of_ok trivial
  | int n => exact Gives.of_ok trivial
  | bool b => exact Gives.of_ok trivial
  | _ =>
    rw [htolerance] at h
    cases h

theorem checkIterations_eq {settings : Settings} {limit : Int}
    (h : settings.maxIterations.asInt? = some limit) (hlimit : 1 ≤ limit) :
    settings.checkIterations = .ok () := by
  have hrational : settings.maxIterations.rational? = some (limit : ℚ) := by
    cases hm : settings.maxIterations with
    | float x =>
      rw [hm] at h
      cases h
    | _ => exact congrArg (Option.map fun n : Int => (n : ℚ)) (hm ▸ h)
  have hone : (Value.int 1).rational? = some ((1 : Int) : ℚ) := rfl
  have hlt : settings.maxIterations.lt (.int 1) = .ok false :=
    Value.not_lt_of_rational? hrational hone (by exact_mod_cast hlimit)
  unfold Settings.checkIterations
  rw [hlt]
  rfl

end PageRank

namespace Graph

variable {g : Graph}

/-- With settings in range there is an answer: a score for every node, its rank when the rounds have
come to an end. -/
theorem pagerankIn_comesTo (hv : g.Valid) (hc : g.Closed) (horder : 0 < g.order)
    {settings : PageRank.Settings} {d : ℚ} (hdamping : settings.damping.rational? = some d)
    (hd : 0 ≤ d) (hd' : d ≤ 1) {limit : Int} (hlimit : settings.maxIterations.asInt? = some limit)
    (hpos : 1 ≤ limit) {tolerance : Float} (htolerance : settings.readTolerance = .ok tolerance) :
    (g.pagerankIn ℚ settings).ComesTo (.ok (g.score
      (PageRank.run (Index.ofArcs (g.arcs keepAll)) d tolerance limit.toNat).ranks.get)) := by
  obtain ⟨x, hx, hvalue⟩ := PageRank.readDamping_gives hdamping hd hd'
  have hrounds : settings.roundLimit = .ok limit.toNat := by
    unfold PageRank.Settings.roundLimit
    rw [hlimit]
  have hread : (Scalar.ofFloat x : ℚ) = d := by
    change (Decimal.rational? x).getD 0 = d
    rw [hvalue, Option.getD_some]
  unfold pagerankIn
  simp only [hx, PageRank.checkIterations_eq hlimit hpos, hrounds, htolerance, Logged.lift_ok,
    pure_bind, index_eq_pure hv hc, if_neg horder.ne', hread]
  exact fun journal => rfl

theorem pagerankIn_gives (hv : g.Valid) (hc : g.Closed) (horder : 0 < g.order)
    {settings : PageRank.Settings} {d : ℚ} (hdamping : settings.damping.rational? = some d)
    (hd : 0 ≤ d) (hd' : d ≤ 1) {limit : Int} (hlimit : settings.maxIterations.asInt? = some limit)
    (hpos : 1 ≤ limit) (htolerance : settings.tolerance.isNumber = true) :
    Logged.Gives (g.pagerankIn ℚ settings) fun scores =>
      ∃ k : Nat, 1 ≤ k ∧ k ≤ limit ∧ scores = g.score
        ((PageRank.update (Index.ofArcs (g.arcs keepAll)) d)^[k] (PageRank.uniform g.order ℚ)).get := by
  obtain ⟨tolerance, htol, -⟩ := PageRank.readTolerance_gives htolerance
  have hcomes := pagerankIn_comesTo hv hc horder hdamping hd hd' hlimit hpos htol
  refine Logged.Gives.of_outcome fun journal => ⟨_, hcomes journal, ?_⟩
  obtain ⟨k, hk, hranks⟩ := PageRank.rounds_ranks (Index.ofArcs (g.arcs keepAll)) d tolerance
    (limit.toNat - 1) 0 (PageRank.uniform g.order ℚ)
  refine ⟨k + 1, Nat.succ_le_succ (Nat.zero_le k), by omega, ?_⟩
  rw [PageRank.run, hranks]

/-- After every round, and so in the answer, the ranks are non-negative, at least an equal part of
what the damping holds back, and sum to one. -/
theorem pagerank_is_distribution (hv : g.Valid) (hc : g.Closed) (horder : 0 < g.order)
    {settings : PageRank.Settings} {d : ℚ} (hdamping : settings.damping.rational? = some d)
    (hd : 0 ≤ d) (hd' : d ≤ 1) {limit : Int} (hlimit : settings.maxIterations.asInt? = some limit)
    (hpos : 1 ≤ limit) (htolerance : settings.tolerance.isNumber = true) (journal : Journal) :
    (∀ k, PageRank.Distribution ((1 - d) / g.order)
      ((PageRank.update (Index.ofArcs (g.arcs keepAll)) d)^[k] (PageRank.uniform g.order ℚ))) ∧
    ∃ scores, (g.pagerankIn ℚ settings).outcome journal = .ok scores ∧
      (∃ k : Nat, 1 ≤ k ∧ k ≤ limit ∧ scores = g.score
        ((PageRank.update (Index.ofArcs (g.arcs keepAll)) d)^[k]
          (PageRank.uniform g.order ℚ)).get) ∧
      scores.map Prod.fst = g.vertices.map g.name ∧
      (∀ entry ∈ scores, 0 ≤ entry.2 ∧ (1 - d) / g.order ≤ entry.2) ∧
      (scores.map Prod.snd).sum = 1 := by
  have hall := PageRank.distribution_iterate (g.arcs keepAll) horder hd hd'
  obtain ⟨scores, hscores, k, hk, hk', rfl⟩ :=
    (pagerankIn_gives hv hc horder hdamping hd hd' hlimit hpos htolerance).outcome journal
  refine ⟨hall, _, hscores, ⟨k, hk, hk', rfl⟩, ?_, ?_, ?_⟩
  · rw [score, List.map_map]
    rfl
  · exact List.forall_mem_map.mpr fun v _ => ⟨(hall k).nonneg v, (hall k).least_le v⟩
  · rw [score, List.map_map, ← (hall k).sum_eq, vertices, ← List.sum_ofFn, List.ofFn_eq_map]
    rfl

/-- In the specimen, with parallel edges and a loop, and with the usual settings; the damping is the
double nearest to `0.85`. -/
theorem pagerank_is_distribution_specimen :
    specimen.Valid ∧ specimen.Closed ∧ 0 < specimen.order ∧
    PageRank.Settings.default.damping.rational? = some (7656119366529843 / 9007199254740992) ∧
    ∃ scores, (specimen.pagerankIn ℚ .default).outcome .empty = .ok scores ∧
      (∀ entry ∈ scores, 0 ≤ entry.2) ∧ (scores.map Prod.snd).sum = 1 := by
  have hdamping : PageRank.Settings.default.damping.rational?
      = some (7656119366529843 / 9007199254740992) := by decide +kernel
  have hlimit : PageRank.Settings.default.maxIterations.asInt? = some 100 := rfl
  obtain ⟨-, scores, hscores, -, -, hall, hsum⟩ := pagerank_is_distribution specimen_valid
    specimen_closed (by decide) hdamping (by norm_num) (by norm_num) hlimit (by decide) rfl .empty
  exact ⟨specimen_valid, specimen_closed, by decide, hdamping, scores, hscores,
    fun entry hentry => (hall entry hentry).1, hsum⟩

end Graph

end CodeGraph
