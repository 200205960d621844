import CodeGraph.Proofs.Community.Contraction
import CodeGraph.Proofs.Community.Louvain

/-!
# Accounts of the moves

The search for communities computes no modularity. It keeps a table of totals and
compares gains, and this is enough: at every visit of every sweep the totals are
the sums of the degrees in each community, and a move changes the modularity by
twice what the position gains beyond staying, as a share of all weight
(`visits_keep_account`).

`Sweeping` and `Visits` are the states that a search comes through. What holds in
all of them follows from what a visit preserves; that the search stops in one of
them is `exists_last_sweep`.
-/

namespace CodeGraph.Louvain

variable {n : Nat} {net : Network n ℚ}

/-! ## Runs of sweeps -/

/-- States in which a sweep begins, with the number of sweeps before. Another sweep follows one that
moved something, as long as there are sweeps left. -/
inductive Sweeping (net : Network n ℚ) : Nat → State n ℚ → Prop where
  | first : Sweeping net 0 (start (Setting.ofNetwork net))
  | next {k : Nat} {state : State n ℚ} (h : Sweeping net k state)
      (hmoved : (sweep (Setting.ofNetwork net) state).labels ≠ state.labels)
      (hleft : k + 1 < maxSweeps) : Sweeping net (k + 1) (sweep (Setting.ofNetwork net) state)

/-- States in which a position is visited: the sweep has come through all positions before it. -/
def Visits (net : Network n ℚ) (k : Nat) (i : Fin n) (state : State n ℚ) : Prop :=
  ∃ begun, Sweeping net k begun ∧ ∃ before after, List.finRange n = before ++ i :: after ∧
    state = before.foldl (visit (Setting.ofNetwork net)) begun

theorem tracks_foldl_visit {state : State n ℚ} (h : Tracks net state) (is : List (Fin n)) :
    Tracks net (is.foldl (visit (Setting.ofNetwork net)) state) := by
  induction is generalizing state with
  | nil => exact h
  | cons i rest ih => exact ih (tracks_visit h i)

theorem Sweeping.tracks {k : Nat} {state : State n ℚ} (h : Sweeping net k state) :
    Tracks net state := by
  induction h with
  | first => exact tracks_start net
  | next _ _ _ ih => exact tracks_foldl_visit ih (List.finRange n)

theorem Visits.tracks {k : Nat} {i : Fin n} {state : State n ℚ} (h : Visits net k i state) :
    Tracks net state := by
  obtain ⟨begun, hbegun, before, after, -, rfl⟩ := h
  exact tracks_foldl_visit hbegun.tracks before

/-! ## The end of a run -/

theorem sweeps_succ (s : Setting n ℚ) (left : Nat) (state : State n ℚ) :
    sweeps s (left + 1) state
      = if (sweep s state).labels = state.labels then sweep s state
        else sweeps s left (sweep s state) :=
  rfl

/-- The sweep that is the last one moves nothing, or has no sweep left after it. -/
theorem exists_last_sweep (left : Nat) {k : Nat} {state : State n ℚ} (h : Sweeping net k state)
    (hk : k + 1 + left = maxSweeps) :
    ∃ last begun, Sweeping net last begun ∧
      ((sweep (Setting.ofNetwork net) begun).labels = begun.labels ∨ last + 1 = maxSweeps) ∧
      (sweeps (Setting.ofNetwork net) (left + 1) state).labels
        = (sweep (Setting.ofNetwork net) begun).labels := by
  induction left generalizing k state with
  | zero =>
    refine ⟨k, state, h, .inr hk, ?_⟩
    rw [sweeps_succ]
    split <;> rfl
  | succ left ih =>
    rw [sweeps_succ]
    by_cases hmoved : (sweep (Setting.ofNetwork net) state).labels = state.labels
    · rw [if_pos hmoved]
      exact ⟨k, state, h, .inl hmoved, rfl⟩
    · rw [if_neg hmoved]
      exact ih (h.next hmoved (by omega)) (by omega)

/-- Nothing is settled when the first sweep moves nothing; the positions are on their own then. -/
theorem getD_settle (ht : net.total ≠ 0) :
    (settle net).getD (Labelling.singletons n)
      = (sweeps (Setting.ofNetwork net) maxSweeps (start (Setting.ofNetwork net))).labels := by
  change _ = (sweeps (Setting.ofNetwork net) (maxSweeps - 1 + 1) _).labels
  rw [sweeps_succ, settle_eq ht]
  by_cases hmoved : (sweep (Setting.ofNetwork net) (start (Setting.ofNetwork net))).labels
      = Labelling.singletons n
  · rw [if_pos hmoved, if_pos (by exact hmoved), hmoved, Option.getD_none]
  · rw [if_neg hmoved, if_neg (by exact hmoved), Option.getD_some]

/-! ## What a move changes -/

theorem modularity_visit (hb : net.Balanced) {state : State n ℚ} (h : Tracks net state)
    (i : Fin n) :
    net.modularity (visit (Setting.ofNetwork net) state i).labels.get
        - net.modularity state.labels.get
      = 2 * ((chosen net state i).2 - staying net state i) / net.total := by
  rw [Network.modularity_eq, Network.modularity_eq, surplus_visit hb h, ← sub_div,
    add_sub_cancel_left]

theorem exactGain_lt_of_move {state : State n ℚ} {i : Fin n}
    (hmove : (chosen net state i).1 ≠ state.labels.get i) :
    exactGain < (chosen net state i).2 - staying net state i :=
  lt_sub_iff_add_lt'.mpr ((choose_stands _ _ _ i).stays_or_gains.resolve_left hmove)

/-- The search ends with a sweep that moves nothing or is the last one allowed. At every visit on
the way, before and after it, the totals are the sums of the degrees in each community. The visit
puts the position into the community that it chooses. If this is another one, the modularity changes
by twice what the position gains there beyond staying, as a share of all weight, which is more than
twice the least gain that counts. -/
theorem visits_keep_account (net : Network n ℚ) (hb : net.Balanced) (ht : 0 < net.total) :
    (∃ k begun, Sweeping net k begun ∧
      ((sweep (Setting.ofNetwork net) begun).labels = begun.labels ∨ k + 1 = maxSweeps) ∧
      (settle net).getD (Labelling.singletons n)
        = (sweep (Setting.ofNetwork net) begun).labels) ∧
    ∀ k i state, Visits net k i state →
      Tracks net state ∧ Tracks net (visit (Setting.ofNetwork net) state i) ∧
      (visit (Setting.ofNetwork net) state i).labels.get
        = Function.update state.labels.get i (chosen net state i).1 ∧
      ((chosen net state i).1 ≠ state.labels.get i →
        net.modularity (visit (Setting.ofNetwork net) state i).labels.get
            - net.modularity state.labels.get
          = 2 * ((chosen net state i).2 - staying net state i) / net.total ∧
        2 * exactGain / net.total
          < 2 * ((chosen net state i).2 - staying net state i) / net.total ∧
        0 < 2 * exactGain / net.total) := by
  constructor
  · rw [getD_settle ht.ne']
    exact exists_last_sweep (maxSweeps - 1) .first rfl
  · intro k i state hvisits
    have htracks := hvisits.tracks
    refine ⟨htracks, tracks_visit htracks i, get_labels_visit net state i, fun hmove => ?_⟩
    have hgains := exactGain_lt_of_move hmove
    exact ⟨modularity_visit hb htracks i, by gcongr, div_pos (mul_pos two_pos exactGain_pos) ht⟩

/-- The second visit of the first sweep follows the position before it into its community. -/
theorem visits_keep_account_triangle :
    Network.triangle.Balanced ∧ 0 < Network.triangle.total ∧
    ∃ state, Visits Network.triangle 0 1 state ∧ state.labels = #v[2, 1, 2] ∧
      Tracks Network.triangle state ∧ (chosen Network.triangle state 1).1 = 2 ∧
      Network.triangle.modularity
          (visit (Setting.ofNetwork Network.triangle) state 1).labels.get
        - Network.triangle.modularity state.labels.get = 49 / 242 := by
  have hb : Network.triangle.Balanced :=
    ⟨by decide +kernel, by decide +kernel, by decide +kernel, by decide +kernel⟩
  have ht : 0 < Network.triangle.total := by decide +kernel
  have hvisits : Visits Network.triangle 0 1
      (visit (Setting.ofNetwork Network.triangle) (start (Setting.ofNetwork Network.triangle)) 0) :=
    ⟨_, .first, [0], [2], by decide, rfl⟩
  obtain ⟨-, hall⟩ := visits_keep_account Network.triangle hb ht
  obtain ⟨htracks, -, -, hmove⟩ := hall 0 1 _ hvisits
  refine ⟨hb, ht, _, hvisits, by decide +kernel, htracks, by decide +kernel, ?_⟩
  rw [(hmove (by decide +kernel)).1]
  decide +kernel

end CodeGraph.Louvain
