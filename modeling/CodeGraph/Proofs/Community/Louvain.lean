import CodeGraph.Community.Louvain
import CodeGraph.Proofs.Community.Surplus

/-!
# Greedy search for communities

What the search does over the rationals, where no gain is lost in rounding. The
invariant is `Tracks`: the totals that are kept while positions move are the
sums of degrees in every community. With it a gain is the excess of a position
with a community, so that a visit either finds the position content and changes
nothing, or raises the surplus (`visit_spec`), and so does every fold of visits.

Contraction keeps sums over pairs, which carries both facts to all levels. The
surplus at the end is at least that of the start (`surplus_le_levels`). And since
the search ends only when every community is content on its own, no two
communities have more weight between them than counts (`apart_levels`).
-/

namespace CodeGraph.Louvain

variable {n : Nat} {net : Network n ℚ}

def exactGain : ℚ :=
  Scalar.ofFloat leastGain

theorem exactGain_eq : exactGain = 4951760157141521 / 2 ^ 92 := by
  decide +kernel

theorem exactGain_pos : 0 < exactGain := by
  rw [exactGain_eq]
  norm_num

/-! ## Gains -/

theorem degree_ofNetwork (i : Fin n) : (Setting.ofNetwork net).degree.get i = net.degree i :=
  Table.get_ofFn _ i

theorem total_ofNetwork : (Setting.ofNetwork net).total = net.total := by
  change Scalar.sum (Vector.ofFn net.degree).toList = _
  rw [sum_rat, Vector.toList_ofFn, List.sum_ofFn, Network.total]

/-- Totals of the degrees in every community, one position left out. -/
def TracksWithout (net : Network n ℚ) (labels : Labelling n) (i : Fin n) (totals : Table n ℚ) :
    Prop :=
  ∀ c, totals.get c = ∑ j ∈ Finset.univ.erase i, if labels.get j = c then net.degree j else 0

/-- A gain is the excess with the members of a community. -/
theorem gain_eq_attraction (hb : net.Balanced) {labels : Labelling n} {totals : Table n ℚ}
    {i : Fin n} (htracks : TracksWithout net labels i totals) (c : Fin n) :
    gain (Setting.ofNetwork net) labels totals i c = net.attraction labels.get i c := by
  have hpull : pull net labels i c
      = ∑ j ∈ Finset.univ.erase i, if labels.get j = c then net.entry i j else 0 := by
    rw [pull, Network.sum_neighbours, ← Finset.add_sum_erase _ _ (Finset.mem_univ i), hb.diag i,
      ite_self, zero_add]
    refine Finset.sum_congr rfl fun j hj => ?_
    rw [Network.entry, if_neg (Finset.ne_of_mem_erase hj).symm, add_zero]
    simp only [decide_eq_true_eq]
  calc gain (Setting.ofNetwork net) labels totals i c
      = pull net labels i c - totals.get c * net.degree i / net.total := by
        rw [← degree_ofNetwork i, ← total_ofNetwork]
        rfl
    _ = ∑ j ∈ Finset.univ.erase i, ((if labels.get j = c then net.entry i j else 0)
          - (if labels.get j = c then net.degree j else 0) * net.degree i / net.total) := by
        rw [hpull, htracks c, Finset.sum_mul, Finset.sum_div, Finset.sum_sub_distrib]
    _ = net.attraction labels.get i c := by
        refine Finset.sum_congr rfl fun j _ => ?_
        split
        · rw [Network.excess, mul_comm (net.degree j)]
        · simp

/-! ## One visit -/

section Choice

variable {s : Setting n ℚ} {labels : Labelling n} {totals : Table n ℚ} {i : Fin n}

/-- A choice with its gain: to stay, or to gain enough by going. -/
structure Stands (s : Setting n ℚ) (labels : Labelling n) (totals : Table n ℚ) (i : Fin n)
    (standing : Fin n × ℚ) : Prop where
  gain_eq : standing.2 = gain s labels totals i standing.1
  stays_or_gains : standing.1 = labels.get i ∨
    gain s labels totals i (labels.get i) + exactGain < standing.2

theorem consider_of_ne {standing : Fin n × ℚ} {c : Fin n} (hc : c ≠ labels.get i) :
    consider s labels totals i standing c
      = if standing.2 + exactGain < gain s labels totals i c then (c, gain s labels totals i c)
        else standing :=
  if_neg hc

theorem consider_spec {standing : Fin n × ℚ} (h : Stands s labels totals i standing) (c : Fin n) :
    Stands s labels totals i (consider s labels totals i standing c) ∧
      standing.2 ≤ (consider s labels totals i standing c).2 ∧
      (c ≠ labels.get i →
        gain s labels totals i c ≤ (consider s labels totals i standing c).2 + exactGain) := by
  have hpos := exactGain_pos
  by_cases hc : c = labels.get i
  · rw [consider, if_pos hc]
    exact ⟨h, le_refl _, fun hne => absurd hc hne⟩
  · rw [consider_of_ne hc]
    by_cases hmore : standing.2 + exactGain < gain s labels totals i c
    · rw [if_pos hmore]
      refine ⟨⟨rfl, .inr ?_⟩, by linarith, fun _ => by linarith⟩
      rcases h.stays_or_gains with hstays | hgains
      · rwa [← hstays, ← h.gain_eq]
      · linarith
    · rw [if_neg hmore]
      exact ⟨h, le_refl _, fun _ => not_lt.mp hmore⟩

theorem foldl_consider_spec (cs : List (Fin n)) {standing : Fin n × ℚ}
    (h : Stands s labels totals i standing) :
    Stands s labels totals i (cs.foldl (consider s labels totals i) standing) ∧
      standing.2 ≤ (cs.foldl (consider s labels totals i) standing).2 ∧
      ∀ c ∈ cs, c ≠ labels.get i → gain s labels totals i c
        ≤ (cs.foldl (consider s labels totals i) standing).2 + exactGain := by
  induction cs generalizing standing with
  | nil => exact ⟨h, le_refl _, fun c hc => absurd hc List.not_mem_nil⟩
  | cons first rest ih =>
      obtain ⟨hstands, hle, hfirst⟩ := consider_spec h first
      obtain ⟨hstands', hle', hrest⟩ := ih hstands
      refine ⟨hstands', hle.trans hle', List.forall_mem_cons.mpr ⟨fun hne => ?_, hrest⟩⟩
      rw [List.foldl_cons]
      linarith [hfirst hne]

theorem choose_stands (s : Setting n ℚ) (labels : Labelling n) (totals : Table n ℚ) (i : Fin n) :
    Stands s labels totals i (choose s labels totals i) :=
  (foldl_consider_spec _ ⟨rfl, .inl rfl⟩).1

/-- Either no community is better by enough, or the best is. -/
theorem best_spec (s : Setting n ℚ) (labels : Labelling n) (totals : Table n ℚ) (i : Fin n) :
    (best s labels totals i = labels.get i ∧ ∀ c ∈ options s.net labels i, c ≠ labels.get i →
      gain s labels totals i c ≤ gain s labels totals i (labels.get i) + exactGain) ∨
    gain s labels totals i (labels.get i) + exactGain
      < gain s labels totals i (best s labels totals i) := by
  have hstart : Stands s labels totals i (labels.get i, gain s labels totals i (labels.get i)) :=
    ⟨rfl, .inl rfl⟩
  obtain ⟨hstands, -, hall⟩ := foldl_consider_spec (options s.net labels i) hstart
  rcases hstands.stays_or_gains with hstays | hgains
  · refine .inl ⟨hstays, fun c hc hne => ?_⟩
    have := hall c hc hne
    rwa [hstands.gain_eq, hstays] at this
  · rw [hstands.gain_eq] at hgains
    exact .inr hgains

end Choice

/-- The totals are the sums of the degrees in every community. -/
def Tracks (net : Network n ℚ) (state : State n ℚ) : Prop :=
  ∀ c, state.totals.get c = ∑ j, if state.labels.get j = c then net.degree j else 0

/-- No neighbouring community attracts a position so much more than its own that it counts. -/
def Content (net : Network n ℚ) (labels : Labelling n) (i : Fin n) : Prop :=
  ∀ c ∈ options net labels i, c ≠ labels.get i →
    net.attraction labels.get i c ≤ net.attraction labels.get i (labels.get i) + exactGain

theorem eq_of_get_eq {labels labels' : Labelling n} (h : labels.get = labels'.get) :
    labels = labels' :=
  Vector.ext fun i hi => congrFun h ⟨i, hi⟩

theorem get_set_eq_update (labels : Labelling n) (i c : Fin n) :
    (Table.set labels i c).get = Function.update labels.get i c := by
  funext j
  rw [Table.get_set, Function.update_apply]
  simp only [eq_comm]

theorem Tracks.without {state : State n ℚ} (h : Tracks net state) (i : Fin n) :
    TracksWithout net state.labels i (state.without (Setting.ofNetwork net) i) := by
  intro c
  have hsplit := h c
  rw [← Finset.add_sum_erase _ _ (Finset.mem_univ i)] at hsplit
  rw [State.without, Table.get_set, degree_ofNetwork]
  by_cases hc : state.labels.get i = c
  · rw [if_pos hc] at hsplit ⊢
    rw [hc, hsplit]
    ring
  · rw [if_neg hc] at hsplit ⊢
    rw [hsplit, zero_add]

theorem TracksWithout.put {labels : Labelling n} {totals : Table n ℚ} {i : Fin n}
    (h : TracksWithout net labels i totals) (c : Fin n) :
    Tracks net ⟨labels.set i c, totals.set c (totals.get c + net.degree i)⟩ := by
  intro d
  have hother : ∀ j ∈ Finset.univ.erase i,
      (if (Table.set labels i c).get j = d then net.degree j else 0)
        = if labels.get j = d then net.degree j else 0 := by
    intro j hj
    rw [Table.get_set, if_neg (Finset.ne_of_mem_erase hj).symm]
  rw [← Finset.add_sum_erase _ _ (Finset.mem_univ i), Finset.sum_congr rfl hother, ← h d,
    Table.get_set, Table.get_set, if_pos rfl]
  by_cases hc : c = d
  · rw [if_pos hc, if_pos hc, hc, add_comm]
  · rw [if_neg hc, if_neg hc, zero_add]

/-- The community that a position chooses when it is visited, with its gain. -/
def chosen (net : Network n ℚ) (state : State n ℚ) (i : Fin n) : Fin n × ℚ :=
  choose (Setting.ofNetwork net) state.labels (state.without (Setting.ofNetwork net) i) i

/-- What a position gains by staying when it is visited. -/
def staying (net : Network n ℚ) (state : State n ℚ) (i : Fin n) : ℚ :=
  gain (Setting.ofNetwork net) state.labels (state.without (Setting.ofNetwork net) i) i
    (state.labels.get i)

theorem get_labels_visit (net : Network n ℚ) (state : State n ℚ) (i : Fin n) :
    (visit (Setting.ofNetwork net) state i).labels.get
      = Function.update state.labels.get i (chosen net state i).1 :=
  get_set_eq_update ..

theorem tracks_visit {state : State n ℚ} (h : Tracks net state) (i : Fin n) :
    Tracks net (visit (Setting.ofNetwork net) state i) := by
  rw [visit, degree_ofNetwork]
  exact (h.without i).put _

/-- A visit changes the surplus by what the position gains beyond staying, counted from both
ends. -/
theorem surplus_visit (hb : net.Balanced) {state : State n ℚ} (h : Tracks net state) (i : Fin n) :
    net.surplus (visit (Setting.ofNetwork net) state i).labels.get
      = net.surplus state.labels.get + 2 * ((chosen net state i).2 - staying net state i) := by
  have hgain := gain_eq_attraction hb (h.without i)
  have hchosen : (chosen net state i).2
      = net.attraction state.labels.get i (chosen net state i).1 :=
    (choose_stands _ _ _ i).gain_eq.trans (hgain _)
  rw [get_labels_visit, hb.surplus_update, hchosen, staying, hgain]

/-- A visit keeps the totals right. Either the position is content and nothing changes, or the
surplus grows. -/
theorem visit_spec (hb : net.Balanced) {state : State n ℚ} (h : Tracks net state) (i : Fin n) :
    Tracks net (visit (Setting.ofNetwork net) state i) ∧
      (((visit (Setting.ofNetwork net) state i).labels = state.labels ∧
          Content net state.labels i) ∨
        net.surplus state.labels.get
          < net.surplus (visit (Setting.ofNetwork net) state i).labels.get) := by
  have hgain := gain_eq_attraction hb (h.without i)
  refine ⟨tracks_visit h i, ?_⟩
  rcases best_spec (Setting.ofNetwork net) state.labels (state.without (Setting.ofNetwork net) i) i
    with ⟨hstays, hall⟩ | hmore
  · refine .inl ⟨eq_of_get_eq ?_, fun c hc hne => ?_⟩
    · rw [get_labels_visit, show (chosen net state i).1 = state.labels.get i from hstays,
        Function.update_eq_self]
    · rw [← hgain, ← hgain]
      exact hall c hc hne
  · have hless : staying net state i + exactGain < (chosen net state i).2 :=
      hmore.trans_eq (choose_stands _ _ _ i).gain_eq.symm
    refine .inr ?_
    rw [surplus_visit hb h]
    linarith [exactGain_pos]

/-! ## Sweeps -/

theorem foldl_visit_spec (hb : net.Balanced) (is : List (Fin n)) {state : State n ℚ}
    (h : Tracks net state) :
    Tracks net (is.foldl (visit (Setting.ofNetwork net)) state) ∧
      (((is.foldl (visit (Setting.ofNetwork net)) state).labels = state.labels ∧
          ∀ i ∈ is, Content net state.labels i) ∨
        net.surplus state.labels.get
          < net.surplus (is.foldl (visit (Setting.ofNetwork net)) state).labels.get) := by
  induction is generalizing state with
  | nil => exact ⟨h, .inl ⟨rfl, fun i hi => absurd hi List.not_mem_nil⟩⟩
  | cons i rest ih =>
      obtain ⟨htracks, hvisit⟩ := visit_spec hb h i
      obtain ⟨htracks', hrest⟩ := ih htracks
      refine ⟨htracks', ?_⟩
      rw [List.foldl_cons]
      rcases hvisit with ⟨hsame, hcontent⟩ | hgrows
      · rw [hsame] at hrest
        exact hrest.imp_left fun h => ⟨h.1, List.forall_mem_cons.mpr ⟨hcontent, h.2⟩⟩
      · right
        rcases hrest with ⟨hsame, -⟩ | hgrows'
        · rwa [hsame]
        · exact hgrows.trans hgrows'

theorem sweeps_spec (hb : net.Balanced) (left : Nat) {state : State n ℚ} (h : Tracks net state) :
    net.surplus state.labels.get
      ≤ net.surplus (sweeps (Setting.ofNetwork net) left state).labels.get := by
  induction left generalizing state with
  | zero => exact le_refl _
  | succ left ih =>
      obtain ⟨htracks, hsweep⟩ := foldl_visit_spec hb (List.finRange n) h
      have hle : net.surplus state.labels.get
          ≤ net.surplus (sweep (Setting.ofNetwork net) state).labels.get := by
        rcases hsweep with ⟨hsame, -⟩ | hgrows
        · exact (congrArg (fun labels => net.surplus (Vector.get labels)) hsame).ge
        · exact hgrows.le
      rw [sweeps]
      split
      · exact hle
      · exact hle.trans (ih htracks)

@[simp] theorem get_singletons (i : Fin n) : (Labelling.singletons n).get i = i :=
  Table.get_ofFn id i

theorem tracks_start (net : Network n ℚ) : Tracks net (start (Setting.ofNetwork net)) := by
  intro c
  simp only [start, get_singletons, Finset.sum_ite_eq', Finset.mem_univ, if_true]
  exact degree_ofNetwork c

/-! ## Settling -/

theorem settle_of_total_eq_zero (ht : net.total = 0) : settle net = none := by
  have hzero : ((Setting.ofNetwork net).total == (0 : ℚ)) = true := by
    rw [total_ofNetwork, ht, beq_self_eq_true]
  exact if_pos hzero

theorem settle_eq (ht : net.total ≠ 0) :
    settle net = if (sweep (Setting.ofNetwork net) (start (Setting.ofNetwork net))).labels
        = Labelling.singletons n then none
      else some (sweeps (Setting.ofNetwork net) (maxSweeps - 1)
        (sweep (Setting.ofNetwork net) (start (Setting.ofNetwork net)))).labels := by
  have hne : ¬ ((Setting.ofNetwork net).total == (0 : ℚ)) = true := by
    rwa [total_ofNetwork, beq_iff_eq]
  exact if_neg hne

/-- When nothing is settled in spite of some weight, every position is content on its own. -/
theorem content_of_settle_eq_none (hb : net.Balanced) (ht : net.total ≠ 0)
    (h : settle net = none) (i : Fin n) : Content net (Labelling.singletons n) i := by
  obtain ⟨-, ⟨-, hcontent⟩ | hgrows⟩ := foldl_visit_spec hb (List.finRange n) (tracks_start net)
  · exact hcontent i (List.mem_finRange i)
  · have hsame : (sweep (Setting.ofNetwork net) (start (Setting.ofNetwork net))).labels
        = Labelling.singletons n := by
      by_contra hmoved
      rw [settle_eq ht, if_neg hmoved] at h
      cases h
    rw [← sweep, hsame] at hgrows
    exact absurd hgrows (lt_irrefl _)

theorem attraction_singletons (net : Network n ℚ) (i c : Fin n) :
    net.attraction (Labelling.singletons n).get i c = if c = i then 0 else net.excess i c := by
  simp only [Network.attraction, get_singletons, Finset.sum_ite_eq', Finset.mem_erase,
    Finset.mem_univ, and_true, ite_not]

/-- When nothing is settled, no two positions have more weight between them than is expected and
counts. -/
theorem excess_le_of_settle_eq_none (hb : net.Balanced) (ht : 0 < net.total)
    (h : settle net = none) {i j : Fin n} (hij : i ≠ j) : net.excess i j ≤ exactGain := by
  by_cases hw : net.between i j = 0
  · -- Without weight between them there is none beyond the expected.
    have hpos := exactGain_pos
    have hexpected : 0 ≤ net.degree i * net.degree j / net.total :=
      div_nonneg (mul_nonneg (hb.degree_nonneg i) (hb.degree_nonneg j)) ht.le
    rw [Network.excess, Network.entry, hw, if_neg hij]
    linarith
  · have hoption : j ∈ options net (Labelling.singletons n) i := by
      refine List.mem_filter.mpr ⟨List.mem_finRange j, List.contains_iff_mem.mpr ?_⟩
      exact List.mem_map.mpr ⟨j, Network.mem_neighbours.mpr hw, get_singletons j⟩
    have hle := content_of_settle_eq_none hb ht.ne' h i j hoption
    rw [get_singletons, attraction_singletons, attraction_singletons, if_neg hij.symm, if_pos rfl,
      zero_add] at hle
    exact hle hij.symm

/-- What is settled is better than every position on its own. -/
theorem surplus_lt_of_settle_eq_some (hb : net.Balanced) (ht : net.total ≠ 0)
    {labels : Labelling n} (h : settle net = some labels) :
    net.surplus (id : Fin n → Fin n) < net.surplus labels.get := by
  have hstart : (start (Setting.ofNetwork net)).labels.get = id := funext get_singletons
  obtain ⟨htracks, hsweep⟩ := foldl_visit_spec hb (List.finRange n) (tracks_start net)
  rw [settle_eq ht] at h
  split at h
  · cases h
  · rename_i hmoved
    have hgrows := hsweep.resolve_left fun hsame => hmoved hsame.1
    rw [hstart] at hgrows
    have hle := sweeps_spec hb (maxSweeps - 1) htracks
    cases h
    exact hgrows.trans_le hle

theorem used_length_lt {labels : Labelling n}
    (h : net.surplus (id : Fin n → Fin n) < net.surplus labels.get) : labels.used.length < n := by
  by_contra hall
  -- As many numbers as positions are all different, and then so are the labels.
  have hcard : Fintype.card (Fin n) ≤ Fintype.card (Fin labels.used.length) := by
    simpa using hall
  have hinj : Function.Injective labels.number :=
    ((Fintype.bijective_iff_surjective_and_card _).mpr ⟨labels.number_surjective,
      hcard.antisymm (Fintype.card_le_of_surjective _ labels.number_surjective)⟩).1
  refine h.ne (net.pairs_congr fun i j => ?_)
  rw [← Labels.number_eq_number_iff, hinj.eq_iff, id, id]

/-! ## Levels -/

section AnyNumbers

variable {α : Type} [Scalar α] {net : Network n α}

theorem levels_of_none (h : settle net = none) (i : Fin n) : (levels net).2.get i = i := by
  rw [levels, h]
  exact Table.get_ofFn _ i

theorem levels_of_some {labels : Labelling n} (h : settle net = some labels)
    (hless : labels.used.length < n) (i : Fin n) :
    (levels net).2.get i = (levels (net.contract labels)).2.get (labels.number i) := by
  rw [levels, h]
  simp only [if_pos hless]
  exact Table.get_ofFn _ i

theorem levels_of_full {labels : Labelling n} (h : settle net = some labels)
    (hfull : ¬labels.used.length < n) (i : Fin n) : (levels net).2.get i = i := by
  rw [levels, h]
  simp only [if_neg hfull]
  exact Table.get_ofFn _ i

end AnyNumbers

/-- No two communities have more weight between them than is expected and counts. -/
def Apart (net : Network n ℚ) {β : Type} [DecidableEq β] (label : Fin n → β) : Prop :=
  ∀ i j, label i ≠ label j →
    net.pairs (fun a b => label a = label i ∧ label b = label j) ≤ exactGain

/-- Communities of communities are apart when they are so as positions. -/
theorem Apart.of_contract {labels : Labelling n} {β : Type} [DecidableEq β]
    {label : Fin labels.used.length → β} (h : Apart (net.contract labels) label) :
    Apart net fun i => label (labels.number i) := by
  intro i j hij
  have := h (labels.number i) (labels.number j) hij
  rwa [Network.pairs_contract] at this

theorem surplus_contract_id (net : Network n ℚ) (labels : Labelling n) :
    (net.contract labels).surplus id = net.surplus labels.get := by
  rw [Network.surplus, Network.pairs_contract]
  exact net.pairs_congr fun i j => Labels.number_eq_number_iff

theorem surplus_levels_of_some {labels : Labelling n} (h : settle net = some labels)
    (hless : labels.used.length < n) :
    net.surplus (levels net).2.get
      = (net.contract labels).surplus (levels (net.contract labels)).2.get := by
  rw [Network.surplus, Network.surplus, Network.pairs_contract]
  exact net.pairs_congr fun i j => by rw [levels_of_some h hless, levels_of_some h hless]

theorem apart_levels (net : Network n ℚ) (hb : net.Balanced) (ht : 0 < net.total) :
    Apart net (levels net).2.get := by
  induction n using Nat.strongRecOn with
  | ind n ih =>
      cases hsettle : settle net with
      | none =>
          intro i j hij
          simp only [levels_of_none hsettle] at hij ⊢
          have hpair : net.pairs (fun a b => a.val = i.val ∧ b.val = j.val) = net.excess i j := by
            simp only [Network.pairs, ite_and, Fin.val_inj, Finset.sum_ite_eq', Finset.mem_univ,
              if_true, Finset.sum_ite_irrel, Finset.sum_const_zero]
          rw [hpair]
          exact excess_le_of_settle_eq_none hb ht hsettle (Fin.val_ne_iff.mp hij)
      | some labels =>
          have hless := used_length_lt (surplus_lt_of_settle_eq_some hb ht.ne' hsettle)
          have hbelow := ih _ hless (net.contract labels) (hb.contract labels)
            (ht.trans_eq (net.total_contract labels).symm)
          have hget : (levels net).2.get
              = fun i => (levels (net.contract labels)).2.get (labels.number i) :=
            funext (levels_of_some hsettle hless)
          rw [hget]
          exact hbelow.of_contract

theorem surplus_lt_levels_of_contract (hb : net.Balanced) (ht : 0 < net.total)
    {labels : Labelling n} (h : settle net = some labels)
    (hbelow : (net.contract labels).surplus (id : Fin labels.used.length → _)
      ≤ (net.contract labels).surplus (levels (net.contract labels)).2.get) :
    net.surplus (id : Fin n → Fin n) < net.surplus (levels net).2.get := by
  have hmore := surplus_lt_of_settle_eq_some hb ht.ne' h
  rw [surplus_contract_id] at hbelow
  rw [surplus_levels_of_some h (used_length_lt hmore)]
  exact hmore.trans_le hbelow

theorem surplus_le_levels (net : Network n ℚ) (hb : net.Balanced) (ht : 0 < net.total) :
    net.surplus (id : Fin n → Fin n) ≤ net.surplus (levels net).2.get := by
  induction n using Nat.strongRecOn with
  | ind n ih =>
      cases hsettle : settle net with
      | none =>
          refine (net.pairs_congr fun i j => ?_).le
          rw [levels_of_none hsettle, levels_of_none hsettle, Fin.val_inj, id, id]
      | some labels =>
          have hless := used_length_lt (surplus_lt_of_settle_eq_some hb ht.ne' hsettle)
          exact (surplus_lt_levels_of_contract hb ht hsettle (ih _ hless (net.contract labels)
            (hb.contract labels) (ht.trans_eq (net.total_contract labels).symm))).le

theorem surplus_lt_levels (hb : net.Balanced) (ht : 0 < net.total) (h : settle net ≠ none) :
    net.surplus (id : Fin n → Fin n) < net.surplus (levels net).2.get := by
  obtain ⟨labels, hsettle⟩ := Option.ne_none_iff_exists'.mp h
  exact surplus_lt_levels_of_contract hb ht hsettle (surplus_le_levels (net.contract labels)
    (hb.contract labels) (ht.trans_eq (net.total_contract labels).symm))

/-! ## When something is settled -/

/-- With whole weights, no loops and not too much weight altogether, some position moves. -/
theorem settle_ne_none (hb : net.Balanced) (ht : 0 < net.total) (hfew : exactGain * net.total < 1)
    {count : Fin n → Fin n → Nat} (hcount : ∀ i j, net.entry i j = count i j)
    (hloop : ∀ i, net.entry i i = 0) : settle net ≠ none := by
  intro hnone
  obtain ⟨i, j, hij, hpos⟩ := Network.exists_excess_pos ht hloop
  have hle := excess_le_of_settle_eq_none hb ht hnone hij
  have hone := Network.one_le_excess_mul_total hcount ht hpos
  exact absurd (hone.trans (mul_le_mul_of_nonneg_right hle ht.le)) (not_le.mpr hfew)

end CodeGraph.Louvain
