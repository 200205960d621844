import CodeGraph.Proofs.Community.Modularity
import CodeGraph.Proofs.Community.Orderable

/-!
# Levels of communities

The search by modularity goes on "until no position moves at all", and nothing
in that rule bounds it. What does is that a labelling is settled only if it is
better than every position on its own, so that it leaves a label unused
(`used_length_lt_of_settle`): every contraction is smaller than the network
before, and there are fewer of them than nodes.

`Unrolled` is the rule without a bound. `unrolled_levels` says that `levels`,
which checks the size before it goes on, carries it out to its end.
-/

namespace CodeGraph.Louvain

variable {n : Nat} {net : Network n ℚ}

/-- What is settled leaves a label unused. -/
theorem used_length_lt_of_settle (hb : net.Balanced) {labels : Labelling n}
    (h : settle net = some labels) : labels.used.length < n := by
  have ht : net.total ≠ 0 := fun ht => by
    rw [settle_of_total_eq_zero ht] at h
    cases h
  exact used_length_lt (surplus_lt_of_settle_eq_some hb ht h)

/-- Settling and contracting until nothing moves: the sizes of the networks on the way, and the
community that every position of the first one ends in. -/
inductive Unrolled : {n : Nat} → Network n ℚ → List Nat → Table n Nat → Prop where
  | done {n : Nat} {net : Network n ℚ} (h : settle net = none) :
      Unrolled net [n] (Vector.ofFn Fin.val)
  | next {n : Nat} {net : Network n ℚ} {labels : Labelling n} {sizes : List Nat}
      {communities : Table labels.used.length Nat} (h : settle net = some labels)
      (rest : Unrolled (net.contract labels) sizes communities) :
      Unrolled net (n :: sizes) (Vector.ofFn fun i => communities.get (labels.number i))

theorem Unrolled.decreasing {n : Nat} {net : Network n ℚ} {sizes : List Nat}
    {communities : Table n Nat} (h : Unrolled net sizes communities) (hb : net.Balanced) :
    sizes.Pairwise (· > ·) ∧ ∀ size ∈ sizes, size ≤ n := by
  induction h with
  | done h => simp
  | @next n net labels sizes communities h rest ih =>
    obtain ⟨hsizes, hle⟩ := ih (hb.contract labels)
    have hless := used_length_lt_of_settle hb h
    have hlt : ∀ size ∈ sizes, size < n := fun size hsize => (hle size hsize).trans_lt hless
    refine ⟨List.pairwise_cons.mpr ⟨hlt, hsizes⟩, ?_⟩
    exact List.forall_mem_cons.mpr ⟨le_refl n, fun size hsize => (hlt size hsize).le⟩

/-- A network with positions contracts to one with positions, so that there are no more networks
than positions. -/
theorem Unrolled.length_le {n : Nat} {net : Network n ℚ} {sizes : List Nat}
    {communities : Table n Nat} (h : Unrolled net sizes communities) (hb : net.Balanced)
    (hn : 0 < n) : sizes.length ≤ n := by
  induction h with
  | done h => exact hn
  | @next n net labels sizes communities h rest ih =>
    have hused : 0 < labels.used.length := Fin.pos (labels.number ⟨0, hn⟩)
    have hlength := ih (hb.contract labels) hused
    have hless := used_length_lt_of_settle hb h
    rw [List.length_cons]
    omega

theorem unrolled_levels {n : Nat} (net : Network n ℚ) (hb : net.Balanced) :
    ∃ sizes, Unrolled net sizes (levels net).2 ∧ sizes.length = (levels net).1 + 1 := by
  cases h : settle net with
  | none =>
    refine ⟨[n], ?_⟩
    rw [levels, h]
    exact ⟨.done h, rfl⟩
  | some labels =>
    have hless := used_length_lt_of_settle hb h
    obtain ⟨sizes, hrest, hlength⟩ := unrolled_levels (net.contract labels) (hb.contract labels)
    refine ⟨n :: sizes, ?_⟩
    rw [levels, h]
    simp only [if_pos hless]
    exact ⟨.next h hrest, congrArg (· + 1) hlength⟩
termination_by n

end CodeGraph.Louvain

namespace CodeGraph.Graph

variable {g : Graph}

/-- What settles leaves a label unused, in every network with weights as they should be. So
settling and contracting until nothing moves comes to an end: each network is smaller than the one
before, there are fewer contractions than nodes, and where it ends are the communities that are
answered. -/
theorem louvain_comes_to_an_end :
    (∀ (n : Nat) (net : Network n ℚ) (labels : Labelling n), net.Balanced →
      Louvain.settle net = some labels → labels.used.length < n) ∧
    ∀ g : Graph, g.Valid → g.Closed → ∀ journal,
      (∀ failure, g.byName = .error failure →
        (g.louvainIn ℚ).outcome journal = .error failure) ∧
      (g.byName = .ok [] → (g.louvainIn ℚ).outcome journal = .ok []) ∧
      ∀ vs, g.byName = .ok vs → vs ≠ [] → ∃ sizes communities,
        Louvain.Unrolled (Network.ofIndex (Index.ofArcs (g.arcs keepAll)) vs) sizes communities ∧
        sizes.Pairwise (· > ·) ∧
        (g.louvainLevels ℚ (Index.ofArcs (g.arcs keepAll)) vs).1 + 1 = sizes.length ∧
        (g.louvainLevels ℚ (Index.ofArcs (g.arcs keepAll)) vs).1 < g.order ∧
        (g.louvainIn ℚ).outcome journal
          = g.arrange ((groupsOf communities.get).map (List.map vs.get)) := by
  refine ⟨fun n net labels hb h => Louvain.used_length_lt_of_settle hb h,
    fun g hv hc journal => ?_⟩
  obtain ⟨hfails, hempty⟩ := outcome_louvainIn_unbegun ℚ hv hc journal
  refine ⟨hfails, hempty, fun vs hvs hne => ?_⟩
  have hb := Network.balanced_ofIndex (g.arcs keepAll) vs
  obtain ⟨sizes, hunrolled, hlength⟩ := Louvain.unrolled_levels _ hb
  have horder : vs.length = g.order := by
    rw [(Value.sortOn_perm hvs).length_eq, vertices, List.length_finRange]
  have hle := hunrolled.length_le hb (List.length_pos_iff.mpr hne)
  refine ⟨sizes, _, hunrolled, (hunrolled.decreasing hb).1, hlength.symm, ?_,
    outcome_louvainIn_of_byName ℚ hv hc hvs hne journal⟩
  have hlevels : (g.louvainLevels ℚ (Index.ofArcs (g.arcs keepAll)) vs).1 + 1 = sizes.length :=
    hlength.symm
  omega

/-- With two pairs something is settled, and the search comes to an end. -/
theorem louvain_comes_to_an_end_twoPairs :
    twoPairs.Valid ∧ twoPairs.Closed ∧
    (∃ labels, twoPairs.network.Balanced ∧ Louvain.settle twoPairs.network = some labels ∧
      labels.used.length < 4) ∧
    ∃ vs, twoPairs.byName = .ok vs ∧ vs ≠ [] ∧ ∃ sizes communities,
      Louvain.Unrolled (Network.ofIndex (Index.ofArcs (twoPairs.arcs keepAll)) vs) sizes
        communities ∧ sizes.Pairwise (· > ·) := by
  obtain ⟨hsettles, hends⟩ := louvain_comes_to_an_end
  have hlength : (twoPairs.sortByName twoPairs.vertices).length = 4 :=
    (twoPairs.sortByName_perm twoPairs.vertices).length_eq
  have hnames : twoPairs.byName = .ok (twoPairs.sortByName twoPairs.vertices) :=
    twoPairs_alikeNamed.sortOn_eq _
  have hne : twoPairs.sortByName twoPairs.vertices ≠ [] :=
    List.ne_nil_of_length_pos (hlength ▸ Nat.zero_lt_succ 3)
  obtain ⟨labels, hlabels⟩ := Option.ne_none_iff_exists'.mp
    (settle_network_ne_none twoPairs_closed (by rw [twoPairs_links]; decide)
      (by rw [twoPairs_links]; decide))
  obtain ⟨-, -, hall⟩ := hends twoPairs twoPairs_valid twoPairs_closed .empty
  obtain ⟨sizes, communities, hunrolled, hsizes, -⟩ := hall _ hnames hne
  refine ⟨twoPairs_valid, twoPairs_closed,
    ⟨labels, twoPairs.balanced_network, hlabels, ?_⟩, _, hnames, hne, sizes, communities,
    hunrolled, hsizes⟩
  exact hlength ▸ hsettles _ _ labels twoPairs.balanced_network hlabels

end CodeGraph.Graph
