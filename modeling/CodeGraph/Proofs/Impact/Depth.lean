import CodeGraph.Proofs.Impact.Affected

/-!
# Impact to a greater depth

An analysis to a greater depth extends one to a smaller depth. Its traversals
notice the same nodes by the same edges, in the same order, before they go on
(`Traversal.exists_further`), so the lists of the smaller depth are the beginnings
of its own, and what it adds lies further out. The sums of the scores are over
longer lists then, and no term is negative; a term of the direct score is at
distance one, where the transitive score has the same term.

The statements about scores are about exact numbers, those about lists about any.
-/

namespace CodeGraph

/-! ## Scores of longer lists -/

namespace Impact

variable {n : Nat}

theorem strength_nonneg (found : Discovery n (Arc n)) : 0 ≤ strength ℚ found := by
  unfold strength
  cases found.via.edge.kind <;> decide +kernel

theorem directScore_eq (met : Reach n) :
    directScore ℚ met
      = (met.map fun found => if found.distance = 1 then strength ℚ found else 0).sum := by
  rw [directScore, sum_rat]
  induction met with
  | nil => rfl
  | cons found rest ih =>
    by_cases hone : found.distance = 1
    · rw [List.filter_cons_of_pos (by simpa using hone), List.map_cons, List.map_cons,
        List.sum_cons, List.sum_cons, ih, if_pos hone]
    · rw [List.filter_cons_of_neg (by simpa using hone), List.map_cons, List.sum_cons, ih,
        if_neg hone, zero_add]

theorem directScore_nonneg (met : Reach n) : 0 ≤ directScore ℚ met := by
  rw [directScore, sum_rat]
  exact List.sum_nonneg (List.forall_mem_map.mpr fun found _ => strength_nonneg found)

/-- At distance one both scores have the same term, and no other term is negative. -/
theorem directScore_le_transitiveScore (met : Reach n) :
    directScore ℚ met ≤ transitiveScore ℚ met := by
  rw [directScore_eq, transitiveScore, sum_rat]
  refine List.sum_le_sum fun found _ => ?_
  change (if found.distance = 1 then strength ℚ found else 0)
    ≤ strength ℚ found / (found.distance : ℚ)
  split
  · next hone => rw [hone, Nat.cast_one, div_one]
  · exact div_nonneg (strength_nonneg found) (Nat.cast_nonneg _)

theorem directScore_append_of_far (met : Reach n) {further : Reach n}
    (hfar : ∀ found ∈ further, 1 < found.distance) :
    directScore ℚ (met ++ further) = directScore ℚ met := by
  have hnone : further.filter (fun found => found.distance = 1) = [] :=
    List.filter_eq_nil_iff.mpr fun found hfound => by simpa using (hfar found hfound).ne'
  rw [directScore, directScore, List.filter_append, hnone, List.append_nil]

theorem transitiveScore_le_append (met further : Reach n) :
    transitiveScore ℚ met ≤ transitiveScore ℚ (met ++ further) := by
  rw [transitiveScore, transitiveScore, sum_rat, sum_rat, List.map_append, List.sum_append]
  refine le_add_of_nonneg_right (List.sum_nonneg (List.forall_mem_map.mpr fun found _ => ?_))
  exact div_nonneg (strength_nonneg found) (Nat.cast_nonneg _)

/-- A traversal to a greater depth goes on where one to a smaller depth ends. -/
theorem exists_reach_append (index : Index n) (forward : Bool) (start : Fin n) {d d' : Nat}
    (h : d ≤ d') :
    ∃ further, reach index forward start d' = reach index forward start d ++ further ∧
      ∀ found ∈ further, d < found.distance :=
  Traversal.exists_further (index.steps forward) start h

theorem reached_prefix (index : Index n) (forward : Bool) (start : Fin n) {d d' : Nat}
    (h : d ≤ d') :
    reached forward (reach index forward start d)
      <+: reached forward (reach index forward start d') := by
  obtain ⟨further, hfurther, -⟩ := exists_reach_append index forward start h
  rw [hfurther, reached, reached, List.map_append]
  exact List.prefix_append _ _

end Impact

/-! ## Communities of more nodes -/

/-- A community under a whole number, with members that can be looked up. -/
def Membership.Usable (m : Membership) : Prop :=
  (∃ n : Int, m.community = .int n) ∧ ∀ member ∈ m.members, member.isScalar = true

theorem Graph.Numbered.usable {m : Membership} (h : Numbered m) : m.Usable :=
  ⟨h.1.imp' Int.ofNat fun _ => id, h.2⟩

theorem communitiesOf_mono {memberships : List Membership} (h : ∀ m ∈ memberships, m.Usable)
    {nodes nodes' : List Value} (hnodes : nodes ⊆ nodes') :
    ∃ affected affected', communitiesOf memberships nodes = .ok affected ∧
      communitiesOf memberships nodes' = .ok affected' ∧ affected ⊆ affected' ∧
      affected.Nodup := by
  have hmembers : (memberships.forM fun m => m.members.forM Value.hashable) = .ok () :=
    Gives.forM fun m hm => Gives.forM fun member hmember =>
      Value.hashable_eq_ok.mpr ((h m hm).2 member hmember)
  have hids : ∀ m ∈ memberships, ∃ n : Int, m.community = .int n := fun m hm => (h m hm).1
  have hfound : ∀ nodes : List Value,
      (nodes.filterMap (communityOf? memberships)).forM Value.hashable = .ok () := by
    refine fun nodes => Gives.forM fun id hid => ?_
    obtain ⟨node, -, hnode⟩ := List.mem_filterMap.mp hid
    obtain ⟨m, hm, rfl⟩ := Option.map_eq_some_iff.mp hnode
    obtain ⟨n, hn⟩ := hids m (List.mem_reverse.mp (List.mem_of_find?_eq_some hm))
    rw [hn]
    rfl
  obtain ⟨numbers, hnumbers, hrising, hmem⟩ := sorted_communities hids nodes
  obtain ⟨numbers', hnumbers', -, hmem'⟩ := sorted_communities hids nodes'
  refine ⟨numbers.map .int, numbers'.map .int, ?_, ?_, List.map_subset _ fun n hn => ?_,
    hrising.nodup.map fun _ _ => Value.int.inj⟩
  · simp only [communitiesOf, hmembers, hfound]
    exact hnumbers
  · simp only [communitiesOf, hmembers, hfound]
    exact hnumbers'
  · obtain ⟨node, hnode, hcommunity⟩ := (hmem n).mp hn
    exact (hmem' n).mpr ⟨node, hnodes hnode, hcommunity⟩

/-! ## Analyses to two depths -/

/-- What an analysis to a greater depth keeps of one to a smaller depth. -/
structure ImpactIn.Extends {α : Type} (shallow deep : ImpactIn α) : Prop where
  downstream : shallow.downstream <+: deep.downstream
  reaching : shallow.reaching <+: deep.reaching
  affected : shallow.affected ⊆ deep.affected

namespace Graph

variable {g : Graph} {id : Value} {s : Fin g.order}

/-- The communities that analyses refer to: given beforehand, or identified in the snapshot. -/
inductive Refers (g : Graph) (q : ImpactQuery) : List Membership → Prop
  | given {memberships : List Membership} (hknown : q.known = some memberships)
      (husable : ∀ m ∈ memberships, m.Usable) : Refers g q memberships
  | identified {communities : List CodeCommunity} (hknown : q.known = none)
      (hcommunities : (g.communities q.algorithm defaultRounds).ComesTo (.ok communities)) :
      Refers g q (communities.map CodeCommunity.membership)

namespace Refers

variable {q : ImpactQuery} {memberships : List Membership}

theorem comesTo (h : g.Refers q memberships) : (q.memberships g).ComesTo (.ok memberships) := by
  unfold ImpactQuery.memberships
  cases h with
  | given hknown _ =>
    rw [hknown]
    exact fun journal => rfl
  | identified hknown hcommunities =>
    rw [hknown]
    exact hcommunities.andThen fun journal => rfl

theorem usable (h : g.Refers q memberships) (hv : g.Valid) : ∀ m ∈ memberships, m.Usable := by
  cases h with
  | given _ husable => exact husable
  | identified _ hcommunities =>
    exact List.forall_mem_map.mpr fun c hc =>
      (numbered_of_communities hv (hcommunities .empty) c hc).usable

/-- Communities of nodes downstream are found, and they are communities of more nodes. -/
theorem affected_mono (h : g.Refers q memberships) (hv : g.Valid)
    {down down' : Impact.Reach g.order} (hdown : down <+: down') (journal journal' : Journal) :
    ∃ affected affected', (q.affected g down).outcome journal = .ok affected ∧
      (q.affected g down').outcome journal' = .ok affected' ∧ affected ⊆ affected' := by
  have hanswer : ∀ {down : Impact.Reach g.order} {affected : List Value}, down ≠ [] →
      communitiesOf memberships (Impact.reached true down) = .ok affected →
      (q.affected g down).ComesTo (.ok affected) := by
    intro down affected hne haffected
    unfold ImpactQuery.affected
    rw [List.isEmpty_eq_false_iff.mpr hne, if_neg Bool.false_ne_true]
    exact h.comesTo.andThen (haffected ▸ Logged.ComesTo.lift _)
  have hsubset : Impact.reached true down ⊆ Impact.reached true down' :=
    List.map_subset _ hdown.subset
  obtain ⟨affected, affected', haffected, haffected', hmono, -⟩ :=
    communitiesOf_mono (h.usable hv) hsubset
  by_cases hnil : down' = []
  · obtain rfl : down = [] := List.prefix_nil.mp (hnil ▸ hdown)
    subst hnil
    exact ⟨[], [], rfl, rfl, List.nil_subset _⟩
  · by_cases hnone : down = []
    · subst hnone
      exact ⟨[], affected', rfl, hanswer hnil haffected' journal', List.nil_subset _⟩
    · exact ⟨affected, affected', hanswer hnone haffected journal, hanswer hnil haffected' journal',
        hmono⟩

end Refers

/-- Two analyses of a node refer to the same communities, one to a greater depth than the other.
Both answer; the deeper one extends the lists of the other and affects its communities; its
transitive score is not less, and its direct score is the same if the other goes one step at all.
The transitive score of either is at least its direct score, which is not negative. -/
theorem impactIn_deepens (hv : g.Valid) (hc : g.Closed) (hs : g.vertex? id = some s)
    {q : ImpactQuery} {kinds : KindFilter} (hkinds : KindFilter.read q.kinds = .ok kinds)
    {algorithm : CommunityAlgorithm} (halgorithm : Tagged.coerce q.algorithm = .ok algorithm)
    {memberships : List Membership} (hfixed : g.Refers q memberships) {d d' : Nat} (hd : d ≤ d')
    (journal journal' : Journal) :
    (∀ (α : Type) [Scalar α], ∃ shallow deep : ImpactIn α,
      (g.impactIn α id { q with depth := .int d }).outcome journal = .ok shallow ∧
      (g.impactIn α id { q with depth := .int d' }).outcome journal' = .ok deep ∧
      shallow.Extends deep) ∧
    ∀ shallow deep : ImpactIn ℚ,
      (g.impactIn ℚ id { q with depth := .int d }).outcome journal = .ok shallow →
      (g.impactIn ℚ id { q with depth := .int d' }).outcome journal' = .ok deep →
      shallow.transitive ≤ deep.transitive ∧
      (1 ≤ d → shallow.direct = deep.direct) ∧
      (0 ≤ shallow.direct ∧ shallow.direct ≤ shallow.transitive) ∧
      (0 ≤ deep.direct ∧ deep.direct ≤ deep.transitive) := by
  let index := Index.ofArcs (g.arcs kinds.keeps)
  have hanswer : ∀ (α : Type) [Scalar α] (k : Nat), g.impactIn α id { q with depth := .int k }
      = q.affected g (Impact.reach index true s k) >>=
        Impact.report α id (.int k) (Impact.reach index true s k) (Impact.reach index false s k) :=
    fun α _ k => impactIn_eq α hv hc hs rfl hkinds halgorithm
  obtain ⟨further, hfurther, hfar⟩ := Impact.exists_reach_append index true s hd
  refine ⟨fun α _ => ?_, fun shallow deep hshallow hdeep => ?_⟩
  · obtain ⟨affected, affected', haffected, haffected', hmono⟩ :=
      hfixed.affected_mono hv ⟨further, hfurther.symm⟩ journal journal'
    rw [hanswer, hanswer]
    exact ⟨_, _, report_eq_ok_iff.mpr ⟨affected, haffected, rfl⟩,
      report_eq_ok_iff.mpr ⟨affected', haffected', rfl⟩,
      Impact.reached_prefix index true s hd, Impact.reached_prefix index false s hd, hmono⟩
  · rw [hanswer] at hshallow hdeep
    obtain ⟨affected, -, rfl⟩ := report_eq_ok_iff.mp hshallow
    obtain ⟨affected', -, rfl⟩ := report_eq_ok_iff.mp hdeep
    refine ⟨?_, fun hone => ?_,
      ⟨Impact.directScore_nonneg _, Impact.directScore_le_transitiveScore _⟩,
      Impact.directScore_nonneg _, Impact.directScore_le_transitiveScore _⟩
    · dsimp only
      rw [hfurther]
      exact Impact.transitiveScore_le_append _ further
    · dsimp only
      rw [hfurther]
      exact (Impact.directScore_append_of_far _ fun found hfound =>
        Nat.lt_of_le_of_lt hone (hfar found hfound)).symm

/-- In the specimen, with two communities given, one step and two steps from the first node. -/
theorem impactIn_deepens_specimen :
    specimen.Valid ∧ specimen.Closed ∧
    ∃ q : ImpactQuery,
      specimen.Refers q [⟨.int 0, [.str "a", .str "b"]⟩, ⟨.int 1, [.str "c"]⟩] ∧
      ∃ shallow deep : ImpactIn ℚ,
        (specimen.impactIn ℚ (.str "a") { q with depth := .int (1 : Nat) }).outcome .empty
          = .ok shallow ∧
        (specimen.impactIn ℚ (.str "a") { q with depth := .int (2 : Nat) }).outcome .empty
          = .ok deep ∧
        shallow.Extends deep ∧ shallow.transitive ≤ deep.transitive ∧
        shallow.direct = deep.direct := by
  let memberships : List Membership := [⟨.int 0, [.str "a", .str "b"]⟩, ⟨.int 1, [.str "c"]⟩]
  let q : ImpactQuery := { ImpactQuery.default with known := some memberships }
  have hkinds : KindFilter.read q.kinds = .ok none := rfl
  have halgorithm : Tagged.coerce q.algorithm = .ok CommunityAlgorithm.louvain := rfl
  have hfixed : specimen.Refers q memberships :=
    .given rfl (by simp [memberships, Membership.Usable, Value.isScalar])
  obtain ⟨hlists, hscores⟩ := impactIn_deepens specimen_valid specimen_closed specimen_vertex.1
    hkinds halgorithm hfixed (by decide : 1 ≤ 2) .empty .empty
  obtain ⟨shallow, deep, hshallow, hdeep, hextends⟩ := hlists ℚ
  obtain ⟨htransitive, hdirect, -⟩ := hscores shallow deep hshallow hdeep
  exact ⟨specimen_valid, specimen_closed, q, hfixed, shallow, deep, hshallow, hdeep, hextends,
    htransitive, hdirect (le_refl 1)⟩

end Graph

end CodeGraph
