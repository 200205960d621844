import CodeGraph.Proofs.Community.Modularity
import CodeGraph.Proofs.Impact.Scores

/-!
# Affected communities

The communities of some nodes are collected, kept once each and sorted. Their
identifiers are numbers, and no node is in two communities, so the outcome is
the rising list of the numbers of those communities that have one of the nodes
for a member (`Touches`).
-/

namespace CodeGraph

/-! ## Numbers kept once and sorted -/

theorem Value.same_int_iff {m n : Int} : (Value.int m).same (.int n) = true ↔ m = n := by
  simp only [Value.same]
  change (some (Relation.ofOrdering (compareOfLessAndEq m n)) == some .equal) = true ↔ m = n
  unfold compareOfLessAndEq
  split_ifs with hlt heq
  · simp [Relation.ofOrdering, hlt.ne]
  · simp [Relation.ofOrdering, heq]
  · simp [Relation.ofOrdering, heq]

theorem Value.before_int (m n : Int) : (Value.int m).before (.int n) = decide (m ≤ n) := by
  change (some (Relation.ofOrdering (compareOfLessAndEq m n)) != some .greater) = decide (m ≤ n)
  unfold compareOfLessAndEq
  split_ifs with hlt heq
  · simp [Relation.ofOrdering, hlt.le]
  · simp [Relation.ofOrdering, heq]
  · simp only [Relation.ofOrdering, bne_self_eq_false, Bool.false_eq, decide_eq_false_iff_not]
    omega

theorem keys_countItem {counts : List (Value × Nat)} {keys : List Int}
    (h : counts.map Prod.fst = keys.map .int) (n : Int) :
    (countItem counts (.int n)).map Prod.fst
      = (if n ∈ keys then keys else keys ++ [n]).map .int := by
  have hany : (counts.any fun entry => entry.1.same (.int n)) = true ↔ n ∈ keys := by
    have hkeys : (counts.any fun entry => entry.1.same (.int n))
        = (counts.map Prod.fst).any fun key => key.same (.int n) := by
      rw [List.any_map]
      rfl
    rw [hkeys, h, List.any_map, List.any_eq_true]
    simp [Value.same_int_iff]
  unfold countItem
  by_cases hn : n ∈ keys
  · rw [if_pos (hany.mpr hn), if_pos hn, List.map_map, ← h]
    refine List.map_congr_left fun entry _ => ?_
    rw [Function.comp_apply]
    split <;> rfl
  · rw [if_neg (mt hany.mp hn), if_neg hn, List.map_append, List.map_append, h]
    rfl

theorem distinct_ints (numbers : List Int) :
    ∃ keys : List Int, distinct (numbers.map .int) = keys.map .int ∧ keys.Nodup ∧
      ∀ n, n ∈ keys ↔ n ∈ numbers := by
  suffices ∀ (counts : List (Value × Nat)) (keys : List Int), counts.map Prod.fst = keys.map .int →
      keys.Nodup → ∃ keys' : List Int,
        ((numbers.map Value.int).foldl countItem counts).map Prod.fst = keys'.map .int ∧
        keys'.Nodup ∧ ∀ n, n ∈ keys' ↔ n ∈ keys ∨ n ∈ numbers by
    obtain ⟨keys, hkeys, hnodup, hmem⟩ := this [] [] rfl List.nodup_nil
    exact ⟨keys, hkeys, hnodup, fun n => by simpa using hmem n⟩
  induction numbers with
  | nil => exact fun counts keys h hnodup => ⟨keys, h, hnodup, by simp⟩
  | cons number rest ih =>
    intro counts keys h hnodup
    have hnodup' : (if number ∈ keys then keys else keys ++ [number]).Nodup := by
      split
      · exact hnodup
      · next hnew => exact hnodup.append (List.nodup_singleton _) (by simpa using hnew)
    obtain ⟨keys', hkeys', hnodup', hmem⟩ := ih _ _ (keys_countItem h number) hnodup'
    refine ⟨keys', hkeys', hnodup', fun n => ?_⟩
    rw [hmem, List.mem_cons, ← or_assoc]
    refine or_congr_left ?_
    split
    · next hold => exact ⟨.inl, fun h => h.elim id fun h => h ▸ hold⟩
    · simp

theorem sorted_distinct_ints (numbers : List Int) :
    ∃ sorted : List Int, Value.sorted (distinct (numbers.map .int)) = .ok (sorted.map .int) ∧
      sorted.Pairwise (· < ·) ∧ ∀ n, n ∈ sorted ↔ n ∈ numbers := by
  obtain ⟨keys, hkeys, hnodup, hmem⟩ := distinct_ints numbers
  have horderly : Value.orderly ((keys.map Value.int).map id) = true := by
    rw [List.map_id]
    exact Value.orderly_of_ints (by simp)
  refine ⟨keys.mergeSort, ?_, ?_, fun n => ?_⟩
  · rw [hkeys, Value.sorted, Value.sortOn, if_pos horderly]
    exact congrArg Except.ok (List.map_mergeSort fun a _ b _ => (Value.before_int a b).symm).symm
  · have hle : keys.mergeSort.Pairwise (· ≤ ·) := List.pairwise_mergeSort' (· ≤ ·) keys
    have hne : keys.mergeSort.Nodup := (List.mergeSort_perm keys _).nodup_iff.mpr hnodup
    exact (hle.and hne).imp fun h => lt_of_le_of_ne h.1 h.2
  · rw [List.mem_mergeSort, hmem]

/-! ## The communities of some nodes -/

/-- The numbers of the communities that have one of the nodes for a member, rising. -/
structure Touches (communities : List CodeCommunity) (nodes affected : List Value) : Prop where
  rising : ∃ numbers : List Int, affected = numbers.map .int ∧ numbers.Pairwise (· < ·)
  mem_iff : ∀ id, id ∈ affected ↔ ∃ c ∈ communities, c.id = id ∧ ∃ node ∈ nodes, node ∈ c.members

theorem touches_nil (communities : List CodeCommunity) : Touches communities [] [] where
  rising := ⟨[], rfl, .nil⟩
  mem_iff := by simp

/-- The communities of some nodes, under whole numbers, come out as the rising list of these. -/
theorem sorted_communities {memberships : List Membership}
    (hids : ∀ m ∈ memberships, ∃ n : Int, m.community = .int n) (nodes : List Value) :
    ∃ numbers : List Int,
      Value.sorted (distinct (nodes.filterMap (communityOf? memberships)))
        = .ok (numbers.map .int) ∧
      numbers.Pairwise (· < ·) ∧
      ∀ n, n ∈ numbers ↔ ∃ node ∈ nodes, communityOf? memberships node = some (.int n) := by
  have hints : nodes.filterMap (communityOf? memberships) ∈ Set.range (List.map Value.int) := by
    rw [Set.range_list_map]
    intro id hid
    obtain ⟨node, -, hnode⟩ := List.mem_filterMap.mp hid
    obtain ⟨m, hm, rfl⟩ := Option.map_eq_some_iff.mp hnode
    obtain ⟨n, hn⟩ := hids m (List.mem_reverse.mp (List.mem_of_find?_eq_some hm))
    exact ⟨n, hn.symm⟩
  obtain ⟨found, hfound⟩ := hints
  obtain ⟨numbers, hsorted, hrising, hmem⟩ := sorted_distinct_ints found
  refine ⟨numbers, hfound ▸ hsorted, hrising, fun n => ?_⟩
  rw [hmem, ← List.mem_filterMap, ← hfound, List.mem_map_of_injective fun _ _ => Value.int.inj]

theorem Value.isAmong_iff {v : Value} (h : v.isText = true) {items : List Value} :
    v.isAmong items = true ↔ v ∈ items := by
  rw [isAmong, List.any_eq_true]
  constructor
  · rintro ⟨item, hitem, hsame⟩
    rwa [← eq_of_same_of_isText h hsame]
  · obtain ⟨s, rfl⟩ := isText_iff.mp h
    exact fun hmem => ⟨_, hmem, by simp [same]⟩

/-- A node has the community that lists it, if there is one and no two do. -/
theorem communityOf?_eq_some_iff {communities : List CodeCommunity}
    (hapart : communities.Pairwise fun c c' => c.members.Disjoint c'.members) {node id : Value}
    (hnode : node.isText = true) :
    communityOf? (communities.map CodeCommunity.membership) node = some id ↔
      ∃ c ∈ communities, c.id = id ∧ node ∈ c.members := by
  have hfound : ∀ m, (communities.map CodeCommunity.membership).reverse.find?
      (fun m => node.isAmong m.members) = some m →
        ∃ c ∈ communities, c.membership = m ∧ node ∈ c.members := by
    intro m hm
    obtain ⟨c, hc, rfl⟩ := List.mem_map.mp (List.mem_reverse.mp (List.mem_of_find?_eq_some hm))
    have hamong := List.find?_some (p := fun m : Membership => node.isAmong m.members) hm
    exact ⟨c, hc, rfl, (Value.isAmong_iff hnode).mp hamong⟩
  unfold communityOf?
  rw [Option.map_eq_some_iff]
  constructor
  · rintro ⟨m, hm, rfl⟩
    obtain ⟨c, hc, rfl, hmember⟩ := hfound m hm
    exact ⟨c, hc, rfl, hmember⟩
  · rintro ⟨c, hc, rfl, hmember⟩
    have hsome : ((communities.map CodeCommunity.membership).reverse.find?
        fun m => node.isAmong m.members).isSome = true := by
      rw [List.find?_isSome]
      exact ⟨c.membership, List.mem_reverse.mpr (List.mem_map_of_mem hc),
        (Value.isAmong_iff hnode).mpr hmember⟩
    obtain ⟨m, hm⟩ := Option.isSome_iff_exists.mp hsome
    obtain ⟨c', hc', rfl, hmember'⟩ := hfound m hm
    have : Std.Symm fun c c' : CodeCommunity => c.members.Disjoint c'.members :=
      ⟨fun _ _ h => h.symm⟩
    have hsame : c' = c := by
      by_contra hne
      exact hapart.forall hc' hc hne hmember' hmember
    exact ⟨_, hm, hsame ▸ rfl⟩

theorem communitiesOf_touches {communities : List CodeCommunity}
    (hapart : communities.Pairwise fun c c' => c.members.Disjoint c'.members)
    (hids : ∀ c ∈ communities, ∃ n : Int, c.id = .int n) {nodes affected : List Value}
    (hnodes : ∀ node ∈ nodes, node.isText = true)
    (h : communitiesOf (communities.map CodeCommunity.membership) nodes = .ok affected) :
    Touches communities nodes affected := by
  have hnumbered : ∀ m ∈ communities.map CodeCommunity.membership, ∃ n : Int,
      m.community = .int n := List.forall_mem_map.mpr hids
  obtain ⟨numbers, hsorted, hrising, hmem⟩ := sorted_communities hnumbered nodes
  unfold communitiesOf at h
  obtain ⟨_, -, h⟩ := bind_eq_ok.mp h
  obtain ⟨_, -, h⟩ := bind_eq_ok.mp h
  obtain rfl := Except.ok.inj (hsorted.symm.trans h)
  refine ⟨⟨numbers, rfl, hrising⟩, fun id => ?_⟩
  rw [List.mem_map]
  constructor
  · rintro ⟨n, hn, rfl⟩
    obtain ⟨node, hnode, hcommunity⟩ := (hmem n).mp hn
    obtain ⟨c, hc, hcid, hmember⟩ :=
      (communityOf?_eq_some_iff hapart (hnodes node hnode)).mp hcommunity
    exact ⟨c, hc, hcid, node, hnode, hmember⟩
  · rintro ⟨c, hc, rfl, node, hnode, hmember⟩
    obtain ⟨n, hn⟩ := hids c hc
    refine ⟨n, (hmem n).mpr ⟨node, hnode, ?_⟩, hn.symm⟩
    exact (communityOf?_eq_some_iff hapart (hnodes node hnode)).mpr ⟨c, hc, hn, hmember⟩

/-! ## Communities of groups -/

namespace Graph

variable {g : Graph} {groups : List (List (Fin g.order))} {communities : List CodeCommunity}

/-- The communities of some groups, numbered in order. -/
structure Describe (g : Graph) (groups : List (List (Fin g.order)))
    (communities : List CodeCommunity) : Prop where
  ids : communities.map CodeCommunity.id = groups.zipIdx.map fun entry => .int entry.2
  members : communities.map CodeCommunity.members = groups.map g.names

theorem describe_of_mapM
    (h : (groups.zipIdx.mapM fun entry => g.describeGroup entry.2 entry.1) = .ok communities) :
    g.Describe groups communities := by
  refine ⟨Gives.map_of_mapM h fun _ _ hc => (describeGroup_eq_ok hc).1, ?_⟩
  rw [Gives.map_of_mapM h fun _ _ hc => (describeGroup_eq_ok hc).2.1]
  conv_rhs => rw [← List.zipIdx_map_fst 0 groups, List.map_map]
  rfl

theorem Describe.id_eq_int (h : g.Describe groups communities) :
    ∀ c ∈ communities, ∃ n : Int, c.id = .int n := by
  intro c hc
  have hid : c.id ∈ communities.map CodeCommunity.id := List.mem_map_of_mem hc
  rw [h.ids] at hid
  obtain ⟨entry, -, hentry⟩ := List.mem_map.mp hid
  exact ⟨entry.2, hentry.symm⟩

/-- Communities of groups that have no vertex in common have no member in common. -/
theorem Describe.apart (h : g.Describe groups communities) (hname : Function.Injective g.name)
    (hnodup : groups.flatten.Nodup) :
    communities.Pairwise fun c c' => c.members.Disjoint c'.members := by
  have hnames : (groups.map g.names).Pairwise List.Disjoint := by
    rw [List.pairwise_map]
    exact (List.nodup_flatten.mp hnodup).2.imp fun hgroups => List.disjoint_map hname hgroups
  rwa [← h.members, List.pairwise_map] at hnames

theorem describe_of_communities (hv : g.Valid) (hc : g.Closed) (ha : g.AlikeNamed) {given : Value}
    {algorithm : CommunityAlgorithm} (hgiven : Tagged.coerce given = .ok algorithm) {k : Int}
    (hk : 1 ≤ k) {journal : Journal}
    (h : (g.communities given (.int k)).outcome journal = .ok communities) :
    ∃ groups, g.Describe groups communities ∧ groups.flatten.Perm g.vertices := by
  obtain ⟨groups, hgroups, -, hperm⟩ := groups_gives hv hc ha algorithm hk
  rw [outcome_communities hgiven hgroups] at h
  exact ⟨_, describe_of_mapM h, (flatten_arranged_perm groups).trans hperm⟩

/-! ## The communities downstream -/

theorem isText_of_reached (ht : g.TextNamed) (keep : Edge → Bool) (forward : Bool)
    (s : Fin g.order) (d : Nat) :
    ∀ node ∈ Impact.reached forward (Impact.reach (Index.ofArcs (g.arcs keep)) forward s d),
      node.isText = true := by
  intro node hnode
  have hvertex : g.vertex? node
      ∈ (Impact.reached forward (Impact.reach (Index.ofArcs (g.arcs keep)) forward s d)).map
        g.vertex? := List.mem_map_of_mem hnode
  rw [map_vertex?_reached] at hvertex
  obtain ⟨v, -, hv⟩ := List.mem_map.mp hvertex
  rw [ht.eq_name hv.symm]
  exact isText_name ht v

/-- With no communities given, those affected are the communities by default that have a member
downstream. -/
theorem affected_touches (hv : g.Valid) (hc : g.Closed) (ht : g.TextNamed) {q : ImpactQuery}
    (hknown : q.known = none) {algorithm : CommunityAlgorithm}
    (halgorithm : Tagged.coerce q.algorithm = .ok algorithm) {keep : Edge → Bool}
    {s : Fin g.order} {d : Nat} {journal : Journal} {affected : List Value}
    (h : (q.affected g (Impact.reach (Index.ofArcs (g.arcs keep)) true s d)).outcome journal
      = .ok affected)
    (hcommunities : (g.communities q.algorithm defaultRounds).outcome journal = .ok communities) :
    Touches communities (Impact.reached true (Impact.reach (Index.ofArcs (g.arcs keep)) true s d))
      affected := by
  have ha := ht.alikeNamed
  have htexts := isText_of_reached ht keep true s d
  cases hdown : Impact.reach (Index.ofArcs (g.arcs keep)) true s d with
  | nil =>
    rw [hdown] at h
    obtain rfl := Except.ok.inj h
    exact touches_nil communities
  | cons first rest =>
    rw [hdown] at h htexts
    unfold ImpactQuery.affected ImpactQuery.memberships at h
    rw [hknown, List.isEmpty_cons, if_neg Bool.false_ne_true] at h
    obtain ⟨memberships, _, hmemberships, h⟩ := Logged.exists_of_bind_eq_ok h
    obtain ⟨found, _, hfound, hmemberships⟩ := Logged.exists_of_bind_eq_ok hmemberships
    obtain rfl := Except.ok.inj (hfound.symm.trans hcommunities)
    obtain rfl := Except.ok.inj hmemberships
    obtain ⟨groups, hgroups, hperm⟩ :=
      describe_of_communities hv hc ha halgorithm (by decide : (1 : Int) ≤ 100) hcommunities
    have hnodup := hperm.nodup_iff.mpr (List.nodup_finRange g.order)
    have hcollected := (Logged.ComesTo.lift _ _).symm.trans h
    exact communitiesOf_touches (hgroups.apart hv.name_injective hnodup) hgroups.id_eq_int
      htexts hcollected

end Graph

end CodeGraph
