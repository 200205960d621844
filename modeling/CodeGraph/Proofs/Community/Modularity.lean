import CodeGraph.Proofs.Community.Excess
import CodeGraph.Proofs.Community.Louvain

/-!
# Modularity of the communities found

Two properties of the search over the rationals. Where edges join different
nodes, its communities have a greater modularity than the nodes on their own
(`louvainIn_beats_singletons`), unless there are so many edges that single gains
fall below what counts. And no two of its communities can be merged with a gain
that counts (`louvainIn_merge_optimal`).

Modularity reads communities by identifiers, and the search sorts by them, so
identifiers have to be all texts or all numbers. A text and a number have no
order, and then there is no answer (`mixed_beats_nothing`).
-/

namespace CodeGraph

/-! ## Groups by identifiers -/

namespace Value

theorem compare_self {x : Float.Model.UnpackedFloat} (h : x.isNaN = false) :
    x.compare x = some .eq := by
  cases x with
  | notANumber => cases h
  | infinity sign => cases sign <;> rfl
  | zero sign => rfl
  | finite sign mantissa exponent pos =>
      have hsize : (compare exponent exponent).then (compare mantissa mantissa) = .eq := by
        rw [Std.compare_self, Std.compare_self]
        rfl
      cases sign with
      | positive => exact congrArg some hsize
      | negative => exact congrArg (some ·.swap) hsize

theorem relateFloats_self {x : Float} (h : x.isNaN = false) : relateFloats x x = .equal := by
  have hcompare := compare_self h
  have heq : (x == x) = true := by
    change (x.toModel.unpack.compare x.toModel.unpack == some .eq) = true
    rw [hcompare]
    rfl
  have hlt : ¬ x < x := by
    intro hlt
    have hless := hcompare.symm.trans (beq_iff_eq.mp (of_decide_eq_true hlt))
    cases hless
  rw [relateFloats, if_neg hlt, if_neg hlt, if_pos heq]

theorem same_self {v : Value} (h : v.isText = true ∨ v.isOrderedNumber = true) :
    v.same v = true := by
  cases v with
  | str s => simp [same]
  | bool b => simp [same, relateNumbers?, asInt?, Relation.ofOrdering]
  | int k => simp [same, relateNumbers?, asInt?, Relation.ofOrdering]
  | float x =>
      have hx : x.isNaN = false := by simpa [isText, isOrderedNumber] using h
      simp [same, relateNumbers?, relateFloats_self hx]
  | _ => simp [isText, isOrderedNumber] at h

end Value

namespace Graph

variable {g : Graph}

def grouping (g : Graph) (groups : List (List (Fin g.order))) : Value :=
  .list (groups.map fun group => .list (g.names group))

theorem mapM_member {ids : List Value} (h : ∀ id ∈ ids, ∃ v, g.vertex? id = some v) :
    ids.mapM g.member = .ok (ids.filterMap g.vertex?) := by
  induction ids with
  | nil => rfl
  | cons id rest ih =>
      obtain ⟨⟨v, hv⟩, hrest⟩ := List.forall_mem_cons.mp h
      have hmember : g.member id = .ok v := by rw [member, hv]
      rw [List.mapM_cons, hmember, ih hrest, List.filterMap_cons_some hv]
      rfl

theorem readGroup_list (hv : g.Valid) {ids : List Value}
    (h : ∀ id ∈ ids, ∃ v, g.vertex? id = some v) :
    g.readGroup (.list ids) = .ok (ids.filterMap g.vertex?) := by
  have hhashable : ids.forM Value.hashable = .ok () :=
    Gives.forM fun id hid => by
      obtain ⟨v, hvertex⟩ := h id hid
      exact Value.hashable_eq_ok.mpr (hv.scalar_of_vertex? hvertex)
  unfold readGroup
  simp only [Value.elements, bind, Except.bind, hhashable, mapM_member h]

/-- Communities whose members all name nodes are read as the groups of these nodes. -/
theorem outcome_modularityIn_list (α : Type) [Scalar α] (hv : g.Valid) (hc : g.Closed)
    {communities : List (List Value)}
    (h : ∀ ids ∈ communities, ∀ id ∈ ids, ∃ v, g.vertex? id = some v) (journal : Journal) :
    (g.modularityIn α (.list (communities.map .list))).outcome journal
      = .ok ((Index.ofArcs (g.arcs keepAll)).modularity α
          (communities.map (List.filterMap g.vertex?))) := by
  have hgroups : (communities.map Value.list).mapM g.readGroup
      = .ok (communities.map (List.filterMap g.vertex?)) := by
    rw [List.mapM_map]
    exact Gives.mapM_eq_ok fun ids hids => readGroup_list hv (h ids hids)
  unfold modularityIn
  rw [index_eq_pure hv hc, pure_bind]
  by_cases ht : (Index.ofArcs (g.arcs keepAll)).totalTies = 0
  · rw [if_pos ht, Index.modularity, if_pos ht]
    rfl
  · rw [if_neg ht, Value.elements, Logged.lift_ok, pure_bind, Logged.mapM_lift, hgroups]
    rfl

theorem filterMap_vertex?_names (hv : g.Valid) (group : List (Fin g.order)) :
    (g.names group).filterMap g.vertex? = group := by
  have hname : g.vertex? ∘ g.name = some := funext hv.vertex?_name
  rw [names, List.filterMap_map, hname, List.filterMap_some]

theorem outcome_modularityIn (α : Type) [Scalar α] (hv : g.Valid) (hc : g.Closed)
    (groups : List (List (Fin g.order))) (journal : Journal) :
    (g.modularityIn α (g.grouping groups)).outcome journal
      = .ok ((Index.ofArcs (g.arcs keepAll)).modularity α groups) := by
  have hnamed : ∀ ids ∈ groups.map g.names, ∀ id ∈ ids, ∃ v, g.vertex? id = some v :=
    List.forall_mem_map.mpr fun group _ => List.forall_mem_map.mpr fun v _ =>
      ⟨v, hv.vertex?_name v⟩
  have hread : (groups.map g.names).map (List.filterMap g.vertex?) = groups := by
    rw [List.map_map]
    exact List.map_id'' (filterMap_vertex?_names hv) groups
  have houtcome := outcome_modularityIn_list α hv hc hnamed journal
  rwa [hread, List.map_map] at houtcome

/-! ## What the search finds -/

/-- The number of edges between different nodes. -/
def links (g : Graph) : Nat :=
  g.edges.countP fun e => g.vertex? e.source ≠ g.vertex? e.target

theorem totalTies_eq (hc : g.Closed) :
    (Index.ofArcs (g.arcs keepAll)).totalTies = 2 * g.links := by
  have hall : g.edges.filter keepAll = g.edges := List.filter_eq_self.mpr fun _ _ => rfl
  rw [Index.totalTies_ofArcs, arcs, hall, List.countP_filterMap, links]
  congr 1
  refine List.countP_congr fun e he => ?_
  obtain ⟨u, v, hu, hv⟩ := closed_iff.mp hc e he
  have harc : g.arc? e = some ⟨e, u, v⟩ := arc?_eq_some.mpr ⟨rfl, hu, hv⟩
  simp [harc, hu, hv]

def network (g : Graph) : Network (g.sortByName g.vertices).length ℚ :=
  Network.ofIndex (Index.ofArcs (g.arcs keepAll)) (g.sortByName g.vertices)

theorem balanced_network (g : Graph) : g.network.Balanced :=
  Network.balanced_ofIndex ..

theorem total_network (hc : g.Closed) : g.network.total = 2 * g.links := by
  rw [network, Network.total_ofIndex _ (g.sortByName_perm g.vertices), totalTies_eq hc]
  push_cast
  rfl

theorem total_network_pos (hc : g.Closed) (hlinks : 0 < g.links) : 0 < g.network.total := by
  rw [total_network hc]
  positivity

theorem settle_network_ne_none (hc : g.Closed) (hlinks : 0 < g.links)
    (hfew : g.links < 5 * 10 ^ 11) : Louvain.settle g.network ≠ none := by
  have hbound : (g.links : ℚ) < 5 * 10 ^ 11 := by exact_mod_cast hfew
  have hsingle : ∀ i, g.network.entry i i = 0 := by
    intro i
    rw [network, Network.entry_ofIndex, Index.multiplicity_self, Nat.cast_zero]
  refine Louvain.settle_ne_none g.balanced_network (total_network_pos hc hlinks) ?_
    (fun i j => Network.entry_ofIndex _ i j) hsingle
  rw [total_network hc, Louvain.exactGain_eq]
  linarith

def found (g : Graph) : List (List (Fin g.order)) :=
  g.arranged (g.louvainLevels ℚ (Index.ofArcs (g.arcs keepAll)) (g.sortByName g.vertices)).2

theorem outcome_louvainIn_found (hv : g.Valid) (hc : g.Closed) (ha : g.AlikeNamed)
    (journal : Journal) : (g.louvainIn ℚ).outcome journal = .ok g.found := by
  obtain ⟨_, hgroups, rfl⟩ := (louvainIn_gives ℚ hv hc ha).outcome journal
  exact hgroups

theorem found_perm (g : Graph) : g.found.Perm ((groupsOf (Louvain.levels g.network).2.get).map
    fun group => g.sortByName (group.map (g.sortByName g.vertices).get)) := by
  have hperm := arranged_perm
    (g.louvainLevels ℚ (Index.ofArcs (g.arcs keepAll)) (g.sortByName g.vertices)).2
  rwa [louvainLevels, List.map_map] at hperm

theorem nodup_flatten_found (g : Graph) : g.found.flatten.Nodup := by
  have hperm : g.found.flatten.Perm g.vertices :=
    (flatten_arranged_perm _).trans ((flatten_map_groupsOf_perm _ _).trans (g.sortByName_perm _))
  exact hperm.nodup_iff.mpr (List.nodup_finRange _)

theorem toFinset_sortByName (vs : List (Fin g.order)) :
    (g.sortByName vs).toFinset = vs.toFinset :=
  List.toFinset_eq_of_perm _ _ (g.sortByName_perm vs)

theorem modularity_found (hc : g.Closed) (hlinks : 0 < g.links) :
    (Index.ofArcs (g.arcs keepAll)).modularity ℚ g.found
      = g.network.surplus (Louvain.levels g.network).2.get / (2 * g.links) := by
  have hnodup := (List.nodup_flatten.mp g.nodup_flatten_found).1
  have ht := totalTies_eq hc
  rw [Index.modularity_eq _ hnodup (by omega), (g.found_perm.map _).sum_eq, List.map_map, ht]
  simp only [Function.comp_def, toFinset_sortByName]
  rw [Network.sum_across_groupsOf _ (g.sortByName_perm g.vertices)]
  push_cast
  rfl

def singletons (g : Graph) : List (List (Fin g.order)) :=
  g.vertices.map fun v => [v]

theorem modularity_singletons (hc : g.Closed) (hlinks : 0 < g.links) :
    (Index.ofArcs (g.arcs keepAll)).modularity ℚ g.singletons
      = g.network.surplus id / (2 * g.links) := by
  have hnodup : ∀ group ∈ g.singletons, group.Nodup := by
    intro group hgroup
    obtain ⟨v, -, rfl⟩ := List.mem_map.mp hgroup
    exact List.nodup_singleton v
  have ht := totalTies_eq hc
  rw [Index.modularity_eq _ hnodup (by omega), singletons, List.map_map, ht]
  simp only [Function.comp_def, List.toFinset_cons, List.toFinset_nil, insert_empty_eq]
  have hsum := Network.sum_across_singletons (Index.ofArcs (g.arcs keepAll))
    (g.sortByName_perm g.vertices)
  push_cast
  exact congrArg (· / (2 * (g.links : ℚ))) hsum

theorem found_perm_singletons (hc : g.Closed) (hlinks : g.links = 0) :
    g.found.Perm g.singletons := by
  have htotal : g.network.total = 0 := by rw [total_network hc, hlinks, Nat.cast_zero, mul_zero]
  have hlabel : ∀ i, (Louvain.levels g.network).2.get i = i :=
    Louvain.levels_of_none (Louvain.settle_of_total_eq_zero htotal)
  have hgroups : groupsOf (Louvain.levels g.network).2.get
      = (List.finRange _).map fun i => [i] := by
    refine groupsOf_injective fun i j hij => ?_
    rw [hlabel, hlabel] at hij
    exact Fin.val_injective hij
  have hsingle : (fun group => g.sortByName (group.map (g.sortByName g.vertices).get))
      ∘ (fun i => [i]) = (fun v => [v]) ∘ (g.sortByName g.vertices).get :=
    funext fun i => List.mergeSort_singleton _
  have hperm := g.found_perm
  rw [hgroups, List.map_map, hsingle, ← List.map_map, List.map_get_finRange] at hperm
  exact hperm.trans ((g.sortByName_perm g.vertices).map _)

theorem disjoint_of_found {A B : List (Fin g.order)} {rest : List (List (Fin g.order))}
    (h : g.found.Perm (A :: B :: rest)) : A.Disjoint B := by
  have hnodup := h.flatten.nodup_iff.mp g.nodup_flatten_found
  have hpairwise := (List.nodup_flatten.mp hnodup).2
  exact (List.pairwise_cons.mp hpairwise).1 B (List.mem_cons_self ..)

/-- The nodes found together with the one at a position. -/
def company (g : Graph) (i : Fin (g.sortByName g.vertices).length) : List (Fin g.order) :=
  ((List.finRange _).filter fun j => (Louvain.levels g.network).2.get j
    = (Louvain.levels g.network).2.get i).map (g.sortByName g.vertices).get

theorem mem_company {i j : Fin (g.sortByName g.vertices).length}
    (h : (Louvain.levels g.network).2.get i = (Louvain.levels g.network).2.get j) :
    (g.sortByName g.vertices).get i ∈ g.company j :=
  List.mem_map_of_mem (List.mem_filter.mpr ⟨List.mem_finRange i, decide_eq_true h⟩)

theorem exists_company {group : List (Fin g.order)} (h : group ∈ g.found) :
    ∃ i, group.Perm (g.company i) := by
  obtain ⟨members, hmembers, rfl⟩ := List.mem_map.mp (g.found_perm.mem_iff.mp h)
  obtain ⟨i, rfl⟩ := (mem_groupsOf _).mp hmembers
  exact ⟨i, g.sortByName_perm _⟩

theorem across_found_le (hc : g.Closed) (hlinks : 0 < g.links) {A B : List (Fin g.order)}
    {rest : List (List (Fin g.order))} (h : g.found.Perm (A :: B :: rest)) :
    (Index.ofArcs (g.arcs keepAll)).across A.toFinset B.toFinset ≤ Louvain.exactGain := by
  obtain ⟨i, hi⟩ := exists_company (h.mem_iff.mpr (List.mem_cons_self ..))
  obtain ⟨j, hj⟩ := exists_company (h.mem_iff.mpr (List.mem_cons_of_mem _ (List.mem_cons_self ..)))
  have hne : (Louvain.levels g.network).2.get i ≠ (Louvain.levels g.network).2.get j := fun heq =>
    disjoint_of_found h (hi.mem_iff.mpr (mem_company rfl)) (hj.mem_iff.mpr (mem_company heq))
  rw [List.toFinset_eq_of_perm _ _ hi, List.toFinset_eq_of_perm _ _ hj, company, company,
    Network.across_classes _ (g.sortByName_perm g.vertices)]
  exact Louvain.apart_levels g.network g.balanced_network
    (total_network_pos hc hlinks) i j hne

theorem modularity_merge_le (hc : g.Closed) (hlinks : 0 < g.links) {A B : List (Fin g.order)}
    {rest : List (List (Fin g.order))} (h : g.found.Perm (A :: B :: rest)) :
    (Index.ofArcs (g.arcs keepAll)).modularity ℚ ((A ++ B) :: rest)
        - (Index.ofArcs (g.arcs keepAll)).modularity ℚ g.found
      ≤ 2 * Louvain.exactGain / (2 * g.links) := by
  have hnodup := (List.nodup_flatten.mp g.nodup_flatten_found).1
  have hdisjoint := disjoint_of_found h
  have hmerged : ∀ group ∈ (A ++ B) :: rest, group.Nodup := by
    simp only [h.mem_iff, List.forall_mem_cons] at hnodup ⊢
    obtain ⟨hA, hB, hrest⟩ := hnodup
    exact ⟨hA.append hB hdisjoint, hrest⟩
  have ht := totalTies_eq hc
  have hunion := Index.across_union (g.arcs keepAll)
    (List.disjoint_toFinset_iff_disjoint.mpr hdisjoint)
  have hle := across_found_le hc hlinks h
  rw [Index.modularity_eq _ hmerged (by omega), Index.modularity_eq _ hnodup (by omega),
    (h.map _).sum_eq, ← sub_div, ht, Nat.cast_mul, Nat.cast_ofNat]
  simp only [List.map_cons, List.sum_cons, List.toFinset_append, hunion]
  refine div_le_div_of_nonneg_right ?_ (by positivity)
  linarith

/-! ## Two pairs

The theorems below are applied to the snapshot of two pairs of nodes, each joined by an edge. It is
listed in the order of its names, so that sorting leaves everything in place.
-/

def twoPairs : Graph where
  nodes := [specimenNode "a", specimenNode "b", specimenNode "c", specimenNode "d"]
  edges := [specimenEdge "ab" "a" "b" .callGraph, specimenEdge "cd" "c" "d" .callGraph]
  cache := []
  metadata := []

theorem twoPairs_valid : twoPairs.Valid where
  scalar := by simp [twoPairs, specimenNode, Value.isScalar]
  distinct := by simp [twoPairs, specimenNode, Value.same]
  same := by simp [twoPairs, specimenNode, Value.same]

theorem twoPairs_closed : twoPairs.Closed := by
  unfold Closed
  decide +kernel

theorem twoPairs_alikeNamed : twoPairs.AlikeNamed := by
  simp [AlikeNamed, Value.alike, twoPairs, specimenNode, Value.isText]

theorem twoPairs_links : twoPairs.links = 2 := by
  decide +kernel

def twoPairs.first : List (Fin twoPairs.order) := [⟨0, by decide⟩, ⟨1, by decide⟩]

def twoPairs.second : List (Fin twoPairs.order) := [⟨2, by decide⟩, ⟨3, by decide⟩]

theorem twoPairs_found : twoPairs.found = [twoPairs.first, twoPairs.second] := by
  have hnames : twoPairs.sortByName twoPairs.vertices = twoPairs.vertices :=
    List.mergeSort_of_pairwise (by decide +kernel)
  have hlevels : (twoPairs.louvainLevels ℚ (Index.ofArcs (twoPairs.arcs keepAll))
      twoPairs.vertices).2 = [twoPairs.first, twoPairs.second] := by
    decide +kernel
  have hfirst : twoPairs.sortByName twoPairs.first = twoPairs.first :=
    List.mergeSort_of_pairwise (by decide +kernel)
  have hsecond : twoPairs.sortByName twoPairs.second = twoPairs.second :=
    List.mergeSort_of_pairwise (by decide +kernel)
  rw [found, hnames, hlevels, arranged, List.map_cons, List.map_cons, List.map_nil, hfirst, hsecond]
  exact List.mergeSort_of_pairwise (by decide +kernel)

/-! ## Better than nodes on their own -/

/-- The communities found have a greater modularity than the nodes on their own, unless no edge
leads from one node to another; then every node is found on its own. -/
theorem louvainIn_beats_singletons (hv : g.Valid) (hc : g.Closed) (ha : g.AlikeNamed)
    (journal : Journal) :
    ∃ groups, (g.louvainIn ℚ).outcome journal = .ok groups ∧
      (0 < g.links → g.links < 5 * 10 ^ 11 → ∃ before after,
        (g.modularityIn ℚ (g.grouping g.singletons)).outcome journal = .ok before ∧
        (g.modularityIn ℚ (g.grouping groups)).outcome journal = .ok after ∧ before < after) ∧
      (g.links = 0 → groups.Perm g.singletons) := by
  refine ⟨g.found, outcome_louvainIn_found hv hc ha journal, fun hlinks hfew => ?_,
    found_perm_singletons hc⟩
  refine ⟨_, _, outcome_modularityIn ℚ hv hc _ journal,
    outcome_modularityIn ℚ hv hc _ journal, ?_⟩
  have hmore := Louvain.surplus_lt_levels g.balanced_network (total_network_pos hc hlinks)
    (settle_network_ne_none hc hlinks hfew)
  rw [modularity_singletons hc hlinks, modularity_found hc hlinks]
  exact div_lt_div_of_pos_right hmore (by positivity)

theorem louvainIn_beats_singletons_twoPairs :
    twoPairs.Valid ∧ twoPairs.Closed ∧ twoPairs.AlikeNamed ∧ twoPairs.links = 2 ∧
    ∃ groups before after, (twoPairs.louvainIn ℚ).outcome .empty = .ok groups ∧
      (twoPairs.modularityIn ℚ (twoPairs.grouping twoPairs.singletons)).outcome .empty
        = .ok before ∧
      (twoPairs.modularityIn ℚ (twoPairs.grouping groups)).outcome .empty = .ok after ∧
      before < after := by
  obtain ⟨groups, hgroups, hmore, -⟩ :=
    louvainIn_beats_singletons twoPairs_valid twoPairs_closed twoPairs_alikeNamed .empty
  rw [twoPairs_links] at hmore
  obtain ⟨before, after, hbefore, hafter, hlt⟩ := hmore (by decide) (by decide)
  exact ⟨twoPairs_valid, twoPairs_closed, twoPairs_alikeNamed, twoPairs_links,
    groups, before, after, hgroups, hbefore, hafter, hlt⟩

theorem mixed_links : mixed.links = 1 := by
  decide +kernel

theorem mixed_louvainIn_ne_ok (journal : Journal) (groups : List (List (Fin mixed.order))) :
    (mixed.louvainIn ℚ).outcome journal ≠ .ok groups := by
  obtain ⟨failure, hfailure⟩ := mixed_louvainIn ℚ
  rw [hfailure]
  exact fun hok => nomatch hok

/-- With names of different sorts there are no communities to be better. -/
theorem mixed_beats_nothing :
    mixed.Valid ∧ mixed.Closed ∧ mixed.links = 1 ∧
    ¬ ∃ groups before after, (mixed.louvainIn ℚ).outcome .empty = .ok groups ∧
      (mixed.modularityIn ℚ (mixed.grouping mixed.singletons)).outcome .empty = .ok before ∧
      (mixed.modularityIn ℚ (mixed.grouping groups)).outcome .empty = .ok after ∧
      before < after := by
  refine ⟨mixed_valid, mixed_closed, mixed_links, ?_⟩
  rintro ⟨groups, -, -, hgroups, -⟩
  exact mixed_louvainIn_ne_ok _ _ hgroups

/-! ## No gain in merging -/

/-- No two of the communities found could be merged with a gain that counts. -/
theorem louvainIn_merge_optimal (hv : g.Valid) (hc : g.Closed) (ha : g.AlikeNamed)
    (hlinks : 0 < g.links) (journal : Journal) :
    ∃ groups before, (g.louvainIn ℚ).outcome journal = .ok groups ∧
      (g.modularityIn ℚ (g.grouping groups)).outcome journal = .ok before ∧
      ∀ A B rest, groups.Perm (A :: B :: rest) → ∃ after,
        (g.modularityIn ℚ (g.grouping ((A ++ B) :: rest))).outcome journal = .ok after ∧
          after - before ≤ 2 * Louvain.exactGain / (2 * g.links) := by
  refine ⟨g.found, _, outcome_louvainIn_found hv hc ha journal,
    outcome_modularityIn ℚ hv hc _ journal, fun A B rest h => ?_⟩
  exact ⟨_, outcome_modularityIn ℚ hv hc _ journal, modularity_merge_le hc hlinks h⟩

theorem louvainIn_merge_optimal_twoPairs :
    twoPairs.Valid ∧ twoPairs.Closed ∧ twoPairs.AlikeNamed ∧ 0 < twoPairs.links ∧
    ∃ before after,
      (twoPairs.louvainIn ℚ).outcome .empty = .ok [twoPairs.first, twoPairs.second] ∧
      (twoPairs.modularityIn ℚ (twoPairs.grouping [twoPairs.first, twoPairs.second])).outcome .empty
        = .ok before ∧
      (twoPairs.modularityIn ℚ
        (twoPairs.grouping [twoPairs.first ++ twoPairs.second])).outcome .empty = .ok after ∧
      after - before ≤ 2 * Louvain.exactGain / (2 * 2) := by
  have hlinks : 0 < twoPairs.links := by rw [twoPairs_links]; decide
  obtain ⟨groups, before, hgroups, hbefore, hmerge⟩ := louvainIn_merge_optimal twoPairs_valid
    twoPairs_closed twoPairs_alikeNamed hlinks .empty
  have hfound := outcome_louvainIn_found twoPairs_valid twoPairs_closed twoPairs_alikeNamed .empty
  rw [twoPairs_found] at hfound
  obtain rfl := Except.ok.inj (hgroups.symm.trans hfound)
  obtain ⟨after, hafter, hle⟩ := hmerge twoPairs.first twoPairs.second [] (.refl _)
  rw [twoPairs_links] at hle
  exact ⟨twoPairs_valid, twoPairs_closed, twoPairs_alikeNamed, hlinks, before, after, hfound,
    hbefore, hafter, hle⟩

/-- With names of different sorts there are no communities to merge. -/
theorem mixed_merges_nothing :
    mixed.Valid ∧ mixed.Closed ∧ 0 < mixed.links ∧
    ¬ ∃ groups before, (mixed.louvainIn ℚ).outcome .empty = .ok groups ∧
      (mixed.modularityIn ℚ (mixed.grouping groups)).outcome .empty = .ok before := by
  have hlinks : 0 < mixed.links := by rw [mixed_links]; decide
  refine ⟨mixed_valid, mixed_closed, hlinks, ?_⟩
  rintro ⟨groups, -, hgroups, -⟩
  exact mixed_louvainIn_ne_ok _ _ hgroups

end Graph

end CodeGraph
