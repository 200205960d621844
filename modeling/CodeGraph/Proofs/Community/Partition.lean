import Mathlib.Data.Finset.Max
import Mathlib.Data.Fintype.Basic
import CodeGraph.Proofs.Community

/-!
# Communities share out the nodes

Whatever the labels, grouping positions by label puts every position into exactly
one group (`flatten_groupsOf_perm`), and naming and arranging the groups changes
only orders. So the communities that either algorithm finds are a partition of
the nodes, sorted inside and by their least members.
-/

namespace CodeGraph

/-! ## Grouping by label -/

section Grouping

variable {n : Nat} {β : Type} [DecidableEq β] (label : Fin n → β)

/-- The groups are the classes of positions with one label. -/
theorem mem_groupsOf {group : List (Fin n)} :
    group ∈ groupsOf label ↔
      ∃ i, (List.finRange n).filter (fun j => label j = label i) = group := by
  constructor
  · intro hgroup
    obtain ⟨i, -, rfl⟩ := List.mem_map.mp hgroup
    exact ⟨i, rfl⟩
  · rintro ⟨i, rfl⟩
    -- The class was made for the least position in it.
    have hne : (Finset.univ.filter fun j => label j = label i).Nonempty := ⟨i, by simp⟩
    obtain ⟨k, hk, hleast⟩ := Finset.exists_min_image _ id hne
    have hlabel : label k = label i := by simpa using hk
    refine List.mem_map.mpr ⟨k, List.mem_filter.mpr ⟨List.mem_finRange k, ?_⟩, by rw [hlabel]⟩
    rw [List.all_eq_true]
    intro j _
    by_cases hj : label j = label i
    · simpa [hlabel, hj] using hleast j (by simpa using hj)
    · simp [hlabel, hj]

theorem groupsOf_disjoint : (groupsOf label).Pairwise List.Disjoint := by
  refine List.pairwise_map.mpr ?_
  have hsorted : ((List.finRange n).filter fun i =>
      (List.finRange n).all fun j => decide (i ≤ j) || label j != label i).Pairwise (· < ·) :=
    (List.pairwise_lt_finRange n).filter _
  refine hsorted.imp_of_mem fun {i k} _ hk hlt j hj hj' => ?_
  -- A position with both labels would make the first of one class a member of the other.
  simp only [List.mem_filter, List.all_eq_true, Bool.or_eq_true, decide_eq_true_eq, bne_iff_ne] at *
  rcases hk.2 i (List.mem_finRange i) with hle | hne
  · exact absurd hlt (not_lt.mpr hle)
  · exact hne (hj.2.symm.trans hj'.2)

theorem flatten_groupsOf_perm : (groupsOf label).flatten.Perm (List.finRange n) := by
  have hnodup : (groupsOf label).flatten.Nodup := by
    refine List.nodup_flatten.mpr ⟨fun group hgroup => ?_, groupsOf_disjoint label⟩
    obtain ⟨i, rfl⟩ := (mem_groupsOf label).mp hgroup
    exact (List.nodup_finRange n).filter _
  refine (List.perm_ext_iff_of_nodup hnodup (List.nodup_finRange n)).mpr fun i => ?_
  refine ⟨fun _ => List.mem_finRange i, fun _ => ?_⟩
  exact List.mem_flatten.mpr ⟨_, (mem_groupsOf label).mpr ⟨i, rfl⟩, by simp⟩

theorem groupsOf_injective {label : Fin n → β} (h : Function.Injective label) :
    groupsOf label = (List.finRange n).map fun i => [i] := by
  have hfirst : ∀ i ∈ List.finRange n,
      ((List.finRange n).all fun j => decide (i ≤ j) || label j != label i) = true := by
    intro i _
    simp only [List.all_eq_true, Bool.or_eq_true, decide_eq_true_eq, bne_iff_ne]
    intro j _
    exact (le_or_gt i j).imp id fun hlt => h.ne hlt.ne
  unfold groupsOf
  simp only [List.filter_eq_self.mpr hfirst, h.eq_iff]
  refine List.map_congr_left fun i _ => ?_
  rw [List.filter_eq, List.count_eq_one_of_mem (List.nodup_finRange n) (List.mem_finRange i)]
  rfl

/-- Grouping the positions of a list shares out its items. -/
theorem flatten_map_groupsOf_perm {γ : Type} (vs : List γ) (label : Fin vs.length → β) :
    ((groupsOf label).map (List.map vs.get)).flatten.Perm vs := by
  rw [← List.map_flatten]
  have hmap := (flatten_groupsOf_perm label).map vs.get
  rwa [List.map_get_finRange] at hmap

end Grouping

namespace Graph

variable {g : Graph} {groups : List (List (Fin g.order))}

theorem flatten_arranged_perm (groups : List (List (Fin g.order))) :
    (g.arranged groups).flatten.Perm groups.flatten := by
  refine (arranged_perm groups).flatten.trans ?_
  induction groups with
  | nil => exact .nil
  | cons group rest ih => exact (sortByName_perm group).append ih

/-! ## Names in order -/

def nameText (g : Graph) (v : Fin g.order) : String :=
  (g.name v).text

theorem name_eq_of_isText {v : Fin g.order} (h : (g.name v).isText = true) :
    g.name v = .str (g.nameText v) := by
  unfold nameText
  cases hname : g.name v with
  | str s => rfl
  | _ => rw [hname] at h; cases h

theorem TextNamed.name_eq (ht : g.TextNamed) (v : Fin g.order) :
    g.name v = .str (g.nameText v) :=
  name_eq_of_isText (isText_name ht v)

theorem Valid.eq_of_nameText (hv : g.Valid) {v w : Fin g.order} (hvtext : (g.name v).isText = true)
    (hwtext : (g.name w).isText = true) (heq : g.nameText v = g.nameText w) : v = w := by
  refine hv.name_injective ?_
  rw [name_eq_of_isText hvtext, name_eq_of_isText hwtext, heq]

theorem nameText_injective (hv : g.Valid) (ht : g.TextNamed) : Function.Injective g.nameText :=
  fun v w => hv.eq_of_nameText (isText_name ht v) (isText_name ht w)

theorem nameText_lt (hinj : Function.Injective g.nameText) {v w : Fin g.order} (hne : v ≠ w)
    (hle : g.nameText v ≤ g.nameText w) : g.nameText v < g.nameText w :=
  String.not_le.mp fun hge => hne (hinj (String.le_antisymm hle hge))

theorem sortByName_sorted (ht : g.TextNamed) (vs : List (Fin g.order)) :
    (g.sortByName vs).Pairwise fun a b => g.nameText a ≤ g.nameText b := by
  have hbefore : (fun a b => (g.name a).before (g.name b))
      = fun a b => decide (g.nameText a ≤ g.nameText b) := by
    funext a b
    rw [ht.name_eq a, ht.name_eq b, Value.before_str]
  unfold sortByName
  rw [hbefore]
  exact Value.pairwise_mergeSort_rank g.nameText vs

theorem arranged_sorted (ht : g.TextNamed) (hgroups : ∀ group ∈ groups, group ≠ []) :
    (g.arranged groups).Pairwise fun here there =>
      ∀ v ∈ here.head?, ∀ w ∈ there.head?, g.nameText v ≤ g.nameText w := by
  -- The texts by which the groups are sorted.
  have hkey : ∀ group ∈ groups.map g.sortByName,
      g.firstName group = .str ((group.head?.map g.nameText).getD "") := by
    intro group hgroup
    obtain ⟨group', hgroup', rfl⟩ := List.mem_map.mp hgroup
    obtain ⟨v, rest, hcons⟩ :=
      List.exists_cons_of_ne_nil (sortByName_ne_nil (hgroups group' hgroup'))
    rw [hcons]
    exact ht.name_eq v
  have hmap : (g.arranged groups).map (fun group => (group.head?.map g.nameText).getD "")
      = ((groups.map g.sortByName).map fun group =>
          (group.head?.map g.nameText).getD "").mergeSort fun s t => decide (s ≤ t) :=
    List.map_mergeSort fun a ha b hb => by rw [hkey a ha, hkey b hb, Value.before_str]
  have hsorted := Value.pairwise_mergeSort_rank id ((groups.map g.sortByName).map fun group =>
    (group.head?.map g.nameText).getD "")
  simp only [id_eq] at hsorted
  rw [← hmap, List.pairwise_map] at hsorted
  refine hsorted.imp fun {here there} hle v hv w hw => ?_
  rwa [Option.mem_def.mp hv, Option.mem_def.mp hw] at hle

/-! ## A partition -/

/-- Lists of names that share out the nodes, sorted inside and by their least members, which come
first in each. -/
structure SharedOut (g : Graph) (parts : List (List String)) : Prop where
  nonempty : ∀ part ∈ parts, part ≠ []
  sorted : ∀ part ∈ parts, part.Pairwise (· < ·)
  disjoint : parts.Pairwise List.Disjoint
  covers : ∀ id, (∃ part ∈ parts, id ∈ part) ↔ ∃ node ∈ g.nodes, node.id = .str id
  ordered : parts.Pairwise fun here there => ∀ a ∈ here.head?, ∀ b ∈ there.head?, a < b

theorem sharedOut_arranged (hv : g.Valid) (ht : g.TextNamed)
    (hgroups : ∀ group ∈ groups, group ≠ []) (hperm : groups.flatten.Perm g.vertices) :
    g.SharedOut ((g.arranged groups).map (List.map g.nameText)) := by
  have hinj := nameText_injective hv ht
  have hne := arranged_ne_nil hgroups
  have hvertices : (g.arranged groups).flatten.Perm g.vertices :=
    (flatten_arranged_perm groups).trans hperm
  have hnodup : (g.arranged groups).flatten.Nodup :=
    hvertices.nodup_iff.mpr (List.nodup_finRange _)
  obtain ⟨hinside, hapart⟩ := List.nodup_flatten.mp hnodup
  constructor
  case nonempty =>
    intro part hpart
    obtain ⟨group, hgroup, rfl⟩ := List.mem_map.mp hpart
    rw [ne_eq, List.map_eq_nil_iff]
    exact hne group hgroup
  case sorted =>
    intro part hpart
    obtain ⟨group, hgroup, rfl⟩ := List.mem_map.mp hpart
    obtain ⟨group', -, rfl⟩ := List.mem_map.mp ((arranged_perm groups).mem_iff.mp hgroup)
    rw [List.pairwise_map]
    refine ((sortByName_sorted ht group').and (hinside _ hgroup)).imp fun {v w} h => ?_
    exact nameText_lt hinj h.2 h.1
  case disjoint =>
    rw [List.pairwise_map]
    exact hapart.imp fun h => List.disjoint_map hinj h
  case covers =>
    intro id
    constructor
    · rintro ⟨part, hpart, hid⟩
      obtain ⟨group, -, rfl⟩ := List.mem_map.mp hpart
      obtain ⟨v, -, rfl⟩ := List.mem_map.mp hid
      exact ⟨g.nodeAt v, List.get_mem .., ht.name_eq v⟩
    · rintro ⟨node, hnode, hid⟩
      obtain ⟨v, rfl⟩ := List.get_of_mem hnode
      obtain ⟨group, hgroup, hmem⟩ :=
        List.mem_flatten.mp (hvertices.mem_iff.mpr (List.mem_finRange v))
      refine ⟨_, List.mem_map_of_mem hgroup, List.mem_map.mpr ⟨v, hmem, ?_⟩⟩
      exact Value.str.inj ((ht.name_eq v).symm.trans hid)
  case ordered =>
    rw [List.pairwise_map]
    refine ((arranged_sorted ht hgroups).and hapart).imp fun {here there} h a ha b hb => ?_
    obtain ⟨hle, hdisjoint⟩ := h
    rw [List.head?_map] at ha hb
    obtain ⟨v, hv, rfl⟩ := Option.map_eq_some_iff.mp ha
    obtain ⟨w, hw, rfl⟩ := Option.map_eq_some_iff.mp hb
    refine nameText_lt hinj ?_ (hle v hv w hw)
    rintro rfl
    exact hdisjoint (List.mem_of_mem_head? hv) (List.mem_of_mem_head? hw)

/-! ## Both algorithms -/

theorem groups_gives (hv : g.Valid) (hc : g.Closed) (ha : g.AlikeNamed)
    (algorithm : CommunityAlgorithm) {k : Int} (hk : 1 ≤ k) :
    ∃ groups, Logged.Gives (g.groups algorithm (.int k)) (· = g.arranged groups) ∧
      (∀ group ∈ groups, group ≠ []) ∧ groups.flatten.Perm g.vertices := by
  have hvertices := g.sortByName_perm g.vertices
  cases algorithm with
  | louvain =>
      exact ⟨_, louvainIn_gives Float hv hc ha, louvainLevels_ne_nil _ _ _,
        (flatten_map_groupsOf_perm _ _).trans hvertices⟩
  | labelPropagation =>
      exact ⟨_, labelPropagation_gives hv hc ha hk, propagate_ne_nil _ _ _,
        (flatten_map_groupsOf_perm _ _).trans hvertices⟩

theorem describeGroup_eq_ok {id : Nat} {group : List (Fin g.order)} {c : CodeCommunity}
    (h : g.describeGroup id group = .ok c) :
    c.id = .int id ∧ c.members = g.names group ∧
      ∀ v ∈ group, (g.nodeAt v).kind.isScalar = true := by
  unfold describeGroup at h
  obtain ⟨_, hkinds, h⟩ := bind_eq_ok.mp h
  obtain ⟨ranked, -, h⟩ := bind_eq_ok.mp h
  obtain ⟨description, -, h⟩ := bind_eq_ok.mp h
  obtain rfl := Except.ok.inj h
  refine ⟨rfl, rfl, fun v hv => ?_⟩
  exact Value.hashable_eq_ok.mp (Gives.of_forM hkinds _ (List.mem_map_of_mem hv))

/-- Communities are numbered in order, and their members share out the nodes. With texts for kinds
there always is an answer. -/
theorem communities_shared_out (hv : g.Valid) (hc : g.Closed) (ht : g.TextNamed) {given : Value}
    {algorithm : CommunityAlgorithm} (hgiven : Tagged.coerce given = .ok algorithm) {k : Int}
    (hk : 1 ≤ k) (journal : Journal) :
    ((∀ node ∈ g.nodes, node.kind.isText = true) →
      ∃ communities, (g.communities given (.int k)).outcome journal = .ok communities) ∧
    ∀ communities, (g.communities given (.int k)).outcome journal = .ok communities →
      communities.map CodeCommunity.id
        = (List.range communities.length).map (fun id : Nat => .int id) ∧
      ∃ parts, communities.map CodeCommunity.members = parts.map (List.map Value.str) ∧
        g.SharedOut parts := by
  obtain ⟨groups, hgroups, hne, hperm⟩ := groups_gives hv hc ht.alikeNamed algorithm hk
  rw [outcome_communities hgiven hgroups]
  constructor
  · intro hkind
    have hdescribe : ∀ entry ∈ (g.arranged groups).zipIdx,
        Gives (g.describeGroup entry.2 entry.1) fun _ => True := by
      intro entry hentry
      have hgroup := arranged_ne_nil hne _ (List.fst_mem_of_mem_zipIdx hentry)
      exact (describeGroup_answers hkind entry.2 hgroup).imp fun _ _ => trivial
    obtain ⟨communities, hok, -⟩ := Gives.mapM hdescribe
    exact ⟨communities, hok⟩
  · intro communities hok
    have hids : communities.map CodeCommunity.id
        = (g.arranged groups).zipIdx.map fun entry => .int entry.2 :=
      Gives.map_of_mapM hok fun _ _ h => (describeGroup_eq_ok h).1
    have hmembers : communities.map CodeCommunity.members
        = (g.arranged groups).zipIdx.map fun entry => g.names entry.1 :=
      Gives.map_of_mapM hok fun _ _ h => (describeGroup_eq_ok h).2.1
    have hlength : communities.length = (g.arranged groups).length := by
      simpa using congrArg List.length hids
    refine ⟨?_, (g.arranged groups).map (List.map g.nameText), ?_,
      sharedOut_arranged hv ht hne hperm⟩
    · rw [hids, hlength, List.range_eq_range', ← List.zipIdx_map_snd 0 (g.arranged groups),
        List.map_map]
      rfl
    · have hnames : g.names = List.map Value.str ∘ List.map g.nameText := by
        funext group
        rw [Function.comp_apply, List.map_map]
        exact List.map_congr_left fun v _ => ht.name_eq v
      rw [hmembers, List.map_map, ← hnames]
      conv_rhs => rw [← List.zipIdx_map_fst 0 (g.arranged groups), List.map_map]
      rfl

/-- In the specimen, by label propagation with two rounds. -/
theorem communities_specimen :
    specimen.Valid ∧ specimen.Closed ∧ specimen.TextNamed ∧
    ∃ communities, (specimen.communities (.str "label_propagation") (.int 2)).outcome .empty
        = .ok communities ∧
      ∃ parts, communities.map CodeCommunity.members = parts.map (List.map Value.str) ∧
        specimen.SharedOut parts := by
  have ht := specimen_named
  have hcoerce : Tagged.coerce (.str "label_propagation")
      = .ok CommunityAlgorithm.labelPropagation := rfl
  obtain ⟨hanswers, hall⟩ := communities_shared_out specimen_valid specimen_closed ht hcoerce
    (k := 2) (by decide) .empty
  obtain ⟨communities, hok⟩ := hanswers specimen_kinds
  exact ⟨specimen_valid, specimen_closed, ht, communities, hok, (hall communities hok).2⟩

/-! ## Kinds that cannot be counted -/

/-- A list for the kind of a node. -/
def listKinded : Graph where
  nodes := [⟨.str "a", .list [.str "function"], .null, .empty⟩]
  edges := []
  cache := []
  metadata := []

/-- The nodes can be shared out, but the communities cannot be described. -/
theorem listKinded_communities_fail :
    listKinded.Valid ∧ listKinded.Closed ∧ listKinded.TextNamed ∧
    ∃ failure, (listKinded.communities (.str "louvain") (.int 1)).outcome .empty
      = .error failure := by
  have hv : listKinded.Valid :=
    ⟨⟨by simp [listKinded, Value.isScalar], by simp [listKinded]⟩, by simp [listKinded, Value.same]⟩
  have hc : listKinded.Closed := rfl
  have ht : listKinded.TextNamed := by simp [TextNamed, listKinded, Value.isText]
  refine ⟨hv, hc, ht, ?_⟩
  have hlouvain : Tagged.coerce (.str "louvain") = .ok CommunityAlgorithm.louvain := rfl
  obtain ⟨groups, hgroups, -, hperm⟩ :=
    groups_gives hv hc ht.alikeNamed .louvain (Int.le_refl 1)
  rw [outcome_communities hlouvain hgroups]
  cases hok : (listKinded.arranged groups).zipIdx.mapM fun entry =>
      listKinded.describeGroup entry.2 entry.1 with
  | error failure => exact ⟨failure, rfl⟩
  | ok communities =>
      -- Some group has the node, and describing it would count its kind.
      have hmem : (⟨0, by decide⟩ : Fin listKinded.order) ∈ (listKinded.arranged groups).flatten :=
        ((flatten_arranged_perm groups).trans hperm).mem_iff.mpr (List.mem_finRange _)
      obtain ⟨group, hgroup, hnode⟩ := List.mem_flatten.mp hmem
      rw [← List.zipIdx_map_fst 0 (listKinded.arranged groups)] at hgroup
      obtain ⟨entry, hentry, rfl⟩ := List.mem_map.mp hgroup
      obtain ⟨c, hc⟩ := Gives.of_mapM hok entry hentry
      exact absurd ((describeGroup_eq_ok hc).2.2 _ hnode) (by decide)

end Graph

end CodeGraph
