import CodeGraph.Community
import CodeGraph.Proofs.Order

/-!
# Communities are found

What could fail in a search for communities are comparisons: nodes are sorted by
name, groups by their first name, and the kinds in a group by count and name. All
of these are texts, numbers or pairs of both, and any two of a sort have an order.
The searches leave no group empty, so every group has a first name and a commonest
kind.

The searches answer if the names are all texts or all numbers (`AlikeNamed`), and
what they find is described if the kinds are texts (`describeGroup_answers`). With
texts and numbers for names there is no answer (`mixed_louvainIn`).
-/

namespace CodeGraph

/-! ## Sorting -/

namespace Value

theorem sortOn_gives {β : Type} {key : β → Value} {items : List β}
    (h : orderly (items.map key) = true) :
    Gives (sortOn key items) fun result => result.Perm items := by
  unfold sortOn
  rw [if_pos h]
  exact Gives.of_ok (List.mergeSort_perm ..)

theorem orderly_of_ints {keys : List Value} (h : ∀ key ∈ keys, ∃ n, key = .int n) :
    orderly keys = true := by
  have hall : keys.all isOrderedNumber = true := List.all_eq_true.mpr fun key hkey => by
    obtain ⟨n, rfl⟩ := h key hkey
    rfl
  simp [orderly, alike, hall]

theorem negated_gives {v : Value} (h : v.isNumber = true) :
    Gives v.negated fun n => n.isNumber = true := by
  cases v with
  | bool b => exact Gives.of_ok rfl
  | int n => exact Gives.of_ok rfl
  | float x => exact Gives.of_ok rfl
  | _ => cases h

end Value

/-! ## Tallies -/

theorem countItem_spec (counts : List (Value × Nat)) (item : Value) :
    (∀ entry ∈ countItem counts item, entry.1 ∈ counts.map Prod.fst ∨ entry.1 = item) ∧
      countItem counts item ≠ [] := by
  unfold countItem
  split
  · next hany =>
    refine ⟨fun entry hentry => .inl ?_, fun hnil => ?_⟩
    · obtain ⟨old, hold, rfl⟩ := List.mem_map.mp hentry
      have hfst : (if old.1.same item then (old.1, old.2 + 1) else old).1 = old.1 := by
        split <;> rfl
      rw [hfst]
      exact List.mem_map_of_mem hold
    · rw [List.map_eq_nil_iff] at hnil
      rw [hnil] at hany
      cases hany
  · refine ⟨fun entry hentry => ?_, by simp⟩
    rcases List.mem_append.mp hentry with hold | hnew
    · exact .inl (List.mem_map_of_mem hold)
    · exact .inr (congrArg Prod.fst (List.mem_singleton.mp hnew))

/-- What a tally counts are the items, and it is empty only if there are none. -/
theorem tally_spec (items : List Value) :
    (∀ entry ∈ tally items, entry.1 ∈ items) ∧ (items ≠ [] → tally items ≠ []) := by
  suffices ∀ counts : List (Value × Nat),
      (∀ entry ∈ items.foldl countItem counts, entry.1 ∈ counts.map Prod.fst ∨ entry.1 ∈ items) ∧
        (counts ≠ [] ∨ items ≠ [] → items.foldl countItem counts ≠ []) by
    obtain ⟨hmem, hne⟩ := this []
    exact ⟨fun entry hentry => (hmem entry hentry).resolve_left (by simp), fun h => hne (.inr h)⟩
  induction items with
  | nil => exact fun counts => ⟨fun entry hentry => .inl (List.mem_map_of_mem hentry), by simp⟩
  | cons item rest ih =>
      intro counts
      obtain ⟨hstep, hsome⟩ := countItem_spec counts item
      obtain ⟨hmem, hne⟩ := ih (countItem counts item)
      refine ⟨fun entry hentry => ?_, fun _ => hne (.inl hsome)⟩
      rcases hmem entry hentry with hold | hrest
      · obtain ⟨old, hold, heq⟩ := List.mem_map.mp hold
        rw [← heq]
        refine (hstep old hold).imp id fun hitem => ?_
        rw [hitem]
        exact List.mem_cons_self ..
      · exact .inr (List.mem_cons_of_mem _ hrest)

/-! ## Kinds -/

/-- The entries are kinds with numbers. -/
def CountsKinds (entries : Entries) : Prop :=
  ∀ entry ∈ entries, entry.1.isText = true ∧ ∃ n, entry.2 = .int n

theorem countsKinds_tally {kinds : List Value} (h : ∀ kind ∈ kinds, kind.isText = true) :
    CountsKinds (tallyEntries (tally kinds)) := by
  intro entry hentry
  obtain ⟨⟨item, count⟩, hitem, rfl⟩ := List.mem_map.mp hentry
  exact ⟨h _ ((tally_spec kinds).1 _ hitem), _, rfl⟩

theorem rankEntries_gives {entries : Entries}
    (h : ∀ entry ∈ entries, entry.1.isText = true ∧ entry.2.isNumber = true) :
    Gives (rankEntries entries) fun ranked => ranked.Perm entries := by
  unfold rankEntries
  have hkeyed : ∀ entry ∈ entries, Gives (entry.2.negated >>= fun n =>
      .ok (Value.list [n, entry.1], entry.1, entry.2)) fun keyed =>
        keyed.2 = entry ∧
          ∃ n key, keyed.1 = .list [n, key] ∧ n.isNumber = true ∧ key.isText = true := by
    intro entry hentry
    obtain ⟨htext, hnumber⟩ := h entry hentry
    exact (Value.negated_gives hnumber).bind fun n hn => Gives.of_ok ⟨rfl, n, _, rfl, hn, htext⟩
  refine (Gives.mapM hkeyed).bind fun keyed hall => ?_
  have hentries : keyed.map Prod.snd = entries := by
    clear h hkeyed
    induction hall with
    | nil => rfl
    | cons hfirst _ ih => rw [List.map_cons, hfirst.1, ih]
  have hfrom := exists_mem_of_forall₂ hall.flip
  have hcomparable : ∀ a ∈ keyed, ∀ b ∈ keyed, (Value.relate? a.1 b.1).isSome = true := by
    intro a ha b hb
    obtain ⟨_, -, -, _, _, hkey, hnumber, htext⟩ := hfrom a ha
    obtain ⟨_, -, -, _, _, hkey', hnumber', htext'⟩ := hfrom b hb
    rw [hkey, hkey']
    exact Value.relate?_pairs hnumber hnumber' htext htext'
  refine (Value.sortOn_gives_of_comparable (.inr hcomparable)).bind fun ranked hranked => ?_
  rw [← hentries]
  exact Gives.of_ok (hranked.map Prod.snd)

theorem describeRanked_gives {ranked : Entries} (h : CountsKinds ranked) (hne : ranked ≠ []) :
    Gives (describeRanked ranked) fun _ => True := by
  unfold describeRanked
  have hparts : ∀ entry ∈ ranked, Gives (describeKind entry.1 entry.2) fun _ => True := by
    intro entry hentry
    obtain ⟨htext, -⟩ := h entry hentry
    obtain ⟨kind, count⟩ := entry
    cases kind with
    | str kind =>
        unfold describeKind
        simp only [nounOf, plural]
        split <;> exact Gives.of_ok trivial
    | _ => cases htext
  refine (Gives.mapM hparts).bind fun parts _ => ?_
  cases ranked with
  | nil => exact absurd rfl hne
  | cons first rest => exact Gives.of_ok trivial

/-! ## Groups -/

/-- No group is empty: a group has at least the position it was made for. -/
theorem map_groupsOf_ne_nil {n : Nat} {β γ : Type} [DecidableEq β] (label : Fin n → β)
    (f : Fin n → γ) : ∀ group ∈ (groupsOf label).map (List.map f), group ≠ [] := by
  intro group hgroup
  obtain ⟨positions, hpositions, rfl⟩ := List.mem_map.mp hgroup
  obtain ⟨i, -, rfl⟩ := List.mem_map.mp hpositions
  refine List.ne_nil_of_mem (a := f i) (List.mem_map_of_mem ?_)
  simp

namespace Graph

variable {g : Graph} {groups : List (List (Fin g.order))}

theorem isText_name (ht : g.TextNamed) (v : Fin g.order) : (g.name v).isText = true :=
  ht _ (List.get_mem ..)

/-- Names are all texts, or all numbers, so that any two have an order. -/
def AlikeNamed (g : Graph) : Prop :=
  Value.alike (g.nodes.map Node.id) = true

theorem TextNamed.alikeNamed (ht : g.TextNamed) : g.AlikeNamed := by
  have hall : (g.nodes.map Node.id).all Value.isText = true := by
    rw [List.all_map, List.all_eq_true]
    exact ht
  simp [AlikeNamed, Value.alike, hall]

theorem AlikeNamed.orderly (ha : g.AlikeNamed) {keys : List Value}
    (hkeys : ∀ key ∈ keys, ∃ v, g.name v = key) : Value.orderly keys = true := by
  have halike : Value.alike keys = true := by
    simp only [AlikeNamed, Value.alike, Bool.or_eq_true, List.all_eq_true] at ha ⊢
    refine ha.imp (fun hall key hkey => ?_) fun hall key hkey => ?_ <;>
      (obtain ⟨v, rfl⟩ := hkeys key hkey
       exact hall _ (List.mem_map_of_mem (List.get_mem ..)))
  rw [Value.orderly, halike, Bool.true_or]

/-- Vertices in the order of their names. -/
def sortByName (g : Graph) (vs : List (Fin g.order)) : List (Fin g.order) :=
  vs.mergeSort fun a b => (g.name a).before (g.name b)

theorem sortByName_perm (vs : List (Fin g.order)) : (g.sortByName vs).Perm vs :=
  List.mergeSort_perm ..

theorem AlikeNamed.sortOn_eq (ha : g.AlikeNamed) (vs : List (Fin g.order)) :
    Value.sortOn g.name vs = .ok (g.sortByName vs) := by
  refine if_pos (ha.orderly fun key hkey => ?_)
  obtain ⟨v, -, hv⟩ := List.mem_map.mp hkey
  exact ⟨v, hv⟩

def firstName (g : Graph) (group : List (Fin g.order)) : Value :=
  (group.head?.map g.name).getD .null

/-- Groups as they are answered: sorted inside, and by their first names. -/
def arranged (g : Graph) (groups : List (List (Fin g.order))) : List (List (Fin g.order)) :=
  (groups.map g.sortByName).mergeSort fun a b => (g.firstName a).before (g.firstName b)

theorem arranged_perm (groups : List (List (Fin g.order))) :
    (g.arranged groups).Perm (groups.map g.sortByName) :=
  List.mergeSort_perm ..

theorem sortByName_ne_nil {group : List (Fin g.order)} (h : group ≠ []) :
    g.sortByName group ≠ [] := by
  intro hnil
  have hperm := g.sortByName_perm group
  rw [hnil] at hperm
  exact h hperm.nil_eq.symm

theorem arranged_ne_nil (hgroups : ∀ group ∈ groups, group ≠ []) :
    ∀ group ∈ g.arranged groups, group ≠ [] := by
  intro group hgroup
  obtain ⟨group', hgroup', rfl⟩ := List.mem_map.mp ((arranged_perm groups).mem_iff.mp hgroup)
  exact sortByName_ne_nil (hgroups group' hgroup')

theorem AlikeNamed.arrange_eq (ha : g.AlikeNamed) (hgroups : ∀ group ∈ groups, group ≠ []) :
    g.arrange groups = .ok (g.arranged groups) := by
  have hinside : groups.mapM (Value.sortOn g.name) = .ok (groups.map g.sortByName) :=
    Gives.mapM_eq_ok fun group _ => ha.sortOn_eq group
  unfold arrange
  rw [hinside]
  refine if_pos (ha.orderly fun key hkey => ?_)
  simp only [List.map_map, List.mem_map, Function.comp_apply] at hkey
  obtain ⟨group, hgroup, rfl⟩ := hkey
  obtain ⟨v, rest, hcons⟩ := List.exists_cons_of_ne_nil (sortByName_ne_nil (hgroups group hgroup))
  exact ⟨v, by rw [hcons]; rfl⟩

theorem louvainLevels_ne_nil (α : Type) [Scalar α] (index : Index g.order)
    (vs : List (Fin g.order)) : ∀ group ∈ (g.louvainLevels α index vs).2, group ≠ [] :=
  map_groupsOf_ne_nil _ _

theorem propagate_ne_nil (index : Index g.order) (vs : List (Fin g.order)) (limit : Nat) :
    ∀ group ∈ (g.propagate index vs limit).2, group ≠ [] :=
  map_groupsOf_ne_nil _ _

theorem louvainIn_gives (α : Type) [Scalar α] (hv : g.Valid) (hc : g.Closed) (ha : g.AlikeNamed) :
    Logged.Gives (g.louvainIn α) (· = g.arranged (g.louvainLevels α (Index.ofArcs (g.arcs keepAll))
      (g.sortByName g.vertices)).2) := by
  have hnil : ∀ index, (g.louvainLevels α index []).2 = [] := by
    intro index
    simp [louvainLevels, groupsOf]
  unfold louvainIn byName
  rw [index_eq_pure hv hc, pure_bind, ha.sortOn_eq, Logged.lift_ok, pure_bind]
  generalize g.sortByName g.vertices = vs
  by_cases hempty : vs.isEmpty = true
  · rw [if_pos hempty, List.isEmpty_iff.mp hempty, hnil]
    exact Logged.Gives.of_pure (by simp [arranged])
  · rw [if_neg hempty]
    simp only [ha.arrange_eq (louvainLevels_ne_nil _ _ _), Logged.lift_ok, pure_bind]
    exact (Logged.Gives.debug _ _ _).bind fun _ _ => Logged.Gives.of_pure rfl

theorem labelPropagation_gives (hv : g.Valid) (hc : g.Closed) (ha : g.AlikeNamed) {k : Int}
    (hk : 1 ≤ k) :
    Logged.Gives (g.labelPropagation (.int k)) (· = g.arranged (g.propagate
      (Index.ofArcs (g.arcs keepAll)) (g.sortByName g.vertices) k.toNat).2) := by
  have hlt : Value.lt (.int k) (.int 1) = .ok false := by
    rw [Value.lt_int, decide_eq_false (by omega)]
  unfold labelPropagation byName
  rw [hlt, index_eq_pure hv hc, ha.sortOn_eq]
  simp only [Logged.lift_ok, pure_bind, Value.asInt?, ha.arrange_eq (propagate_ne_nil _ _ _)]
  exact (Logged.Gives.debug _ _ _).bind fun _ _ => Logged.Gives.of_pure rfl

/-- Texts for kinds can be counted, ranked and put into words. -/
theorem describeGroup_answers (hk : ∀ node ∈ g.nodes, node.kind.isText = true) (id : Nat)
    {group : List (Fin g.order)} (hgroup : group ≠ []) :
    Gives (g.describeGroup id group) fun c => c.id = .int id ∧ c.members = g.names group := by
  have hkinds : ∀ kind ∈ group.map fun v => (g.nodeAt v).kind, kind.isText = true := by
    intro kind hkind
    obtain ⟨v, -, rfl⟩ := List.mem_map.mp hkind
    exact hk _ (List.get_mem ..)
  have hscalar : (group.map fun v => (g.nodeAt v).kind).forM Value.hashable = .ok () :=
    Gives.forM fun kind hkind =>
      Value.hashable_eq_ok.mpr (Value.isScalar_of_isText (hkinds kind hkind))
  have hcounts := countsKinds_tally hkinds
  unfold describeGroup
  simp only [hscalar]
  refine (rankEntries_gives fun entry hentry => ?_).bind fun ranked hperm => ?_
  · obtain ⟨htext, n, hn⟩ := hcounts entry hentry
    exact ⟨htext, hn ▸ rfl⟩
  have hranked : CountsKinds ranked := fun entry hentry => hcounts entry (hperm.mem_iff.mp hentry)
  have hne : ranked ≠ [] := by
    rintro rfl
    have hnil := hperm.nil_eq
    rw [tallyEntries, eq_comm, List.map_eq_nil_iff] at hnil
    exact (tally_spec _).2 (by simpa using hgroup) hnil
  exact (describeRanked_gives hranked hne).bind fun description _ => Gives.of_ok ⟨rfl, rfl⟩

/-- Describing groups writes nothing down. -/
theorem mapM_describeGroup (groups : List (List (Fin g.order))) :
    (groups.zipIdx.mapM fun entry =>
        (liftM (g.describeGroup entry.2 entry.1) : Logged CodeCommunity))
      = liftM (groups.zipIdx.mapM fun entry => g.describeGroup entry.2 entry.1) :=
  Logged.mapM_lift ..

theorem outcome_communities {given : Value} {algorithm : CommunityAlgorithm} {maxRounds : Value}
    (hgiven : Tagged.coerce given = .ok algorithm)
    (hgroups : Logged.Gives (g.groups algorithm maxRounds) (· = groups)) (journal : Journal) :
    (g.communities given maxRounds).outcome journal
      = groups.zipIdx.mapM fun entry => g.describeGroup entry.2 entry.1 := by
  unfold communities
  rw [hgiven, Logged.lift_ok, pure_bind]
  obtain ⟨journal', hjournal⟩ := hgroups.outcome_bind journal
  rw [hjournal, mapM_describeGroup]
  cases groups.zipIdx.mapM fun entry => g.describeGroup entry.2 entry.1 <;> rfl

/-! ## Names of different sorts -/

/-- A text and a number for names. -/
def mixed : Graph where
  nodes := [specimenNode "a", ⟨.int 1, .str "function", .null, .empty⟩]
  edges := [⟨.str "a1", .str "a", .int 1, .callGraph, .null, .empty⟩]
  cache := []
  metadata := []

theorem mixed_valid : mixed.Valid where
  scalar := by simp [mixed, specimenNode, Value.isScalar]
  distinct := by simp [mixed, specimenNode, Value.same, Value.relateNumbers?, Value.asInt?]
  same := by decide +kernel

theorem mixed_vertex :
    mixed.vertex? (.str "a") = some ⟨0, by decide⟩ ∧
      mixed.vertex? (.int 1) = some ⟨1, by decide⟩ := by
  constructor <;>
    simp [vertex?, mixed, specimenNode, Value.same, Value.relateNumbers?, Value.asInt?,
      List.findFinIdx?, List.findFinIdx?.go] <;>
    rfl

theorem mixed_closed : mixed.Closed := by
  obtain ⟨ha, hone⟩ := mixed_vertex
  refine closed_iff.mpr fun e he => ?_
  obtain rfl := List.mem_singleton.mp he
  exact ⟨_, _, ha, hone⟩

theorem mixed_byName : ∃ failure, mixed.byName = .error failure :=
  ⟨_, rfl⟩

theorem mixed_louvainIn (α : Type) [Scalar α] : ∃ failure,
    mixed.louvainIn α = liftM (.error failure : Except Failure _) := by
  obtain ⟨failure, hfailure⟩ := mixed_byName
  refine ⟨failure, ?_⟩
  unfold louvainIn
  rw [index_eq_pure mixed_valid mixed_closed, pure_bind, hfailure, Logged.lift_error_bind]

theorem mixed_communities (maxRounds : Value) : ∃ failure,
    mixed.communities (.str "louvain") maxRounds = liftM (.error failure : Except Failure _) := by
  have hlouvain : Tagged.coerce (.str "louvain") = .ok CommunityAlgorithm.louvain := rfl
  obtain ⟨failure, hfailure⟩ := mixed_louvainIn Float
  refine ⟨failure, ?_⟩
  unfold communities
  rw [hlouvain, Logged.lift_ok, pure_bind]
  simp only [groups, louvain]
  rw [hfailure, Logged.lift_error_bind]

end Graph

end CodeGraph
