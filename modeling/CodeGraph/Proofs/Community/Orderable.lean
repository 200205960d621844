import Mathlib.Data.Fin.Basic
import Mathlib.Data.Fintype.Card
import CodeGraph.Proofs.Community.Partition
import CodeGraph.Proofs.Order

/-!
# Names that can be compared

The weakest condition on names under which nodes can be put in order: any two
can be compared. They are all texts or all numbers; a single name may be
anything. Sorting then gives an answer, and so does arranging groups
(`Orderable.arrange_gives`). With texts for kinds the communities are described
too (`Orderable.communities_gives`).
-/

namespace CodeGraph

namespace Graph

variable {g : Graph}

def Orderable (g : Graph) : Prop :=
  ∀ v w : Fin g.order, v ≠ w → (Value.relate? (g.name v) (g.name w)).isSome = true

theorem Valid.scalar_name (hv : g.Valid) (v : Fin g.order) : (g.name v).isScalar = true :=
  hv.scalar _ (List.get_mem ..)

theorem Valid.not_same (hv : g.Valid) {v w : Fin g.order} (h : v < w) :
    (g.name v).same (g.name w) = false :=
  List.pairwise_iff_get.mp hv.distinct v w h

theorem TextNamed.orderable (ht : g.TextNamed) : g.Orderable := by
  intro v w _
  obtain ⟨s, hs⟩ := Value.isText_iff.mp (isText_name ht v)
  obtain ⟨t, ht⟩ := Value.isText_iff.mp (isText_name ht w)
  rw [hs, ht]
  rfl

/-- With a second node about, a name can also be compared with itself. -/
theorem Orderable.comparable (ho : g.Orderable) (hv : g.Valid) (horder : 1 < g.order)
    (v w : Fin g.order) : (Value.relate? (g.name v) (g.name w)).isSome = true := by
  by_cases hne : v = w
  · subst hne
    have : Nontrivial (Fin g.order) := Fin.nontrivial_iff_two_le.mpr horder
    obtain ⟨u, hu⟩ := exists_ne v
    exact Value.relate?_self (hv.scalar_name v) (ho v u hu.symm)
  · exact ho v w hne

theorem Orderable.sortOn_gives (ho : g.Orderable) (hv : g.Valid) {vs : List (Fin g.order)}
    (hnodup : vs.Nodup) : Gives (Value.sortOn g.name vs) fun sorted => sorted.Perm vs := by
  refine Value.sortOn_gives_of_comparable ?_
  rcases le_or_gt g.order 1 with horder | horder
  · left
    have hcard := hnodup.length_le_card
    rw [Fintype.card_fin] at hcard
    omega
  · exact .inr fun v _ w _ => ho.comparable hv horder v w

theorem length_le_length_flatten {β : Type} {groups : List (List β)}
    (h : ∀ group ∈ groups, group ≠ []) : groups.length ≤ groups.flatten.length := by
  induction groups with
  | nil => exact le_refl _
  | cons group rest ih =>
    obtain ⟨hgroup, hrest⟩ := List.forall_mem_cons.mp h
    have hpos := List.length_pos_iff.mpr hgroup
    have hle := ih hrest
    rw [List.flatten_cons, List.length_append, List.length_cons]
    omega

theorem perm_of_arrange {found groups : List (List (Fin g.order))}
    (h : g.arrange found = .ok groups) :
    (∀ A ∈ groups, ∃ B ∈ found, A.Perm B) ∧ ∀ B ∈ found, ∃ A ∈ groups, A.Perm B := by
  obtain ⟨sorted, hsorted, h⟩ := bind_eq_ok.mp h
  have hinside : List.Forall₂ (fun B A => A.Perm B) found sorted :=
    (Gives.forall₂_of_mapM hsorted).imp fun _ _ => Value.sortOn_perm
  have hperm := Value.sortOn_perm h
  constructor
  · exact fun A hA => exists_mem_of_forall₂ hinside.flip A (hperm.mem_iff.mp hA)
  · intro B hB
    obtain ⟨A, hA, hAB⟩ := exists_mem_of_forall₂ hinside B hB
    exact ⟨A, hperm.mem_iff.mpr hA, hAB⟩

/-- Groups are answered as they were found, with their members and themselves in other orders. -/
theorem Orderable.arrange_gives (ho : g.Orderable) (hv : g.Valid)
    {groups : List (List (Fin g.order))} (hne : ∀ group ∈ groups, group ≠ [])
    (hperm : groups.flatten.Perm g.vertices) :
    Gives (g.arrange groups) fun arranged =>
      (∀ A ∈ arranged, ∃ B ∈ groups, A.Perm B) ∧ ∀ B ∈ groups, ∃ A ∈ arranged, A.Perm B := by
  have hnodup : groups.flatten.Nodup := hperm.nodup_iff.mpr (List.nodup_finRange _)
  have hinside : ∀ group ∈ groups,
      Gives (Value.sortOn g.name group) fun sorted => sorted.Perm group := fun group hgroup =>
    ho.sortOn_gives hv ((List.nodup_flatten.mp hnodup).1 group hgroup)
  obtain ⟨sorted, hanswer, hsorted⟩ := Gives.mapM hinside
  have hfrom : ∀ A ∈ sorted, ∃ B ∈ groups, A.Perm B := exists_mem_of_forall₂ hsorted.flip
  have hsome : ∀ A ∈ sorted, ∃ v, (A.head?.map g.name).getD .null = g.name v := by
    intro A hA
    obtain ⟨B, hB, hAB⟩ := hfrom A hA
    cases A with
    | nil => exact absurd hAB.nil_eq.symm (hne B hB)
    | cons v rest => exact ⟨v, rfl⟩
  have hkeys : sorted.length ≤ 1 ∨ ∀ A ∈ sorted, ∀ B ∈ sorted,
      (Value.relate? ((A.head?.map g.name).getD .null) ((B.head?.map g.name).getD .null)).isSome
        = true := by
    rcases le_or_gt g.order 1 with horder | horder
    · left
      have hlength := length_le_length_flatten hne
      rw [hperm.length_eq, vertices, List.length_finRange] at hlength
      rw [← hsorted.length_eq]
      omega
    · right
      intro A hA B hB
      obtain ⟨v, hv'⟩ := hsome A hA
      obtain ⟨w, hw⟩ := hsome B hB
      rw [hv', hw]
      exact ho.comparable hv horder v w
  obtain ⟨arranged, harranged, -⟩ := Value.sortOn_gives_of_comparable hkeys
  have harrange : g.arrange groups = .ok arranged := bind_eq_ok.mpr ⟨sorted, hanswer, harranged⟩
  exact ⟨arranged, harrange, perm_of_arrange harrange⟩

/-! ## The searches answer -/

theorem outcome_louvainIn_of_byName (α : Type) [Scalar α] (hv : g.Valid) (hc : g.Closed)
    {vs : List (Fin g.order)} (hvs : g.byName = .ok vs) (hne : vs ≠ []) (journal : Journal) :
    (g.louvainIn α).outcome journal
      = g.arrange (g.louvainLevels α (Index.ofArcs (g.arcs keepAll)) vs).2 := by
  have hempty : ¬ vs.isEmpty = true := by simpa using hne
  unfold louvainIn
  rw [index_eq_pure hv hc, pure_bind, hvs, Logged.lift_ok, pure_bind, if_neg hempty]
  dsimp only
  cases g.arrange (g.louvainLevels α (Index.ofArcs (g.arcs keepAll)) vs).2 <;> rfl

/-- Without an order of the names, or without nodes, no level is begun. -/
theorem outcome_louvainIn_unbegun (α : Type) [Scalar α] (hv : g.Valid) (hc : g.Closed)
    (journal : Journal) :
    (∀ failure, g.byName = .error failure →
      (g.louvainIn α).outcome journal = .error failure) ∧
    (g.byName = .ok [] → (g.louvainIn α).outcome journal = .ok []) := by
  unfold louvainIn
  rw [index_eq_pure hv hc, pure_bind]
  constructor
  · intro failure hfailure
    rw [hfailure, Logged.lift_error_bind]
    rfl
  · intro hnone
    rw [hnone]
    rfl

theorem outcome_labelPropagation_of_byName (hv : g.Valid) (hc : g.Closed)
    {vs : List (Fin g.order)} (hvs : g.byName = .ok vs) {k : Int} (hk : 1 ≤ k)
    (journal : Journal) :
    (g.labelPropagation (.int k)).outcome journal
      = g.arrange (g.propagate (Index.ofArcs (g.arcs keepAll)) vs k.toNat).2 := by
  have hlt : Value.lt (.int k) (.int 1) = .ok false := by
    rw [Value.lt_int, decide_eq_false (by omega)]
  unfold labelPropagation
  rw [hlt, index_eq_pure hv hc, hvs]
  simp only [Logged.lift_ok, pure_bind, Value.asInt?]
  cases g.arrange (g.propagate (Index.ofArcs (g.arcs keepAll)) vs k.toNat).2 <;> rfl

/-- Positions grouped by label and given their vertices are arranged without an empty group. -/
theorem Orderable.arrange_groupsOf_gives (ho : g.Orderable) (hv : g.Valid)
    {vs : List (Fin g.order)} (hperm : vs.Perm g.vertices) {β : Type} [DecidableEq β]
    (label : Fin vs.length → β) :
    Gives (g.arrange ((groupsOf label).map fun group => group.map vs.get)) fun arranged =>
      ∀ A ∈ arranged, A ≠ [] := by
  have hne := map_groupsOf_ne_nil label vs.get
  refine (ho.arrange_gives hv hne ((flatten_map_groupsOf_perm vs label).trans hperm)).imp
    fun arranged hfrom A hA => ?_
  obtain ⟨B, hB, hAB⟩ := hfrom.1 A hA
  rintro rfl
  exact hne B hB hAB.nil_eq.symm

theorem Orderable.groups_gives (ho : g.Orderable) (hv : g.Valid) (hc : g.Closed)
    (algorithm : CommunityAlgorithm) {k : Int} (hk : 1 ≤ k) :
    ∃ groups, Logged.Gives (g.groups algorithm (.int k)) (· = groups) ∧
      ∀ group ∈ groups, group ≠ [] := by
  obtain ⟨vs, hvs, hperm⟩ := ho.sortOn_gives hv (List.nodup_finRange g.order)
  cases algorithm with
  | louvain =>
    by_cases hempty : vs = []
    · subst hempty
      refine ⟨[], Logged.Gives.of_outcome fun journal => ⟨[], ?_, rfl⟩, by simp⟩
      change (g.louvainIn Float).outcome journal = .ok []
      exact (outcome_louvainIn_unbegun Float hv hc journal).2 hvs
    · obtain ⟨groups, hgroups, hne⟩ := ho.arrange_groupsOf_gives hv hperm
        (Louvain.levels (Network.ofIndex (Index.ofArcs (g.arcs keepAll)) vs : Network _ Float)).2.get
      refine ⟨groups, Logged.Gives.of_outcome fun journal => ⟨groups, ?_, rfl⟩, hne⟩
      exact (outcome_louvainIn_of_byName Float hv hc hvs hempty journal).trans hgroups
  | labelPropagation =>
    obtain ⟨groups, hgroups, hne⟩ := ho.arrange_groupsOf_gives hv hperm
      (Propagation.rounds (Propagation.Links.ofIndex (Index.ofArcs (g.arcs keepAll)) vs)
        (fun i j => (g.name (vs.get i)).precedes (g.name (vs.get j))) k.toNat
        (Labelling.singletons vs.length)).2.get
    refine ⟨groups, Logged.Gives.of_outcome fun journal => ⟨groups, ?_, rfl⟩, hne⟩
    exact (outcome_labelPropagation_of_byName hv hc hvs hk journal).trans hgroups

/-- Communities are identified if any two names can be compared and the kinds are texts. -/
theorem Orderable.communities_gives (ho : g.Orderable) (hv : g.Valid) (hc : g.Closed)
    (hk : ∀ node ∈ g.nodes, node.kind.isText = true) {given : Value}
    {algorithm : CommunityAlgorithm} (hgiven : Tagged.coerce given = .ok algorithm) {k : Int}
    (hrounds : 1 ≤ k) : Logged.Gives (g.communities given (.int k)) fun _ => True := by
  obtain ⟨groups, hgroups, hne⟩ := ho.groups_gives hv hc algorithm hrounds
  have hdescribed : ∀ entry ∈ groups.zipIdx, Gives (g.describeGroup entry.2 entry.1) fun c =>
      c.id = .int entry.2 ∧ c.members = g.names entry.1 := fun entry hentry =>
    describeGroup_answers hk entry.2 (hne _ (List.fst_mem_of_mem_zipIdx hentry))
  refine Logged.Gives.of_outcome fun journal => ?_
  rw [outcome_communities hgiven hgroups]
  exact (Gives.mapM hdescribed).imp fun _ _ => trivial

end Graph

end CodeGraph
