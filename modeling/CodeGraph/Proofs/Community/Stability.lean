import CodeGraph.Proofs.Community.Excess
import CodeGraph.Proofs.Community.Orderable
import CodeGraph.Proofs.Community.Propagation

/-!
# Stable communities

Label propagation on a snapshot, with its result read in edges. Positions are
the nodes in the order of their names, and what a position counts are the edges
of its node (`support_eq_edgesTo`), so that rest of the labels is stability of
the communities: the label of a node is the least of those that most of its
edges lead to (`Graph.Stable`).
-/

namespace CodeGraph

/-! ## Edges -/

theorem sum_ends {n : Nat} (a b v : Fin n) (P : Fin n → Prop) [DecidablePred P] :
    (∑ w, if P w ∧ v ≠ w then
        (if a = v ∧ b = w then 1 else 0) + (if a = w ∧ b = v then 1 else 0) else 0)
      = if a ≠ b ∧ (a = v ∧ P b ∨ b = v ∧ P a) then 1 else 0 := by
  have hterm : ∀ w, (if P w ∧ v ≠ w then
        (if a = v ∧ b = w then 1 else 0) + (if a = w ∧ b = v then 1 else 0) else 0)
      = (if w = b then if P b ∧ v ≠ b ∧ a = v then 1 else 0 else 0)
        + if w = a then if P a ∧ v ≠ a ∧ b = v then 1 else 0 else 0 := by
    intro w
    grind
  simp only [hterm, Finset.sum_add_distrib, Finset.sum_ite_eq', Finset.mem_univ, if_true]
  grind

theorem sum_multiplicity {n : Nat} (arcs : List (Arc n)) (v : Fin n) (P : Fin n → Prop)
    [DecidablePred P] :
    (∑ w, if P w then (Index.ofArcs arcs).multiplicity v w else 0)
      = arcs.countP fun arc => arc.source ≠ arc.target ∧
          (arc.source = v ∧ P arc.target ∨ arc.target = v ∧ P arc.source) := by
  have hterm : ∀ w, (if P w then (Index.ofArcs arcs).multiplicity v w else 0)
      = if P w ∧ v ≠ w then countArcs arcs v w + countArcs arcs w v else 0 := by
    intro w
    by_cases hvw : v = w
    · subst hvw
      simp [Index.multiplicity_self]
    · simp [hvw, Index.multiplicity_ofArcs arcs hvw]
  simp only [hterm]
  clear hterm
  induction arcs with
  | nil => simp [countArcs]
  | cons arc rest ih =>
    have hcount : ∀ w, (if P w ∧ v ≠ w then
          countArcs (arc :: rest) v w + countArcs (arc :: rest) w v else 0)
        = (if P w ∧ v ≠ w then countArcs rest v w + countArcs rest w v else 0)
          + if P w ∧ v ≠ w then (if arc.source = v ∧ arc.target = w then 1 else 0)
            + (if arc.source = w ∧ arc.target = v then 1 else 0) else 0 := by
      intro w
      simp only [countArcs, List.countP_cons, decide_eq_true_eq]
      split <;> omega
    simp only [hcount, Finset.sum_add_distrib, ih, sum_ends, List.countP_cons, decide_eq_true_eq]

namespace Graph

variable {g : Graph}

def Joins (g : Graph) (e : Edge) (v w : Fin g.order) : Prop :=
  g.vertex? e.source = some v ∧ g.vertex? e.target = some w ∨
    g.vertex? e.source = some w ∧ g.vertex? e.target = some v

instance (e : Edge) (v w : Fin g.order) : Decidable (g.Joins e v w) :=
  inferInstanceAs (Decidable (_ ∨ _))

/-- Edges between a vertex and others with a property. -/
def edgesTo (g : Graph) (v : Fin g.order) (P : Fin g.order → Prop) [DecidablePred P] : Nat :=
  g.edges.countP fun e => ∃ w, w ≠ v ∧ P w ∧ g.Joins e v w

theorem edgesTo_congr (v : Fin g.order) {P Q : Fin g.order → Prop} [DecidablePred P]
    [DecidablePred Q] (h : ∀ w, P w ↔ Q w) : g.edgesTo v P = g.edgesTo v Q :=
  List.countP_congr fun e _ => by simp only [h]

theorem edgesTo_eq_sum (hc : g.Closed) (v : Fin g.order) (P : Fin g.order → Prop)
    [DecidablePred P] :
    g.edgesTo v P
      = ∑ w, if P w then (Index.ofArcs (g.arcs keepAll)).multiplicity v w else 0 := by
  have hall : g.edges.filter keepAll = g.edges := List.filter_eq_self.mpr fun _ _ => rfl
  rw [sum_multiplicity, edgesTo, arcs, hall, List.countP_filterMap]
  refine List.countP_congr fun e he => ?_
  obtain ⟨a, b, ha, hb⟩ := closed_iff.mp hc e he
  have harc : g.arc? e = some ⟨e, a, b⟩ := arc?_eq_some.mpr ⟨rfl, ha, hb⟩
  simp only [harc, Joins, ha, hb, Option.some.injEq, Option.map_some, Option.getD_some,
    decide_eq_true_eq]
  constructor
  · rintro ⟨w, hw, hP, ⟨rfl, rfl⟩ | ⟨rfl, rfl⟩⟩
    · exact ⟨hw.symm, .inl ⟨rfl, hP⟩⟩
    · exact ⟨hw, .inr ⟨rfl, hP⟩⟩
  · rintro ⟨hne, ⟨rfl, hP⟩ | ⟨rfl, hP⟩⟩
    · exact ⟨b, hne.symm, hP, .inl ⟨rfl, rfl⟩⟩
    · exact ⟨a, hne, hP, .inr ⟨rfl, rfl⟩⟩

end Graph

/-! ## Positions -/

namespace Propagation

open CodeGraph.Graph

variable {g : Graph} {vs : List (Fin g.order)}

theorem between_ofIndex {n : Nat} (index : Index n) {vs : List (Fin n)} (i j : Fin vs.length) :
    between (Links.ofIndex index vs) i j = index.multiplicity (vs.get i) (vs.get j) := by
  rw [between, Links.ofIndex, Table.get_ofFn, Table.get_ofFn]
  rfl

/-- The ties of a snapshot by position. -/
def linksOf (g : Graph) (vs : List (Fin g.order)) : Links vs.length :=
  Links.ofIndex (Index.ofArcs (g.arcs keepAll)) vs

def belowOf (g : Graph) (vs : List (Fin g.order)) (i j : Fin vs.length) : Bool :=
  (g.name (vs.get i)).precedes (g.name (vs.get j))

theorem regular_of_orderable (hv : g.Valid) (ho : g.Orderable) (hvs : vs.Perm g.vertices) :
    Regular (linksOf g vs) (belowOf g vs) where
  symm i j := by
    rw [linksOf, between_ofIndex, between_ofIndex, Index.multiplicity_comm]
  diag i := by
    rw [linksOf, between_ofIndex, Index.multiplicity_self]
  irrefl i := Value.not_precedes_self (hv.scalar_name _)
  trans := Value.precedes_trans (hv.scalar_name _) (hv.scalar_name _)
  total {i j} hne := by
    have hget : vs.get i ≠ vs.get j := (Network.get_bijective hvs).1.ne hne
    have hii := hv.same _ (List.get_mem g.nodes (vs.get i))
    have hjj := hv.same _ (List.get_mem g.nodes (vs.get j))
    rcases lt_or_gt_of_ne hget with hlt | hlt
    · exact Value.precedes_or_precedes (hv.scalar_name _) (hv.scalar_name _) hii hjj (ho _ _ hget)
        (hv.not_same hlt)
    · exact (Value.precedes_or_precedes (hv.scalar_name _) (hv.scalar_name _) hjj hii
        (ho _ _ hget.symm) (hv.not_same hlt)).symm

/-- The support of a label is what its position is tied to, vertex for vertex. -/
theorem support_eq_edgesTo (hc : g.Closed) (hvs : vs.Perm g.vertices) {labels : Labelling vs.length}
    {label : Fin g.order → Fin g.order} (hlabel : ∀ i, label (vs.get i) = vs.get (labels.get i))
    (i c : Fin vs.length) :
    support (linksOf g vs) labels i c = g.edgesTo (vs.get i) fun w => label w = vs.get c := by
  have hbijective := Network.get_bijective hvs
  rw [support_eq, Finset.sum_filter, edgesTo_eq_sum hc, ← hbijective.sum_comp]
  refine Finset.sum_congr rfl fun j _ => ?_
  rw [hlabel, linksOf, between_ofIndex]
  simp only [hbijective.1.eq_iff]

end Propagation

namespace Graph

variable {g : Graph}

/-- The last of the rounds has changed nothing. -/
structure AtRest (g : Graph) (vs : List (Fin g.order)) (count : Nat)
    (labels : Labelling vs.length) : Prop where
  pos : 0 < count
  reached : (Propagation.round (Propagation.linksOf g vs) (Propagation.belowOf g vs))^[count - 1]
    (Labelling.singletons vs.length) = labels
  unchanged : Propagation.round (Propagation.linksOf g vs) (Propagation.belowOf g vs) labels
    = labels

/-- No label has more edges to it than the own one of a vertex, and those with as many come after
it, unless no edge leads to another vertex at all. -/
structure Stable (g : Graph) (label : Fin g.order → Fin g.order) : Prop where
  most : ∀ v c, g.edgesTo v (fun w => label w = c) ≤ g.edgesTo v fun w => label w = label v
  least : ∀ v w e, e ∈ g.edges → w ≠ v → g.Joins e v w → ∀ c,
    g.edgesTo v (fun w => label w = c) = g.edgesTo v (fun w => label w = label v) →
      c = label v ∨ (g.name (label v)).lt (g.name c) = .ok true

theorem stable_of_settled (hc : g.Closed) {vs : List (Fin g.order)} (hvs : vs.Perm g.vertices)
    {labels : Labelling vs.length} {label : Fin g.order → Fin g.order}
    (hlabel : ∀ i, label (vs.get i) = vs.get (labels.get i))
    (h : ∀ i, Propagation.Settled (Propagation.linksOf g vs) (Propagation.belowOf g vs) labels i) :
    g.Stable label := by
  have hsurjective := (Network.get_bijective hvs).2
  have hsupport := Propagation.support_eq_edgesTo hc hvs hlabel
  have hconnected : ∀ i c, 0 < g.edgesTo (vs.get i) (fun w => label w = vs.get c) →
      Propagation.Connected (Propagation.linksOf g vs) i := by
    intro i c hpos
    rw [← hsupport] at hpos
    obtain ⟨j, hj, -⟩ := Propagation.support_pos_iff.mp hpos
    exact ⟨j, hj⟩
  constructor
  · intro v c
    obtain ⟨i, rfl⟩ := hsurjective v
    obtain ⟨c, rfl⟩ := hsurjective c
    rcases Nat.eq_zero_or_pos (g.edgesTo (vs.get i) fun w => label w = vs.get c) with hzero | hpos
    · rw [hzero]
      exact Nat.zero_le _
    · rw [hlabel, ← hsupport, ← hsupport]
      exact (h i (hconnected i c hpos)).most c
  · intro v w e he hw hjoins c heq
    obtain ⟨i, rfl⟩ := hsurjective v
    obtain ⟨c, rfl⟩ := hsurjective c
    obtain ⟨d, hd⟩ := hsurjective (label w)
    have hpos : 0 < g.edgesTo (vs.get i) fun u => label u = vs.get d :=
      List.countP_pos_iff.mpr ⟨e, he, decide_eq_true ⟨w, hw, hd.symm, hjoins⟩⟩
    rw [hlabel] at heq ⊢
    rw [← hsupport, ← hsupport] at heq
    rcases (h i (hconnected i d hpos)).least c heq with rfl | hbelow
    · exact .inl rfl
    · exact .inr (Value.lt_of_precedes hbelow)

/-- The groups are the classes of vertices with one label. -/
structure GroupedBy (label : Fin g.order → Fin g.order) (groups : List (List (Fin g.order))) :
    Prop where
  class_of : ∀ A ∈ groups, ∃ v, ∀ w, w ∈ A ↔ label w = label v
  covers : ∀ v, ∃ A ∈ groups, v ∈ A

theorem groupedBy_of_perm {vs : List (Fin g.order)} (hvs : vs.Perm g.vertices)
    {labels : Labelling vs.length} {label : Fin g.order → Fin g.order}
    (hlabel : ∀ i, label (vs.get i) = vs.get (labels.get i)) {groups : List (List (Fin g.order))}
    (hfrom : ∀ A ∈ groups, ∃ B ∈ (groupsOf labels.get).map (List.map vs.get), A.Perm B)
    (hto : ∀ B ∈ (groupsOf labels.get).map (List.map vs.get), ∃ A ∈ groups, A.Perm B) :
    GroupedBy label groups := by
  obtain ⟨hinjective, hsurjective⟩ := Network.get_bijective hvs
  constructor
  · intro A hA
    obtain ⟨B, hB, hAB⟩ := hfrom A hA
    obtain ⟨positions, hpositions, rfl⟩ := List.mem_map.mp hB
    obtain ⟨i, rfl⟩ := (mem_groupsOf _).mp hpositions
    refine ⟨vs.get i, fun w => ?_⟩
    obtain ⟨j, rfl⟩ := hsurjective w
    rw [hAB.mem_iff, List.mem_map_of_injective hinjective, hlabel, hlabel, hinjective.eq_iff]
    simp
  · intro v
    obtain ⟨i, rfl⟩ := hsurjective v
    obtain ⟨A, hA, hAB⟩ := hto _ (List.mem_map_of_mem ((mem_groupsOf _).mpr ⟨i, rfl⟩))
    exact ⟨A, hA, hAB.mem_iff.mpr (List.mem_map_of_mem (by simp))⟩

/-- No vertex has more edges into another community than into its own. -/
theorem Stable.edgesTo_le {label : Fin g.order → Fin g.order} (h : g.Stable label)
    {groups : List (List (Fin g.order))} (hgroups : GroupedBy label groups)
    {A B : List (Fin g.order)} (hA : A ∈ groups) (hB : B ∈ groups) {v : Fin g.order} (hv : v ∈ A) :
    g.edgesTo v (fun w => w ∈ B) ≤ g.edgesTo v fun w => w ∈ A := by
  obtain ⟨a, ha⟩ := hgroups.class_of A hA
  obtain ⟨b, hb⟩ := hgroups.class_of B hB
  rw [edgesTo_congr v hb, edgesTo_congr v ha, ← (ha v).mp hv]
  exact h.most v (label b)

/-! ## Rest -/

/-- Where any two names can be compared, label propagation comes to rest: given rounds enough, the
last one that is run changes nothing, and the communities are the same however many more were
allowed. Every label is then the least of those that most edges lead to, and no vertex has more
edges into another community than into its own. -/
theorem labelPropagation_comes_to_rest (hv : g.Valid) (hc : g.Closed) (ho : g.Orderable) :
    ∃ (count : Nat) (vs : List (Fin g.order)) (labels : Labelling vs.length)
      (label : Fin g.order → Fin g.order) (groups : List (List (Fin g.order))),
      g.byName = .ok vs ∧ vs.Perm g.vertices ∧
      (∀ i, label (vs.get i) = vs.get (labels.get i)) ∧
      g.AtRest vs count labels ∧
      (∀ k : Int, count ≤ k →
        Propagation.rounds (Propagation.linksOf g vs) (Propagation.belowOf g vs) k.toNat
          (Labelling.singletons vs.length) = (count, labels) ∧
        ∀ journal, (g.labelPropagation (.int k)).outcome journal = .ok groups) ∧
      g.Stable label ∧ GroupedBy label groups ∧
      ∀ A ∈ groups, ∀ B ∈ groups, ∀ v ∈ A,
        g.edgesTo v (fun w => w ∈ B) ≤ g.edgesTo v fun w => w ∈ A := by
  obtain ⟨vs, hvs, hperm⟩ := ho.sortOn_gives hv (List.nodup_finRange g.order)
  obtain ⟨count, labels, hrounds, hpos, hreached, hsame, hsettled⟩ :=
    Propagation.rounds_end (Propagation.regular_of_orderable hv ho hperm)
      (Labelling.singletons vs.length)
  let position := (Equiv.ofBijective vs.get (Network.get_bijective hperm)).symm
  let label : Fin g.order → Fin g.order := fun v => vs.get (labels.get (position v))
  have hlabel : ∀ i, label (vs.get i) = vs.get (labels.get i) := fun i =>
    congrArg (fun j => vs.get (labels.get j)) (Equiv.ofBijective_symm_apply_apply ..)
  have hstable := stable_of_settled hc hperm hlabel hsettled
  obtain ⟨groups, hgroups, hfrom, hto⟩ := ho.arrange_gives hv (map_groupsOf_ne_nil labels.get vs.get)
    ((flatten_map_groupsOf_perm vs labels.get).trans hperm)
  have hgrouped := groupedBy_of_perm hperm hlabel hfrom hto
  refine ⟨count, vs, labels, label, groups, hvs, hperm, hlabel, ⟨hpos, hreached, hsame⟩,
    fun k hk => ?_, hstable, hgrouped, fun A hA B hB v hv => hstable.edgesTo_le hgrouped hA hB hv⟩
  have hrun := hrounds k.toNat (by omega)
  refine ⟨hrun, fun journal => ?_⟩
  have hfound : (g.propagate (Index.ofArcs (g.arcs keepAll)) vs k.toNat).2
      = (groupsOf labels.get).map (List.map vs.get) :=
    congrArg (fun run : Nat × Labelling vs.length => (groupsOf run.2.get).map (List.map vs.get)) hrun
  rw [outcome_labelPropagation_of_byName hv hc hvs (by omega), hfound, hgroups]

/-- In the specimen, with a circle, parallel edges and a loop. -/
theorem labelPropagation_comes_to_rest_specimen :
    specimen.Valid ∧ specimen.Closed ∧ specimen.Orderable ∧
    ∃ (count : Nat) (label : Fin specimen.order → Fin specimen.order)
      (groups : List (List (Fin specimen.order))), specimen.Stable label ∧
      GroupedBy label groups ∧ ∀ k : Int, count ≤ k →
        (specimen.labelPropagation (.int k)).outcome .empty = .ok groups := by
  have ht := specimen_named
  obtain ⟨count, vs, labels, label, groups, -, -, -, -, hrounds, hstable, hgroups, -⟩ :=
    labelPropagation_comes_to_rest specimen_valid specimen_closed ht.orderable
  exact ⟨specimen_valid, specimen_closed, ht.orderable, count, label, groups, hstable, hgroups,
    fun k hk => (hrounds k hk).2 .empty⟩

/-- A text and a number for names cannot be compared, and there is no answer however many rounds are
allowed. -/
theorem mixed_propagates_nothing :
    mixed.Valid ∧ mixed.Closed ∧ ∀ (k : Int) (journal : Journal), ∃ failure,
      (mixed.labelPropagation (.int k)).outcome journal = .error failure := by
  refine ⟨mixed_valid, mixed_closed, fun k journal => ?_⟩
  obtain ⟨failure, hfailure⟩ := mixed_byName
  unfold labelPropagation
  rw [Value.lt_int, index_eq_pure mixed_valid mixed_closed, hfailure]
  by_cases hk : k < 1
  · rw [decide_eq_true hk]
    exact ⟨_, rfl⟩
  · rw [decide_eq_false hk]
    exact ⟨failure, rfl⟩

end Graph

end CodeGraph
