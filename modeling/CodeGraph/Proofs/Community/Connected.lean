import Mathlib.Combinatorics.SimpleGraph.Connectivity.Connected
import CodeGraph.Proofs.Community.Stability

/-!
# Communities keep to connected parts

A position only ever takes over the label of a neighbour. But a label outlives
the position it is named for, and contraction numbers the labels anew, so the
invariant cannot be about paths to that position. It is about any way of telling
positions apart that no weight crosses: if both ends of all weight are in one
part (`Network.Within`), then every position is in the part of its label
(`Labelling.Keeps`), after every visit and so after every sweep and round, and
the contraction has a part for each of its positions (`within_contract`).

Of the numbers this takes no more than that zeros add up to zero, which holds of
doubles too. The parts of a snapshot are the connected components of its
undirected projection.
-/

namespace CodeGraph

/-- What is taken for granted of zero. -/
structure Scalar.ZeroLaws (α : Type) [Scalar α] : Prop where
  add : (0 : α) + 0 = 0
  bne : ((0 : α) != 0) = false
  ofNat : Scalar.ofNat 0 = (0 : α)

theorem Scalar.zeroLaws_float : Scalar.ZeroLaws Float :=
  ⟨by decide +kernel, by decide +kernel, by decide +kernel⟩

theorem Scalar.ZeroLaws.sum_eq_zero {α : Type} [Scalar α] (laws : Scalar.ZeroLaws α) {xs : List α}
    (h : ∀ x ∈ xs, x = 0) : Scalar.sum xs = 0 := by
  unfold Scalar.sum
  induction xs with
  | nil => rfl
  | cons x rest ih =>
    obtain ⟨hx, hrest⟩ := List.forall_mem_cons.mp h
    rw [List.foldl_cons, hx, laws.add]
    exact ih hrest

/-! ## Labels and parts -/

namespace Labelling

variable {n : Nat} {γ : Type} {part : Fin n → γ} {labels : Labelling n}

/-- Every position is in the part of its label. -/
def Keeps (part : Fin n → γ) (labels : Labelling n) : Prop :=
  ∀ i, part (labels.get i) = part i

theorem keeps_singletons (part : Fin n → γ) : Keeps part (singletons n) :=
  fun i => congrArg part (Louvain.get_singletons i)

theorem Keeps.set (h : Keeps part labels) {i c : Fin n} (hc : part c = part i) :
    Keeps part (Table.set labels i c) := by
  intro j
  rw [Table.get_set]
  split
  · next hij => rw [hc, hij]
  · exact h j

theorem Keeps.eq (h : Keeps part labels) {i j : Fin n} (hij : labels.get i = labels.get j) :
    part i = part j := by
  rw [← h i, hij, h j]

end Labelling

/-- Where a choice stands or gives way to what comes up, it was there or came up. -/
theorem foldl_choice {γ β : Type} {step : γ × β → γ → γ × β}
    (h : ∀ standing c, step standing c = standing ∨ (step standing c).1 = c) (cs : List γ)
    (standing : γ × β) :
    (cs.foldl step standing).1 = standing.1 ∨ (cs.foldl step standing).1 ∈ cs := by
  induction cs generalizing standing with
  | nil => exact .inl rfl
  | cons c rest ih =>
    rw [List.foldl_cons]
    rcases ih (step standing c) with hstays | hlater
    · rw [hstays]
      rcases h standing c with heq | heq
      · exact .inl (congrArg Prod.fst heq)
      · rw [heq]
        exact .inr (List.mem_cons_self ..)
    · exact .inr (List.mem_cons_of_mem _ hlater)

/-! ## By modularity -/

namespace Network

variable {n : Nat} {α γ : Type} [Scalar α] {net : Network n α} {part : Fin n → γ}

/-- No weight lies between different parts. -/
def Within (net : Network n α) (part : Fin n → γ) : Prop :=
  ∀ i j, net.between i j ≠ 0 → part i = part j

theorem Within.eq_of_neighbour (laws : Scalar.ZeroLaws α) (h : net.Within part) {i j : Fin n}
    (hj : j ∈ net.neighbours i) : part i = part j := by
  refine h i j fun hzero => ?_
  have hne := (List.mem_filter.mp hj).2
  rw [hzero, laws.bne] at hne
  cases hne

theorem across_eq_zero (laws : Scalar.ZeroLaws α) {here there : List (Fin n)}
    (h : ∀ i ∈ here, ∀ j ∈ there, net.between i j = 0) : net.across here there = 0 := by
  refine laws.sum_eq_zero (List.forall_mem_map.mpr fun i hi => ?_)
  exact laws.sum_eq_zero (List.forall_mem_map.mpr fun j hj => h i hi j hj)

theorem within_contract (laws : Scalar.ZeroLaws α) (h : net.Within part) {labels : Labelling n}
    (hk : labels.Keeps part) :
    (net.contract labels).Within fun a => part (labels.used.get a) := by
  have hmember : ∀ a, ∀ i ∈ labels.members.get a, part i = part (labels.used.get a) := by
    intro a i hi
    rw [Labels.members, Table.get_ofFn, List.mem_filter, decide_eq_true_eq] at hi
    rw [← hk i, hi.2]
  intro a b hab
  by_contra hne
  refine hab ?_
  rw [between, contract, Table.get_ofFn, Table.get_ofFn]
  split
  · rfl
  · refine across_eq_zero laws fun i hi j hj => ?_
    by_contra hbetween
    exact hne ((hmember a i hi).symm.trans ((h i j hbetween).trans (hmember b j hj)))

end Network

namespace Louvain

variable {n : Nat} {α γ : Type} [Scalar α] {net : Network n α} {part : Fin n → γ}

theorem mem_options {labels : Labelling n} {i c : Fin n} :
    c ∈ options net labels i ↔ ∃ j ∈ net.neighbours i, labels.get j = c := by
  simp [options]

theorem best_eq_or_mem (s : Setting n α) (labels : Labelling n) (totals : Table n α) (i : Fin n) :
    best s labels totals i = labels.get i ∨
      best s labels totals i ∈ options s.net labels i := by
  refine foldl_choice (fun standing c => ?_) _ _
  unfold consider
  dsimp only
  split
  · exact .inl rfl
  · split
    · exact .inr rfl
    · exact .inl rfl

section Keeps

variable {s : Setting n α} (laws : Scalar.ZeroLaws α) (h : s.net.Within part)

include laws h

theorem visit_keeps {state : State n α} (hk : state.labels.Keeps part) (i : Fin n) :
    (visit s state i).labels.Keeps part := by
  refine hk.set ?_
  rcases best_eq_or_mem s state.labels _ i with hstays | hgoes
  · rw [hstays, hk i]
  · obtain ⟨j, hj, hlabel⟩ := mem_options.mp hgoes
    rw [← hlabel, hk j, h.eq_of_neighbour laws hj]

theorem sweep_keeps {state : State n α} (hk : state.labels.Keeps part) :
    (sweep s state).labels.Keeps part := by
  unfold sweep
  generalize List.finRange n = is
  induction is generalizing state with
  | nil => exact hk
  | cons i rest ih => exact ih (visit_keeps laws h hk i)

theorem sweeps_keeps (left : Nat) {state : State n α} (hk : state.labels.Keeps part) :
    (sweeps s left state).labels.Keeps part := by
  induction left generalizing state with
  | zero => exact hk
  | succ left ih =>
    rw [sweeps]
    split
    · exact sweep_keeps laws h hk
    · exact ih (sweep_keeps laws h hk)

end Keeps

theorem settle_keeps (laws : Scalar.ZeroLaws α) (h : net.Within part) {labels : Labelling n}
    (hsettle : settle net = some labels) : labels.Keeps part := by
  have hstart : (start (Setting.ofNetwork net)).labels.Keeps part := Labelling.keeps_singletons part
  have hfirst := sweep_keeps (s := Setting.ofNetwork net) laws h hstart
  unfold settle at hsettle
  dsimp only at hsettle
  split at hsettle
  · cases hsettle
  · split at hsettle
    · cases hsettle
    · obtain rfl := Option.some.inj hsettle
      exact sweeps_keeps laws h _ hfirst

/-- Positions that end in one community are in one part. -/
theorem levels_within (laws : Scalar.ZeroLaws α) {n : Nat} (net : Network n α) {part : Fin n → γ}
    (h : net.Within part) {i j : Fin n} (hij : (levels net).2.get i = (levels net).2.get j) :
    part i = part j := by
  cases hsettle : settle net with
  | none =>
    rw [levels_of_none hsettle, levels_of_none hsettle] at hij
    rw [Fin.ext hij]
  | some labels =>
    have hk := settle_keeps laws h hsettle
    by_cases hless : labels.used.length < n
    · rw [levels_of_some hsettle hless, levels_of_some hsettle hless] at hij
      have hused := levels_within laws (net.contract labels) (Network.within_contract laws h hk) hij
      rwa [← Labels.number_eq_iff.mp rfl, ← Labels.number_eq_iff.mp rfl, hk i, hk j] at hused
    · rw [levels_of_full hsettle hless, levels_of_full hsettle hless] at hij
      rw [Fin.ext hij]
termination_by n

end Louvain

/-! ## By label propagation -/

namespace Propagation

variable {n : Nat} {γ : Type} {links : Links n} {below : Fin n → Fin n → Bool}
  {labels : Labelling n} {part : Fin n → γ}

theorem choose_eq_or_mem (i : Fin n) :
    choose links below labels i = labels.get i ∨
      choose links below labels i ∈ options links labels i := by
  refine foldl_choice (fun standing c => ?_) _ _
  unfold consider
  dsimp only
  split
  · exact .inr rfl
  · exact .inl rfl

section Keeps

variable (h : ∀ i j, between links i j ≠ 0 → part i = part j)

include h

theorem visit_keeps (hk : labels.Keeps part) (i : Fin n) :
    (visit links below labels i).Keeps part := by
  refine hk.set ?_
  rcases choose_eq_or_mem i with hstays | hgoes
  · rw [hstays, hk i]
  · obtain ⟨j, hj, hlabel⟩ := support_pos_iff.mp (mem_options.mp hgoes)
    rw [← hlabel, hk j, h i j hj]

theorem round_keeps (hk : labels.Keeps part) : (round links below labels).Keeps part := by
  unfold round
  generalize List.finRange n = is
  induction is generalizing labels with
  | nil => exact hk
  | cons i rest ih => exact ih (visit_keeps h hk i)

theorem rounds_keeps (limit : Nat) (hk : labels.Keeps part) :
    (rounds links below limit labels).2.Keeps part := by
  induction limit generalizing labels with
  | zero => exact hk
  | succ left ih =>
    rw [rounds]
    dsimp only
    split
    · exact round_keeps h hk
    · exact ih (round_keeps h hk)

end Keeps

end Propagation

/-! ## Answers -/

namespace Graph

variable {g : Graph}

theorem louvainIn_eq_ok (α : Type) [Scalar α] (hv : g.Valid) (hc : g.Closed) {journal : Journal}
    {groups : List (List (Fin g.order))} (h : (g.louvainIn α).outcome journal = .ok groups) :
    ∃ vs, vs.Perm g.vertices ∧
      g.arrange (g.louvainLevels α (Index.ofArcs (g.arcs keepAll)) vs).2 = .ok groups := by
  obtain ⟨hfails, hempty⟩ := outcome_louvainIn_unbegun α hv hc journal
  cases hvs : g.byName with
  | error failure =>
    rw [hfails failure hvs] at h
    cases h
  | ok vs =>
    refine ⟨vs, Value.sortOn_perm hvs, ?_⟩
    by_cases hne : vs = []
    · subst hne
      rw [hempty hvs] at h
      rw [← h]
      simp [louvainLevels, groupsOf, arrange, Value.sortOn, Value.orderly, Value.alike]
    · rwa [← outcome_louvainIn_of_byName α hv hc hvs hne journal]

theorem labelPropagation_eq_ok (hv : g.Valid) (hc : g.Closed) {maxRounds : Value}
    {journal : Journal} {groups : List (List (Fin g.order))}
    (h : (g.labelPropagation maxRounds).outcome journal = .ok groups) :
    ∃ vs limit, vs.Perm g.vertices ∧
      g.arrange (g.propagate (Index.ofArcs (g.arcs keepAll)) vs limit).2 = .ok groups := by
  unfold labelPropagation at h
  rw [index_eq_pure hv hc] at h
  obtain ⟨few, _, -, h⟩ := Logged.exists_of_bind_eq_ok h
  cases few with
  | true => cases h
  | false =>
    simp only [Bool.false_eq_true, if_false, pure_bind] at h
    obtain ⟨vs, _, hvs, h⟩ := Logged.exists_of_bind_eq_ok h
    rw [Logged.ComesTo.lift] at hvs
    split at h
    · cases h
    · next limit _ =>
      obtain ⟨arranged, _, harranged, h⟩ := Logged.exists_of_bind_eq_ok h
      rw [Logged.ComesTo.lift] at harranged
      obtain rfl := Except.ok.inj h
      exact ⟨vs, limit.toNat, Value.sortOn_perm hvs, harranged⟩

/-! ## The projection -/

/-- Nodes are adjacent if they are two and an edge joins them, whichever way it leads. -/
def projection (g : Graph) : SimpleGraph (Fin g.order) where
  Adj v w := v ≠ w ∧ ∃ e ∈ g.edges, g.Joins e v w
  symm := ⟨fun _ _ ⟨hne, e, he, hjoins⟩ => ⟨hne.symm, e, he, hjoins.symm⟩⟩
  loopless := ⟨fun _ h => h.1 rfl⟩

theorem projection_adj_of_multiplicity {v w : Fin g.order}
    (h : (Index.ofArcs (g.arcs keepAll)).multiplicity v w ≠ 0) : g.projection.Adj v w := by
  have hne : v ≠ w := by
    rintro rfl
    exact h (Index.multiplicity_self ..)
  rw [Index.multiplicity_ofArcs _ hne] at h
  have hedge : ∀ a b, countArcs (g.arcs keepAll) a b ≠ 0 →
      ∃ e ∈ g.edges, g.vertex? e.source = some a ∧ g.vertex? e.target = some b := by
    intro a b hab
    obtain ⟨arc, harc, hends⟩ := List.countP_pos_iff.mp (Nat.pos_of_ne_zero hab)
    obtain ⟨rfl, rfl⟩ := of_decide_eq_true hends
    obtain ⟨he, -, hsource, htarget⟩ := mem_arcs.mp harc
    exact ⟨arc.edge, he, hsource, htarget⟩
  refine ⟨hne, ?_⟩
  by_cases hvw : countArcs (g.arcs keepAll) v w = 0
  · rw [hvw, Nat.zero_add] at h
    obtain ⟨e, he, hends⟩ := hedge w v h
    exact ⟨e, he, .inr hends⟩
  · obtain ⟨e, he, hends⟩ := hedge v w hvw
    exact ⟨e, he, .inl hends⟩

def partOf (g : Graph) (v : Fin g.order) : g.projection.ConnectedComponent :=
  g.projection.connectedComponentMk v

theorem partOf_eq_of_multiplicity {v w : Fin g.order}
    (h : (Index.ofArcs (g.arcs keepAll)).multiplicity v w ≠ 0) : g.partOf v = g.partOf w :=
  SimpleGraph.ConnectedComponent.connectedComponentMk_eq_of_adj (projection_adj_of_multiplicity h)

theorem within_ofIndex {α : Type} [Scalar α] (laws : Scalar.ZeroLaws α) (vs : List (Fin g.order)) :
    (Network.ofIndex (Index.ofArcs (g.arcs keepAll)) vs : Network vs.length α).Within
      fun i => g.partOf (vs.get i) := by
  intro i j hbetween
  refine partOf_eq_of_multiplicity fun hzero => hbetween ?_
  rw [Network.between, Network.ofIndex, Table.get_ofFn, Table.get_ofFn]
  exact (congrArg Scalar.ofNat hzero).trans laws.ofNat

/-- All edges at the node are loops. -/
def OnlyLoops (g : Graph) (v : Fin g.order) : Prop :=
  ∀ e ∈ g.edges, g.vertex? e.source = some v ∨ g.vertex? e.target = some v →
    g.vertex? e.source = g.vertex? e.target

theorem OnlyLoops.eq_of_partOf_eq {v w : Fin g.order} (h : g.OnlyLoops v)
    (hw : g.partOf w = g.partOf v) : w = v := by
  by_contra hne
  obtain ⟨u, hadj⟩ :=
    (SimpleGraph.ConnectedComponent.exact hw).symm.nonempty_neighborSet_left (Ne.symm hne)
  obtain ⟨hvu, e, he, ⟨hsource, htarget⟩ | ⟨hsource, htarget⟩⟩ := hadj
  · have := h e he (.inl hsource)
    rw [hsource, htarget] at this
    exact hvu (Option.some.inj this)
  · have := h e he (.inr htarget)
    rw [hsource, htarget] at this
    exact hvu (Option.some.inj this).symm

/-- Every group lies inside one connected component of the projection, and a node with no edges but
loops is a group of its own. -/
structure Confined (g : Graph) (groups : List (List (Fin g.order))) : Prop where
  inside : ∀ A ∈ groups, ∃ C : g.projection.ConnectedComponent, ∀ v ∈ A, v ∈ C.supp
  alone : ∀ v, g.OnlyLoops v → [v] ∈ groups

theorem confined_of_arrange {vs : List (Fin g.order)} (hvs : vs.Perm g.vertices) {β : Type}
    [DecidableEq β] {label : Fin vs.length → β}
    (hlabel : ∀ i j, label i = label j → g.partOf (vs.get i) = g.partOf (vs.get j))
    {groups : List (List (Fin g.order))}
    (h : g.arrange ((groupsOf label).map (List.map vs.get)) = .ok groups) : g.Confined groups := by
  obtain ⟨hfrom, hto⟩ := perm_of_arrange h
  obtain ⟨hinjective, hsurjective⟩ := Network.get_bijective hvs
  constructor
  · intro A hA
    obtain ⟨B, hB, hAB⟩ := hfrom A hA
    obtain ⟨positions, hpositions, rfl⟩ := List.mem_map.mp hB
    obtain ⟨i, rfl⟩ := (mem_groupsOf label).mp hpositions
    refine ⟨g.partOf (vs.get i), fun v hv => ?_⟩
    obtain ⟨j, hj, rfl⟩ := List.mem_map.mp (hAB.mem_iff.mp hv)
    exact hlabel j i (of_decide_eq_true (List.mem_filter.mp hj).2)
  · intro v hloops
    obtain ⟨i, rfl⟩ := hsurjective v
    obtain ⟨A, hA, hAB⟩ := hto _ (List.mem_map_of_mem ((mem_groupsOf label).mpr ⟨i, rfl⟩))
    -- The group of the node has nothing else in it.
    have honly : (List.finRange vs.length).filter (fun j => label j = label i) = [i] := by
      refine List.perm_singleton.mp ((List.perm_ext_iff_of_nodup
        ((List.nodup_finRange _).filter _) (List.nodup_singleton i)).mpr fun j => ?_)
      rw [List.mem_filter, List.mem_singleton, decide_eq_true_eq]
      constructor
      · exact fun hj => hinjective (hloops.eq_of_partOf_eq (hlabel j i hj.2))
      · rintro rfl
        exact ⟨List.mem_finRange j, rfl⟩
    rw [honly] at hAB
    rwa [← List.perm_singleton.mp hAB]

/-! ## Both algorithms -/

/-- Every community that is answered lies inside one connected component of the projection, and a
node with no edges but loops is a community of its own: by modularity, computed in doubles, and by
label propagation, however many rounds are allowed. There are answers whenever any two names can be
compared. -/
theorem communities_connected (hv : g.Valid) (hc : g.Closed) (journal : Journal) :
    (∀ groups, g.louvain.outcome journal = .ok groups → g.Confined groups) ∧
    (∀ maxRounds groups, (g.labelPropagation maxRounds).outcome journal = .ok groups →
      g.Confined groups) ∧
    (g.Orderable → (∃ groups, g.louvain.outcome journal = .ok groups) ∧
      ∀ k : Int, 1 ≤ k → ∃ groups, (g.labelPropagation (.int k)).outcome journal = .ok groups) := by
  refine ⟨fun groups h => ?_, fun maxRounds groups h => ?_, fun ho => ⟨?_, fun k hk => ?_⟩⟩
  · obtain ⟨vs, hvs, harranged⟩ := louvainIn_eq_ok Float hv hc h
    refine confined_of_arrange hvs (fun i j hij => ?_) harranged
    exact Louvain.levels_within Scalar.zeroLaws_float _ (within_ofIndex Scalar.zeroLaws_float vs) hij
  · obtain ⟨vs, limit, hvs, harranged⟩ := labelPropagation_eq_ok hv hc h
    refine confined_of_arrange hvs (fun i j hij => ?_) harranged
    exact (Propagation.rounds_keeps (fun i j hlinked => partOf_eq_of_multiplicity
      (Propagation.between_ofIndex _ i j ▸ hlinked)) limit (Labelling.keeps_singletons _)).eq hij
  · obtain ⟨groups, hgroups, -⟩ := ho.groups_gives hv hc .louvain (Int.le_refl 1)
    obtain ⟨_, hok, -⟩ := hgroups.outcome journal
    exact ⟨_, hok⟩
  · obtain ⟨groups, hgroups, -⟩ := ho.groups_gives hv hc .labelPropagation hk
    obtain ⟨_, hok, -⟩ := hgroups.outcome journal
    exact ⟨_, hok⟩

/-- A pair of nodes, and one with a loop only. -/
def pairAndLoner : Graph where
  nodes := [specimenNode "a", specimenNode "b", specimenNode "c"]
  edges := [specimenEdge "ab" "a" "b" .callGraph, specimenEdge "cc" "c" "c" .dataFlow]
  cache := []
  metadata := []

def pairAndLoner.loner : Fin pairAndLoner.order := ⟨2, by decide⟩

theorem communities_connected_pairAndLoner :
    pairAndLoner.Valid ∧ pairAndLoner.Closed ∧ pairAndLoner.OnlyLoops pairAndLoner.loner ∧
    (∃ groups, pairAndLoner.louvain.outcome .empty = .ok groups ∧ pairAndLoner.Confined groups ∧
      [pairAndLoner.loner] ∈ groups) ∧
    ∃ groups, (pairAndLoner.labelPropagation (.int 1)).outcome .empty = .ok groups ∧
      pairAndLoner.Confined groups ∧ [pairAndLoner.loner] ∈ groups := by
  have hv : pairAndLoner.Valid :=
    ⟨⟨by simp [pairAndLoner, specimenNode, Value.isScalar],
      by simp [pairAndLoner, specimenNode, Value.same]⟩,
      by simp [pairAndLoner, specimenNode, Value.same]⟩
  have hc : pairAndLoner.Closed := by
    unfold Closed
    decide +kernel
  have ht : pairAndLoner.TextNamed := by
    simp [TextNamed, pairAndLoner, specimenNode, Value.isText]
  have hloner : pairAndLoner.OnlyLoops pairAndLoner.loner := by
    unfold OnlyLoops
    decide +kernel
  obtain ⟨hlouvain, hpropagation, hanswers⟩ := communities_connected hv hc .empty
  obtain ⟨⟨groups, hgroups⟩, hrounds⟩ := hanswers ht.orderable
  obtain ⟨groups', hgroups'⟩ := hrounds 1 (Int.le_refl 1)
  have hconfined := hlouvain groups hgroups
  have hconfined' := hpropagation _ groups' hgroups'
  exact ⟨hv, hc, hloner, ⟨groups, hgroups, hconfined, hconfined.alone _ hloner⟩,
    groups', hgroups', hconfined', hconfined'.alone _ hloner⟩

end Graph

end CodeGraph
