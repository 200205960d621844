import Mathlib.Data.Rat.Init
import CodeGraph.Proofs.Community.Partition
import CodeGraph.Proofs.Weights

/-!
# Communities depend on names and ties alone

Both searches for communities see a snapshot through two things: the names in
their order, and how many edges tie every two nodes. The order of nodes and
edges, the directions of edges, loops, and all that is written on nodes and
edges have no influence (`communities_eq_of_sameTies`).

The number of ties is counted on arcs (`multiplicity_ofArcs`) and read back in
edges (`multiplicity_eq`). Sorting then gives both snapshots the same positions,
so that the searches run on the same network.
-/

namespace CodeGraph

/-! ## Counting ties -/

def countArcs {n : Nat} (arcs : List (Arc n)) (a b : Fin n) : Nat :=
  arcs.countP fun arc => arc.source = a ∧ arc.target = b

theorem Index.multiplicity_ofArcs {n : Nat} (arcs : List (Arc n)) {a b : Fin n} (hne : a ≠ b) :
    (Index.ofArcs arcs).multiplicity a b = countArcs arcs a b + countArcs arcs b a := by
  rw [Index.multiplicity_eq_countP, countArcs, countArcs]
  induction arcs with
  | nil => rfl
  | cons arc rest ih =>
      simp only [List.countP_cons, ih, decide_eq_true_eq]
      grind [Arc.Spans]

namespace Graph

variable {g h : Graph}

def countEdges (g : Graph) (a b : Value) : Nat :=
  g.edges.countP fun e => e.source.same a && e.target.same b

def edgesBetween (g : Graph) (a b : Value) : Nat :=
  g.countEdges a b + g.countEdges b a

theorem same_name_iff (hv : g.Valid) (ht : g.TextNamed) {id : Value} {u v : Fin g.order}
    (h : g.vertex? id = some u) : id.same (g.name v) = true ↔ u = v := by
  rw [ht.eq_name h, ht.name_eq u, ht.name_eq v]
  simp only [Value.same, beq_iff_eq]
  exact (nameText_injective hv ht).eq_iff

theorem countArcs_eq (hv : g.Valid) (hc : g.Closed) (ht : g.TextNamed) (a b : Fin g.order) :
    countArcs (g.arcs keepAll) a b = g.countEdges (g.name a) (g.name b) := by
  have hall : g.edges.filter keepAll = g.edges := List.filter_eq_self.mpr fun _ _ => rfl
  rw [countArcs, arcs, hall, List.countP_filterMap]
  refine List.countP_congr fun e he => ?_
  obtain ⟨u, v, hu, hv'⟩ := closed_iff.mp hc e he
  have harc : g.arc? e = some ⟨e, u, v⟩ := arc?_eq_some.mpr ⟨rfl, hu, hv'⟩
  rw [harc, Bool.and_eq_true, same_name_iff hv ht hu, same_name_iff hv ht hv']
  simp

theorem multiplicity_eq (hv : g.Valid) (hc : g.Closed) (ht : g.TextNamed) {a b : Fin g.order}
    (hne : a ≠ b) :
    (Index.ofArcs (g.arcs keepAll)).multiplicity a b = g.edgesBetween (g.name a) (g.name b) := by
  rw [Index.multiplicity_ofArcs _ hne, countArcs_eq hv hc ht, countArcs_eq hv hc ht, edgesBetween]

/-! ## Arranging names -/

/-- Groups of names as they are answered. -/
def arrangeNames (groups : List (List Value)) : List (List Value) :=
  (groups.map fun names => names.mergeSort Value.before).mergeSort fun a b =>
    (a.head?.getD .null).before (b.head?.getD .null)

theorem names_sortByName (vs : List (Fin g.order)) :
    g.names (g.sortByName vs) = (g.names vs).mergeSort Value.before :=
  List.map_mergeSort fun _ _ _ _ => rfl

theorem names_arranged (groups : List (List (Fin g.order))) :
    (g.arranged groups).map g.names = arrangeNames (groups.map g.names) := by
  have hinside : (groups.map g.sortByName).map g.names
      = (groups.map g.names).map fun names => names.mergeSort Value.before := by
    simp only [List.map_map]
    exact List.map_congr_left fun vs _ => names_sortByName vs
  have hfirst : ∀ group, g.firstName group = (g.names group).head?.getD .null := by
    intro group
    rw [firstName, names, List.head?_map]
  rw [arrangeNames, ← hinside]
  refine List.map_mergeSort fun a _ b _ => ?_
  rw [hfirst, hfirst]

end Graph

/-! ## What the searches see -/

/-- The ties and names by position. -/
structure View where
  size : Nat
  ties : Fin size → Fin size → Nat
  name : Fin size → Value

namespace View

theorem eq_of_cast {a b : View} (hsize : a.size = b.size)
    (hties : ∀ i j, a.ties i j = b.ties (i.cast hsize) (j.cast hsize))
    (hname : ∀ i, a.name i = b.name (i.cast hsize)) : a = b := by
  obtain ⟨n, ties, name⟩ := a
  obtain ⟨m, ties', name'⟩ := b
  obtain rfl : n = m := hsize
  obtain rfl : ties = ties' := funext fun i => funext fun j => hties i j
  obtain rfl : name = name' := funext hname
  rfl

def louvain (α : Type) [Scalar α] (view : View) : List (List Value) :=
  let net : Network view.size α :=
    ⟨Vector.ofFn fun i => Vector.ofFn fun j => Scalar.ofNat (view.ties i j),
      Vector.replicate view.size 0⟩
  (groupsOf (Louvain.levels net).2.get).map (List.map view.name)

def propagate (view : View) (limit : Nat) : List (List Value) :=
  let links : Propagation.Links view.size :=
    Vector.ofFn fun i => Vector.ofFn fun j => view.ties i j
  let below i j := (view.name i).precedes (view.name j)
  (groupsOf (Propagation.rounds links below limit (Labelling.singletons view.size)).2.get).map
    (List.map view.name)

end View

namespace Graph

variable {g h : Graph}

/-- The positions of a snapshot are its vertices in the order of their names. -/
def view (g : Graph) : View where
  size := (g.sortByName g.vertices).length
  ties i j := (Index.ofArcs (g.arcs keepAll)).multiplicity ((g.sortByName g.vertices).get i)
    ((g.sortByName g.vertices).get j)
  name i := g.name ((g.sortByName g.vertices).get i)

theorem names_louvainLevels (α : Type) [Scalar α] :
    (g.louvainLevels α (Index.ofArcs (g.arcs keepAll)) (g.sortByName g.vertices)).2.map g.names
      = g.view.louvain α := by
  have hnames : g.names ∘ List.map (g.sortByName g.vertices).get = List.map g.view.name :=
    funext fun group => List.map_map
  rw [louvainLevels, List.map_map, hnames]
  rfl

theorem names_propagate (limit : Nat) :
    (g.propagate (Index.ofArcs (g.arcs keepAll)) (g.sortByName g.vertices) limit).2.map g.names
      = g.view.propagate limit := by
  have hnames : g.names ∘ List.map (g.sortByName g.vertices).get = List.map g.view.name :=
    funext fun group => List.map_map
  rw [Graph.propagate, List.map_map, hnames]
  rfl

/-! ## Two snapshots -/

/-- The same nodes, and every two of them tied by as many edges. -/
structure SameTies (g h : Graph) : Prop where
  names : ∀ id, (∃ node ∈ g.nodes, node.id = id) ↔ ∃ node ∈ h.nodes, node.id = id
  ties : ∀ a b, (∃ node ∈ g.nodes, node.id = a) → (∃ node ∈ g.nodes, node.id = b) → a ≠ b →
    g.edgesBetween a b = h.edgesBetween a b

theorem mem_nameTexts (ht : g.TextNamed) {id : String} :
    id ∈ (g.sortByName g.vertices).map g.nameText ↔ ∃ node ∈ g.nodes, node.id = .str id := by
  rw [List.mem_map]
  constructor
  · rintro ⟨v, -, rfl⟩
    exact ⟨g.nodeAt v, List.get_mem .., ht.name_eq v⟩
  · rintro ⟨node, hnode, hid⟩
    obtain ⟨v, rfl⟩ := List.get_of_mem hnode
    refine ⟨v, (g.sortByName_perm _).mem_iff.mpr (List.mem_finRange v), ?_⟩
    exact Value.str.inj ((ht.name_eq v).symm.trans hid)

theorem nodup_nameTexts (hv : g.Valid) (ht : g.TextNamed) :
    ((g.sortByName g.vertices).map g.nameText).Nodup := by
  refine (List.nodup_map_iff (nameText_injective hv ht)).mpr ?_
  exact (g.sortByName_perm _).nodup_iff.mpr (List.nodup_finRange _)

namespace SameTies

variable (hs : g.SameTies h) (hg : g.Valid) (hh : h.Valid) (tg : g.TextNamed) (th : h.TextNamed)

include hs hg hh tg th

theorem nameTexts_eq :
    (g.sortByName g.vertices).map g.nameText = (h.sortByName h.vertices).map h.nameText := by
  have hperm : ((g.sortByName g.vertices).map g.nameText).Perm
      ((h.sortByName h.vertices).map h.nameText) := by
    refine (List.perm_ext_iff_of_nodup (nodup_nameTexts hg tg) (nodup_nameTexts hh th)).mpr
      fun id => ?_
    rw [mem_nameTexts tg, mem_nameTexts th]
    exact hs.names (.str id)
  refine hperm.eq_of_pairwise (fun a b _ _ hab hba => String.le_antisymm hab hba) ?_ ?_
  · exact List.pairwise_map.mpr (sortByName_sorted tg _)
  · exact List.pairwise_map.mpr (sortByName_sorted th _)

theorem view_eq (cg : g.Closed) (ch : h.Closed) : g.view = h.view := by
  have htexts := hs.nameTexts_eq hg hh tg th
  have hsize : g.view.size = h.view.size := by
    simpa [view] using congrArg List.length htexts
  have hname : ∀ i, g.view.name i = h.view.name (i.cast hsize) := by
    intro i
    have hi : i.val < ((g.sortByName g.vertices).map g.nameText).length := by
      rw [List.length_map]
      exact i.isLt
    have htext := List.getElem_of_eq htexts hi
    rw [List.getElem_map, List.getElem_map] at htext
    exact (tg.name_eq _).trans ((congrArg Value.str htext).trans (th.name_eq _).symm)
  refine View.eq_of_cast hsize (fun i j => ?_) hname
  by_cases hij : i = j
  · subst hij
    exact (Index.multiplicity_self ..).trans (Index.multiplicity_self ..).symm
  · have hne : (g.sortByName g.vertices).get i ≠ (g.sortByName g.vertices).get j := by
      have hnodup := (g.sortByName_perm g.vertices).nodup_iff.mpr (List.nodup_finRange _)
      exact fun heq => hij (List.nodup_iff_injective_get.mp hnodup heq)
    have hne' : (h.sortByName h.vertices).get (i.cast hsize)
        ≠ (h.sortByName h.vertices).get (j.cast hsize) := by
      have hnodup := (h.sortByName_perm h.vertices).nodup_iff.mpr (List.nodup_finRange _)
      intro heq
      exact hij (Fin.cast_injective hsize (List.nodup_iff_injective_get.mp hnodup heq))
    have hnames : g.view.name i ≠ g.view.name j := by
      intro heq
      have htext := (tg.name_eq _).symm.trans (heq.trans (tg.name_eq _))
      exact hne (nameText_injective hg tg (Value.str.inj htext))
    calc g.view.ties i j
        = g.edgesBetween (g.view.name i) (g.view.name j) := multiplicity_eq hg cg tg hne
      _ = h.edgesBetween (g.view.name i) (g.view.name j) :=
        hs.ties _ _ ⟨_, List.get_mem .., rfl⟩ ⟨_, List.get_mem .., rfl⟩ hnames
      _ = h.edgesBetween (h.view.name (i.cast hsize)) (h.view.name (j.cast hsize)) := by
        rw [hname i, hname j]
      _ = h.view.ties (i.cast hsize) (j.cast hsize) := (multiplicity_eq hh ch th hne').symm

end SameTies

/-- What is answered are the names of what the search finds. -/
theorem outcome_louvainIn (α : Type) [Scalar α] (hv : g.Valid) (hc : g.Closed) (ht : g.TextNamed)
    (journal : Journal) :
    ((g.louvainIn α).outcome journal).map (List.map g.names)
      = .ok (arrangeNames (g.view.louvain α)) := by
  obtain ⟨groups, hgroups, rfl⟩ := (louvainIn_gives α hv hc ht.alikeNamed).outcome journal
  rw [hgroups, Except.map, names_arranged, names_louvainLevels]

theorem outcome_labelPropagation (hv : g.Valid) (hc : g.Closed) (ht : g.TextNamed) {k : Int}
    (hk : 1 ≤ k) (journal : Journal) :
    ((g.labelPropagation (.int k)).outcome journal).map (List.map g.names)
      = .ok (arrangeNames (g.view.propagate k.toNat)) := by
  obtain ⟨groups, hgroups, rfl⟩ := (labelPropagation_gives hv hc ht.alikeNamed hk).outcome journal
  rw [hgroups, Except.map, names_arranged, names_propagate]

/-- Snapshots with the same ties have the same communities by either algorithm. -/
theorem communities_eq_of_sameTies (α : Type) [Scalar α] (hg : g.Valid) (hh : h.Valid)
    (cg : g.Closed) (ch : h.Closed) (tg : g.TextNamed) (th : h.TextNamed) (hs : g.SameTies h)
    (journal journal' : Journal) :
    (∃ found, ((g.louvainIn α).outcome journal).map (List.map g.names) = .ok found ∧
      ((h.louvainIn α).outcome journal').map (List.map h.names) = .ok found) ∧
    ∀ k : Int, 1 ≤ k → ∃ found,
      ((g.labelPropagation (.int k)).outcome journal).map (List.map g.names) = .ok found ∧
      ((h.labelPropagation (.int k)).outcome journal').map (List.map h.names) = .ok found := by
  have hview := hs.view_eq hg hh tg th cg ch
  constructor
  · refine ⟨_, outcome_louvainIn α hg cg tg journal, ?_⟩
    rw [outcome_louvainIn α hh ch th journal', hview]
  · intro k hk
    refine ⟨_, outcome_labelPropagation hg cg tg hk journal, ?_⟩
    rw [outcome_labelPropagation hh ch th hk journal', hview]

/-- The specimen listed backwards, with its edges turned round or along each other and without the
loop. -/
def turned : Graph where
  nodes := [specimenNode "c", specimenNode "b", specimenNode "a"]
  edges := [specimenEdge "cb" "c" "b" .reference, specimenEdge "bc" "b" "c" .dataFlow,
    specimenEdge "ba" "b" "a" .callGraph, specimenEdge "ba2" "b" "a" .callGraph]
  cache := []
  metadata := []

theorem turned_valid : turned.Valid where
  scalar := by simp [turned, specimenNode, Value.isScalar]
  distinct := by simp [turned, specimenNode, Value.same]
  same := by simp [turned, specimenNode, Value.same]

theorem turned_closed : turned.Closed := by
  have hvertex : turned.vertex? (.str "c") = some ⟨0, by decide⟩ ∧
      turned.vertex? (.str "b") = some ⟨1, by decide⟩ ∧
      turned.vertex? (.str "a") = some ⟨2, by decide⟩ := by
    refine ⟨?_, ?_, ?_⟩ <;>
      simp [vertex?, turned, specimenNode, Value.same, List.findFinIdx?, List.findFinIdx?.go] <;>
      rfl
  obtain ⟨hc, hb, ha⟩ := hvertex
  refine closed_iff.mpr fun e he => ?_
  simp only [turned, List.mem_cons, List.not_mem_nil, or_false] at he
  rcases he with rfl | rfl | rfl | rfl
  · exact ⟨_, _, hc, hb⟩
  · exact ⟨_, _, hb, hc⟩
  · exact ⟨_, _, hb, ha⟩
  · exact ⟨_, _, hb, ha⟩

theorem specimen_sameTies_turned : specimen.SameTies turned where
  names id := by
    simp only [specimen, turned, List.mem_cons, List.not_mem_nil, or_false, exists_eq_or_imp,
      exists_eq_left, specimenNode]
    constructor <;> (rintro (h | h | h) <;> simp [h])
  ties a b ha hb hne := by
    simp only [specimen, List.mem_cons, List.not_mem_nil, or_false, exists_eq_or_imp,
      exists_eq_left, specimenNode] at ha hb
    rcases ha with rfl | rfl | rfl <;> rcases hb with rfl | rfl | rfl <;>
      first
        | exact absurd rfl hne
        | simp [edgesBetween, countEdges, specimen, turned, specimenEdge, Value.same]

theorem communities_eq_specimen :
    specimen.Valid ∧ turned.Valid ∧ specimen.Closed ∧ turned.Closed ∧ specimen.SameTies turned ∧
    ∃ found, ((specimen.louvainIn ℚ).outcome .empty).map (List.map specimen.names) = .ok found ∧
      ((turned.louvainIn ℚ).outcome .empty).map (List.map turned.names) = .ok found := by
  have ht := specimen_named
  have ht' : turned.TextNamed := by simp [TextNamed, turned, specimenNode, Value.isText]
  exact ⟨specimen_valid, turned_valid, specimen_closed, turned_closed, specimen_sameTies_turned,
    (communities_eq_of_sameTies ℚ specimen_valid turned_valid specimen_closed turned_closed ht ht'
      specimen_sameTies_turned .empty .empty).1⟩

end Graph

end CodeGraph
