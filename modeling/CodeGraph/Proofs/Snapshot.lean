import Mathlib.Data.List.Basic
import Mathlib.Data.List.Pairwise
import CodeGraph.Graph.Query
import CodeGraph.Graph.Reader

/-!
# Snapshots, their walks and their index

What the analyses may rely on and what their answers are measured against.

The nodes that `Graph.read` lets through have scalar and distinct
identifiers. A snapshot is `Valid` if none of them is a not-a-number
besides, which no lookup would find. With no dangling edge it also has an
index, and building that index neither fails nor writes to the journal
(`index_eq_pure`).

`Graph.Walk` is the notion that every statement about paths uses: edges of
the snapshot, each leaving the vertex where the one before it ended. It
mentions no index. `Index.Walk` is the same over arcs, which is the form
that the searches work with; `walk_iff` is the bridge between the two.
-/

namespace CodeGraph

/-! ## Outcomes of logged computations -/

/-- What a computation answers when it starts from a given journal. -/
def Logged.outcome {α : Type} (x : Logged α) (journal : Journal) : Except Failure α :=
  (x.run.run journal).1

theorem Logged.lift_ok {α : Type} (a : α) :
    (liftM (Except.ok a : Except Failure α) : Logged α) = pure a := rfl

/-- Checks that all pass leave no trace. -/
theorem Logged.forM_lift_ok {α : Type} {xs : List α} {f : α → Except Failure Unit}
    (h : ∀ x ∈ xs, f x = .ok ()) : (xs.forM fun x => (liftM (f x) : Logged Unit)) = pure () := by
  induction xs with
  | nil => rfl
  | cons x rest ih =>
      rw [List.forM, h x List.mem_cons_self, Logged.lift_ok, pure_bind]
      exact ih fun y hy => h y (List.mem_cons_of_mem _ hy)

/-! ## Valid snapshots -/

theorem bind_eq_ok {α β : Type} {x : Except Failure α} {f : α → Except Failure β} {b : β} :
    (x >>= f) = .ok b ↔ ∃ a, x = .ok a ∧ f a = .ok b := by
  cases x <;> simp [bind, Except.bind]

theorem Value.isScalar_of_same {a b : Value} (ha : a.isScalar = true) (h : a.same b = true) :
    b.isScalar = true := by
  cases a <;> cases b <;>
    simp_all [Value.same, Value.isScalar, Value.relateNumbers?, Value.asInt?]

theorem Value.hashable_eq_ok {v : Value} : v.hashable = .ok () ↔ v.isScalar = true := by
  unfold Value.hashable
  split <;> simp_all

theorem Value.relation_int (symbol : String) (a b : Int) :
    Value.relation symbol (.int a) (.int b) = .ok (Value.Relation.ofOrdering (compare a b)) := by
  simp [Value.relation, Value.relate?, Value.relateNumbers?, Value.asInt?]

theorem Value.lt_int (a b : Int) : Value.lt (.int a) (.int b) = .ok (decide (a < b)) := by
  rw [Value.lt, Value.relation_int]
  change Except.ok (Relation.ofOrdering (compareOfLessAndEq a b) == .less) = _
  unfold compareOfLessAndEq
  by_cases hlt : a < b
  · simp [hlt, Relation.ofOrdering]
  · by_cases heq : a = b
    · simp [heq, Relation.ofOrdering]
    · simp [hlt, heq, Relation.ofOrdering]

/-- Nodes stand under scalar identifiers, no two of them the same. -/
structure ValidNodes (nodes : List Node) : Prop where
  scalar : ∀ node ∈ nodes, node.id.isScalar = true
  distinct : nodes.Pairwise fun a b => a.id.same b.id = false

/-- A snapshot whose nodes can be looked up: besides, every identifier is the same as itself, as a
not-a-number is not. -/
structure Graph.Valid (g : Graph) : Prop extends ValidNodes g.nodes where
  same : ∀ node ∈ g.nodes, node.id.same node.id = true

theorem validNodes_nil : ValidNodes [] :=
  ⟨by simp, List.Pairwise.nil⟩

theorem validNodes_append {seen nodes : List Node} {node : Node} (hseen : ValidNodes seen)
    (h : appendNode seen node = .ok nodes) : ValidNodes nodes := by
  obtain ⟨_, hid, h⟩ := bind_eq_ok.mp h
  have hnode : node.id.isScalar = true := Value.hashable_eq_ok.mp hid
  by_cases hany : seen.any (fun other => other.id.same node.id) = true
  · rw [if_pos hany] at h; cases h
  · rw [if_neg hany] at h
    obtain rfl := Except.ok.inj h
    constructor
    · intro other hother
      rcases List.mem_append.mp hother with hold | hnew
      · exact hseen.scalar other hold
      · rw [List.mem_singleton.mp hnew]; exact hnode
    · refine List.pairwise_append.mpr ⟨hseen.distinct, by simp, fun other hother last hlast => ?_⟩
      rw [List.mem_singleton.mp hlast]
      simp only [List.any_eq_true, not_exists, not_and, Bool.not_eq_true] at hany
      exact hany other hother

theorem validNodes_read {entries : List Value} {seen nodes : List Node}
    (hseen : ValidNodes seen) (h : readNodes seen entries = .ok nodes) : ValidNodes nodes := by
  induction entries generalizing seen with
  | nil =>
      obtain rfl := Except.ok.inj h
      exact hseen
  | cons entry rest ih =>
      obtain ⟨node, -, h⟩ := bind_eq_ok.mp h
      obtain ⟨seen', hadd, h⟩ := bind_eq_ok.mp h
      exact ih (validNodes_append hseen hadd) h

/-- Reading a description is where the identifiers are checked. -/
theorem Graph.validNodes_of_read {data : Value} {g : Graph} (h : Graph.read data = .ok g) :
    ValidNodes g.nodes := by
  simp only [Graph.read, bind_eq_ok] at h
  obtain ⟨_, -, _, -, _, -, _, -, nodes, hnodes, _, -, h⟩ := h
  have hparts : ∃ edges cache metadata, g = ⟨nodes, edges, cache, metadata⟩ := by
    split at h <;>
      (obtain ⟨cache, -, h⟩ := bind_eq_ok.mp h
       exact ⟨_, cache, _, (Except.ok.inj h).symm⟩)
  obtain ⟨_, _, _, rfl⟩ := hparts
  exact validNodes_read validNodes_nil hnodes

/-! ## Names and other fields -/

theorem Value.eq_of_same_of_isText {a b : Value} (ha : a.isText = true) (h : a.same b = true) :
    b = a := by
  cases a <;> cases b <;>
    simp_all [Value.same, Value.isText, Value.relateNumbers?, Value.asInt?]

theorem Value.isScalar_of_isText {a : Value} (ha : a.isText = true) : a.isScalar = true := by
  cases a <;> simp_all [Value.isText, Value.isScalar]

def Graph.TextNamed (g : Graph) : Prop :=
  ∀ node ∈ g.nodes, node.id.isText = true

theorem Graph.same_of_vertex? {g : Graph} {id : Value} {v : Fin g.order}
    (h : g.vertex? id = some v) : (g.name v).same id = true :=
  (List.findFinIdx?_eq_some_iff.mp h).1

/-- A text names a node in one way only. -/
theorem Graph.TextNamed.eq_name {g : Graph} (ht : g.TextNamed) {id : Value} {v : Fin g.order}
    (h : g.vertex? id = some v) : id = g.name v :=
  Value.eq_of_same_of_isText (ht _ (List.getElem_mem _)) (Graph.same_of_vertex? h)

/-! ## The index of a closed snapshot -/

theorem Graph.arc?_eq_some {g : Graph} {e : Edge} {arc : Arc g.order} :
    g.arc? e = some arc ↔
      arc.edge = e ∧ g.vertex? e.source = some arc.source ∧
        g.vertex? e.target = some arc.target := by
  obtain ⟨edge, u, v⟩ := arc
  simp only [Graph.arc?, bind, Option.bind_eq_some_iff, pure, Option.some.injEq, Arc.mk.injEq]
  constructor
  · rintro ⟨u', hu, v', hv, rfl, rfl, rfl⟩
    exact ⟨rfl, hu, hv⟩
  · rintro ⟨rfl, hu, hv⟩
    exact ⟨u, hu, v, hv, rfl, rfl, rfl⟩

theorem Graph.closed_iff {g : Graph} :
    g.Closed ↔ ∀ e ∈ g.edges,
      ∃ u v, g.vertex? e.source = some u ∧ g.vertex? e.target = some v := by
  simp only [Graph.Closed, Graph.dangling, List.filter_eq_nil_iff, Graph.isDangling,
    Option.isNone_iff_eq_none, ← ne_eq, Option.ne_none_iff_exists']
  refine forall₂_congr fun e _ => ⟨?_, ?_⟩
  · rintro ⟨arc, harc⟩
    obtain ⟨-, hu, hv⟩ := Graph.arc?_eq_some.mp harc
    exact ⟨arc.source, arc.target, hu, hv⟩
  · rintro ⟨u, v, hu, hv⟩
    exact ⟨⟨e, u, v⟩, Graph.arc?_eq_some.mpr ⟨rfl, hu, hv⟩⟩

theorem Graph.Valid.scalar_of_vertex? {g : Graph} (hv : g.Valid) {id : Value}
    {v : Fin g.order} (h : g.vertex? id = some v) : id.isScalar = true := by
  exact Value.isScalar_of_same (hv.scalar _ (List.getElem_mem _)) (Graph.same_of_vertex? h)

theorem Graph.vertex?_of_same {g : Graph} (hnodes : ValidNodes g.nodes) {v : Fin g.order}
    (hself : (g.name v).same (g.name v) = true) : g.vertex? (g.name v) = some v := by
  refine List.findFinIdx?_eq_some_iff.mpr ⟨hself, fun w hw => ?_⟩
  have hdistinct := List.pairwise_iff_get.mp hnodes.distinct w v hw
  exact Bool.eq_false_iff.mp hdistinct

theorem Graph.Valid.vertex?_name {g : Graph} (hv : g.Valid) (v : Fin g.order) :
    g.vertex? (g.name v) = some v :=
  Graph.vertex?_of_same hv.toValidNodes (hv.same _ (List.get_mem ..))

theorem Graph.Valid.name_injective {g : Graph} (hv : g.Valid) : Function.Injective g.name := by
  intro v w h
  have hvertex := congrArg g.vertex? h
  rw [hv.vertex?_name, hv.vertex?_name] at hvertex
  exact Option.some.inj hvertex

/-- A closed snapshot passes its check without a trace in the journal. -/
theorem Graph.check_eq_pure {g : Graph} (hv : g.Valid) (hc : g.Closed) :
    g.check = pure () := by
  have hends : ∀ e ∈ g.edges, g.checkEnds e = .ok () := by
    intro e he
    obtain ⟨u, v, hu, hw⟩ := Graph.closed_iff.mp hc e he
    have hs := Value.hashable_eq_ok.mpr (hv.scalar_of_vertex? hu)
    have ht := Value.hashable_eq_ok.mpr (hv.scalar_of_vertex? hw)
    simp only [Graph.checkEnds, hs, hu, ht, Option.isSome_some, if_true]
    rfl
  unfold Graph.check
  rw [Logged.forM_lift_ok hends, pure_bind, show g.dangling = [] from hc]
  rfl

theorem Graph.index_eq_pure {g : Graph} (hv : g.Valid) (hc : g.Closed) (keep : Edge → Bool) :
    g.index keep = pure (Index.ofArcs (g.arcs keep)) := by
  unfold Graph.index
  rw [Graph.check_eq_pure hv hc, pure_bind]

theorem Graph.mem_arcs {g : Graph} {keep : Edge → Bool} {arc : Arc g.order} :
    arc ∈ g.arcs keep ↔
      arc.edge ∈ g.edges ∧ keep arc.edge = true ∧
        g.vertex? arc.edge.source = some arc.source ∧
        g.vertex? arc.edge.target = some arc.target := by
  simp only [Graph.arcs, List.mem_filterMap, List.mem_filter, Graph.arc?_eq_some]
  constructor
  · rintro ⟨e, ⟨he, hk⟩, rfl, hu, hv⟩
    exact ⟨he, hk, hu, hv⟩
  · rintro ⟨he, hk, hu, hv⟩
    exact ⟨arc.edge, ⟨he, hk⟩, rfl, hu, hv⟩

/-- Arcs that are added come after those listed before, in their own order. -/
theorem Index.out_foldl_add {n : Nat} (arcs : List (Arc n)) (index : Index n) (v : Fin n) :
    (arcs.foldl Index.add index).out v = index.out v ++ arcs.filter fun arc => arc.source = v := by
  induction arcs generalizing index with
  | nil => exact (List.append_nil _).symm
  | cons arc rest ih =>
      rw [List.foldl_cons, ih, Index.out_add, List.append_assoc, List.filter_cons]
      by_cases h : arc.source = v <;> simp [h]

theorem Index.into_foldl_add {n : Nat} (arcs : List (Arc n)) (index : Index n) (v : Fin n) :
    (arcs.foldl Index.add index).into v
      = index.into v ++ arcs.filter fun arc => arc.target = v := by
  induction arcs generalizing index with
  | nil => exact (List.append_nil _).symm
  | cons arc rest ih =>
      rw [List.foldl_cons, ih, Index.into_add, List.append_assoc, List.filter_cons]
      by_cases h : arc.target = v <;> simp [h]

theorem Index.out_ofArcs {n : Nat} (arcs : List (Arc n)) (v : Fin n) :
    (Index.ofArcs arcs).out v = arcs.filter fun arc => arc.source = v := by
  rw [Index.ofArcs, Index.out_foldl_add, Index.out, Index.empty, Table.get_replicate,
    List.nil_append]

theorem Index.into_ofArcs {n : Nat} (arcs : List (Arc n)) (v : Fin n) :
    (Index.ofArcs arcs).into v = arcs.filter fun arc => arc.target = v := by
  rw [Index.ofArcs, Index.into_foldl_add, Index.into, Index.empty, Table.get_replicate,
    List.nil_append]

@[simp] theorem Index.mem_out_ofArcs {n : Nat} {arcs : List (Arc n)} {v : Fin n} {arc : Arc n} :
    arc ∈ (Index.ofArcs arcs).out v ↔ arc ∈ arcs ∧ arc.source = v := by
  simp [Index.out_ofArcs]

/-! ## Walks -/

/-- The edges lead from `u` to `v`, each kept and each leaving where the one before ended. -/
def Graph.Walk (g : Graph) (keep : Edge → Bool) :
    Fin g.order → List Edge → Fin g.order → Prop
  | u, [], v => u = v
  | u, e :: rest, v =>
    (e ∈ g.edges ∧ keep e = true ∧ g.vertex? e.source = some u) ∧
      ∃ w, g.vertex? e.target = some w ∧ g.Walk keep w rest v

/-- Some walk leads from `u` to `v`. -/
def Graph.Reaches (g : Graph) (keep : Edge → Bool) (u v : Fin g.order) : Prop :=
  ∃ edges, g.Walk keep u edges v

namespace Index

variable {n : Nat} {index : Index n}

/-- The arcs lead from `u` to `v`. -/
def Walk (index : Index n) : Fin n → List (Arc n) → Fin n → Prop
  | u, [], v => u = v
  | u, arc :: rest, v => arc ∈ index.out u ∧ index.Walk arc.target rest v

theorem Walk.append {u v w : Fin n} {p q : List (Arc n)} (hp : index.Walk u p v)
    (hq : index.Walk v q w) : index.Walk u (p ++ q) w := by
  induction p generalizing u with
  | nil =>
      obtain rfl : u = v := hp
      exact hq
  | cons arc rest ih => exact ⟨hp.1, ih hp.2⟩

theorem Walk.snoc {u : Fin n} {p : List (Arc n)} {v : Fin n} {arc : Arc n}
    (hp : index.Walk u p v) (ha : arc ∈ index.out v) :
    index.Walk u (p ++ [arc]) arc.target :=
  hp.append ⟨ha, rfl⟩

theorem Walk.split {u w : Fin n} {p q : List (Arc n)} (h : index.Walk u (p ++ q) w) :
    ∃ v, index.Walk u p v ∧ index.Walk v q w := by
  induction p generalizing u with
  | nil => exact ⟨u, rfl, h⟩
  | cons arc rest ih =>
      obtain ⟨v, hp, hq⟩ := ih h.2
      exact ⟨v, ⟨h.1, hp⟩, hq⟩

theorem Walk.end_unique {u v w : Fin n} {p : List (Arc n)} (hv : index.Walk u p v)
    (hw : index.Walk u p w) : v = w := by
  induction p generalizing u with
  | nil => exact (show u = v from hv).symm.trans hw
  | cons arc rest ih => exact ih hv.2 hw.2

theorem Walk.mem_out {u v : Fin n} {p : List (Arc n)} (h : index.Walk u p v) {arc : Arc n}
    (harc : arc ∈ p) : ∃ w, arc ∈ index.out w := by
  induction p generalizing u with
  | nil => cases harc
  | cons first rest ih =>
      rcases List.mem_cons.mp harc with rfl | hmem
      · exact ⟨u, h.1⟩
      · exact ih h.2 hmem

end Index

theorem Graph.vertex?_target {g : Graph} {keep : Edge → Bool} {u v : Fin g.order}
    {p : List (Arc g.order)} (hp : (Index.ofArcs (g.arcs keep)).Walk u p v) {arc : Arc g.order}
    (harc : arc ∈ p) : g.vertex? arc.edge.target = some arc.target := by
  obtain ⟨w, hw⟩ := hp.mem_out harc
  exact (Graph.mem_arcs.mp (Index.mem_out_ofArcs.mp hw).1).2.2.2

/-- Walks over the arcs of a snapshot are its walks, edge by edge. -/
theorem Graph.walk_iff {g : Graph} {keep : Edge → Bool} {u v : Fin g.order}
    {edges : List Edge} :
    g.Walk keep u edges v ↔
      ∃ p, (Index.ofArcs (g.arcs keep)).Walk u p v ∧ p.map Arc.edge = edges := by
  induction edges generalizing u with
  | nil =>
      constructor
      · intro h; exact ⟨[], h, rfl⟩
      · rintro ⟨p, hp, hmap⟩
        obtain rfl := List.map_eq_nil_iff.mp hmap
        exact hp
  | cons e rest ih =>
      constructor
      · rintro ⟨⟨he, hk, hu⟩, w, hw, hrest⟩
        obtain ⟨p, hp, rfl⟩ := ih.mp hrest
        exact ⟨⟨e, u, w⟩ :: p, ⟨by simp [Graph.mem_arcs, he, hk, hu, hw], hp⟩, rfl⟩
      · rintro ⟨_ | ⟨arc, p⟩, hp, hmap⟩
        · cases hmap
        · obtain ⟨rfl, rfl⟩ := List.cons.inj hmap
          obtain ⟨hmem, hsource⟩ := Index.mem_out_ofArcs.mp hp.1
          obtain ⟨he, hk, hu, hw⟩ := Graph.mem_arcs.mp hmem
          exact ⟨⟨he, hk, hsource ▸ hu⟩, arc.target, hw, ih.mpr ⟨p, hp.2, rfl⟩⟩

theorem Graph.reaches_iff {g : Graph} {keep : Edge → Bool} {u v : Fin g.order} :
    g.Reaches keep u v ↔ ∃ p, (Index.ofArcs (g.arcs keep)).Walk u p v := by
  constructor
  · rintro ⟨edges, hedges⟩
    obtain ⟨p, hp, -⟩ := Graph.walk_iff.mp hedges
    exact ⟨p, hp⟩
  · rintro ⟨p, hp⟩
    exact ⟨p.map Arc.edge, Graph.walk_iff.mpr ⟨p, hp, rfl⟩⟩

/-! ## A specimen

Three nodes with a circle of two, parallel edges out of it and a loop. -/

def specimenNode (id : String) : Node :=
  ⟨.str id, .str "function", .null, .empty⟩

def specimenEdge (id source target : String) (kind : EdgeKind) : Edge :=
  ⟨.str id, .str source, .str target, kind, .null, .empty⟩

def Graph.specimen : Graph where
  nodes := [specimenNode "a", specimenNode "b", specimenNode "c"]
  edges := [specimenEdge "ab" "a" "b" .callGraph, specimenEdge "ba" "b" "a" .dataFlow,
    specimenEdge "bc" "b" "c" .callGraph, specimenEdge "bc2" "b" "c" .callGraph,
    specimenEdge "cc" "c" "c" .reference]
  cache := []
  metadata := []

namespace Graph

theorem specimen_valid : specimen.Valid where
  scalar := by simp [specimen, specimenNode, Value.isScalar]
  distinct := by simp [specimen, specimenNode, Value.same]
  same := by simp [specimen, specimenNode, Value.same]

theorem specimen_named : specimen.TextNamed := by
  simp [TextNamed, specimen, specimenNode, Value.isText]

theorem specimen_kinds : ∀ node ∈ specimen.nodes, node.kind.isText = true := by
  simp [specimen, specimenNode, Value.isText]

theorem specimen_vertex :
    specimen.vertex? (.str "a") = some ⟨0, by decide⟩ ∧
      specimen.vertex? (.str "b") = some ⟨1, by decide⟩ ∧
      specimen.vertex? (.str "c") = some ⟨2, by decide⟩ := by
  refine ⟨?_, ?_, ?_⟩ <;>
    simp [vertex?, specimen, specimenNode, Value.same, List.findFinIdx?, List.findFinIdx?.go] <;>
    rfl

theorem specimen_closed : specimen.Closed := by
  obtain ⟨ha, hb, hc⟩ := specimen_vertex
  refine closed_iff.mpr fun e he => ?_
  simp only [specimen, List.mem_cons, List.not_mem_nil, or_false] at he
  rcases he with rfl | rfl | rfl | rfl | rfl
  · exact ⟨_, _, ha, hb⟩
  · exact ⟨_, _, hb, ha⟩
  · exact ⟨_, _, hb, hc⟩
  · exact ⟨_, _, hb, hc⟩
  · exact ⟨_, _, hc, hc⟩

theorem find_eq_ok {g : Graph} {id : Value} {v : Fin g.order} :
    g.find id = .ok v ↔ id.isScalar = true ∧ g.vertex? id = some v := by
  unfold find
  rw [bind_eq_ok]
  constructor
  · rintro ⟨_, hid, h⟩
    refine ⟨Value.hashable_eq_ok.mp hid, ?_⟩
    cases hv : g.vertex? id with
    | none => rw [hv] at h; cases h
    | some w => rw [hv] at h; rw [Except.ok.inj h]
  · rintro ⟨hid, hv⟩
    exact ⟨(), Value.hashable_eq_ok.mpr hid, by rw [hv]⟩

end Graph

end CodeGraph
