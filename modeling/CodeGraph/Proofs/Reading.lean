import Mathlib.Data.List.Forall2
import CodeGraph.Proofs.Answers
import CodeGraph.Proofs.Fields

/-!
# Reading a snapshot back

A description has many spellings of one snapshot: nodes in a list or under keys,
two names for the ends of an edge and for its weight, a category with or without
a list, fields that are left out. What is read from any of them is in one form,
the one that `Graph.toValue` writes, and is read back from it as it was
(`read_back`).

The reason is the same at every level. A reader splits what it knows from what it
passes on, so that the part passed on names nothing known (`Fields.Lacks`). The
writer puts the known part behind it, and leaves out what an absent field stands
for. `Graph.Legible` gathers what holds of every snapshot that was read.
-/

namespace CodeGraph

/-! ## Fields that are known and fields that are passed on -/

namespace Fields

variable {fields : Fields} {names : List String} {name : String}

/-- None of the names is in use. -/
def Lacks (fields : Fields) (names : List String) : Prop :=
  ∀ entry ∈ fields, entry.1 ∉ names

theorem lacks_without (fields : Fields) (names : List String) :
    (fields.without names).Lacks names := by
  intro entry hentry
  have hkept := (List.mem_filter.mp hentry).2
  simpa using hkept

theorem Lacks.get? (h : fields.Lacks names) (hname : name ∈ names) : fields.get? name = none := by
  refine List.lookup_eq_none_iff.mpr fun entry hentry => ?_
  have hne : name ≠ entry.1 := fun heq => h entry hentry (heq ▸ hname)
  simpa using hne

/-- A known name is looked for behind the fields that lack it. -/
theorem Lacks.get?_append (h : fields.Lacks names) (hname : name ∈ names) (known : Fields) :
    Fields.get? (fields ++ known) name = known.get? name := by
  have hnone : List.lookup name fields = none := h.get? hname
  rw [Fields.get?, List.lookup_append, hnone]
  rfl

theorem Lacks.without_append (h : fields.Lacks names) {known : Fields}
    (hknown : ∀ entry ∈ known, entry.1 ∈ names) :
    Fields.without (fields ++ known) names = fields := by
  have hfields : fields.without names = fields :=
    List.filter_eq_self.mpr fun entry hentry => by simpa using h entry hentry
  have hnone : known.without names = [] :=
    List.filter_eq_nil_iff.mpr fun entry hentry => by simpa using hknown entry hentry
  unfold without at *
  rw [List.filter_append, hfields, hnone, List.append_nil]

end Fields

/-! ## Annotations -/

namespace NodeMetadata

variable {m : NodeMetadata}

theorem known_names (m : NodeMetadata) : ∀ entry ∈ m.known, entry.1 ∈ keys := by
  obtain ⟨line, complexity, categories, extra⟩ := m
  cases complexity <;> cases hline : line.isNull <;> cases hnone : categories.isEmpty <;>
    simp [known, keys, hline, hnone]

theorem get_known (m : NodeMetadata) :
    m.known.get "line" = m.line ∧
      m.known.get "complexity_score" = .ofOption (m.complexity.map .float) ∧
      readCategories (m.known.get "node_category") = .ok m.categories := by
  obtain ⟨line, complexity, categories, extra⟩ := m
  have hnull : line.isNull = true → line = .null := by cases line <;> simp [Value.isNull]
  cases complexity <;> cases hline : line.isNull <;> cases categories <;>
    simp_all [known, Fields.get, Fields.get?, List.lookup_cons, Value.ofOption, readCategories,
      Value.elements]

theorem toDouble?_ofOption (x? : Option Float) :
    (Value.ofOption (x?.map .float)).toDouble? = .ok x? := by
  cases x? <;> rfl

/-- Annotations that name nothing known among the rest are read back as they are. -/
theorem read_toFields (h : m.extra.Lacks keys) : read (.record m.toFields) = .ok m := by
  obtain ⟨hline, hcomplexity, hcategories⟩ := get_known m
  have hget : ∀ name ∈ keys, Fields.get m.toFields name = m.known.get name := fun name hname => by
    rw [Fields.get, toFields, h.get?_append hname, Fields.get]
  have hrest : Fields.without m.toFields keys = m.extra := h.without_append (known_names m)
  by_cases hnil : m.toFields = []
  · -- Nothing was written, so there was nothing to write.
    obtain ⟨hextra, hknown⟩ := List.append_eq_nil_iff.mp hnil
    rw [hknown] at hline hcomplexity hcategories
    obtain ⟨line, complexity, categories, extra⟩ := m
    obtain rfl : Value.null = line := hline
    obtain rfl : [] = categories := Except.ok.inj hcategories
    obtain rfl : extra = [] := hextra
    cases complexity with
    | none => rfl
    | some x => cases hcomplexity
  · have htruthy : (Value.record m.toFields).truthy = true := by
      simpa [Value.truthy] using hnil
    unfold read
    simp only [htruthy, Bool.not_true, Bool.false_eq_true, if_false, Value.fieldsOr, bind,
      Except.bind, hget _ (show "node_category" ∈ keys by decide),
      hget _ (show "complexity_score" ∈ keys by decide), hget _ (show "line" ∈ keys by decide),
      hline, hcomplexity, hcategories, toDouble?_ofOption, hrest]
    rfl

theorem lacks_of_read {data : Value} (h : read data = .ok m) : m.extra.Lacks keys := by
  unfold read at h
  split at h
  · obtain rfl := Except.ok.inj h
    exact fun entry hentry => absurd hentry List.not_mem_nil
  · simp only [bind_eq_ok] at h
    obtain ⟨fields, -, _, -, _, -, h⟩ := h
    obtain rfl := Except.ok.inj h
    exact Fields.lacks_without fields keys

end NodeMetadata

namespace EdgeMetadata

variable {m : EdgeMetadata}

theorem known_names (m : EdgeMetadata) : ∀ entry ∈ m.known, entry.1 ∈ keys := by
  obtain ⟨weightHint, extra⟩ := m
  cases weightHint <;> simp [known, keys]

theorem toDouble?_known (m : EdgeMetadata) :
    ((m.known.get? "weight_hint").getD (m.known.get "weight")).toDouble? = .ok m.weightHint := by
  obtain ⟨weightHint, extra⟩ := m
  cases weightHint <;> rfl

/-- As for nodes; of the two names for a weight the writer uses the one that is looked for first. -/
theorem read_toFields (h : m.extra.Lacks keys) : read (.record m.toFields) = .ok m := by
  have hget : ∀ name ∈ keys, Fields.get? m.toFields name = m.known.get? name :=
    fun name hname => h.get?_append hname m.known
  have hhint := toDouble?_known m
  have hrest : Fields.without m.toFields keys = m.extra := h.without_append (known_names m)
  by_cases hnil : m.toFields = []
  · obtain ⟨hextra, hknown⟩ := List.append_eq_nil_iff.mp hnil
    obtain ⟨weightHint, extra⟩ := m
    obtain rfl : extra = [] := hextra
    cases weightHint with
    | none => rfl
    | some x => cases hknown
  · have htruthy : (Value.record m.toFields).truthy = true := by
      simpa [Value.truthy] using hnil
    unfold Fields.get at hhint
    unfold read
    simp only [htruthy, Bool.not_true, Bool.false_eq_true, if_false, Value.fieldsOr, bind,
      Except.bind, Fields.get, hget _ (show "weight_hint" ∈ keys by decide),
      hget _ (show "weight" ∈ keys by decide), hhint, hrest]
    rfl

theorem lacks_of_read {data : Value} (h : read data = .ok m) : m.extra.Lacks keys := by
  unfold read at h
  split at h
  · obtain rfl := Except.ok.inj h
    exact fun entry hentry => absurd hentry List.not_mem_nil
  · simp only [bind_eq_ok] at h
    obtain ⟨fields, -, _, -, h⟩ := h
    obtain rfl := Except.ok.inj h
    exact Fields.lacks_without fields keys

end EdgeMetadata

/-! ## Nodes and edges -/

/-- The annotations passed on name nothing known. -/
def Node.Legible (node : Node) : Prop :=
  node.metadata.extra.Lacks NodeMetadata.keys

theorem Node.read_toValue {node : Node} (h : node.Legible) : Node.read node.toValue = .ok node := by
  have hmetadata := NodeMetadata.read_toFields h
  change (NodeMetadata.read (.record node.metadata.toFields) >>= fun metadata =>
    .ok (⟨node.id, node.kind, node.sourceRef, metadata⟩ : Node)) = _
  rw [hmetadata]
  rfl

/-- A description says under which identifier its node stands. -/
theorem Node.read_eq_ok {data : Value} {node : Node} (h : Node.read data = .ok node) :
    node.Legible ∧ ∃ fields, data = .record fields ∧ Fields.get? fields "id" = some node.id := by
  cases data with
  | record fields =>
      have h : Node.readFields fields = .ok node := h
      unfold Node.readFields at h
      cases hid : Fields.get? fields "id" with
      | none =>
          rw [hid] at h
          cases h
      | some id =>
          rw [hid] at h
          obtain ⟨_, hsame, h⟩ := bind_eq_ok.mp h
          obtain rfl := Except.ok.inj hsame
          obtain ⟨metadata, hmetadata, h⟩ := bind_eq_ok.mp h
          obtain rfl := Except.ok.inj h
          exact ⟨NodeMetadata.lacks_of_read hmetadata, fields, rfl, hid⟩
  | _ => cases h

theorem EdgeKind.read_value (kind : EdgeKind) : EdgeKind.read (Tagged.value kind) = .ok kind := by
  cases kind <;> rfl

/-- Every edge has an identifier that counts as given: its own, or the one made up for it. -/
structure Edge.Legible (e : Edge) : Prop where
  named : e.id.truthy = true
  extra : e.metadata.extra.Lacks EdgeMetadata.keys

theorem Edge.truthy_nameAt (index source target : Value) :
    (Edge.nameAt index source target).truthy = true := by
  simp [Edge.nameAt, Value.truthy, toString]

theorem Edge.read_toValue {e : Edge} (h : e.Legible) (index : Value) :
    Edge.read e.toValue index = .ok e := by
  have hmetadata := EdgeMetadata.read_toFields h.extra
  have hkind := EdgeKind.read_value e.kind
  change (EdgeKind.read (Tagged.value e.kind) >>= fun kind =>
    EdgeMetadata.read (.record e.metadata.toFields) >>= fun metadata =>
      .ok (⟨if e.id.truthy then e.id else Edge.nameAt index e.source e.target, e.source, e.target,
        kind, e.subkind, metadata⟩ : Edge)) = _
  rw [hkind, hmetadata, if_pos h.named]
  rfl

theorem Edge.legible_of_read {data index : Value} {e : Edge} (h : Edge.read data index = .ok e) :
    e.Legible := by
  unfold Edge.read at h
  simp only [bind_eq_ok] at h
  obtain ⟨fields, -, kind, -, metadata, hmetadata, h⟩ := h
  obtain rfl := Except.ok.inj h
  refine ⟨?_, EdgeMetadata.lacks_of_read hmetadata⟩
  dsimp only
  split
  · assumption
  · exact Edge.truthy_nameAt ..

/-! ## Nodes in a row -/

theorem appendNode_eq_ok {seen nodes : List Node} {node : Node}
    (h : appendNode seen node = .ok nodes) : nodes = seen ++ [node] := by
  obtain ⟨_, -, h⟩ := bind_eq_ok.mp h
  split at h
  · cases h
  · exact (Except.ok.inj h).symm

theorem appendNode_of_valid {seen : List Node} {node : Node} (h : ValidNodes (seen ++ [node])) :
    appendNode seen node = .ok (seen ++ [node]) := by
  have hid : node.id.hashable = .ok () := Value.hashable_eq_ok.mpr (h.scalar node (by simp))
  have hnew : (seen.any fun other => other.id.same node.id) = false := by
    refine List.any_eq_false.mpr fun other hother => ?_
    rw [(List.pairwise_append.mp h.distinct).2.2 other hother node (by simp)]
    exact Bool.false_ne_true
  unfold appendNode
  rw [hid, hnew]
  rfl

/-- Nodes are added one by one, in the order in which they are described. -/
theorem readNodes_eq_ok {entries : List Value} {seen nodes : List Node}
    (h : readNodes seen entries = .ok nodes) :
    ∃ added, nodes = seen ++ added ∧
      List.Forall₂ (fun entry node => Node.read entry = .ok node) entries added := by
  induction entries generalizing seen with
  | nil =>
      obtain rfl := Except.ok.inj h
      exact ⟨[], (List.append_nil _).symm, .nil⟩
  | cons entry rest ih =>
      obtain ⟨node, hnode, h⟩ := bind_eq_ok.mp h
      obtain ⟨seen', hseen, h⟩ := bind_eq_ok.mp h
      obtain ⟨added, rfl, hadded⟩ := ih h
      rw [appendNode_eq_ok hseen, List.append_assoc]
      exact ⟨node :: added, rfl, .cons hnode hadded⟩

theorem readNodes_toValue {added seen : List Node} (hlegible : ∀ node ∈ added, node.Legible)
    (h : ValidNodes (seen ++ added)) :
    readNodes seen (added.map Node.toValue) = .ok (seen ++ added) := by
  induction added generalizing seen with
  | nil => rw [List.append_nil]; rfl
  | cons node rest ih =>
      have hfirst : ValidNodes (seen ++ [node]) := by
        refine ⟨fun other hother => h.scalar other ?_, h.distinct.sublist ?_⟩
        · exact List.mem_append.mpr ((List.mem_append.mp hother).imp_right (by simp_all))
        · exact List.Sublist.append_left (List.singleton_sublist.mpr (by simp)) seen
      have hsplit : seen ++ node :: rest = (seen ++ [node]) ++ rest := by simp
      rw [List.map_cons, readNodes, Node.read_toValue (hlegible node (by simp))]
      change (appendNode seen node >>= fun seen => readNodes seen (rest.map Node.toValue)) = _
      rw [appendNode_of_valid hfirst, hsplit]
      exact ih (fun other hother => hlegible other (by simp [hother])) (hsplit ▸ h)

/-! ## Edges in a row -/

theorem legible_of_readEdges {entries : List Value} {index : Nat} {edges : List Edge}
    (h : readEdges index entries = .ok edges) : ∀ e ∈ edges, e.Legible := by
  induction entries generalizing index edges with
  | nil =>
      obtain rfl := Except.ok.inj h
      exact fun e he => absurd he List.not_mem_nil
  | cons entry rest ih =>
      obtain ⟨e, he, h⟩ := bind_eq_ok.mp h
      obtain ⟨others, hothers, h⟩ := bind_eq_ok.mp h
      obtain rfl := Except.ok.inj h
      exact List.forall_mem_cons.mpr ⟨Edge.legible_of_read he, ih hothers⟩

theorem readEdges_toValue {edges : List Edge} (h : ∀ e ∈ edges, e.Legible) (index : Nat) :
    readEdges index (edges.map Edge.toValue) = .ok edges := by
  induction edges generalizing index with
  | nil => rfl
  | cons e rest ih =>
      obtain ⟨hfirst, hrest⟩ := List.forall_mem_cons.mp h
      rw [List.map_cons, readEdges, Edge.read_toValue hfirst, ih hrest]
      rfl

/-! ## Snapshots -/

namespace Graph

variable {g : Graph}

/-- What is known of every snapshot that was read. -/
structure Legible (g : Graph) : Prop where
  valid : ValidNodes g.nodes
  nodes : ∀ node ∈ g.nodes, node.Legible
  edges : ∀ e ∈ g.edges, e.Legible
  metadata : checkMetadata g.metadata = .ok g.metadata

theorem checkMetadata_of_read {data : Value} {fields : Fields}
    (h : readMetadata data = .ok fields) : checkMetadata fields = .ok fields := by
  cases data with
  | record given =>
      have h : checkMetadata given = .ok fields := h
      have hsame : given = fields := by
        unfold checkMetadata at h
        split at h
        · cases h
        · exact Except.ok.inj h
      rw [hsame] at h
      exact h
  | _ => cases h

theorem legible_of_forall₂ {entries : List Value} {nodes : List Node}
    (h : List.Forall₂ (fun entry node => Node.read entry = .ok node) entries nodes) :
    ∀ node ∈ nodes, node.Legible := by
  induction h with
  | nil => exact fun node hnode => absurd hnode List.not_mem_nil
  | cons hfirst _ ih => exact List.forall_mem_cons.mpr ⟨(Node.read_eq_ok hfirst).1, ih⟩

theorem read_eq_ok {fields : Fields} (h : Graph.read (.record fields) = .ok g) :
    (∃ entries, nodeEntries ((fields.get? "nodes").getD (.list [])) = .ok entries ∧
      List.Forall₂ (fun entry node => Node.read entry = .ok node) entries g.nodes) ∧
    g.Legible := by
  have hvalid := Graph.validNodes_of_read h
  simp only [Graph.read, Value.fieldsOr, bind_eq_ok] at h
  obtain ⟨_, hfields, entries, hentries, _, -, metadata, hmetadata, nodes, hnodes, edges, hedges, h⟩ := h
  obtain rfl := Except.ok.inj hfields
  have hparts : ∃ cache, g = ⟨nodes, edges, cache, metadata⟩ := by
    split at h <;>
      (obtain ⟨cache, -, h⟩ := bind_eq_ok.mp h
       exact ⟨cache, (Except.ok.inj h).symm⟩)
  obtain ⟨cache, rfl⟩ := hparts
  obtain ⟨added, hadded, hread⟩ := readNodes_eq_ok hnodes
  obtain rfl : nodes = added := hadded
  exact ⟨⟨entries, hentries, hread⟩, hvalid, legible_of_forall₂ hread, legible_of_readEdges hedges,
    checkMetadata_of_read hmetadata⟩

/-- Whatever is legible is read back, without the results that were attached to it. -/
theorem read_toValue (h : g.Legible) : Graph.read g.toValue = .ok { g with cache := [] } := by
  have hnodes : readNodes [] (g.nodes.map Node.toValue) = .ok g.nodes :=
    readNodes_toValue h.nodes (List.nil_append g.nodes ▸ h.valid)
  have hedges := readEdges_toValue h.edges 0
  have hmetadata : readMetadata (.record g.metadata) = .ok g.metadata := h.metadata
  change (readMetadata (.record g.metadata) >>= fun metadata =>
    readNodes [] (g.nodes.map Node.toValue) >>= fun nodes =>
      readEdges 0 (g.edges.map Edge.toValue) >>= fun edges =>
        .ok (⟨nodes, edges, [], metadata⟩ : Graph)) = _
  rw [hmetadata, hnodes, hedges]
  rfl

/-- An item of a list describes the node, and states its identifier. -/
def ListedAs (item : Value) (node : Node) : Prop :=
  Node.read item = .ok node ∧
    ∃ fields, item = .record fields ∧ Fields.get? fields "id" = some node.id

/-- An entry of a mapping describes the node, which stands under the identifier that is stated or
else under the key. -/
def KeyedAs (entry : String × Value) (node : Node) : Prop :=
  ∃ fields, entry.2 = .record fields ∧
    Node.read (.record (Fields.update [("id", .str entry.1)] fields)) = .ok node ∧
    ((Fields.keys fields).Nodup → node.id = (Fields.get? fields "id").getD (.str entry.1))

theorem listedAs_of_read {item : Value} {node : Node} (h : Node.read item = .ok node) :
    ListedAs item node :=
  ⟨h, (Node.read_eq_ok h).2⟩

theorem keyedAs_of_read {fields : Fields} {entries : List Value} {nodes : List Node}
    (hentries : nodeEntries (.record fields) = .ok entries)
    (hnodes : List.Forall₂ (fun entry node => Node.read entry = .ok node) entries nodes) :
    List.Forall₂ KeyedAs fields nodes := by
  have hkeyed := Gives.forall₂_of_mapM hentries
  clear hentries
  induction hkeyed generalizing nodes with
  | nil =>
      cases hnodes
      exact .nil
  | @cons entry described _ _ hentry _ ih =>
      cases hnodes with
      | @cons _ node _ _ hnode hrest =>
          refine .cons ?_ (ih hrest)
          obtain ⟨key, description⟩ := entry
          cases description with
          | record fields =>
              obtain rfl := Except.ok.inj hentry
              refine ⟨fields, rfl, hnode, fun hnodup => ?_⟩
              obtain ⟨-, _, hsame, hid⟩ := Node.read_eq_ok hnode
              obtain rfl := Value.record.inj hsame
              rw [Fields.get?_update hnodup] at hid
              cases hstated : Fields.get? fields "id" with
              | none =>
                  rw [hstated] at hid
                  exact (Option.some.inj hid).symm
              | some id =>
                  rw [hstated] at hid
                  exact (Option.some.inj hid).symm
          | _ => cases hentry

/-- Every description that is accepted, with its nodes in a list or under keys, puts its nodes into
the snapshot in their order, all of them, each under its own identifier. The snapshot is read back
from its own description as it is, but for the results attached to it, and is described as
before. -/
theorem read_back {fields : Fields} (h : Graph.read (.record fields) = .ok g) :
    ((∀ items, fields.get? "nodes" = some (.list items) → List.Forall₂ ListedAs items g.nodes) ∧
      (∀ entries, fields.get? "nodes" = some (.record entries) →
        List.Forall₂ KeyedAs entries g.nodes) ∧
      (fields.get? "nodes" = none → g.nodes = [])) ∧
    (ValidNodes g.nodes ∧
      ∀ v : Fin g.order, (g.name v).same (g.name v) = true → g.find (g.name v) = .ok v) ∧
    Graph.read g.toValue = .ok { g with cache := [] } ∧
    (Graph.read g.toValue).map Graph.toValue = .ok g.toValue := by
  obtain ⟨⟨entries, hentries, hread⟩, hlegible⟩ := read_eq_ok h
  have hback := read_toValue hlegible
  refine ⟨⟨fun items hitems => ?_, fun keyed hkeyed => ?_, fun hnone => ?_⟩,
    ⟨hlegible.valid, fun v hself => ?_⟩, hback, ?_⟩
  · rw [hitems] at hentries
    obtain rfl : items = entries := Except.ok.inj hentries
    exact hread.imp fun _ _ => listedAs_of_read
  · rw [hkeyed] at hentries
    exact keyedAs_of_read hentries hread
  · rw [hnone] at hentries
    obtain rfl : [] = entries := Except.ok.inj hentries
    exact List.forall₂_nil_left_iff.mp hread
  · exact find_eq_ok.mpr ⟨hlegible.valid.scalar _ (List.get_mem ..),
      vertex?_of_same hlegible.valid hself⟩
  · rw [hback]
    rfl

/-! ## A description with all its liberties -/

/-- Nodes under keys, one of which is overruled; ends and a weight under their short names; an edge
without an identifier; annotations of all sorts. -/
def loosely : Fields :=
  [("nodes", .record
      [("a", .record [("metadata", .record
          [("note", .str "entry"), ("node_category", .str "io"), ("line", .int 3)])]),
        ("b", .record [("ast_kind", .str "module"), ("id", .str "c"), ("metadata", .list [])])]),
    ("edges", .list
      [.record [("from", .str "a"), ("to", .str "c"), ("kind", .str "call_graph"),
        ("metadata", .record [("weight", .float 2.5), ("label", .null)])]]),
    ("metadata", .record [("origin", .str "builder")]),
    ("result_cache", .record [("old", .bool true)])]

def loose : Graph where
  nodes := [⟨.str "a", .str "unknown", .null, ⟨.int 3, none, [.str "io"], [("note", .str "entry")]⟩⟩,
    ⟨.str "c", .str "module", .null, .empty⟩]
  edges := [⟨.str "edge_0_a_c", .str "a", .str "c", .callGraph, .null, ⟨some 2.5, [("label", .null)]⟩⟩]
  cache := [(.str "old", .bool true)]
  metadata := [("origin", .str "builder")]

theorem read_loosely : Graph.read (.record loosely) = .ok loose := by
  with_unfolding_all rfl

theorem read_back_loosely :
    Graph.read (.record loosely) = .ok loose ∧
    List.Forall₂ KeyedAs
      [("a", .record [("metadata", .record
          [("note", .str "entry"), ("node_category", .str "io"), ("line", .int 3)])]),
        ("b", .record [("ast_kind", .str "module"), ("id", .str "c"), ("metadata", .list [])])]
      loose.nodes ∧
    Graph.read loose.toValue = .ok { loose with cache := [] } := by
  obtain ⟨⟨-, hkeyed, -⟩, -, hback, -⟩ := read_back read_loosely
  exact ⟨read_loosely, hkeyed _ rfl, hback⟩

end Graph

end CodeGraph
