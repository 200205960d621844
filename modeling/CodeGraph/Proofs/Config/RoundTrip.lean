import CodeGraph.Config.Merge
import CodeGraph.Proofs.Config
import CodeGraph.Proofs.Config.Expansion
import CodeGraph.Proofs.Reading

/-!
# Reading a configuration back

A configuration that was read and is written as data is read again when it is
merged with others. Reading expands variables, and so it expands what the first
reading made of the texts: a variable may stand for a text that refers to others,
and a dollar sign may come to stand before a name. What comes out is the
configuration with its texts expanded once more, which is the same one exactly if
they expand to themselves. It need not come out at all, for the name that a dollar
sign has come to stand before may be one that cannot be looked up
(`Config.reads_again`).

Three facts carry the proof. The pieces of a text put together are that text
(`Expansion.source_pieces`), so a text without references to variables that are
set stays as it is. Expansion keeps the names of options, so that none is
unknown to the second reading (`Config.read_toValue`). And a reading leaves
thresholds that can be read again (`Config.regular_of_read`).
-/

namespace CodeGraph

/-! ## Data in full -/

variable {fields : Fields}

theorem Value.isAmong_texts {name : String} {known : List String} (h : name ∈ known) :
    (Value.str name).isAmong (known.map .str) = true :=
  List.any_eq_true.mpr ⟨.str name, List.mem_map_of_mem h, by rw [Value.same, beq_self_eq_true]⟩

theorem Value.unknownNames_of_subset {known given : List String} (h : given ⊆ known) :
    unknownNames known (given.map .str) = .ok [] := by
  have hhashable : (given.map Value.str).forM hashable = .ok () := by
    refine Gives.forM fun v hv => ?_
    obtain ⟨name, -, rfl⟩ := List.mem_map.mp hv
    rfl
  have hnone : ((given.map Value.str).filter fun v => !v.isAmong (known.map str)) = [] := by
    refine List.filter_eq_nil_iff.mpr fun v hv => ?_
    obtain ⟨name, hname, rfl⟩ := List.mem_map.mp hv
    rw [isAmong_texts (h hname)]
    decide
  have hsorted : sorted (withoutRepeats []) = .ok [] := by
    simp [withoutRepeats, sorted, sortOn, orderly, alike]
  rw [unknownNames, hhashable, hnone]
  exact (congrArg (· >>= texts) hsorted).trans rfl

theorem Value.elements_record (fields : Fields) :
    (Value.record fields).elements = .ok (fields.keys.map .str) := by
  rw [elements, Fields.keys, List.map_map]
  rfl

theorem Value.textFields_entries (fields : Fields) : textFields fields.entries = fields := by
  rw [textFields, Fields.entries, List.filterMap_map]
  exact List.filterMap_some

theorem Config.sectionFields_of_subset {known : List String} (name : String)
    (h : fields.keys ⊆ known) : sectionFields name known (.record fields) = .ok fields := by
  have hnone : unknownIn known fields = [] := by
    have hfilter : (fields.keys.filter fun key => !known.contains key) = [] := by
      refine List.filter_eq_nil_iff.mpr fun key hkey => ?_
      simpa using h hkey
    rw [unknownIn, hfilter, List.mergeSort_nil]
  rw [sectionFields, sectionFields.checked, hnone]

def Value.ListOrNull (v : Value) : Prop :=
  v = .null ∨ ∃ items, v = .list items

theorem Value.ListOrNull.filled {v : Value} (h : v.ListOrNull) (env : Variables) :
    (Expansion.filled env v).ListOrNull := by
  rcases h with rfl | ⟨items, rfl⟩
  · exact .inl rfl
  · exact .inr ⟨_, rfl⟩

namespace Thresholds

theorem listKinds_eq_self {v : Value} (h : v.ListOrNull) : listKinds v = .ok v := by
  rcases h with rfl | ⟨items, rfl⟩ <;> rfl

theorem listOrNull_of_listKinds {v kinds : Value} (h : listKinds v = .ok kinds) :
    kinds.ListOrNull := by
  unfold listKinds at h
  by_cases hnull : v.isNull = true
  · rw [if_pos hnull] at h
    obtain rfl := Except.ok.inj h
    cases v with
    | null => exact .inl rfl
    | _ => cases hnull
  · rw [if_neg hnull] at h
    cases helements : v.elements with
    | error failure => rw [helements] at h; cases h
    | ok items =>
      rw [helements] at h
      exact .inr ⟨items, (Except.ok.inj h).symm⟩

theorem listOrNull_of_read {v : Value} {t : Thresholds} (h : read v = .ok t) :
    t.cycleEdgeKinds.ListOrNull := by
  unfold read at h
  cases htruthy : v.truthy with
  | false =>
    rw [htruthy] at h
    obtain rfl := Except.ok.inj h
    exact .inl rfl
  | true =>
    rw [htruthy] at h
    obtain ⟨names, -, h⟩ := bind_eq_ok.mp h
    obtain ⟨_, -, h⟩ := bind_eq_ok.mp h
    obtain ⟨entries, -, h⟩ := bind_eq_ok.mp h
    obtain ⟨kinds, hkinds, h⟩ := bind_eq_ok.mp h
    obtain rfl := Except.ok.inj h
    exact listOrNull_of_listKinds hkinds

theorem read_record (hkeys : fields.keys = names)
    (hkinds : (ofFields fields).cycleEdgeKinds.ListOrNull) :
    read (.record fields) = .ok (ofFields fields) := by
  have htruthy : (Value.record fields).truthy = true := by
    cases fields with
    | nil => cases hkeys
    | cons => rfl
  have hnames : checkNames (fields.keys.map .str) = .ok () := by
    rw [checkNames, Value.unknownNames_of_subset (hkeys ▸ List.Subset.refl _)]
    rfl
  have htable : (Value.record fields).toTable = .ok fields.entries := rfl
  unfold read
  rw [htruthy, Value.elements_record, htable]
  simp only [bind, Except.bind, hnames, Value.textFields_entries, listKinds_eq_self hkinds]
  rfl

end Thresholds

/-! ## Configurations that were read -/

namespace Config

/-- Thresholds that can be read again as they are. -/
def Regular (c : Config) : Prop :=
  ∃ t, c.detectors.thresholds = .known t ∧ t.cycleEdgeKinds.ListOrNull

theorem read_of_readThresholds {v : Value} {t : Thresholds} (h : readThresholds v = .ok t) :
    Thresholds.read v = .ok t := by
  unfold readThresholds at h
  split at h
  · cases h
  · cases h
  · exact h

theorem regular_of_readDetectors {v : Value} {o : DetectorOptions} (h : readDetectors v = .ok o) :
    ∃ t, o.thresholds = .known t ∧ t.cycleEdgeKinds.ListOrNull := by
  unfold readDetectors at h
  split at h
  · obtain rfl := Except.ok.inj h
    exact ⟨{}, rfl, .inl rfl⟩
  · obtain ⟨t, ht, h⟩ := bind_eq_ok.mp h
    obtain ⟨rest, -, h⟩ := bind_eq_ok.mp h
    obtain rfl := Except.ok.inj h
    exact ⟨t, rfl, Thresholds.listOrNull_of_read (read_of_readThresholds ht)⟩
  · obtain ⟨_, -, h⟩ := bind_eq_ok.mp h
    obtain ⟨_, -, h⟩ := bind_eq_ok.mp h
    obtain rfl := Except.ok.inj h
    exact ⟨{}, rfl, .inl rfl⟩
  · cases h

theorem regular_of_read {env : Variables} {data : Value} {c : Config}
    (h : read env data = .ok c) : c.Regular := by
  unfold read at h
  obtain ⟨_, -, h⟩ := bind_eq_ok.mp h
  obtain ⟨_, -, h⟩ := bind_eq_ok.mp h
  obtain ⟨fields, -, h⟩ := bind_eq_ok.mp h
  unfold ofFields at h
  obtain ⟨_, -, h⟩ := bind_eq_ok.mp h
  obtain ⟨_, -, h⟩ := bind_eq_ok.mp h
  obtain ⟨_, -, h⟩ := bind_eq_ok.mp h
  obtain ⟨_, -, h⟩ := bind_eq_ok.mp h
  obtain ⟨detectors, hdetectors, h⟩ := bind_eq_ok.mp h
  obtain ⟨_, -, h⟩ := bind_eq_ok.mp h
  obtain rfl := Except.ok.inj h
  exact regular_of_readDetectors hdetectors

theorem eq_of_toValue_eq {c d : Config} (hc : c.Regular) (hd : d.Regular)
    (h : c.toValue = d.toValue) : c = d := by
  obtain ⟨centrality, paths, impact, communities, ⟨enabled, thresholds⟩, logging⟩ := c
  obtain ⟨t, ht : thresholds = _, -⟩ := hc
  obtain ⟨centrality', paths', impact', communities', ⟨enabled', thresholds'⟩, logging'⟩ := d
  obtain ⟨t', ht' : thresholds' = _, -⟩ := hd
  subst ht ht'
  cases centrality; cases paths; cases impact; cases communities; cases t; cases logging
  cases h
  rfl

end Config

/-! ## The second reading -/

section

variable {env : Variables}

def ThresholdOption.expanded (env : Variables) : ThresholdOption → ThresholdOption
  | .known t => .known (.ofFields (Expansion.filledFields env t.toFields))
  | .other v => .other (Expansion.filled env v)

/-- A configuration with all of its texts expanded. -/
def Config.expanded (env : Variables) (c : Config) : Config where
  centrality := .ofFields (Expansion.filledFields env c.centrality.toFields)
  paths := .ofFields (Expansion.filledFields env c.paths.toFields)
  impact := .ofFields (Expansion.filledFields env c.impact.toFields)
  communities := .ofFields (Expansion.filledFields env c.communities.toFields)
  detectors := ⟨Expansion.filled env c.detectors.enabled, c.detectors.thresholds.expanded env⟩
  logging := .ofFields (Expansion.filledFields env c.logging.toFields)

theorem Config.toValue_expanded (c : Config) :
    (c.expanded env).toValue = Expansion.filled env c.toValue := by
  obtain ⟨_, _, _, _, ⟨_, thresholds⟩, _⟩ := c
  cases thresholds <;> rfl

namespace Config

theorem Regular.expanded {c : Config} (h : c.Regular) : (c.expanded env).Regular := by
  obtain ⟨t, ht, hkinds⟩ := h
  refine ⟨.ofFields (Expansion.filledFields env t.toFields), ?_, hkinds.filled env⟩
  rw [Config.expanded, ht]
  rfl

theorem sectionFields_expanded (name : String) (fields : Fields) :
    sectionFields name fields.keys (.record (Expansion.filledFields env fields)) =
      .ok (Expansion.filledFields env fields) :=
  sectionFields_of_subset name (Expansion.keys_filledFields fields ▸ List.Subset.refl _)

theorem checkSections_expanded (c : Config) :
    checkSections (.record (Expansion.filledFields env c.toFields)) = .ok () := by
  have hsubset : Fields.keys (Expansion.filledFields env c.toFields) ⊆ sectionNames := by
    rw [Expansion.keys_filledFields]
    exact List.Subset.refl _
  exact bind_eq_ok.mpr ⟨_, Value.elements_record _,
    bind_eq_ok.mpr ⟨_, Value.unknownNames_of_subset hsubset, rfl⟩⟩

theorem readDetectors_expanded {o : DetectorOptions} {t : Thresholds} (ht : o.thresholds = .known t)
    (h : t.cycleEdgeKinds.ListOrNull) :
    readDetectors (.record (Expansion.filledFields env o.toFields)) =
      .ok ⟨Expansion.filled env o.enabled, o.thresholds.expanded env⟩ := by
  have hthresholds : readThresholds (.record (Expansion.filledFields env t.toFields)) =
      .ok (.ofFields (Expansion.filledFields env t.toFields)) := by
    have hread := Thresholds.read_record (Expansion.keys_filledFields t.toFields) (h.filled env)
    rw [readThresholds, hread]
  have hrest : sectionFields "detectors" ["enabled"]
      (.record [("enabled", Expansion.filled env o.enabled)]) =
        .ok [("enabled", Expansion.filled env o.enabled)] :=
    sectionFields_of_subset _ (List.Subset.refl _)
  obtain ⟨enabled, thresholds⟩ := o
  subst ht
  exact bind_eq_ok.mpr ⟨_, hthresholds, bind_eq_ok.mpr ⟨_, hrest, rfl⟩⟩

theorem readExpanded_filled {c : Config} (hc : c.Regular) :
    readExpanded (Expansion.filled env c.toValue) = .ok (c.expanded env) := by
  obtain ⟨t, ht, hkinds⟩ := hc
  refine bind_eq_ok.mpr ⟨(), checkSections_expanded c, bind_eq_ok.mpr ⟨_, rfl, ?_⟩⟩
  refine bind_eq_ok.mpr ⟨_, sectionFields_expanded "centrality" c.centrality.toFields, ?_⟩
  refine bind_eq_ok.mpr ⟨_, sectionFields_expanded "paths" c.paths.toFields, ?_⟩
  refine bind_eq_ok.mpr ⟨_, sectionFields_expanded "impact" c.impact.toFields, ?_⟩
  refine bind_eq_ok.mpr ⟨_, sectionFields_expanded "communities" c.communities.toFields, ?_⟩
  refine bind_eq_ok.mpr ⟨_, readDetectors_expanded ht hkinds, ?_⟩
  exact bind_eq_ok.mpr ⟨_, sectionFields_expanded "logging" c.logging.toFields, rfl⟩

/-- A configuration is read back from its data with all of its texts expanded, as far as they can
be. -/
theorem read_toValue {c : Config} (hc : c.Regular) : read env c.toValue =
    provided (c.toValue.allTexts.all Expansion.isKnown) (c.expanded env) := by
  have hfilled : readExpanded (Expansion.filled env c.toValue) = provided true (c.expanded env) :=
    readExpanded_filled hc
  have hread : read env c.toValue = Expansion.expand env c.toValue >>= readExpanded := rfl
  rw [hread, Expansion.expand_eq, bind_provided hfilled, Bool.and_true]

theorem read_of_expand {c : Config} (hc : c.Regular)
    (h : Expansion.expand env c.toValue = .ok c.toValue) : read env c.toValue = .ok c := by
  obtain ⟨hknown, hfilled⟩ := provided_eq_ok.mp ((Expansion.expand_eq _).symm.trans h)
  rw [read_toValue hc, hknown, eq_of_toValue_eq hc.expanded hc ((toValue_expanded c).trans hfilled)]
  rfl

theorem expanded_eq_self_iff {c : Config} (hc : c.Regular) :
    c.expanded env = c ↔ ∀ s ∈ c.toValue.allTexts, Expansion.filledText env s = s := by
  rw [← Expansion.filled_eq_self_iff, ← toValue_expanded]
  exact ⟨fun h => by rw [h], eq_of_toValue_eq hc.expanded hc⟩

/-- Laying the default configuration over another reads the other one again. -/
theorem merge_default (c : Config) : merge env c {} = read env c.toValue := by
  have hchanges : changes {} = [] := by with_unfolding_all rfl
  rw [merge, hchanges]
  rfl

/-- A configuration that was read can be written and read again, as it is by merging, unless its
texts now refer to a variable that cannot be looked up. Its texts are expanded once more, so that it
stays the same exactly if they all expand to themselves, as they do if no variable that is set is
referred to. -/
theorem reads_again {data : Value} {c : Config} (h : read env data = .ok c) :
    merge env c {} = read env c.toValue ∧
    (∀ name, Expansion.Refers c.toValue name → ¬Text.Encodable name →
      read env c.toValue = .error .unencodable) ∧
    ((∀ name, Expansion.Refers c.toValue name → Text.Encodable name) →
      ∃ again, read env c.toValue = .ok again ∧
        Expansion.expand env c.toValue = .ok again.toValue ∧
        (again = c ↔ ∀ s ∈ c.toValue.allTexts, Expansion.expandText env s = .ok s) ∧
        ((∀ name, Expansion.Refers c.toValue name → env.value? name = .ok none) → again = c)) := by
  have hc := regular_of_read h
  refine ⟨merge_default c, fun name hname hbytes => ?_, fun hbytes => ?_⟩
  · have hunknown : Expansion.expand env c.toValue = .error .unencodable :=
      Expansion.expand_of_refers hname hbytes
    rw [Expansion.expand_eq] at hunknown
    rw [read_toValue hc]
    exact provided_eq_error.mpr (provided_eq_error.mp hunknown)
  · have hknown := Expansion.all_isKnown_iff.mpr hbytes
    have hread : read env c.toValue = .ok (c.expanded env) := by rw [read_toValue hc, hknown]; rfl
    refine ⟨c.expanded env, hread, ?_, ?_, fun hunset => ?_⟩
    · rw [Expansion.expand_of_encodable hbytes, toValue_expanded]
    · rw [expanded_eq_self_iff hc]
      refine forall₂_congr fun s hs => ?_
      rw [Expansion.expandText_eq, List.all_eq_true.mp hknown s hs, provided_eq_ok,
        and_iff_right rfl]
    · refine eq_of_toValue_eq hc.expanded hc ?_
      rw [toValue_expanded, Expansion.filled_eq_self_of_unset hunset]

end Config

end

/-- A variable that stands for a reference to another one. -/
def Variables.chained : Variables :=
  [("X", "$Y"), ("Y", "z")]

namespace Config

def loggingTo (file : String) : Config where
  logging := { file := .str file }

theorem reads_again_settled :
    read .chained (.record [("logging", .record [("file", .str "$W/$\x7bY\x7d")])]) =
        .ok (loggingTo "$W/z") ∧
      read .chained (loggingTo "$W/z").toValue = .ok (loggingTo "$W/z") := by
  have hread : read .chained (.record [("logging", .record [("file", .str "$W/$\x7bY\x7d")])]) =
      .ok (loggingTo "$W/z") := by with_unfolding_all rfl
  have hnames : ∀ name, Expansion.Refers (loggingTo "$W/z").toValue name → name = "W" := by
    have hreferences : ∀ s ∈ (loggingTo "$W/z").toValue.allTexts,
        ∀ name ∈ Expansion.references s, name = "W" := by decide +kernel
    intro name hname
    obtain ⟨s, hs, hname⟩ := Expansion.refers_iff.mp hname
    exact hreferences s hs name hname
  obtain ⟨-, -, hagain⟩ := reads_again hread
  obtain ⟨again, hagain, -, -, hunset⟩ := hagain fun name hname => by
    rw [hnames name hname]
    decide +kernel
  have hsame : again = loggingTo "$W/z" := hunset fun name hname => by rw [hnames name hname]; rfl
  exact ⟨hread, hsame ▸ hagain⟩

/-- What a variable stands for is not expanded when it is read, but when it is read again, as it is
by merging with nothing. -/
theorem second_reading_expands :
    read .chained (.record [("logging", .record [("file", .str "$X")])]) = .ok (loggingTo "$Y") ∧
      read .chained (loggingTo "$Y").toValue = .ok (loggingTo "z") ∧
      merge .chained (loggingTo "$Y") {} = .ok (loggingTo "z") ∧ loggingTo "z" ≠ loggingTo "$Y" := by
  have hread : read .chained (loggingTo "$Y").toValue = .ok (loggingTo "z") := by
    with_unfolding_all rfl
  refine ⟨by with_unfolding_all rfl, hread, (merge_default _).trans hread, ?_⟩
  simp [loggingTo]

end Config

end CodeGraph
