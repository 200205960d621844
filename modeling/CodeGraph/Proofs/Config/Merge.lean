import CodeGraph.Proofs.Config.Overlay

/-!
# The algebra of merging

A configuration is laid over another by what it changes. For configurations that
hold what is declared (`Config.Declared`) that is a rule for each option, stated
by name in `Config.LaidOver`. From the rule follow the laws of merging: the
default configuration changes nothing on either side, a configuration changes
nothing of itself, and it does not matter in which order three of them are put
together (`Config.merge_lays_over`).
-/

namespace CodeGraph

/-! ## Configurations laid over configurations -/

theorem Value.ListOrNull.atop {a b : Value} (ha : a.ListOrNull) (hb : b.ListOrNull) :
    (Value.atop .null a b).ListOrNull := by
  have hnone : a.entries? = none := by rcases ha with rfl | ⟨items, rfl⟩ <;> rfl
  rw [Value.atop_of_no_mapping hnone]
  split
  · exact hb
  · exact ha

/-- Thresholds that hold what is declared for them. -/
def ThresholdOption.Declared (o : ThresholdOption) : Prop :=
  ∃ t, o = .known t ∧ Fields.Fit (Thresholds.toFields {}) t.toFields ∧ t.cycleEdgeKinds.ListOrNull

/-- A configuration that holds what is declared for each option. -/
structure Config.Declared (c : Config) : Prop where
  centrality : Fields.Fit (CentralityOptions.toFields {}) c.centrality.toFields
  paths : Fields.Fit (PathOptions.toFields {}) c.paths.toFields
  impact : Fields.Fit (ImpactOptions.toFields {}) c.impact.toFields
  communities : Fields.Fit (CommunityOptions.toFields {}) c.communities.toFields
  enabled : Value.fits .null c.detectors.enabled = true
  thresholds : c.detectors.thresholds.Declared
  logging : Fields.Fit (LoggingOptions.toFields {}) c.logging.toFields

def ThresholdOption.atop : ThresholdOption → ThresholdOption → ThresholdOption
  | .known top, .known below =>
    .known (.ofFields (Fields.combine Value.atop (Thresholds.toFields {}) top.toFields below.toFields))
  | top, _ => top

/-- A configuration laid over another, option by option. -/
def Config.atop (top below : Config) : Config where
  centrality := .ofFields (Fields.combine Value.atop (CentralityOptions.toFields {})
    top.centrality.toFields below.centrality.toFields)
  paths := .ofFields (Fields.combine Value.atop (PathOptions.toFields {})
    top.paths.toFields below.paths.toFields)
  impact := .ofFields (Fields.combine Value.atop (ImpactOptions.toFields {})
    top.impact.toFields below.impact.toFields)
  communities := .ofFields (Fields.combine Value.atop (CommunityOptions.toFields {})
    top.communities.toFields below.communities.toFields)
  detectors := ⟨Value.atop .null top.detectors.enabled below.detectors.enabled,
    top.detectors.thresholds.atop below.detectors.thresholds⟩
  logging := .ofFields (Fields.combine Value.atop (LoggingOptions.toFields {})
    top.logging.toFields below.logging.toFields)

namespace ThresholdOption.Declared

variable {a b c : ThresholdOption}

theorem patched_eq (ha : a.Declared) (hb : b.Declared) :
    Value.patched (ThresholdOption.known {}).toValue a.toValue b.toValue = (a.atop b).toValue := by
  obtain ⟨s, rfl, hs, -⟩ := ha
  obtain ⟨t, rfl, ht, -⟩ := hb
  exact Fields.Fit.patched_eq (by decide) rfl hs ht

theorem atop (ha : a.Declared) (hb : b.Declared) : (a.atop b).Declared := by
  obtain ⟨s, rfl, hs, hkinds⟩ := ha
  obtain ⟨t, rfl, ht, hbelow⟩ := hb
  exact ⟨_, rfl, hs.combine_atop ht, hkinds.atop hbelow⟩

theorem atop_default (h : a.Declared) : (ThresholdOption.known {}).atop a = a := by
  obtain ⟨t, rfl, ht, -⟩ := h
  exact congrArg (fun fields => known (.ofFields fields)) ht.atop_default

theorem atop_default_same (h : a.Declared) :
    (a.atop (.known {})).toValue.same a.toValue = true := by
  obtain ⟨t, rfl, ht, -⟩ := h
  exact ht.record_same (by decide)

theorem atop_self (h : a.Declared) : a.atop a = a := by
  obtain ⟨t, rfl, ht, -⟩ := h
  exact congrArg (fun fields => known (.ofFields fields)) ht.atop_self

theorem atop_assoc (ha : a.Declared) (hb : b.Declared) (hc : c.Declared) :
    c.atop (b.atop a) = (c.atop b).atop a := by
  obtain ⟨s, rfl, hs, -⟩ := ha
  obtain ⟨t, rfl, ht, -⟩ := hb
  obtain ⟨u, rfl, hu, -⟩ := hc
  exact congrArg (fun fields => known (.ofFields fields)) (hs.atop_assoc ht hu)

end ThresholdOption.Declared

namespace Config

variable {a b c : Config}

theorem patched_detectors (ha : a.Declared) (hb : b.Declared) :
    Value.patched (.record (DetectorOptions.toFields {})) (.record a.detectors.toFields)
      (.record b.detectors.toFields) = .record (a.atop b).detectors.toFields := by
  have hoptions : Fields.overlay (Fields.changed a.detectors.toFields (DetectorOptions.toFields {}))
      b.detectors.toFields = Fields.combine Value.patched (DetectorOptions.toFields {})
        a.detectors.toFields b.detectors.toFields :=
    Fields.overlay_changed (by decide) rfl rfl
  rw [Value.patched_section rfl, hoptions]
  simp only [DetectorOptions.toFields, Fields.combine]
  rw [Value.patched_eq_atop ha.enabled hb.enabled, ha.thresholds.patched_eq hb.thresholds]
  rfl

/-- What a configuration changes, laid over the data of another. -/
theorem overlay_changes (ha : a.Declared) (hb : b.Declared) :
    Fields.overlay a.changes b.toFields = (a.atop b).toFields := by
  have hsections : Fields.overlay a.changes b.toFields =
      Fields.combine Value.patched (Config.toFields {}) a.toFields b.toFields :=
    Fields.overlay_changed (by decide) rfl rfl
  rw [hsections]
  simp only [Config.toFields, Fields.combine]
  rw [ha.centrality.patched_eq (by decide) rfl hb.centrality,
    ha.paths.patched_eq (by decide) rfl hb.paths, ha.impact.patched_eq (by decide) rfl hb.impact,
    ha.communities.patched_eq (by decide) rfl hb.communities, patched_detectors ha hb,
    ha.logging.patched_eq (by decide) rfl hb.logging]
  rfl

namespace Declared

theorem atop (ha : a.Declared) (hb : b.Declared) : (a.atop b).Declared where
  centrality := ha.centrality.combine_atop hb.centrality
  paths := ha.paths.combine_atop hb.paths
  impact := ha.impact.combine_atop hb.impact
  communities := ha.communities.combine_atop hb.communities
  enabled := Value.fits_atop ha.enabled hb.enabled
  thresholds := ha.thresholds.atop hb.thresholds
  logging := ha.logging.combine_atop hb.logging

theorem regular (hc : c.Declared) : c.Regular := by
  obtain ⟨t, ht, -, hkinds⟩ := hc.thresholds
  exact ⟨t, ht, hkinds⟩

theorem expand_toValue (hc : c.Declared) (env : Variables) :
    Expansion.expand env c.toValue = .ok c.toValue := by
  obtain ⟨t, ht, hfit, -⟩ := hc.thresholds
  have hthresholds : Expansion.expand env c.detectors.thresholds.toValue =
      .ok c.detectors.thresholds.toValue := by
    rw [ht]
    change Expansion.expand env (.record t.toFields) = .ok (.record t.toFields)
    rw [Expansion.expand, hfit.expandFields_eq env]
    rfl
  rw [toValue]
  simp only [Config.toFields, DetectorOptions.toFields, Expansion.expand, Expansion.expandFields,
    hc.centrality.expandFields_eq env, hc.paths.expandFields_eq env,
    hc.impact.expandFields_eq env, hc.communities.expandFields_eq env,
    Value.expand_of_fits env hc.enabled, hthresholds, hc.logging.expandFields_eq env]
  rfl

end Declared

theorem merge_eq_atop (env : Variables) (ha : a.Declared) (hb : b.Declared) :
    merge env a b = .ok (b.atop a) := by
  have hdeclared := hb.atop ha
  rw [merge, overlay_changes hb ha]
  exact read_of_expand hdeclared.regular (hdeclared.expand_toValue env)

theorem default_declared : Config.Declared {} where
  centrality := by decide
  paths := by decide
  impact := by decide
  communities := by decide
  enabled := rfl
  thresholds := ⟨{}, rfl, by decide, .inl rfl⟩
  logging := by decide

theorem eq_of_sections (hcentrality : a.centrality.toFields = b.centrality.toFields)
    (hpaths : a.paths.toFields = b.paths.toFields) (himpact : a.impact.toFields = b.impact.toFields)
    (hcommunities : a.communities.toFields = b.communities.toFields)
    (henabled : a.detectors.enabled = b.detectors.enabled)
    (hthresholds : a.detectors.thresholds = b.detectors.thresholds)
    (hlogging : a.logging.toFields = b.logging.toFields) : a = b := by
  have hcentrality : a.centrality = b.centrality := congrArg CentralityOptions.ofFields hcentrality
  have hpaths : a.paths = b.paths := congrArg PathOptions.ofFields hpaths
  have himpact : a.impact = b.impact := congrArg ImpactOptions.ofFields himpact
  have hcommunities : a.communities = b.communities :=
    congrArg CommunityOptions.ofFields hcommunities
  have hlogging : a.logging = b.logging := congrArg LoggingOptions.ofFields hlogging
  obtain ⟨_, _, _, _, ⟨_, _⟩, _⟩ := a
  obtain ⟨_, _, _, _, ⟨_, _⟩, _⟩ := b
  cases hcentrality; cases hpaths; cases himpact; cases hcommunities; cases henabled
  cases hthresholds; cases hlogging
  rfl

theorem atop_default (h : a.Declared) : atop {} a = a :=
  eq_of_sections h.centrality.atop_default h.paths.atop_default h.impact.atop_default
    h.communities.atop_default (Value.atop_default h.enabled) h.thresholds.atop_default
    h.logging.atop_default

theorem atop_self (h : a.Declared) : a.atop a = a :=
  eq_of_sections h.centrality.atop_self h.paths.atop_self h.impact.atop_self
    h.communities.atop_self (Value.atop_self h.enabled) h.thresholds.atop_self
    h.logging.atop_self

theorem atop_assoc (ha : a.Declared) (hb : b.Declared) (hc : c.Declared) :
    c.atop (b.atop a) = (c.atop b).atop a :=
  eq_of_sections (ha.centrality.atop_assoc hb.centrality hc.centrality)
    (ha.paths.atop_assoc hb.paths hc.paths) (ha.impact.atop_assoc hb.impact hc.impact)
    (ha.communities.atop_assoc hb.communities hc.communities)
    (Value.atop_assoc ha.enabled hb.enabled hc.enabled)
    (ha.thresholds.atop_assoc hb.thresholds hc.thresholds)
    (ha.logging.atop_assoc hb.logging hc.logging)

theorem atop_default_same (h : a.Declared) : (a.atop {}).same a = true := by
  have hoptions : (DetectorOptions.toFields {}).keys.Nodup := by decide
  have hsections : (Config.toFields {}).keys.Nodup := by decide
  have hdetectors : (Value.record (a.atop {}).detectors.toFields).same
      (.record a.detectors.toFields) = true :=
    Value.same_record (.cons ⟨rfl, Value.atop_default_same h.enabled⟩
      (.cons ⟨rfl, h.thresholds.atop_default_same⟩ .nil)) hoptions
  have hvalue : (a.atop {}).toValue.same a.toValue = true :=
    Value.same_record (.cons ⟨rfl, h.centrality.record_same (by decide)⟩
      (.cons ⟨rfl, h.paths.record_same (by decide)⟩
      (.cons ⟨rfl, h.impact.record_same (by decide)⟩
      (.cons ⟨rfl, h.communities.record_same (by decide)⟩
      (.cons ⟨rfl, hdetectors⟩ (.cons ⟨rfl, h.logging.record_same (by decide)⟩ .nil))))))
      hsections
  obtain ⟨t, ht, -⟩ := h.thresholds
  obtain ⟨u, hu, -⟩ := (h.atop default_declared).thresholds
  rw [same, hvalue, ht, hu]
  rfl

end Config

/-! ## The law of each option -/

/-- The named options are the upper ones where these are not at their defaults, and else the lower
ones. -/
def Fields.Picked (names : List String) (defaults top below merged : Fields) : Prop :=
  ∀ name ∈ names, merged.get name =
    if (top.get name).same (defaults.get name) then below.get name else top.get name

/-- A table with the entries of two tables, the upper one's where both have one. -/
def Value.United (top below merged : Value) : Prop :=
  ∃ changes base costs : Fields, top = .record changes ∧ below = .record base ∧
    merged = .record costs ∧ ∀ key, costs.get? key = (changes.get? key).or (base.get? key)

/-- Each option of one configuration is as in the upper one of two others where that is not at its
default, and else as in the lower one; tables of costs are united. -/
structure Config.LaidOver (top below merged : Config) : Prop where
  centrality : Fields.Picked (CentralityOptions.toFields {}).keys (CentralityOptions.toFields {})
    top.centrality.toFields below.centrality.toFields merged.centrality.toFields
  paths : Fields.Picked ["max_depth", "critical_path_max_depth", "max_candidate_paths", "goal"]
    (PathOptions.toFields {}) top.paths.toFields below.paths.toFields merged.paths.toFields
  penalties : Value.United top.paths.penalties below.paths.penalties merged.paths.penalties
  costs : Value.United top.paths.costs below.paths.costs merged.paths.costs
  impact : Fields.Picked (ImpactOptions.toFields {}).keys (ImpactOptions.toFields {})
    top.impact.toFields below.impact.toFields merged.impact.toFields
  communities : Fields.Picked (CommunityOptions.toFields {}).keys (CommunityOptions.toFields {})
    top.communities.toFields below.communities.toFields merged.communities.toFields
  enabled : merged.detectors.enabled =
    if top.detectors.enabled.same .null then below.detectors.enabled else top.detectors.enabled
  thresholds : ∃ upper lower both, top.detectors.thresholds = .known upper ∧
    below.detectors.thresholds = .known lower ∧ merged.detectors.thresholds = .known both ∧
      Fields.Picked Thresholds.names (Thresholds.toFields {}) upper.toFields lower.toFields
        both.toFields
  logging : Fields.Picked (LoggingOptions.toFields {}).keys (LoggingOptions.toFields {})
    top.logging.toFields below.logging.toFields merged.logging.toFields

theorem Value.atop_of_fits {default top : Value} (hdefault : default.isPlain = true)
    (h : default.fits top = true) (below : Value) :
    atop default top below = if top.same default then below else top := by
  rcases fits_cases h with ⟨rfl, -⟩ | ⟨-, h⟩
  · cases hdefault
  · exact atop_of_no_mapping (entries?_of_isPlain h) default below

theorem Value.united_atop {top below : Value} (htop : top.isCosts = true)
    (hbelow : below.isCosts = true) : United top below (atop (.record []) top below) := by
  obtain ⟨changes, rfl, hnodup, -⟩ := isCosts_iff.mp htop
  obtain ⟨base, rfl, -, -⟩ := isCosts_iff.mp hbelow
  exact ⟨changes, base, _, rfl, rfl, rfl, Fields.get?_update hnodup base⟩

theorem Fields.Fit.picked {defaults a b : Fields} (ha : defaults.Fit a) (names : List String)
    (hb : defaults.Fit b)
    (hnames : ∀ name ∈ names, name ∈ defaults.keys ∧ (defaults.get name).isPlain = true) :
    Picked names defaults a b (combine Value.atop defaults a b) := by
  intro name hname
  obtain ⟨hkey, hplain⟩ := hnames name hname
  rw [ha.get_combine _ hb hkey, Value.atop_of_fits hplain (ha.fits_get name hkey)]

namespace Config

variable {a b c : Config}

theorem laidOver_atop (ha : a.Declared) (hb : b.Declared) : a.LaidOver b (a.atop b) where
  centrality := ha.centrality.picked _ hb.centrality (by decide)
  paths := ha.paths.picked _ hb.paths (by decide)
  penalties := Value.united_atop (ha.paths.fits_get "node_type_penalties" (by decide))
    (hb.paths.fits_get "node_type_penalties" (by decide))
  costs := Value.united_atop (ha.paths.fits_get "edge_type_costs" (by decide))
    (hb.paths.fits_get "edge_type_costs" (by decide))
  impact := ha.impact.picked _ hb.impact (by decide)
  communities := ha.communities.picked _ hb.communities (by decide)
  enabled := Value.atop_of_fits rfl ha.enabled _
  thresholds := by
    obtain ⟨s, hs, hfits, -⟩ := ha.thresholds
    obtain ⟨t, ht, hbelow, -⟩ := hb.thresholds
    have hboth : (a.atop b).detectors.thresholds = .known (.ofFields
        (Fields.combine Value.atop (Thresholds.toFields {}) s.toFields t.toFields)) := by
      rw [Config.atop, hs, ht]
      rfl
    exact ⟨s, t, _, hs, ht, hboth, hfits.picked Thresholds.names hbelow (by decide)⟩
  logging := ha.logging.picked _ hb.logging (by decide)

/-- Merging takes each option from the upper configuration where it is not at its default. The
default configuration changes nothing, above or below, a configuration changes nothing of itself,
and three of them come to the same however they are put together. -/
theorem merge_lays_over (env : Variables) (ha : a.Declared) (hb : b.Declared) (hc : c.Declared) :
    ∃ ab bc abc, merge env a b = .ok ab ∧ ab.Declared ∧ b.LaidOver a ab ∧
      (∃ same, merge env {} a = .ok same ∧ same.same a = true) ∧
      merge env a {} = .ok a ∧ merge env a a = .ok a ∧
      merge env b c = .ok bc ∧ merge env ab c = .ok abc ∧ merge env a bc = .ok abc := by
  have hab := hb.atop ha
  have hbc := hc.atop hb
  have hempty : merge env a {} = .ok a := by
    rw [merge_eq_atop env ha default_declared, atop_default ha]
  have hself : merge env a a = .ok a := by rw [merge_eq_atop env ha ha, atop_self ha]
  have hassoc : merge env a (c.atop b) = .ok (c.atop (b.atop a)) := by
    rw [merge_eq_atop env ha hbc, atop_assoc ha hb hc]
  exact ⟨b.atop a, c.atop b, c.atop (b.atop a), merge_eq_atop env ha hb, hab, laidOver_atop hb ha,
    ⟨a.atop {}, merge_eq_atop env default_declared ha, atop_default_same ha⟩, hempty, hself,
    merge_eq_atop env hb hc, merge_eq_atop env hab hc, hassoc⟩

/-- Two configurations that differ on a cost, a count and a threshold. -/
def general : Config where
  centrality := { damping := .float 0.9, topCount := .int 5 }
  paths := { costs := .record [("call_graph", .int 2)] }
  detectors := { thresholds := .known { fanout := .int 8 } }

def particular : Config where
  centrality := { topCount := .float 10 }
  paths := { goal := .str "security", costs := .record [("import", .float 0.5), ("call_graph", .int 3)] }
  detectors := ⟨.strings ["god_object"], .known { fanout := .int 9, cycleEdgeKinds := .strings ["import"] }⟩

theorem general_declared : general.Declared where
  centrality := by decide
  paths := by decide
  impact := by decide
  communities := by decide
  enabled := by decide
  thresholds := ⟨_, rfl, by decide, .inl rfl⟩
  logging := by decide

theorem particular_declared : particular.Declared where
  centrality := by decide
  paths := by decide
  impact := by decide
  communities := by decide
  enabled := by decide
  thresholds := ⟨_, rfl, by decide, .inr ⟨_, rfl⟩⟩
  logging := by decide

theorem merge_lays_over_general : general.Declared ∧ particular.Declared ∧
    ∃ ab ba aba, merge [] general particular = .ok ab ∧ particular.LaidOver general ab ∧
      (∃ same, merge [] {} general = .ok same ∧ same.same general = true) ∧
      merge [] general {} = .ok general ∧ merge [] general general = .ok general ∧
      merge [] particular general = .ok ba ∧ merge [] ab general = .ok aba ∧
      merge [] general ba = .ok aba := by
  obtain ⟨ab, ba, aba, hab, -, hlaid, hrest⟩ :=
    merge_lays_over [] general_declared particular_declared general_declared
  exact ⟨general_declared, particular_declared, ab, ba, aba, hab, hlaid, hrest⟩

end Config

end CodeGraph
