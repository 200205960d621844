import CodeGraph.Proofs.Config.Refusal
import CodeGraph.Proofs.Fields
import CodeGraph.Proofs.Text

/-!
# Configurations that can be read

Data in which every mapping has names for keys, such as any JSON object, is read
as a configuration or refused as one, as long as it refers to variables that can be
looked up (`Config.read_iff_readable`). It is read exactly if it has the shape of a
configuration after variables have been expanded (`Config.Readable`): known
sections, known options in them, and known thresholds. The values of options are
not looked at, with one exception. Kinds of edges are listed, and so they have to be
something that can be.

Thresholds are the delicate part, since nothing says that they are a mapping
before they are used as one. Whatever can be listed passes as a set of names. A
text and a list fail later all the same, because the names of thresholds have
more than two letters: a single letter is none of them, and a name is no pair of
a key and a value.
-/

namespace CodeGraph

theorem ComesUpon.exists_mem {α : Type} {goesOn stops : α → Prop} {xs : List α}
    (h : ComesUpon goesOn stops xs) : ∃ x ∈ xs, stops x := by
  induction h with
  | here h => exact ⟨_, List.mem_cons_self .., h⟩
  | later _ _ ih =>
    obtain ⟨x, hx, hstops⟩ := ih
    exact ⟨x, List.mem_cons_of_mem _ hx, hstops⟩

/-! ## Mappings with names for keys -/

mutual

/-- Whether the keys of all mappings, at any depth, are names. -/
def Value.isNamed : Value → Bool
  | .list items => itemsNamed items
  | .record fields => fieldsNamed fields
  | .table _ => false
  | _ => true

def Value.itemsNamed : List Value → Bool
  | [] => true
  | v :: rest => v.isNamed && itemsNamed rest

def Value.fieldsNamed : List (String × Value) → Bool
  | [] => true
  | (_, v) :: rest => v.isNamed && fieldsNamed rest

end

namespace Expansion

variable {env : Variables}

mutual

theorem isNamed_filled (v : Value) : (filled env v).isNamed = v.isNamed := by
  cases v with
  | list items => exact itemsNamed_filledItems items
  | record fields => exact fieldsNamed_filledFields fields
  | _ => rfl

theorem itemsNamed_filledItems (items : List Value) :
    Value.itemsNamed (filledItems env items) = Value.itemsNamed items := by
  cases items with
  | nil => rfl
  | cons v rest =>
    rw [filledItems, Value.itemsNamed, Value.itemsNamed, isNamed_filled v,
      itemsNamed_filledItems rest]

theorem fieldsNamed_filledFields (fields : List (String × Value)) :
    Value.fieldsNamed (filledFields env fields) = Value.fieldsNamed fields := by
  match fields with
  | [] => rfl
  | (key, v) :: rest =>
    rw [filledFields, Value.fieldsNamed, Value.fieldsNamed, isNamed_filled v,
      fieldsNamed_filledFields rest]

end

end Expansion

theorem Value.isNamed_of_mem {fields : Fields} (h : fieldsNamed fields = true) {key : String}
    {v : Value} (hmem : (key, v) ∈ fields) : v.isNamed = true := by
  induction fields with
  | nil => cases hmem
  | cons entry rest ih =>
    obtain ⟨hentry, hrest⟩ := Bool.and_eq_true_iff.mp h
    rcases List.mem_cons.mp hmem with rfl | hmem
    · exact hentry
    · exact ih hrest hmem

theorem Value.isNamed_get {fields : Fields} (h : fieldsNamed fields = true) (key : String) :
    (fields.get key).isNamed = true := by
  rw [Fields.get]
  cases hget : fields.get? key with
  | none => rfl
  | some v => exact isNamed_of_mem h (Fields.mem_of_get? hget)

/-! ## Names that are known -/

theorem Value.eq_nil_of_texts {items : List Value} (h : texts items = .ok []) : items = [] := by
  have hlength := (Gives.forall₂_of_mapM h).length_eq
  rw [List.length_zipIdx] at hlength
  exact List.eq_nil_of_length_eq_zero hlength

theorem Value.known_of_unknownNames {known : List String} {given : List Value}
    (h : unknownNames known given = .ok []) : ∀ v ∈ given, ∃ name ∈ known, v = .str name := by
  obtain ⟨_, -, h⟩ := bind_eq_ok.mp h
  obtain ⟨names, hsorted, htexts⟩ := bind_eq_ok.mp h
  obtain rfl := eq_nil_of_texts htexts
  have hnone : (given.filter fun v => !v.isAmong (known.map str)) = [] := by
    have hdistinct := List.nil_perm.mp (sortOn_perm hsorted)
    cases hunknown : given.filter fun v => !v.isAmong (known.map str) with
    | nil => rfl
    | cons v rest => rw [hunknown, withoutRepeats] at hdistinct; cases hdistinct
  intro v hv
  refine Validation.eq_of_isAmong ?_
  simpa using List.filter_eq_nil_iff.mp hnone v hv

theorem Value.unknownNames_keys {known : List String} {fields : Fields} :
    unknownNames known (fields.keys.map .str) = .ok [] ↔ fields.keys ⊆ known := by
  refine ⟨fun h key hkey => ?_, unknownNames_of_subset⟩
  obtain ⟨name, hname, heq⟩ := known_of_unknownNames h (.str key) (List.mem_map_of_mem hkey)
  exact Value.str.inj heq ▸ hname

theorem refusing_eq_ok {x : Except Failure (List String)} {failure : List String → Failure} :
    (x >>= fun unknown => if !unknown.isEmpty then throw (failure unknown) else pure ()) = .ok () ↔
      x = .ok [] := by
  cases x with
  | error f => exact iff_of_false (by rintro ⟨⟩) (by rintro ⟨⟩)
  | ok unknown =>
    cases unknown with
    | nil => exact iff_of_true rfl rfl
    | cons => exact iff_of_false (by rintro ⟨⟩) (by rintro ⟨⟩)

/-! ## Thresholds -/

/-- What can be listed, or nothing. -/
def Value.Listable (v : Value) : Prop :=
  v = .null ∨ (∃ s, v = .str s) ∨ (∃ items, v = .list items) ∨ ∃ fields, v = .record fields

namespace Thresholds

/-- No name is a single letter, or a pair of them. -/
theorem two_lt_of_mem_names :
    ∀ name ∈ names, 2 < (Text.letters name).length ∧ 2 < name.toList.length := by
  decide +kernel

theorem checkNames_eq_ok {given : List Value} :
    checkNames given = .ok () ↔ Value.unknownNames names given = .ok [] :=
  refusing_eq_ok

theorem listKinds_answers_iff {v : Value} (hv : v.isNamed = true) :
    (∃ kinds, listKinds v = .ok kinds) ↔ v.Listable := by
  cases v with
  | table => cases hv
  | null | str | list | record => exact iff_of_true ⟨_, rfl⟩ (by simp [Value.Listable])
  | bool | int | float =>
    exact iff_of_false (by rintro ⟨_, h⟩; cases h) (by simp [Value.Listable])

theorem toPair_ne_ok {name : String} (h : name ∈ names) (position : Nat) (pair : Value × Value) :
    Value.toPair position (.str name) ≠ .ok pair := by
  have hlength := (two_lt_of_mem_names name h).1
  rw [Value.toPair, Value.elements]
  rcases hletters : Text.letters name with _ | ⟨first, _ | ⟨second, _ | ⟨third, rest⟩⟩⟩ <;>
    rw [hletters] at hlength
  · exact absurd hlength (by simp)
  · exact absurd hlength (by simp)
  · exact absurd hlength (by simp)
  · rintro ⟨⟩

/-- Letters are no names, and names are no pairs, so that only a mapping of known names can be
taken as a table. -/
theorem isMapping_of_known {v : Value} {given : List Value} {entries : Entries}
    (htruthy : v.truthy = true) (helements : v.elements = .ok given)
    (hknown : ∀ w ∈ given, ∃ name ∈ names, w = .str name) (htable : v.toTable = .ok entries) :
    v.entries?.isSome = true := by
  cases v with
  | record | table => rfl
  | null => cases htruthy
  | bool | int | float => cases helements
  | str s =>
    -- The first letter would have to be a name.
    obtain rfl := Except.ok.inj helements
    have hpoints : Text.points s.toList ≠ [] := by
      refine Text.points_ne_nil fun hnil => ?_
      obtain rfl := String.toList_eq_nil_iff.mp hnil
      cases htruthy
    obtain ⟨p, rest, hpoints⟩ := List.exists_cons_of_ne_nil hpoints
    obtain ⟨name, hname, hletter⟩ := hknown (.str (String.ofList p.spelling))
      (by simp [Text.letters, hpoints])
    have hlength := (two_lt_of_mem_names name hname).2
    rw [← Value.str.inj hletter, String.toList_ofList] at hlength
    exact absurd p.length_spelling_le (Nat.not_le_of_lt hlength)
  | list items =>
    -- The first item is a name, and would have to be a pair.
    obtain rfl := Except.ok.inj helements
    cases items with
    | nil => cases htruthy
    | cons first rest =>
      obtain ⟨name, hname, rfl⟩ := hknown first (List.mem_cons_self ..)
      obtain ⟨_, hitems, htable⟩ := bind_eq_ok.mp htable
      obtain rfl := Except.ok.inj hitems
      obtain ⟨pairs, hpairs, -⟩ := bind_eq_ok.mp htable
      obtain ⟨pair, hpair⟩ := Gives.of_mapM hpairs (.str name, 0) (by simp)
      exact absurd hpair (toPair_ne_ok hname 0 pair)

theorem textFields_of_toTable {given : Fields} {entries : Entries}
    (h : (Value.record given).toTable = .ok entries) : Value.textFields entries = given := by
  obtain rfl := Except.ok.inj h
  exact Value.textFields_entries given

/-- What thresholds have to be, if they count as given: a mapping of known names, with kinds of
edges that can be listed. -/
def Wellformed (v : Value) : Prop :=
  ∃ given : Fields, v = .record given ∧ given.keys ⊆ names ∧
    ∀ kinds, given.get? "cycle_edge_kinds" = some kinds → kinds.Listable

/-- Kinds of edges that are not given are absent, and there is nothing to list. -/
theorem listKinds_ofFields_answers_iff {given : Fields} (h : Value.fieldsNamed given = true) :
    (∃ kinds, listKinds (ofFields given).cycleEdgeKinds = .ok kinds) ↔
      ∀ kinds, given.get? "cycle_edge_kinds" = some kinds → kinds.Listable := by
  have hkinds : (ofFields given).cycleEdgeKinds = given.get "cycle_edge_kinds" := rfl
  rw [hkinds, listKinds_answers_iff (Value.isNamed_get h _), Fields.get]
  cases given.get? "cycle_edge_kinds" with
  | none => exact iff_of_true (.inl rfl) (by rintro _ ⟨⟩)
  | some kinds => simp

theorem wellformed_of_read {v : Value} (hv : v.isNamed = true) (htruthy : v.truthy = true)
    {t : Thresholds} (h : read v = .ok t) : Wellformed v := by
  unfold read at h
  rw [htruthy] at h
  obtain ⟨given, helements, h⟩ := bind_eq_ok.mp h
  obtain ⟨_, hnames, h⟩ := bind_eq_ok.mp h
  obtain ⟨entries, htable, h⟩ := bind_eq_ok.mp h
  obtain ⟨kinds, hkinds, -⟩ := bind_eq_ok.mp h
  rw [checkNames_eq_ok] at hnames
  have hmapping := isMapping_of_known htruthy helements (Value.known_of_unknownNames hnames) htable
  cases v with
  | table => cases hv
  | record fields =>
    rw [Value.elements_record] at helements
    obtain rfl := Except.ok.inj helements
    rw [textFields_of_toTable htable] at hkinds
    exact ⟨fields, rfl, Value.unknownNames_keys.mp hnames,
      (listKinds_ofFields_answers_iff hv).mp ⟨kinds, hkinds⟩⟩
  | _ => cases hmapping

theorem read_of_wellformed {v : Value} (hv : v.isNamed = true) (htruthy : v.truthy = true)
    (h : Wellformed v) : ∃ t, read v = .ok t := by
  obtain ⟨given, rfl, hkeys, hlistable⟩ := h
  obtain ⟨kinds, hkinds⟩ := (listKinds_ofFields_answers_iff hv).mpr hlistable
  have hnames : checkNames (given.keys.map .str) = .ok () :=
    checkNames_eq_ok.mpr (Value.unknownNames_keys.mpr hkeys)
  unfold read
  rw [htruthy]
  refine ⟨_, bind_eq_ok.mpr ⟨_, Value.elements_record given, bind_eq_ok.mpr ⟨_, hnames,
    bind_eq_ok.mpr ⟨given.entries, rfl, bind_eq_ok.mpr ⟨kinds, ?_, rfl⟩⟩⟩⟩⟩
  rw [Value.textFields_entries, hkinds]

/-- Thresholds that do not count as given are the default ones. -/
theorem read_answers_iff {v : Value} (hv : v.isNamed = true) :
    (∃ t, read v = .ok t) ↔ (v.truthy = true → Wellformed v) := by
  cases htruthy : v.truthy with
  | false =>
    refine iff_of_true ⟨{}, ?_⟩ (by rintro ⟨⟩)
    unfold read
    rw [htruthy]
    rfl
  | true =>
    rw [forall_prop_of_true rfl]
    exact ⟨fun ⟨_, h⟩ => wellformed_of_read hv htruthy h, read_of_wellformed hv htruthy⟩

end Thresholds

/-! ## Sections -/

namespace Config

theorem unknownIn_eq_nil {known : List String} {fields : Fields} :
    unknownIn known fields = [] ↔ fields.keys ⊆ known := by
  rw [unknownIn, ← List.length_eq_zero_iff, List.length_mergeSort, List.length_eq_zero_iff,
    List.filter_eq_nil_iff]
  simp [List.subset_def]

/-- A section is read if it is absent, or a mapping of known options. -/
theorem sectionFields_answers_iff {name : String} {known : List String} {v : Value} :
    (∃ fields, sectionFields name known v = .ok fields) ↔
      v = .null ∨ ∃ options : Fields, v = .record options ∧ options.keys ⊆ known := by
  cases v with
  | null => exact iff_of_true ⟨_, rfl⟩ (.inl rfl)
  | record options =>
    constructor
    · rintro ⟨fields, h⟩
      refine .inr ⟨options, rfl, unknownIn_eq_nil.mp ?_⟩
      rw [sectionFields, sectionFields.checked] at h
      split at h
      · assumption
      · cases h
    · rintro (h | ⟨_, ⟨⟩, hkeys⟩)
      · cases h
      · exact ⟨_, sectionFields_of_subset name hkeys⟩
  | _ => exact iff_of_false (by rintro ⟨_, ⟨⟩⟩) (by rintro (⟨⟨⟩⟩ | ⟨_, ⟨⟩, _⟩))

theorem readThresholds_answers_iff {v : Value} (hv : v.isNamed = true) :
    (∃ t, readThresholds v = .ok t) ↔ (v.truthy = true → Thresholds.Wellformed v) := by
  rw [← Thresholds.read_answers_iff hv]
  refine exists_congr fun t => ⟨read_of_readThresholds, fun h => ?_⟩
  rw [readThresholds, h]

/-- Thresholds are taken out before the other options are looked at. -/
theorem keys_without_subset {options : Fields} :
    Fields.keys (options.without ["thresholds"]) ⊆ ["enabled"] ↔
      options.keys ⊆ optionNames "detectors" := by
  have hnames : optionNames "detectors" = ["enabled", "thresholds"] := rfl
  rw [hnames]
  constructor
  · intro h key hkey
    by_cases hthresholds : key = "thresholds"
    · simp [hthresholds]
    · obtain ⟨entry, hentry, rfl⟩ := List.mem_map.mp hkey
      have hkept : entry ∈ options.without ["thresholds"] :=
        List.mem_filter.mpr ⟨hentry, by simpa using hthresholds⟩
      exact List.mem_cons.mpr (.inl (List.mem_singleton.mp (h (List.mem_map_of_mem hkept))))
  · intro h key hkey
    obtain ⟨entry, hentry, rfl⟩ := List.mem_map.mp hkey
    obtain ⟨hmem, hother⟩ := List.mem_filter.mp hentry
    have hknown := h (List.mem_map_of_mem hmem)
    simp_all

theorem readDetectors_answers_iff {v : Value} (hv : v.isNamed = true) :
    (∃ o, readDetectors v = .ok o) ↔ v = .null ∨ ∃ options : Fields, v = .record options ∧
      options.keys ⊆ optionNames "detectors" ∧
      ((options.get "thresholds").truthy = true →
        Thresholds.Wellformed (options.get "thresholds")) := by
  cases v with
  | null => exact iff_of_true ⟨_, rfl⟩ (.inl rfl)
  | record options =>
    have hthresholds := readThresholds_answers_iff (Value.isNamed_get hv "thresholds")
    constructor
    · rintro ⟨o, h⟩
      obtain ⟨t, ht, h⟩ := bind_eq_ok.mp h
      obtain ⟨rest, hrest, -⟩ := bind_eq_ok.mp h
      obtain ⟨⟨⟩⟩ | ⟨_, ⟨⟩, hkeys⟩ := sectionFields_answers_iff.mp ⟨rest, hrest⟩
      exact .inr ⟨options, rfl, keys_without_subset.mp hkeys, hthresholds.mp ⟨t, ht⟩⟩
    · rintro (h | ⟨_, ⟨⟩, hkeys, hwell⟩)
      · cases h
      · obtain ⟨t, ht⟩ := hthresholds.mpr hwell
        exact ⟨_, bind_eq_ok.mpr ⟨t, ht, bind_eq_ok.mpr
          ⟨_, sectionFields_of_subset _ (keys_without_subset.mpr hkeys), rfl⟩⟩⟩
  | table => cases hv
  | _ => exact iff_of_false (by rintro ⟨_, ⟨⟩⟩) (by rintro (⟨⟨⟩⟩ | ⟨_, ⟨⟩, _⟩))

/-! ## Configurations -/

/-- Data of the shape of a configuration. -/
structure Readable (data : Fields) : Prop where
  sections : data.keys ⊆ sectionNames
  /-- A section is absent, or a mapping of options of that section. -/
  options : ∀ name v, data.get? name = some v →
    v = .null ∨ ∃ options : Fields, v = .record options ∧ options.keys ⊆ optionNames name
  /-- Thresholds that count as given are a mapping of known names. -/
  thresholds : ∀ detectors v, data.get? "detectors" = some (.record detectors) →
    Fields.get? detectors "thresholds" = some v → v.truthy = true → Thresholds.Wellformed v

theorem answers_map {α β : Type} {x : Except Failure α} {f : α → β} {b : β} (h : ∀ a, f a = b) :
    (∃ a, x = .ok a) ↔ x.map f = .ok b := by
  cases x with
  | error failure => exact iff_of_false (by rintro ⟨_, ⟨⟩⟩) (by rintro ⟨⟩)
  | ok a => exact iff_of_true ⟨a, rfl⟩ (congrArg Except.ok (h a))

theorem readSection_eq_ok {name : String} {v : Value} (hv : v.isNamed = true) :
    readSection name v = .ok () ↔ v = .null ∨ ∃ options : Fields, v = .record options ∧
      options.keys ⊆ optionNames name ∧
      (name = "detectors" → (options.get "thresholds").truthy = true →
        Thresholds.Wellformed (options.get "thresholds")) := by
  unfold readSection
  split
  · rename_i hname
    subst hname
    rw [← answers_map fun _ => rfl, readDetectors_answers_iff hv]
    simp only [forall_const]
  · rename_i hname
    rw [← answers_map fun _ => rfl, sectionFields_answers_iff]
    simp only [hname, IsEmpty.forall_iff, and_true]

theorem ofFields_answers_iff {data : Fields} :
    (∃ c, ofFields data = .ok c) ↔
      ∀ name ∈ sectionNames, readSection name (data.get name) = .ok () := by
  rw [answers_map fun _ => rfl, ofFields_map]
  exact ⟨Gives.of_forM, Gives.forM⟩

theorem checkSections_eq_ok {data : Fields} :
    checkSections (.record data) = .ok () ↔ data.keys ⊆ sectionNames := by
  rw [checkSections, Value.elements_record, ← Value.unknownNames_keys]
  exact refusing_eq_ok

theorem readable_of_ofFields {data : Fields} (h : Value.fieldsNamed data = true)
    (hkeys : data.keys ⊆ sectionNames)
    (hread : ∀ name ∈ sectionNames, readSection name (data.get name) = .ok ()) :
    Readable data := by
  have hsection : ∀ name v, data.get? name = some v →
      v = .null ∨ ∃ options : Fields, v = .record options ∧ options.keys ⊆ optionNames name ∧
        (name = "detectors" → (options.get "thresholds").truthy = true →
          Thresholds.Wellformed (options.get "thresholds")) := by
    intro name v hget
    have hmem := Fields.mem_of_get? hget
    refine (readSection_eq_ok (Value.isNamed_of_mem h hmem)).mp ?_
    rw [← hread name (hkeys (List.mem_map_of_mem hmem)), Fields.get, hget]
    rfl
  refine ⟨hkeys, fun name v hget => ?_, fun detectors v hget hthresholds htruthy => ?_⟩
  · refine (hsection name v hget).imp_right ?_
    rintro ⟨options, rfl, hoptions, -⟩
    exact ⟨options, rfl, hoptions⟩
  · obtain ⟨⟨⟩⟩ | ⟨_, ⟨⟩, -, hwell⟩ := hsection _ _ hget
    rw [Fields.get, hthresholds] at hwell
    exact hwell rfl htruthy

theorem Readable.readSection {data : Fields} (h : Value.fieldsNamed data = true)
    (hdata : Readable data) (name : String) : readSection name (data.get name) = .ok () := by
  refine (readSection_eq_ok (Value.isNamed_get h name)).mpr ?_
  rw [Fields.get]
  cases hget : data.get? name with
  | none => exact .inl rfl
  | some v =>
    refine (hdata.options name v hget).imp_right ?_
    rintro ⟨options, rfl, hoptions⟩
    refine ⟨options, rfl, hoptions, fun hname => ?_⟩
    subst hname
    rw [Fields.get]
    cases hthresholds : options.get? "thresholds" with
    | none => rintro ⟨⟩
    | some v => exact hdata.thresholds options v hget hthresholds

theorem readExpanded_answers_iff {data : Fields} (h : Value.fieldsNamed data = true) :
    (∃ c, readExpanded (.record data) = .ok c) ↔ Readable data := by
  constructor
  · rintro ⟨c, hc⟩
    obtain ⟨_, hsections, hc⟩ := bind_eq_ok.mp hc
    exact readable_of_ofFields h (checkSections_eq_ok.mp hsections)
      (ofFields_answers_iff.mp ⟨c, hc⟩)
  · intro hdata
    obtain ⟨c, hc⟩ := ofFields_answers_iff.mpr fun name _ => hdata.readSection h name
    exact ⟨c, bind_eq_ok.mpr ⟨(), checkSections_eq_ok.mpr hdata.sections, hc⟩⟩

theorem read_record_eq (env : Variables) (data : Fields) :
    read env (.record data) = Expansion.expand env (.record data) >>= readExpanded := by
  cases data <;> rfl

theorem not_unlistable {data : Fields} (h : Value.fieldsNamed data = true) :
    ¬Unlistable (.record data) := by
  rintro (⟨_, ⟨⟩, _⟩ | ⟨-, ⟨⟩, hunlisted⟩)
  obtain ⟨name, -, ⟨entries, hodd, -⟩, -⟩ := hunlisted.exists_mem
  have hnamed := Value.isNamed_get h name
  rw [hodd] at hnamed
  cases hnamed

/-- Data in which every mapping has names for keys fails to be read if it refers to a variable that
cannot be looked up. Otherwise it is read or refused, and it is read exactly if it has the shape of
a configuration once variables have been expanded. -/
theorem read_iff_readable (env : Variables) {data : Fields}
    (h : (Value.record data).isNamed = true) :
    (∀ name, Expansion.Refers (.record data) name → ¬Text.Encodable name →
      read env (.record data) = .error .unencodable) ∧
    ((∀ name, Expansion.Refers (.record data) name → Text.Encodable name) →
      (∀ failure, read env (.record data) = .error failure →
        ∃ problem, failure = .config problem) ∧
      ∃ expanded, Expansion.expand env (.record data) = .ok (.record expanded) ∧
        ((∃ c, read env (.record data) = .ok c) ↔ Readable expanded)) := by
  refine ⟨fun name hname hbytes => ?_, fun hbytes => ?_⟩
  · rw [read_record_eq, Expansion.expand_of_refers hname hbytes]
    rfl
  have hexpand : Expansion.expand env (.record data) =
      .ok (.record (Expansion.filledFields env data)) := Expansion.expand_of_encodable hbytes
  have hnamed : Value.fieldsNamed (Expansion.filledFields env data) = true :=
    (Expansion.fieldsNamed_filledFields data).trans h
  refine ⟨fun failure hfailure => ?_, _, hexpand, ?_⟩
  · have hnot : ¬Strays (read env (.record data)) := by
      rw [strays_read rfl]
      rintro (⟨name, hname, hnone⟩ | ⟨_, hexpanded, hunlistable⟩)
      · exact hnone (hbytes name hname)
      · obtain rfl := Except.ok.inj (hexpand.symm.trans hexpanded)
        exact not_unlistable hnamed hunlistable
    rcases not_strays_iff.mp hnot with ⟨c, hc⟩ | ⟨problem, hproblem⟩
    · cases hc.symm.trans hfailure
    · exact ⟨problem, Except.error.inj (hfailure.symm.trans hproblem)⟩
  · rw [read_record_eq, hexpand]
    exact readExpanded_answers_iff hnamed

/-- Thresholds that are whatever a variable stands for. -/
def referring : Fields :=
  [("detectors", .record [("thresholds", .str "$NONE")])]

theorem refers_referring {name : String} (h : Expansion.Refers (.record referring) name) :
    Text.Encodable name := by
  have hnames : ∀ s ∈ (Value.record referring).allTexts,
      ∀ name ∈ Expansion.references s, name = "NONE" := by decide +kernel
  obtain ⟨s, hs, hname⟩ := Expansion.refers_iff.mp h
  rw [hnames s hs name hname]
  decide +kernel

/-- A variable that is empty leaves nothing to be read as thresholds. One that is not set leaves a
text, which is refused. -/
theorem read_iff_readable_referring :
    (Value.record referring).isNamed = true ∧
    (∃ c, read [("NONE", "")] (.record referring) = .ok c) ∧
    ∃ problem, read [] (.record referring) = .error (.config problem) := by
  have hnamed : (Value.record referring).isNamed = true := rfl
  have hempty : Expansion.expand [("NONE", "")] (.record referring) =
      .ok (.record [("detectors", .record [("thresholds", .str "")])]) := by with_unfolding_all rfl
  have hunset : Expansion.expand [] (.record referring) = .ok (.record referring) := by
    with_unfolding_all rfl
  refine ⟨hnamed, ?_, ?_⟩
  · obtain ⟨-, expanded, hexpanded, hiff⟩ :=
      (read_iff_readable [("NONE", "")] hnamed).2 fun _ => refers_referring
    obtain rfl := Value.record.inj (Except.ok.inj (hempty.symm.trans hexpanded))
    refine hiff.mpr ⟨by decide, fun name v hget => ?_, ?_⟩
    · obtain ⟨rfl, rfl⟩ : name = "detectors" ∧ v = .record [("thresholds", .str "")] := by
        simpa using Fields.mem_of_get? hget
      exact .inr ⟨_, rfl, by decide⟩
    · intro detectors v hdetectors hthresholds
      obtain rfl := Value.record.inj (Option.some.inj hdetectors)
      obtain rfl := Option.some.inj hthresholds
      rintro ⟨⟩
  · obtain ⟨hrefused, expanded, hexpanded, hiff⟩ :=
      (read_iff_readable [] hnamed).2 fun _ => refers_referring
    obtain rfl := Value.record.inj (Except.ok.inj (hunset.symm.trans hexpanded))
    cases hread : read [] (.record referring) with
    | error failure =>
      obtain ⟨problem, rfl⟩ := hrefused failure hread
      exact ⟨problem, rfl⟩
    | ok c =>
      obtain ⟨_, ⟨⟩, -⟩ := (hiff.mp ⟨c, hread⟩).thresholds _ _ rfl rfl rfl

/-- A section that is not known, and a reference that cannot be looked up: it is the reference that
the reading fails for. -/
theorem unknown_section_not_refused :
    read [] (.record [("bogus", .str Expansion.loneSurrogate)]) = .error .unencodable := by
  with_unfolding_all rfl

end Config

end CodeGraph
