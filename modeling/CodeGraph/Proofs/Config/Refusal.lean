import CodeGraph.Proofs.Config.RoundTrip

/-!
# How reading a configuration fails

A configuration that cannot be read is refused with a failure that speaks of it,
which names what is not known. Names are listed for that, and a listing fails in a
way of its own: exactly if something among the names is no text
(`Value.strays_unknownNames`). So a mapping is read or refused unless one of its
keys is no text at a place where names are listed (`Config.Unlistable`), or else
a variable is referred to that cannot be looked up (`Config.strays_read`).

`Strays` is the statement that a failure of another sort comes out. It goes along
computations in their order: what comes after strays only if what comes before
has answered (`strays_bind`).
-/

namespace CodeGraph

variable {α β : Type}

/-! ## Failures of another sort -/

/-- Whether a failure speaks of the configuration. -/
def Failure.isConfig : Failure → Bool
  | .config _ => true
  | _ => false

/-- There is a failure, and it speaks of something else than the configuration. -/
def Strays (x : Except Failure α) : Prop :=
  ∃ failure, x = .error failure ∧ failure.isConfig = false

theorem not_strays_ok (a : α) : ¬Strays (.ok a) := by
  rintro ⟨failure, h, -⟩
  cases h

theorem strays_error {failure : Failure} :
    Strays (.error failure : Except Failure α) ↔ failure.isConfig = false := by
  constructor
  · rintro ⟨other, h, hother⟩
    obtain rfl := Except.error.inj h
    exact hother
  · exact fun h => ⟨failure, rfl, h⟩

theorem not_strays_iff {x : Except Failure α} :
    ¬Strays x ↔ (∃ a, x = .ok a) ∨ ∃ problem, x = .error (.config problem) := by
  cases x with
  | ok a => exact iff_of_true (not_strays_ok a) (.inl ⟨a, rfl⟩)
  | error failure =>
    rw [strays_error]
    cases failure with
    | config problem => exact iff_of_true Bool.noConfusion (.inr ⟨problem, rfl⟩)
    | _ =>
      refine iff_of_false (not_not_intro rfl) ?_
      rintro (⟨_, ⟨⟩⟩ | ⟨_, ⟨⟩⟩)

theorem strays_bind {x : Except Failure α} {f : α → Except Failure β} :
    Strays (x >>= f) ↔ Strays x ∨ ∃ a, x = .ok a ∧ Strays (f a) := by
  cases x with
  | error failure =>
    have hbind : (Except.error failure >>= f) = .error failure := rfl
    simp [hbind, strays_error]
  | ok a =>
    have hbind : (Except.ok a >>= f) = f a := rfl
    simp [hbind, not_strays_ok]

theorem strays_map {x : Except Failure α} {f : α → β} : Strays (x.map f) ↔ Strays x := by
  cases x with
  | error failure => exact strays_error.trans strays_error.symm
  | ok a => exact iff_of_false (not_strays_ok _) (not_strays_ok a)

/-- Going through a list, as long as `goesOn` holds, comes upon an item of which `stops` holds. -/
inductive ComesUpon (goesOn stops : α → Prop) : List α → Prop
  | here {x : α} {rest : List α} (h : stops x) : ComesUpon goesOn stops (x :: rest)
  | later {x : α} {rest : List α} (h : goesOn x) (hrest : ComesUpon goesOn stops rest) :
    ComesUpon goesOn stops (x :: rest)

theorem comesUpon_cons {goesOn stops : α → Prop} {x : α} {rest : List α} :
    ComesUpon goesOn stops (x :: rest) ↔ stops x ∨ goesOn x ∧ ComesUpon goesOn stops rest := by
  constructor
  · rintro (h | ⟨h, hrest⟩)
    · exact .inl h
    · exact .inr ⟨h, hrest⟩
  · rintro (h | ⟨h, hrest⟩)
    · exact .here h
    · exact .later h hrest

theorem strays_forM {xs : List α} {f : α → Except Failure Unit} :
    Strays (xs.forM f) ↔ ComesUpon (fun x => f x = .ok ()) (fun x => Strays (f x)) xs := by
  induction xs with
  | nil => exact iff_of_false (not_strays_ok _) (by rintro ⟨⟩)
  | cons first rest ih =>
    rw [List.forM, strays_bind, comesUpon_cons, ih]
    refine or_congr_right ⟨?_, fun h => ⟨(), h⟩⟩
    rintro ⟨_, h⟩
    exact h

/-! ## Answers and failures at once -/

namespace Runs.Yields

variable {fails fails' : Failure → Prop} {x : Except Failure α} {P : α → Prop}

theorem mono (h : Yields fails x P) (hfails : ∀ failure, fails failure → fails' failure) :
    Yields fails' x P :=
  ⟨h.spec, fun failure hx => hfails failure (h.failure failure hx)⟩

theorem of_error {failure : Failure} (h : fails failure) :
    Yields fails (.error failure : Except Failure α) P where
  spec _ h := nomatch h
  failure _ hother := Except.error.inj hother ▸ h

theorem forM {xs : List α} {f : α → Except Failure Unit} {Q : α → Prop}
    (h : ∀ x ∈ xs, Yields fails (f x) fun _ => Q x) :
    Yields fails (xs.forM f) fun _ => ∀ x ∈ xs, Q x := by
  induction xs with
  | nil => exact of_ok fun x hx => absurd hx List.not_mem_nil
  | cons first rest ih =>
    obtain ⟨hfirst, hrest⟩ := List.forall_mem_cons.mp h
    rw [List.forM]
    exact hfirst.bind fun _ hq => (ih hrest).imp fun _ hall => List.forall_mem_cons.mpr ⟨hq, hall⟩

theorem mapM {xs : List α} {f : α → Except Failure β} {Q : α → Prop}
    (h : ∀ x ∈ xs, Yields fails (f x) fun _ => Q x) :
    Yields fails (xs.mapM f) fun _ => ∀ x ∈ xs, Q x := by
  induction xs with
  | nil => exact of_ok fun x hx => absurd hx List.not_mem_nil
  | cons first rest ih =>
    obtain ⟨hfirst, hrest⟩ := List.forall_mem_cons.mp h
    rw [List.mapM_cons]
    refine hfirst.bind fun _ hq => (ih hrest).bind fun _ hall => ?_
    exact of_ok (List.forall_mem_cons.mpr ⟨hq, hall⟩)

end Runs.Yields

/-! ## Names that are listed -/

namespace Value

open Runs (Yields)

/-- The failure of a listing: an item is no text. -/
def Untold (items : List Value) (failure : Failure) : Prop :=
  (∃ item ∈ items, item.isText = false) ∧ ∃ problem, failure = .wrongType problem

theorem Untold.mono {items others : List Value} (h : items ⊆ others) (failure : Failure) :
    Untold items failure → Untold others failure := by
  rintro ⟨⟨item, hitem, htext⟩, hproblem⟩
  exact ⟨⟨item, h hitem, htext⟩, hproblem⟩

theorem hashable_yields {items : List Value} :
    Yields (Untold items) (items.forM hashable) fun _ => True := by
  refine (Yields.forM fun item hitem => ?_ : Yields _ _ fun _ => ∀ item ∈ items, True).imp
    fun _ _ => trivial
  unfold hashable
  split
  · exact .of_ok trivial
  · rename_i hscalar
    refine .of_error ⟨⟨item, hitem, ?_⟩, _, rfl⟩
    cases item <;> simp_all [isScalar, isText]

theorem texts_yields (items : List Value) :
    Yields (Untold items) (texts items) fun _ => ∀ item ∈ items, item.isText = true := by
  have hentries : Yields (Untold items) (texts items) fun _ =>
      ∀ entry ∈ items.zipIdx, entry.1.isText = true := by
    refine Yields.mapM fun entry hentry => ?_
    obtain ⟨item, position⟩ := entry
    have hitem : item ∈ items := List.fst_mem_of_mem_zipIdx hentry
    cases item with
    | str s => exact .of_ok rfl
    | _ => exact .of_error ⟨⟨_, hitem, rfl⟩, _, rfl⟩
  refine hentries.imp fun _ hall item hitem => ?_
  obtain ⟨position, hlt, rfl⟩ := List.mem_iff_getElem.mp hitem
  have hentry : (items[position], position) ∈ items.zipIdx :=
    List.mem_zipIdx_iff_getElem?.mpr (List.getElem?_eq_getElem hlt)
  exact hall _ hentry

theorem withoutRepeats_subset (items : List Value) : withoutRepeats items ⊆ items := by
  induction items with
  | nil => exact List.Subset.refl _
  | cons v rest ih =>
    rw [withoutRepeats]
    exact List.cons_subset_cons v fun w hw => ih (List.mem_of_mem_filter hw)

/-- A value that is no text is not left out for being the same as a text. -/
theorem forall_isText_of_withoutRepeats {items : List Value}
    (h : ∀ item ∈ withoutRepeats items, item.isText = true) : ∀ item ∈ items, item.isText = true := by
  induction items with
  | nil => exact fun item hitem => absurd hitem List.not_mem_nil
  | cons v rest ih =>
    rw [withoutRepeats] at h
    obtain ⟨hv, hkept⟩ := List.forall_mem_cons.mp h
    refine List.forall_mem_cons.mpr ⟨hv, ih fun item hitem => ?_⟩
    by_cases hsame : v.same item = true
    · rw [eq_of_same_of_isText hv hsame]
      exact hv
    · exact hkept item (List.mem_filter.mpr ⟨hitem, by simpa using hsame⟩)

theorem unknownNames_yields (known : List String) (given : List Value) :
    Yields (Untold given) (unknownNames known given) fun _ => ∀ v ∈ given, v.isText = true := by
  let unknown := given.filter fun v => !v.isAmong (known.map str)
  have hsubset : withoutRepeats unknown ⊆ given := fun v hv =>
    List.mem_of_mem_filter (withoutRepeats_subset unknown hv)
  have hsorted : Yields (Untold given) (sorted (withoutRepeats unknown)) fun names =>
      names.Perm (withoutRepeats unknown) := by
    refine sortOn_yields.mono fun failure => ?_
    rintro ⟨⟨a, ha, b, hb, hnone⟩, hproblem⟩
    refine ⟨?_, hproblem⟩
    by_contra hall
    have htext : ∀ v ∈ given, v.isText = true := by simpa using hall
    have hsome := relate?_texts (htext a (hsubset ha)) (htext b (hsubset hb))
    rw [show relate? a b = none from hnone] at hsome
    cases hsome
  refine hashable_yields.bind fun _ _ => hsorted.bind fun names hperm => ?_
  refine ((texts_yields names).mono (Untold.mono fun v hv => hsubset (hperm.mem_iff.mp hv))).imp ?_
  intro _ htexts v hv
  by_cases hknown : v.isAmong (known.map str) = true
  · obtain ⟨name, -, rfl⟩ := Validation.eq_of_isAmong hknown
    rfl
  · refine forall_isText_of_withoutRepeats (fun w hw => htexts w (hperm.mem_iff.mpr hw)) v ?_
    exact List.mem_filter.mpr ⟨hv, by simpa using hknown⟩

/-- Unknown names can be listed unless something among the given ones is no text. -/
theorem strays_unknownNames (known : List String) (given : List Value) :
    Strays (unknownNames known given) ↔ ∃ v ∈ given, v.isText = false := by
  have hyields := unknownNames_yields known given
  constructor
  · rintro ⟨failure, hfails, -⟩
    exact (hyields.failure failure hfails).1
  · rintro ⟨v, hv, htext⟩
    cases hnames : unknownNames known given with
    | error failure =>
      obtain ⟨-, problem, rfl⟩ := hyields.failure failure hnames
      exact strays_error.mpr rfl
    | ok names =>
      rw [hyields.spec names hnames v hv] at htext
      cases htext

end Value

/-! ## Thresholds -/

/-- The failures that a section of detectors passes on as its own. -/
def Failure.IsRefusal (failure : Failure) : Prop :=
  (∃ problem, failure = .wrongType problem) ∨ ∃ problem, failure = .argument problem

namespace Thresholds

open Runs (Yields)

theorem unknownNames_refusal (known : List String) (given : List Value) :
    Yields Failure.IsRefusal (Value.unknownNames known given) fun _ => True :=
  ((Value.unknownNames_yields known given).mono fun _ h => .inl h.2).imp fun _ _ => trivial

theorem elements_refusal (v : Value) : Yields Failure.IsRefusal v.elements fun _ => True := by
  cases v with
  | str | list | record | table => exact .of_ok trivial
  | _ => exact .of_error (.inl ⟨_, rfl⟩)

theorem toPair_refusal (position : Nat) (v : Value) :
    Yields Failure.IsRefusal (Value.toPair position v) fun _ => True := by
  unfold Value.toPair
  split
  · unfold Value.hashable
    split
    · exact .of_ok trivial
    · exact .of_error (.inl ⟨_, rfl⟩)
  · exact .of_error (.inr ⟨_, rfl⟩)
  · exact .of_error (.inl ⟨_, rfl⟩)

theorem toTable_refusal (v : Value) : Yields Failure.IsRefusal v.toTable fun _ => True := by
  unfold Value.toTable
  split
  · exact .of_ok trivial
  · refine (elements_refusal v).bind fun items _ => ?_
    have hpairs : Yields Failure.IsRefusal
        (items.zipIdx.mapM fun entry => Value.toPair entry.2 entry.1) fun _ =>
          ∀ entry ∈ items.zipIdx, True :=
      Yields.mapM fun entry _ => toPair_refusal entry.2 entry.1
    exact hpairs.bind fun _ _ => .of_ok trivial

theorem listKinds_refusal (v : Value) : Yields Failure.IsRefusal (listKinds v) fun _ => True := by
  unfold listKinds
  split
  · exact .of_ok trivial
  · exact (elements_refusal v).bind fun _ _ => .of_ok trivial

theorem checkNames_refusal (given : List Value) :
    Yields Failure.IsRefusal (checkNames given) fun _ => True := by
  refine (unknownNames_refusal names given).bind fun unknown _ => ?_
  split
  · exact .of_error (.inr ⟨_, rfl⟩)
  · exact .of_ok trivial

theorem read_refusal (v : Value) : Yields Failure.IsRefusal (read v) fun _ => True := by
  unfold read
  split
  · exact .of_ok trivial
  · refine (elements_refusal v).bind fun given _ => ?_
    refine (checkNames_refusal given).bind fun _ _ => ?_
    refine (toTable_refusal v).bind fun entries _ => ?_
    exact (listKinds_refusal _).bind fun _ _ => .of_ok trivial

end Thresholds

/-! ## Sections -/

/-- A mapping of which a key is no text. -/
def Value.OddlyKeyed (v : Value) : Prop :=
  ∃ entries, v = .table entries ∧ ∃ key ∈ Entries.keys entries, key.isText = false

theorem Value.elements_of_mapping {v : Value} (h : v.entries?.isSome = true) :
    ∃ names, v.elements = .ok names ∧ ((∃ name ∈ names, name.isText = false) ↔ v.OddlyKeyed) := by
  cases v with
  | record fields =>
    refine ⟨_, rfl, iff_of_false ?_ (by rintro ⟨_, ⟨⟩, _⟩)⟩
    rintro ⟨name, hname, htext⟩
    obtain ⟨entry, -, rfl⟩ := List.mem_map.mp hname
    cases htext
  | table entries => exact ⟨_, rfl, by simp [Value.OddlyKeyed, Entries.keys]⟩
  | _ => cases h

theorem Value.fieldsOr_of_mapping {v : Value} (h : v.entries?.isSome = true) (member : String) :
    ∃ fields, v.fieldsOr member = .ok fields := by
  cases v with
  | record | table => exact ⟨_, rfl⟩
  | _ => cases h

namespace Config

theorem not_strays_readThresholds (v : Value) : ¬Strays (readThresholds v) := by
  rintro ⟨failure, hfails, hother⟩
  unfold readThresholds at hfails
  split at hfails
  · obtain rfl := Except.error.inj hfails
    cases hother
  · obtain rfl := Except.error.inj hfails
    cases hother
  · rename_i hwrong hargument
    rcases (Thresholds.read_refusal v).failure failure hfails with ⟨problem, rfl⟩ | ⟨problem, rfl⟩
    · exact hwrong problem hfails
    · exact hargument problem hfails

theorem isConfig_unnamed (name : String) (known : List String) (entries : Entries) :
    (sectionFields.unnamed name known entries).isConfig = false ↔
      (Value.table entries).OddlyKeyed := by
  have hodd : (Value.table entries).OddlyKeyed ↔ ∃ key ∈ entries.keys, key.isText = false := by
    simp [Value.OddlyKeyed]
  rw [hodd, ← Value.strays_unknownNames known, sectionFields.unnamed]
  cases Value.unknownNames known entries.keys with
  | ok unknown => exact iff_of_false Bool.noConfusion (not_strays_ok unknown)
  | error failure => exact strays_error.symm

theorem not_strays_checked (name : String) (known : List String) (fields : Fields) :
    ¬Strays (sectionFields.checked name known fields) := by
  unfold sectionFields.checked
  split
  · exact not_strays_ok _
  · exact fun h => nomatch strays_error.mp h

/-- A section can be refused by name unless its keys are no names. -/
theorem strays_sectionFields {name : String} {known : List String} {v : Value} :
    Strays (sectionFields name known v) ↔ v.OddlyKeyed := by
  cases v with
  | table entries => exact strays_error.trans (isConfig_unnamed name known entries)
  | record fields =>
    exact iff_of_false (not_strays_checked name known fields) (by rintro ⟨_, ⟨⟩, _⟩)
  | null => exact iff_of_false (not_strays_ok _) (by rintro ⟨_, ⟨⟩, _⟩)
  | _ => exact iff_of_false (fun h => nomatch strays_error.mp h) (by rintro ⟨_, ⟨⟩, _⟩)

theorem strays_readDetectors {v : Value} :
    Strays (readDetectors v) ↔ v.OddlyKeyed ∧ ∃ fields t, v.fieldsOr "get" = .ok fields ∧
      readThresholds (fields.get "thresholds") = .ok t := by
  cases v with
  | table entries =>
    cases hthresholds : readThresholds ((Value.textFields entries).get "thresholds") with
    | error failure =>
      have hread : readDetectors (.table entries) = .error failure := by
        rw [readDetectors, readDetectors.ofEntries, hthresholds]
        rfl
      have hconfig := not_strays_readThresholds ((Value.textFields entries).get "thresholds")
      rw [hthresholds] at hconfig
      rw [hread]
      refine iff_of_false (mt (fun h => strays_error.mpr (strays_error.mp h)) hconfig) ?_
      rintro ⟨-, fields, t, hfields, ht⟩
      obtain rfl := Except.ok.inj hfields
      cases hthresholds.symm.trans ht
    | ok t =>
      have hread : readDetectors (.table entries) =
          .error (sectionFields.unnamed "detectors" ["enabled", "thresholds"] entries) := by
        rw [readDetectors, readDetectors.ofEntries, hthresholds]
        rfl
      rw [hread, strays_error, isConfig_unnamed]
      exact (and_iff_left ⟨_, t, rfl, hthresholds⟩).symm
  | record fields =>
    refine iff_of_false (fun h => ?_) (by rintro ⟨⟨_, ⟨⟩, _⟩, _⟩)
    rcases strays_bind.mp h with hthresholds | ⟨t, -, h⟩
    · exact not_strays_readThresholds _ hthresholds
    · rcases strays_bind.mp h with hrest | ⟨rest, -, h⟩
      · exact not_strays_checked _ _ _ hrest
      · exact not_strays_ok _ h
  | null => exact iff_of_false (not_strays_ok _) (by rintro ⟨⟨_, ⟨⟩, _⟩, _⟩)
  | _ => exact iff_of_false (fun h => nomatch strays_error.mp h) (by rintro ⟨⟨_, ⟨⟩, _⟩, _⟩)

/-! ## Sections in order -/

def optionNames (name : String) : List String :=
  match (toFields {}).get name with
  | .record fields => Fields.keys fields
  | _ => []

def readSection (name : String) (v : Value) : Except Failure Unit :=
  if name = "detectors" then (readDetectors v).map fun _ => ()
  else (sectionFields name (optionNames name) v).map fun _ => ()

/-- A section that is given and cannot be listed: its keys are no names, and of detectors the
thresholds, which come first, can be read. -/
def Unlisted (name : String) (v : Value) : Prop :=
  v.OddlyKeyed ∧ (name = "detectors" → ∃ fields t, v.fieldsOr "get" = .ok fields ∧
    readThresholds (fields.get "thresholds") = .ok t)

theorem strays_readSection {name : String} {v : Value} :
    Strays (readSection name v) ↔ Unlisted name v := by
  unfold readSection Unlisted
  split
  · rename_i hname
    rw [strays_map, strays_readDetectors, forall_prop_of_true hname]
  · rename_i hname
    rw [strays_map, strays_sectionFields, forall_prop_of_false hname, and_true]

theorem map_bind_eq {x : Except Failure α} {f : α → Except Failure β} {rest : Except Failure Unit}
    (h : ∀ a, (f a).map (fun _ => ()) = rest) :
    (x >>= f).map (fun _ => ()) = x.map (fun _ => ()) >>= fun _ => rest := by
  cases x with
  | error failure => rfl
  | ok a => exact h a

theorem ofFields_map (fields : Fields) : (ofFields fields).map (fun _ => ()) =
    sectionNames.forM fun name => readSection name (fields.get name) :=
  map_bind_eq fun _ => map_bind_eq fun _ => map_bind_eq fun _ => map_bind_eq fun _ =>
    map_bind_eq fun _ => map_bind_eq fun _ => rfl

/-- The first section that cannot be read has options without a name. -/
def HasUnlisted (fields : Fields) : Prop :=
  ComesUpon (fun name => readSection name (fields.get name) = .ok ())
    (fun name => Unlisted name (fields.get name)) sectionNames

theorem strays_ofFields {fields : Fields} : Strays (ofFields fields) ↔ HasUnlisted fields := by
  rw [← strays_map, ofFields_map, strays_forM, HasUnlisted]
  simp only [strays_readSection]

/-- Unknown sections can be listed unless a name is no text. -/
theorem strays_checkSections {v : Value} (h : v.entries?.isSome = true) :
    Strays (checkSections v) ↔ v.OddlyKeyed := by
  obtain ⟨names, hnames, hodd⟩ := Value.elements_of_mapping h
  rw [checkSections, hnames, ← hodd, ← Value.strays_unknownNames sectionNames]
  refine (strays_bind (x := Value.unknownNames sectionNames names)).trans (or_iff_left ?_)
  rintro ⟨unknown, -, h⟩
  split at h
  · cases strays_error.mp h
  · exact not_strays_ok _ h

/-- The ways in which a mapping can neither be read nor be refused as a configuration. -/
inductive Unlistable (data : Value) : Prop
  /-- A section has no name. -/
  | sections (h : data.OddlyKeyed)
  /-- The sections have names, and are those of a configuration, but the options have none. -/
  | options {fields : Fields} (hsections : checkSections data = .ok ())
    (hfields : data.fieldsOr "get" = .ok fields) (h : HasUnlisted fields)

theorem strays_readExpanded {data : Value} (h : data.entries?.isSome = true) :
    Strays (readExpanded data) ↔ Unlistable data := by
  obtain ⟨fields, hfields⟩ := Value.fieldsOr_of_mapping h "get"
  rw [readExpanded, strays_bind, strays_checkSections h, hfields]
  constructor
  · rintro (hodd | ⟨_, hsections, hstrays⟩)
    · exact .sections hodd
    · exact .options hsections hfields (strays_ofFields.mp hstrays)
  · rintro (hodd | ⟨hsections, hothers, hunlisted⟩)
    · exact .inl hodd
    · obtain rfl := Except.ok.inj (hfields.symm.trans hothers)
      exact .inr ⟨(), hsections, strays_ofFields.mpr hunlisted⟩

theorem empty_of_not_truthy {data : Value} (h : data.entries?.isSome = true)
    (hempty : data.truthy = false) : data = .record [] ∨ data = .table [] := by
  cases data with
  | record fields => cases fields <;> simp_all [Value.truthy]
  | table entries => cases entries <;> simp_all [Value.truthy]
  | _ => cases h

theorem not_unlistable_of_empty {data : Value} (h : data = .record [] ∨ data = .table []) :
    ¬Unlistable data := by
  rintro (⟨entries, rfl, key, hkey, -⟩ | ⟨-, hfields, hunlisted⟩)
  · obtain rfl : entries = [] := by simpa using h
    cases hkey
  · have hread := strays_ofFields.mpr hunlisted
    rcases h with rfl | rfl <;>
    · obtain rfl := Except.ok.inj hfields
      exact not_strays_ok _ hread

/-! ## Expansion -/

variable {env : Variables}

theorem strays_expand {v : Value} : Strays (Expansion.expand env v) ↔
    ∃ name, Expansion.Refers v name ∧ ¬Text.Encodable name := by
  constructor
  · intro h
    by_contra hall
    have hencodable : ∀ name, Expansion.Refers v name → Text.Encodable name := by simpa using hall
    rw [Expansion.expand_of_encodable hencodable] at h
    exact not_strays_ok _ h
  · rintro ⟨name, hname, hbytes⟩
    rw [Expansion.expand_of_refers hname hbytes]
    exact strays_error.mpr rfl

theorem entries?_expand {v w : Value} (h : v.entries?.isSome = true)
    (hw : Expansion.expand env v = .ok w) : w.entries?.isSome = true := by
  rw [Expansion.expand_eq] at hw
  obtain ⟨-, rfl⟩ := provided_eq_ok.mp hw
  cases v with
  | record | table => rfl
  | _ => cases h

/-- A mapping is read or refused, unless it refers to a variable that cannot be looked up, or it
cannot be listed what is wrong with it. -/
theorem strays_read {data : Value} (h : data.entries?.isSome = true) :
    Strays (read env data) ↔ (∃ name, Expansion.Refers data name ∧ ¬Text.Encodable name) ∨
      ∃ expanded, Expansion.expand env data = .ok expanded ∧ Unlistable expanded := by
  cases htruthy : data.truthy with
  | false =>
    have hempty := empty_of_not_truthy h htruthy
    have hread : read env data = readExpanded (.record []) := by
      rw [read, htruthy]
      rfl
    have hexpand : Expansion.expand env data = .ok data := by rcases hempty with rfl | rfl <;> rfl
    rw [hread, strays_readExpanded rfl, ← strays_expand, hexpand]
    refine iff_of_false (not_unlistable_of_empty (.inl rfl)) ?_
    rintro (hstrays | ⟨_, ⟨⟩, hunlistable⟩)
    · exact not_strays_ok _ hstrays
    · exact not_unlistable_of_empty hempty hunlistable
  | true =>
    have hread : read env data = Expansion.expand env data >>= readExpanded := by
      rw [read, htruthy]
      rfl
    rw [hread, strays_bind, strays_expand]
    refine or_congr_right (exists_congr fun expanded => and_congr_right fun hexpanded => ?_)
    exact strays_readExpanded (entries?_expand h hexpanded)

end Config

end CodeGraph
