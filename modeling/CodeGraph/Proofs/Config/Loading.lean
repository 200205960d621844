import CodeGraph.Config.Loading
import CodeGraph.Proofs.Config.Refusal

/-!
# How loading a configuration fails

Loading ends with a configuration or with a failure that speaks of the
configuration, as far as the system answers for its files, the file holds text, its
document is what a configuration is read from, its names are texts and its
variables can be looked up. It does not always end so. `Config.Source.Escapes`
lists the ways in which another failure gets through, and there are no others
(`Config.answers_or_refuses_iff`). Nothing is assumed of the files and of what
documents are read as: it is for any `Disk` and any `Readers`.

The statement is put together in the order in which loading goes. Of every step it
is shown how it strays and which of its answers are no mappings, for a document
that is no mapping is refused in one format and let pass in another
(`Config.Bare`).
-/

namespace CodeGraph

variable {α : Type}

theorem strays_findM? {xs : List α} {f : α → Except Failure Bool} :
    Strays (xs.findM? f) ↔ ComesUpon (fun x => f x = .ok false) (fun x => Strays (f x)) xs := by
  induction xs with
  | nil => exact iff_of_false (not_strays_ok _) (by rintro ⟨⟩)
  | cons first rest ih =>
    rw [List.findM?, strays_bind, comesUpon_cons, ← ih]
    refine or_congr_right ⟨?_, fun h => ⟨false, h⟩⟩
    rintro ⟨found, hfirst, hrest⟩
    cases found with
    | true => exact absurd hrest (not_strays_ok _)
    | false => exact ⟨hfirst, hrest⟩

theorem findM?_eq_none {xs : List α} {f : α → Except Failure Bool} :
    xs.findM? f = .ok none ↔ ∀ x ∈ xs, f x = .ok false := by
  induction xs with
  | nil => exact iff_of_true rfl (by rintro _ ⟨⟩)
  | cons first rest ih =>
    rw [List.findM?, List.forall_mem_cons, ← ih]
    rcases f first with _ | _ | _
    · exact iff_of_false (by rintro ⟨⟩) (by rintro ⟨⟨⟩, -⟩)
    · exact (and_iff_right rfl).symm
    · exact iff_of_false (by rintro ⟨⟩) (by rintro ⟨⟨⟩, -⟩)

/-! ## Mappings laid over mappings -/

theorem Value.entries?_mapping (entries : Entries) : (mapping entries).entries?.isSome = true := by
  unfold mapping
  split <;> rfl

theorem deepMerge_of_mapping {base top : Value} (hbase : base.entries?.isSome = true)
    (htop : top.entries?.isSome = true) :
    ∃ merged, deepMerge base top = .ok merged ∧ merged.entries?.isSome = true := by
  cases base with
  | record fields =>
    cases top with
    | record changes => exact ⟨_, rfl, rfl⟩
    | table changes => exact ⟨_, rfl, Value.entries?_mapping _⟩
    | _ => cases htop
  | table entries =>
    cases top with
    | record changes => exact ⟨_, rfl, Value.entries?_mapping _⟩
    | table changes => exact ⟨_, rfl, Value.entries?_mapping _⟩
    | _ => cases htop
  | _ => cases hbase

theorem strays_deepMerge (fields : Fields) {top : Value} :
    Strays (deepMerge (.record fields) top) ↔ top.entries? = none := by
  cases top with
  | record | table => exact iff_of_false (not_strays_ok _) (by rintro ⟨⟩)
  | _ => exact iff_of_true (strays_error.mpr rfl) rfl

theorem entries?_deepMerge {fields : Fields} {top merged : Value}
    (h : deepMerge (.record fields) top = .ok merged) : merged.entries?.isSome = true := by
  have hbase : (Value.record fields).entries?.isSome = true := rfl
  cases htop : top.entries? with
  | none => exact absurd (h ▸ (strays_deepMerge fields).mpr htop) (not_strays_ok merged)
  | some entries =>
    obtain ⟨other, hother, hsome⟩ := deepMerge_of_mapping hbase (Option.isSome_of_eq_some htop)
    obtain rfl := Except.ok.inj (h.symm.trans hother)
    exact hsome

namespace Config

/-! ## Documents -/

def Readers.reading (readers : Readers) : Format → String → Reading Value
  | .toml, text => (readers.toml text).map .record
  | .json, text => readers.json text
  | .yaml, text => readers.yaml text

/-- A text keeps the rules of its format, and reading it fails for another reason. -/
def Overreaches {α : Type} (said : Reading α) : Prop :=
  ∃ cause, said = .error (.failure cause) ∧ cause.isConfig = false

section

variable {α : Type}

theorem not_overreaches_malformed : ¬Overreaches (.error .malformed : Reading α) := by
  rintro ⟨cause, ⟨⟩, -⟩

theorem overreaches_failure {cause : Failure} :
    Overreaches (.error (.failure cause) : Reading α) ↔ cause.isConfig = false := by
  simp [Overreaches]

theorem not_overreaches_ok (a : α) : ¬Overreaches (.ok a : Reading α) := by
  rintro ⟨cause, ⟨⟩, -⟩

end

/-- The ways in which a file gives no document and is not refused either. -/
inductive Misloads (disk : Disk) (readers : Readers) (path : Files.Path) : Prop
  /-- It is not answered whether there is a file. -/
  | path (h : Strays (disk.leads path))
  /-- The file holds no text. -/
  | bytes {bytes : ByteArray} (hleads : disk.leads path = .ok true)
    (hbytes : disk.bytes path = .ok bytes) (h : String.fromUTF8? bytes = none)
  /-- The text keeps the rules of its format, and its reader fails for another reason. -/
  | reader {text : String} {format : Format} (htext : fileText disk path = .ok text)
    (hformat : format? path = some format) (h : Overreaches (readers.reading format text))

/-- The document is something and no mapping, which only one format lets pass. -/
structure Bare (disk : Disk) (readers : Readers) (path : Files.Path) (v : Value) : Prop where
  format : format? path = some .json
  reads : ∃ text, fileText disk path = .ok text ∧ readers.json text = .ok v
  truthy : v.truthy = true
  noMapping : v.entries? = none

/-- Whatever stands in the journal, loading a document strays exactly if `strays` holds, and of the
values that are no mappings it answers those of `bare`. -/
def LoadsAs (x : Logged Value) (strays : Prop) (bare : Value → Prop) : Prop :=
  ∃ r, x.ComesTo r ∧ (Strays r ↔ strays) ∧ ∀ v, (r = .ok v ∧ v.entries? = none) ↔ bare v

section Documents

variable {x : Logged Value} {strays : Prop} {bare : Value → Prop} {shown : String}

theorem LoadsAs.of_error {failure : Failure} (h : x.ComesTo (.error failure))
    (hstrays : failure.isConfig = false ↔ strays) (hbare : ∀ v, ¬bare v) :
    LoadsAs x strays bare := by
  refine ⟨_, h, strays_error.trans hstrays, fun v => iff_of_false ?_ (hbare v)⟩
  rintro ⟨⟨⟩, -⟩

theorem LoadsAs.of_ok {v : Value} (h : x.ComesTo (.ok v)) (hstrays : ¬strays)
    (hbare : ∀ w, (v = w ∧ w.entries? = none) ↔ bare w) : LoadsAs x strays bare := by
  refine ⟨_, h, iff_of_false (not_strays_ok v) hstrays, fun w => ?_⟩
  rw [Except.ok.injEq]
  exact hbare w

theorem LoadsAs.of_mapping {v : Value} (h : x.ComesTo (.ok v)) (hv : v.entries?.isSome = true)
    (hstrays : ¬strays) : LoadsAs x strays fun _ => False := by
  refine .of_ok h hstrays fun w => iff_of_false ?_ id
  rintro ⟨rfl, hnone⟩
  rw [hnone] at hv
  cases hv

theorem takeToml_loadsAs (said : Reading Fields) :
    LoadsAs (takeToml shown said) (Overreaches (said.map Value.record)) fun _ => False := by
  cases said with
  | error fault =>
    cases fault with
    | malformed =>
      exact .of_error (fun _ => rfl) (iff_of_false Bool.noConfusion not_overreaches_malformed)
        fun _ => id
    | failure cause => exact .of_error (fun _ => rfl) overreaches_failure.symm fun _ => id
  | ok fields => exact .of_mapping (v := .record fields) (fun _ => rfl) rfl (not_overreaches_ok _)

theorem takeJson_loadsAs (said : Reading Value) :
    LoadsAs (takeJson shown said) (Overreaches said) fun v =>
      said = .ok v ∧ v.truthy = true ∧ v.entries? = none := by
  cases said with
  | error fault =>
    cases fault with
    | malformed =>
      exact .of_error (fun _ => rfl) (iff_of_false Bool.noConfusion not_overreaches_malformed)
        (by rintro v ⟨⟨⟩, -⟩)
    | failure cause =>
      exact .of_error (fun _ => rfl) overreaches_failure.symm (by rintro v ⟨⟨⟩, -⟩)
  | ok v =>
    refine .of_ok (v := orEmpty v) (fun _ => rfl) (not_overreaches_ok v) fun w => ?_
    rw [Except.ok.injEq, orEmpty]
    cases htruthy : v.truthy with
    | true =>
      rw [if_pos rfl]
      constructor
      · rintro ⟨rfl, hnone⟩
        exact ⟨rfl, htruthy, hnone⟩
      · rintro ⟨rfl, -, hnone⟩
        exact ⟨rfl, hnone⟩
    | false =>
      rw [if_neg Bool.false_ne_true]
      refine iff_of_false (by rintro ⟨rfl, ⟨⟩⟩) ?_
      rintro ⟨rfl, hw, -⟩
      cases htruthy.symm.trans hw

theorem entries?_orEmpty {v : Value} (h : (v.isNull || v.entries?.isSome) = true) :
    (orEmpty v).entries?.isSome = true := by
  unfold orEmpty
  split
  · cases v with
    | null => contradiction
    | record | table => rfl
    | _ => cases h
  · rfl

theorem takeYaml_loadsAs (said : Reading Value) :
    LoadsAs (takeYaml shown said) (Overreaches said) fun _ => False := by
  cases said with
  | error fault =>
    cases fault with
    | malformed =>
      exact .of_error (fun _ => rfl) (iff_of_false Bool.noConfusion not_overreaches_malformed)
        fun _ => id
    | failure cause => exact .of_error (fun _ => rfl) overreaches_failure.symm fun _ => id
  | ok v =>
    unfold takeYaml
    dsimp only
    by_cases hmapping : (v.isNull || v.entries?.isSome) = true
    · rw [if_pos hmapping]
      exact .of_mapping (fun _ => rfl) (entries?_orEmpty hmapping) (not_overreaches_ok v)
    · rw [if_neg hmapping]
      exact .of_error (fun _ => rfl) (iff_of_false Bool.noConfusion (not_overreaches_ok v))
        fun _ => id

theorem readDocument_loadsAs (readers : Readers) (path : Files.Path) (text : String) :
    LoadsAs (readDocument readers path shown text)
      (∃ format, format? path = some format ∧ Overreaches (readers.reading format text)) fun v =>
      format? path = some .json ∧ readers.json text = .ok v ∧ v.truthy = true ∧
        v.entries? = none := by
  unfold readDocument
  cases format? path with
  | none =>
    refine .of_error (fun _ => rfl) (iff_of_false Bool.noConfusion ?_) ?_
    · rintro ⟨_, ⟨⟩, -⟩
    · rintro _ ⟨⟨⟩, -⟩
  | some format =>
    cases format with
    | toml => simpa [Readers.reading] using takeToml_loadsAs (readers.toml text)
    | json => simpa [Readers.reading] using takeJson_loadsAs (readers.json text)
    | yaml => simpa [Readers.reading] using takeYaml_loadsAs (readers.yaml text)

end Documents

section Files

variable {disk : Disk} {readers : Readers} {path : Files.Path}

theorem strays_decode {bytes : ByteArray} :
    Strays (Files.decode bytes) ↔ String.fromUTF8? bytes = none := by
  unfold Files.decode
  cases String.fromUTF8? bytes with
  | none => exact iff_of_true (strays_error.mpr rfl) rfl
  | some s => exact iff_of_false (not_strays_ok _) (by rintro ⟨⟩)

theorem strays_fileText : Strays (fileText disk path) ↔ Strays (disk.leads path) ∨
    ∃ bytes, disk.leads path = .ok true ∧ disk.bytes path = .ok bytes ∧
      String.fromUTF8? bytes = none := by
  rw [fileText, strays_bind]
  refine or_congr_right ⟨?_, ?_⟩
  · rintro ⟨found, hleads, h⟩
    cases found with
    | false => cases strays_error.mp h
    | true =>
      cases hbytes : disk.bytes path with
      | error reason =>
        rw [hbytes] at h
        cases strays_error.mp h
      | ok bytes =>
        rw [hbytes] at h
        exact ⟨bytes, hleads, rfl, strays_decode.mp h⟩
  · rintro ⟨bytes, hleads, hbytes, hnone⟩
    refine ⟨true, hleads, ?_⟩
    rw [hbytes]
    exact strays_decode.mpr hnone

theorem misloads_of_error {failure : Failure} (h : fileText disk path = .error failure) :
    failure.isConfig = false ↔ Misloads disk readers path := by
  rw [← strays_error, ← h, strays_fileText]
  constructor
  · rintro (hpath | ⟨bytes, hleads, hbytes, hnone⟩)
    · exact .path hpath
    · exact .bytes hleads hbytes hnone
  · rintro (hpath | ⟨hleads, hbytes, hnone⟩ | ⟨htext, -, -⟩)
    · exact .inl hpath
    · exact .inr ⟨_, hleads, hbytes, hnone⟩
    · cases h.symm.trans htext

theorem misloads_of_ok {text : String} (h : fileText disk path = .ok text) :
    Misloads disk readers path ↔
      ∃ format, format? path = some format ∧ Overreaches (readers.reading format text) := by
  have hstrays : ¬Strays (fileText disk path) := h ▸ not_strays_ok text
  rw [strays_fileText] at hstrays
  constructor
  · rintro (hpath | ⟨hleads, hbytes, hnone⟩ | ⟨htext, hformat, hover⟩)
    · exact absurd (.inl hpath) hstrays
    · exact absurd (.inr ⟨_, hleads, hbytes, hnone⟩) hstrays
    · obtain rfl := Except.ok.inj (h.symm.trans htext)
      exact ⟨_, hformat, hover⟩
  · rintro ⟨format, hformat, hover⟩
    exact .reader h hformat hover

theorem bare_of_ok {text : String} (h : fileText disk path = .ok text) {v : Value} :
    Bare disk readers path v ↔ format? path = some .json ∧ readers.json text = .ok v ∧
      v.truthy = true ∧ v.entries? = none := by
  constructor
  · rintro ⟨hformat, ⟨other, hother, hreads⟩, htruthy, hnone⟩
    obtain rfl := Except.ok.inj (h.symm.trans hother)
    exact ⟨hformat, hreads, htruthy, hnone⟩
  · rintro ⟨hformat, hreads, htruthy, hnone⟩
    exact ⟨hformat, ⟨text, h, hreads⟩, htruthy, hnone⟩

theorem loadFile_loadsAs (disk : Disk) (readers : Readers) (path : Files.Path) :
    LoadsAs (loadFile disk readers path) (Misloads disk readers path) (Bare disk readers path) := by
  have htext := Logged.ComesTo.lift (fileText disk path)
  unfold loadFile
  cases hread : fileText disk path with
  | error failure =>
    refine .of_error (fun _ => rfl) (misloads_of_error hread) ?_
    rintro v ⟨-, ⟨text, hother, -⟩, -, -⟩
    cases hread.symm.trans hother
  | ok text =>
    obtain ⟨r, hr, hstrays, hbare⟩ := readDocument_loadsAs readers path text
    rw [hread] at htext
    exact ⟨r, htext.andThen hr, hstrays.trans (misloads_of_ok hread).symm,
      fun v => (hbare v).trans (bare_of_ok hread).symm⟩

end Files

/-! ## The choice of a file -/

namespace Source

variable {s : Source}

/-- A search comes upon a place of which it is not answered whether there is a file, before it finds
one. -/
def StuckIn (s : Source) (places : List Files.Path) : Prop :=
  ComesUpon (fun path => s.disk.isFile path = .ok false) (fun path => Strays (s.disk.isFile path))
    places

/-- No file is named, and looking for one does not come to an end. -/
inductive Lost (s : Source) : Prop
  /-- It is not known where to start. -/
  | start (hfile : s.file = none) (h : Strays s.start)
  | above {spot : Files.Spot} (hfile : s.file = none) (hstart : s.start = .ok spot)
    (h : s.StuckIn (places spot))
  /-- There is nothing above, and it is not known where home is. -/
  | home {spot : Files.Spot} (hfile : s.file = none) (hstart : s.start = .ok spot)
    (hnone : ∀ path ∈ places spot, s.disk.isFile path = .ok false) (h : Strays s.home)
  | atHome {spot : Files.Spot} {home : Files.Path} (hfile : s.file = none)
    (hstart : s.start = .ok spot) (hnone : ∀ path ∈ places spot, s.disk.isFile path = .ok false)
    (hhome : s.home = .ok home) (h : s.StuckIn (homePlaces.map home.below))

/-- The file that is read, if there is one. -/
def chosen (s : Source) : Except Failure (Option Files.Path) :=
  match s.file with
  | some path => .ok (some path)
  | none => findFile? s.disk s.home s.start

theorem locate_comesTo (s : Source) : s.locate.ComesTo s.chosen := by
  unfold locate chosen
  cases s.file with
  | some path => exact fun _ => rfl
  | none =>
    unfold find
    cases findFile? s.disk s.home s.start with
    | error failure => exact fun _ => rfl
    | ok found => cases found <;> exact fun _ => rfl

theorem strays_findFile? (hfile : s.file = none) :
    Strays (findFile? s.disk s.home s.start) ↔ s.Lost := by
  rw [findFile?, strays_bind]
  constructor
  · rintro (hstart | ⟨spot, hstart, h⟩)
    · exact .start hfile hstart
    · rcases strays_bind.mp h with habove | ⟨found, hfound, h⟩
      · exact .above hfile hstart (strays_findM?.mp habove)
      · cases found with
        | some path => exact absurd h (not_strays_ok _)
        | none =>
          have hnone := findM?_eq_none.mp hfound
          rcases strays_bind.mp h with hhome | ⟨home, hhome, h⟩
          · exact .home hfile hstart hnone hhome
          · exact .atHome hfile hstart hnone hhome (strays_findM?.mp h)
  · rintro (⟨-, hstart⟩ | ⟨-, hstart, habove⟩ | ⟨-, hstart, hnone, hhome⟩ |
      ⟨-, hstart, hnone, hhome, h⟩)
    · exact .inl hstart
    · exact .inr ⟨_, hstart, strays_bind.mpr (.inl (strays_findM?.mpr habove))⟩
    · exact .inr ⟨_, hstart, strays_bind.mpr (.inr ⟨none, findM?_eq_none.mpr hnone,
        strays_bind.mpr (.inl hhome)⟩)⟩
    · exact .inr ⟨_, hstart, strays_bind.mpr (.inr ⟨none, findM?_eq_none.mpr hnone,
        strays_bind.mpr (.inr ⟨_, hhome, strays_findM?.mpr h⟩)⟩)⟩

theorem strays_chosen : Strays s.chosen ↔ s.Lost := by
  unfold chosen
  cases hfile : s.file with
  | none => exact strays_findFile? hfile
  | some path =>
    refine iff_of_false (not_strays_ok _) ?_
    rintro (⟨hnone, -⟩ | ⟨hnone, -, -⟩ | ⟨hnone, -, -, -⟩ | ⟨hnone, -, -, -, -⟩) <;>
      cases hfile.symm.trans hnone

/-! ## From the file to the configuration -/

/-- The ways in which the chosen file gives nothing to lay variables over, and is not refused. -/
inductive Breaks (s : Source) : Prop
  | search (h : s.Lost)
  | file {path : Files.Path} (hchosen : s.chosen = .ok (some path)) (h : Misloads s.disk s.readers path)
  | document {path : Files.Path} {v : Value} (hchosen : s.chosen = .ok (some path))
    (h : Bare s.disk s.readers path v)

theorem breaks_iff {found : Option Files.Path} (h : s.chosen = .ok found) :
    s.Breaks ↔ ∃ path, found = some path ∧
      (Misloads s.disk s.readers path ∨ ∃ v, Bare s.disk s.readers path v) := by
  constructor
  · rintro (hlost | ⟨hchosen, hfile⟩ | ⟨hchosen, hbare⟩)
    · exact absurd (h ▸ strays_chosen.mpr hlost) (not_strays_ok found)
    · exact ⟨_, Except.ok.inj (h.symm.trans hchosen), .inl hfile⟩
    · exact ⟨_, Except.ok.inj (h.symm.trans hchosen), .inr ⟨_, hbare⟩⟩
  · rintro ⟨path, rfl, hfile | ⟨v, hbare⟩⟩
    · exact .file h hfile
    · exact .document h hbare

theorem fromFile_ends (s : Source) : ∃ r, s.fromFile.ComesTo r ∧ (Strays r ↔ s.Breaks) ∧
    ∀ data, r = .ok data → data.entries?.isSome = true := by
  have hlocate := s.locate_comesTo
  cases hchosen : s.chosen with
  | error failure =>
    rw [hchosen] at hlocate
    have hlost : Strays (.error failure : Except Failure Value) ↔ s.Lost := by
      rw [← strays_chosen, hchosen, strays_error, strays_error]
    refine ⟨.error failure, hlocate.bind (g := fun _ => .error failure) (by rintro _ ⟨⟩), ?_, ?_⟩
    · refine hlost.trans ⟨.search, ?_⟩
      rintro (hlost | ⟨hother, -⟩ | ⟨hother, -⟩)
      · exact hlost
      · cases hchosen.symm.trans hother
      · cases hchosen.symm.trans hother
    · rintro data ⟨⟩
  | ok found =>
    rw [hchosen] at hlocate
    cases found with
    | none =>
      refine ⟨.ok (.record []), hlocate.andThen fun _ => rfl, ?_, ?_⟩
      · rw [breaks_iff hchosen]
        exact iff_of_false (not_strays_ok _) (by rintro ⟨path, ⟨⟩, -⟩)
      · rintro data ⟨⟩
        rfl
    | some path =>
      obtain ⟨r, hr, hmisloads, hbare⟩ := loadFile_loadsAs s.disk s.readers path
      refine ⟨r >>= deepMerge (.record []), hlocate.andThen (hr.bind fun v _ => ?_), ?_, ?_⟩
      · cases deepMerge (.record []) v <;> exact fun _ => rfl
      · rw [strays_bind, breaks_iff hchosen]
        simp [strays_deepMerge, hmisloads, hbare]
      · intro data hdata
        obtain ⟨v, -, hmerged⟩ := bind_eq_ok.mp hdata
        exact entries?_deepMerge hmerged

theorem withVariables_comesTo (s : Source) {data : Value} (h : data.entries?.isSome = true) :
    ∃ whole, (s.withVariables data).ComesTo (.ok whole) ∧ whole.entries?.isSome = true := by
  unfold withVariables
  by_cases hnothing : (!s.useEnv || (ofVariables s.env).isEmpty) = true
  · refine ⟨data, ?_, h⟩
    intro journal
    simp only [if_pos hnothing]
    rfl
  · have hvariables : (Value.record (ofVariables s.env)).entries?.isSome = true := rfl
    obtain ⟨whole, hwhole, hsome⟩ := deepMerge_of_mapping h hvariables
    refine ⟨whole, ?_, hsome⟩
    intro journal
    simp only [if_neg hnothing, hwhole]
    rfl

/-- Data that is read as a configuration in the end. -/
def Gathers (s : Source) (data : Value) : Prop :=
  (s.fromFile >>= s.withVariables).ComesTo (.ok data)

/-- The ways in which a failure that does not speak of the configuration gets through. -/
inductive Escapes (s : Source) : Prop
  | source (h : s.Breaks)
  /-- A variable is referred to that cannot be looked up. -/
  | variables {data : Value} {name : String} (hdata : s.Gathers data)
    (hname : Expansion.Refers data name) (h : ¬Text.Encodable name)
  | names {data expanded : Value} (hdata : s.Gathers data)
    (hexpand : Expansion.expand s.env data = .ok expanded) (h : Unlistable expanded)

theorem gather_ends (s : Source) : ∃ r, (s.fromFile >>= s.withVariables).ComesTo r ∧
    (Strays r ↔ s.Breaks) ∧ ∀ data, r = .ok data → data.entries?.isSome = true := by
  obtain ⟨r, hr, hbreaks, hmapping⟩ := s.fromFile_ends
  cases r with
  | error failure =>
    refine ⟨.error failure, hr.bind (g := fun _ => .error failure) (by rintro _ ⟨⟩), hbreaks, ?_⟩
    rintro data ⟨⟩
  | ok data =>
    obtain ⟨whole, hwhole, hsome⟩ := s.withVariables_comesTo (hmapping data rfl)
    refine ⟨.ok whole, hr.andThen hwhole, ?_, ?_⟩
    · exact iff_of_false (not_strays_ok whole) fun h => not_strays_ok data (hbreaks.mpr h)
    · rintro other ⟨⟩
      exact hsome

theorem load_eq (s : Source) :
    load s = (s.fromFile >>= s.withVariables) >>= fun data => liftM (read s.env data) := by
  rw [bind_assoc]
  rfl

end Source

/-- Loading answers with a configuration, or refuses with a failure that speaks of one, unless
one of the listed ways is open to another failure. -/
theorem answers_or_refuses_iff (s : Source) (journal : Journal) :
    ((∃ c, (load s).outcome journal = .ok c) ∨
      ∃ problem, (load s).outcome journal = .error (.config problem)) ↔ ¬s.Escapes := by
  obtain ⟨r, hr, hbreaks, hmapping⟩ := s.gather_ends
  have hload : (load s).ComesTo (r >>= read s.env) := by
    rw [s.load_eq]
    exact hr.bind fun data _ => .lift (read s.env data)
  rw [← not_strays_iff, hload journal, strays_bind, hbreaks, not_iff_not]
  constructor
  · rintro (h | ⟨data, rfl, hread⟩)
    · exact .source h
    · rcases (strays_read (hmapping data rfl)).mp hread with ⟨name, hname, h⟩ | ⟨_, hexpand, h⟩
      · exact .variables hr hname h
      · exact .names hr hexpand h
  · -- data that is gathered is what `r` answers, for the journal does not matter
    have hgathers : ∀ data, s.Gathers data → r = .ok data := fun data hdata =>
      (hr journal).symm.trans (hdata journal)
    rintro (h | ⟨hdata, hname, h⟩ | ⟨hdata, hexpand, h⟩)
    · exact .inl h
    · have hdata := hgathers _ hdata
      exact .inr ⟨_, hdata, (strays_read (hmapping _ hdata)).mpr (.inl ⟨_, hname, h⟩)⟩
    · have hdata := hgathers _ hdata
      exact .inr ⟨_, hdata, (strays_read (hmapping _ hdata)).mpr (.inr ⟨_, hexpand, h⟩)⟩

/-- A source with a single file, which is named. -/
def Source.naming (name : String) (bytes : ByteArray) : Source where
  disk := (Files.mk "/home" [([name], .file bytes)]).disk
  readers := .standard
  env := []
  home := .ok (.ofLocation [])
  start := .ok (.inside [])
  file := some (.ofLocation [name])
  useEnv := true

/-- A list where a mapping should be, and bytes that are no text. -/
theorem failures_get_through :
    (load (.naming "c.json" "[1]".toUTF8)).outcome .empty = .error (.noMember "list" "items") ∧
    (load (.naming "c.json" ⟨#[255]⟩)).outcome .empty = .error .malformedText :=
  ⟨by with_unfolding_all rfl, by with_unfolding_all rfl⟩

end Config

end CodeGraph
