import CodeGraph.Config.Merge
import CodeGraph.Proofs.Community.Modularity
import CodeGraph.Proofs.Config.RoundTrip
import CodeGraph.Proofs.Fields

/-!
# Options laid over options

Merging knows of no options. It drops from nested data what equals the defaults,
and patches the rest into other nested data (`Value.patched`). For values that
are declared for an option (`Value.fits`) this comes to a rule for each of them
(`Value.atop`): the upper value, unless it is the default, and for tables of
costs their union.

The rule has its laws for one option, from those of tables laid over each other,
and passes them on to the options of a section (`Fields.Fit`).
`Fields.overlay_changed` is the step from one level of nesting to the next.
-/

namespace CodeGraph

theorem Expansion.expandFields_eq_self {env : Variables} {fields : Fields}
    (h : ∀ entry ∈ fields, expand env entry.2 = .ok entry.2) :
    expandFields env fields = .ok fields := by
  induction fields with
  | nil => rfl
  | cons entry rest ih =>
    obtain ⟨hentry, hrest⟩ := List.forall_mem_cons.mp h
    rw [expandFields, hentry, ih hrest]
    rfl

/-! ## Options laid over options -/

namespace Value

def isLiteral : Value → Bool
  | str s => !s.toList.contains '$'
  | _ => false

/-- What an option that is no mapping holds: a text without references, several of them, a number
other than not-a-number, or nothing. -/
def isPlain : Value → Bool
  | null => true
  | str s => (str s).isLiteral
  | list items => items.all isLiteral
  | v => v.isOrderedNumber

def isCosts : Value → Bool
  | record costs => (Fields.keys costs).Nodup && costs.all fun entry => entry.2.isOrderedNumber
  | _ => false

/-- Whether a value is one for an option with the given default. -/
def fits : Value → Value → Bool
  | record [], v => v.isCosts
  | default, v => default.isPlain && v.isPlain

/-- An option of two configurations: tables are united, anything else is the upper one's unless
that is the default. -/
def atop (default top below : Value) : Value :=
  match top, below with
  | .record changes, .record base => .record (Fields.update base changes)
  | top, below => if top.same default then below else top

/-- What merging makes of an option: the change against the default, laid over what is below. -/
def patched (default top below : Value) : Value :=
  (top.changed? default).elim below fun changed => changed.overlay (some below)

variable {v w default top below : Value}

theorem exists_of_isLiteral (h : v.isLiteral = true) : ∃ s, v = .str s ∧ '$' ∉ s.toList := by
  cases v with
  | str s => exact ⟨s, rfl, by simpa [isLiteral] using h⟩
  | _ => cases h

theorem isPlain_of_isOrderedNumber (h : v.isOrderedNumber = true) : v.isPlain = true := by
  cases v with
  | bool | int | float => exact h
  | _ => cases h

theorem entries?_of_isPlain (h : v.isPlain = true) : v.entries? = none := by
  cases v with
  | record | table => cases h
  | _ => rfl

theorem sameItems_iff {items others : List Value} (h : items.all isLiteral = true)
    (hothers : others.all isLiteral = true) : sameItems items others = true ↔ items = others := by
  induction items generalizing others with
  | nil => cases others <;> simp [sameItems]
  | cons v rest ih =>
    cases others with
    | nil => simp [sameItems]
    | cons w others =>
      simp only [List.all_cons, Bool.and_eq_true] at h hothers
      obtain ⟨s, rfl, -⟩ := exists_of_isLiteral h.1
      obtain ⟨t, rfl, -⟩ := exists_of_isLiteral hothers.1
      simp [sameItems, same, ih h.2 hothers.2]

theorem same_self_of_isPlain (h : v.isPlain = true) : v.same v = true := by
  cases v with
  | null => rw [same]
  | str s => exact same_self (.inl rfl)
  | list items =>
    rw [same]
    exact (sameItems_iff h h).mpr rfl
  | bool | int | float => exact same_self (.inr h)
  | record | table => cases h

theorem same_symm_of_isPlain (hv : v.isPlain = true) (hw : w.isPlain = true)
    (h : v.same w = true) : w.same v = true := by
  by_cases hscalar : v.isScalar = true
  · exact same_symm hscalar h
  · cases v with
    | list items =>
      cases w with
      | list others =>
        rw [same] at h ⊢
        exact (sameItems_iff hw hv).mpr ((sameItems_iff hv hw).mp h).symm
      | _ => simp [same, relateNumbers?, asInt?] at h
    | record | table => cases hv
    | _ => exact absurd rfl hscalar

theorem expand_of_isLiteral (env : Variables) (h : v.isLiteral = true) :
    Expansion.expand env v = .ok v := by
  obtain ⟨s, rfl, hs⟩ := exists_of_isLiteral h
  refine Expansion.expand_eq_self fun name hname => ?_
  obtain ⟨_, hmem, hname⟩ := Expansion.refers_iff.mp hname
  rw [List.mem_singleton.mp hmem, Expansion.references_of_plain hs] at hname
  cases hname

theorem expand_of_isPlain (env : Variables) (h : v.isPlain = true) :
    Expansion.expand env v = .ok v := by
  cases v with
  | str s => exact expand_of_isLiteral env h
  | list items =>
    have hitems : Expansion.expandItems env items = .ok items := by
      rw [isPlain] at h
      induction items with
      | nil => rfl
      | cons v rest ih =>
        obtain ⟨hv, hrest⟩ := Bool.and_eq_true_iff.mp h
        rw [Expansion.expandItems, expand_of_isLiteral env hv, ih hrest]
        rfl
    rw [Expansion.expand, hitems]
    rfl
  | record | table => cases h
  | _ => rfl

theorem isCosts_iff : v.isCosts = true ↔ ∃ costs : Fields, v = .record costs ∧
    costs.keys.Nodup ∧ ∀ entry ∈ costs, entry.2.isOrderedNumber = true := by
  cases v with
  | record costs =>
    rw [isCosts, Bool.and_eq_true, decide_eq_true_eq, List.all_eq_true]
    constructor
    · exact fun h => ⟨costs, rfl, h⟩
    · rintro ⟨others, ⟨⟩, h⟩
      exact h
  | _ => exact iff_of_false Bool.noConfusion (by rintro ⟨costs, ⟨⟩, -⟩)

theorem fits_cases (h : fits default v = true) :
    (default = .record [] ∧ v.isCosts = true) ∨ (default.isPlain = true ∧ v.isPlain = true) := by
  unfold fits at h
  split at h
  · exact .inl ⟨rfl, h⟩
  · exact .inr (Bool.and_eq_true_iff.mp h)

theorem fits_of_isPlain (hdefault : default.isPlain = true) (h : v.isPlain = true) :
    fits default v = true := by
  unfold fits
  split
  · cases hdefault
  · rw [hdefault, h, Bool.and_self]

/-! ## What merging makes of an option -/

theorem overlay_eq_self (h : v.entries? = none) (below : Option Value) : v.overlay below = v := by
  cases v with
  | record | table => cases h
  | _ => simp [overlay]

theorem changed?_of_no_mapping (h : v.entries? = none) (default : Value) :
    v.changed? default = if v.same default then none else some v := by
  cases v with
  | record => cases h
  | _ => simp [changed?]

theorem atop_of_no_mapping (h : top.entries? = none) (default below : Value) :
    atop default top below = if top.same default then below else top := by
  unfold atop
  split
  · cases h
  · rfl

theorem atop_records (default : Value) (changes base : Fields) :
    atop default (.record changes) (.record base) = .record (base.update changes) :=
  rfl

theorem patched_of_no_mapping (h : top.entries? = none) (default below : Value) :
    patched default top below = atop default top below := by
  rw [patched, changed?_of_no_mapping h, atop_of_no_mapping h]
  split
  · rfl
  · exact overlay_eq_self h _

theorem overlay_eq_update {changes : Fields} (h : ∀ entry ∈ changes, entry.2.entries? = none)
    (base : Fields) : Fields.overlay changes base = base.update changes := by
  induction changes generalizing base with
  | nil =>
    rw [Fields.overlay]
    rfl
  | cons entry rest ih =>
    obtain ⟨hentry, hrest⟩ := List.forall_mem_cons.mp h
    rw [Fields.overlay, overlay_eq_self hentry, ih hrest, Fields.update_cons]

theorem patched_costs {changes : Fields} (h : ∀ entry ∈ changes, entry.2.entries? = none)
    (base : Fields) :
    patched (.record []) (.record changes) (.record base) = .record (base.update changes) := by
  cases changes with
  | nil =>
    have hnone : (record []).changed? (.record []) = none := by
      simp [changed?, nonemptyRecord?, same, sameFields]
    rw [patched, hnone]
    rfl
  | cons entry rest =>
    have hsome : (record (entry :: rest)).changed? (.record []) = some (.record (entry :: rest)) := by
      simp [changed?, nonemptyRecord?, same]
    rw [patched, hsome, Option.elim_some, overlay, overlay_eq_update h]

theorem patched_section {defaults : Fields} (h : defaults.isEmpty = false) (tops belows : Fields) :
    patched (.record defaults) (.record tops) (.record belows) =
      .record (Fields.overlay (Fields.changed tops defaults) belows) := by
  cases defaults with
  | nil => cases h
  | cons default defaults =>
    rw [patched, changed?, nonemptyRecord?]
    simp only []
    cases Fields.changed tops (default :: defaults) with
    | nil =>
      rw [Fields.overlay]
      rfl
    | cons entry rest => simp [overlay]

/-! ## The laws of an option -/

theorem sameFields_of_found {fields taken others : Fields}
    (h : List.Forall₂ (fun x y => x.1 = y.1 ∧ x.2.same y.2 = true) fields taken)
    (hfound : ∀ entry ∈ taken, others.get? entry.1 = some entry.2) :
    sameFields fields others = true := by
  induction h with
  | nil => rw [sameFields]
  | @cons x y xs ys hentry _ ih =>
    obtain ⟨key, v⟩ := x
    obtain ⟨hkey, hsame⟩ := hentry
    obtain ⟨hfirst, hrest⟩ := List.forall_mem_cons.mp hfound
    rw [sameFields, ih hrest, show key = y.1 from hkey, hfirst, Bool.and_true]
    exact hsame

theorem same_record {fields others : Fields}
    (h : List.Forall₂ (fun x y => x.1 = y.1 ∧ x.2.same y.2 = true) fields others)
    (hnodup : others.keys.Nodup) : (record fields).same (.record others) = true := by
  rw [same, h.length_eq, beq_self_eq_true, Bool.true_and]
  exact sameFields_of_found h fun entry hentry => Fields.get?_of_mem hnodup hentry

section

variable {a b c : Value}

theorem patched_eq_atop (ha : fits default a = true) (hb : fits default b = true) :
    patched default a b = atop default a b := by
  rcases fits_cases ha with ⟨rfl, ha⟩ | ⟨-, ha⟩
  · obtain ⟨changes, rfl, -, hnumbers⟩ := isCosts_iff.mp ha
    obtain ⟨base, rfl, -, -⟩ := isCosts_iff.mp hb
    refine patched_costs (fun entry hentry => ?_) base
    exact entries?_of_isPlain (isPlain_of_isOrderedNumber (hnumbers entry hentry))
  · exact patched_of_no_mapping (entries?_of_isPlain ha) default b

theorem atop_default (h : fits default v = true) : atop default default v = v := by
  rcases fits_cases h with ⟨rfl, h⟩ | ⟨hdefault, -⟩
  · obtain ⟨base, rfl, -, -⟩ := isCosts_iff.mp h
    rfl
  · rw [atop_of_no_mapping (entries?_of_isPlain hdefault),
      if_pos (same_self_of_isPlain hdefault)]

theorem atop_default_same (h : fits default v = true) :
    (atop default v default).same v = true := by
  rcases fits_cases h with ⟨rfl, h⟩ | ⟨hdefault, h⟩
  · obtain ⟨changes, rfl, hnodup, hnumbers⟩ := isCosts_iff.mp h
    have hupdate : Fields.update [] changes = changes := Fields.update_append_of_nodup hnodup
    rw [atop_records, hupdate]
    exact same_record (List.forall₂_same.mpr fun entry hentry =>
      ⟨rfl, same_self (.inr (hnumbers entry hentry))⟩) hnodup
  · rw [atop_of_no_mapping (entries?_of_isPlain h)]
    split
    · rename_i hsame
      exact same_symm_of_isPlain h hdefault hsame
    · exact same_self_of_isPlain h

theorem atop_self (h : fits default v = true) : atop default v v = v := by
  rcases fits_cases h with ⟨rfl, h⟩ | ⟨-, h⟩
  · obtain ⟨costs, rfl, hnodup, -⟩ := isCosts_iff.mp h
    exact congrArg record
      (Fields.update_eq_self fun entry hentry => Fields.get?_of_mem hnodup hentry)
  · rw [atop_of_no_mapping (entries?_of_isPlain h), ite_self]

theorem fits_atop (ha : fits default a = true) (hb : fits default b = true) :
    fits default (atop default a b) = true := by
  rcases fits_cases ha with ⟨rfl, ha⟩ | ⟨hdefault, ha⟩
  · obtain ⟨changes, rfl, -, hchanges⟩ := isCosts_iff.mp ha
    obtain ⟨base, rfl, hnodup, hbase⟩ := isCosts_iff.mp hb
    refine isCosts_iff.mpr ⟨_, rfl, Fields.nodup_update hnodup changes, fun entry hentry => ?_⟩
    rcases Fields.mem_update hentry with hentry | ⟨change, hchange, heq⟩
    · exact hbase entry hentry
    · exact heq ▸ hchanges change hchange
  · rw [atop_of_no_mapping (entries?_of_isPlain ha)]
    split
    · exact hb
    · exact fits_of_isPlain hdefault ha

theorem atop_assoc (ha : fits default a = true) (hb : fits default b = true)
    (hc : fits default c = true) :
    atop default c (atop default b a) = atop default (atop default c b) a := by
  rcases fits_cases hc with ⟨rfl, hc⟩ | ⟨-, hc⟩
  · obtain ⟨top, rfl, -, -⟩ := isCosts_iff.mp hc
    obtain ⟨middle, rfl, hnodup, -⟩ := isCosts_iff.mp hb
    obtain ⟨bottom, rfl, -, -⟩ := isCosts_iff.mp ha
    exact congrArg record (Fields.update_assoc bottom hnodup top)
  · have hnone := entries?_of_isPlain hc
    rw [atop_of_no_mapping hnone, atop_of_no_mapping hnone]
    by_cases hsame : c.same default = true
    · rw [if_pos hsame, if_pos hsame]
    · rw [if_neg hsame, if_neg hsame, atop_of_no_mapping hnone, if_neg hsame]

theorem expand_of_fits (env : Variables) (h : fits default v = true) :
    Expansion.expand env v = .ok v := by
  rcases fits_cases h with ⟨rfl, h⟩ | ⟨-, h⟩
  · obtain ⟨costs, rfl, -, hnumbers⟩ := isCosts_iff.mp h
    rw [Expansion.expand, Expansion.expandFields_eq_self fun entry hentry =>
      expand_of_isPlain env (isPlain_of_isOrderedNumber (hnumbers entry hentry))]
    rfl
  · exact expand_of_isPlain env h

end

end Value

/-! ## Sections laid over sections -/

namespace Fields

/-- Values under the keys of the defaults, each put together with its default. -/
def combine (f : Value → Value → Value → Value) : Fields → Fields → Fields → Fields
  | (key, default) :: defaults, (_, top) :: tops, (_, below) :: belows =>
    (key, f default top below) :: combine f defaults tops belows
  | _, _, _ => []

theorem get?_append_cons {done : Fields} {key : String} (h : key ∉ done.keys) (v : Value)
    (rest : Fields) : Fields.get? (done ++ (key, v) :: rest) key = some v := by
  induction done with
  | nil => rw [List.nil_append, get?_cons, if_pos rfl]
  | cons entry done ih =>
    obtain ⟨hne, hdone⟩ := not_or.mp (mt List.mem_cons.mpr h)
    rw [List.cons_append, get?_cons, if_neg hne, ih hdone]

theorem put_append_cons {done : Fields} {key : String} (h : key ∉ done.keys) (v w : Value)
    (rest : Fields) : Fields.put key w (done ++ (key, v) :: rest) = done ++ (key, w) :: rest := by
  induction done with
  | nil => rw [List.nil_append, put_cons, if_pos rfl, List.nil_append]
  | cons entry done ih =>
    obtain ⟨hne, hdone⟩ := not_or.mp (mt List.mem_cons.mpr h)
    rw [List.cons_append, put_cons, if_neg (Ne.symm hne), ih hdone, List.cons_append]

/-- One field is patched, in its place. -/
theorem overlay_changed_cons {defaults done : Fields} {key : String} {default : Value}
    (hdefault : defaults.get? key = some default) (hnew : key ∉ done.keys) (v w : Value)
    (tops belows : Fields) :
    Fields.overlay (Fields.changed ((key, v) :: tops) defaults) (done ++ (key, w) :: belows) =
      Fields.overlay (Fields.changed tops defaults)
        (done ++ [(key, Value.patched default v w)] ++ belows) := by
  have hget : defaults.get key = default := by rw [get, hdefault, Option.getD_some]
  rw [Fields.changed, hget, Value.patched, List.append_assoc, List.singleton_append]
  cases v.changed? default with
  | none => rfl
  | some changed =>
    rw [Fields.overlay, get?_append_cons hnew, put_append_cons hnew]
    rfl

theorem overlay_changed_from (done : Fields) {defaults taken top below : Fields}
    (hfound : ∀ entry ∈ taken, defaults.get? entry.1 = some entry.2)
    (hnodup : (done ++ taken).keys.Nodup) (htop : top.keys = taken.keys)
    (hbelow : below.keys = taken.keys) :
    Fields.overlay (Fields.changed top defaults) (done ++ below) =
      done ++ combine Value.patched taken top below := by
  -- The fields that are done keep their keys, so the keys of all stay different.
  induction taken generalizing done top below with
  | nil =>
    obtain rfl : top = [] := List.map_eq_nil_iff.mp htop
    obtain rfl : below = [] := List.map_eq_nil_iff.mp hbelow
    simp [Fields.changed, Fields.overlay, combine]
  | cons entry taken ih =>
    obtain ⟨key, default⟩ := entry
    cases top with
    | nil => cases htop
    | cons first tops =>
      cases below with
      | nil => cases hbelow
      | cons second belows =>
        obtain ⟨_, v⟩ := first
        obtain ⟨_, w⟩ := second
        obtain ⟨rfl, htops⟩ := List.cons.inj htop
        obtain ⟨rfl, hbelows⟩ := List.cons.inj hbelow
        obtain ⟨hdefault, hrest⟩ := List.forall_mem_cons.mp hfound
        have hkeys := hnodup
        rw [keys, List.map_append] at hkeys
        have hnew := fun hmem => (List.nodup_append.mp hkeys).2.2 _ hmem _ List.mem_cons_self rfl
        rw [overlay_changed_cons hdefault hnew, ih _ hrest (by simpa [keys] using hnodup) htops hbelows,
          combine, List.append_assoc, List.singleton_append]

/-- What merging makes of fields under the keys of their defaults. -/
theorem overlay_changed {defaults top below : Fields} (hnodup : defaults.keys.Nodup)
    (htop : top.keys = defaults.keys) (hbelow : below.keys = defaults.keys) :
    Fields.overlay (Fields.changed top defaults) below =
      combine Value.patched defaults top below :=
  overlay_changed_from [] (fun _ hentry => get?_of_mem hnodup hentry) hnodup htop hbelow

/-- Options of a section that hold what is declared for them. -/
def Fit (defaults fields : Fields) : Prop :=
  List.Forall₂ (fun default entry => default.1 = entry.1 ∧ default.2.fits entry.2 = true)
    defaults fields

instance (defaults fields : Fields) : Decidable (defaults.Fit fields) :=
  inferInstanceAs (Decidable (List.Forall₂ _ _ _))

namespace Fit

variable {defaults a b c fields : Fields}

theorem keys_eq (h : defaults.Fit fields) : fields.keys = defaults.keys := by
  induction h with
  | nil => rfl
  | cons hentry _ ih => exact congrArg₂ List.cons hentry.1.symm ih

theorem combine_patched (ha : defaults.Fit a) (hb : defaults.Fit b) :
    combine Value.patched defaults a b = combine Value.atop defaults a b := by
  induction ha generalizing b with
  | nil => simp [combine]
  | cons hentry _ ih =>
    cases hb with
    | cons hbelow hb => rw [combine, combine, Value.patched_eq_atop hentry.2 hbelow.2, ih hb]

theorem combine_atop (ha : defaults.Fit a) (hb : defaults.Fit b) :
    defaults.Fit (combine Value.atop defaults a b) := by
  induction ha generalizing b with
  | nil => exact .nil
  | cons hentry _ ih =>
    cases hb with
    | cons hbelow hb => exact .cons ⟨rfl, Value.fits_atop hentry.2 hbelow.2⟩ (ih hb)

theorem atop_default (h : defaults.Fit fields) :
    combine Value.atop defaults defaults fields = fields := by
  induction h with
  | nil => simp [combine]
  | cons hentry _ ih => rw [combine, Value.atop_default hentry.2, ih, hentry.1]

theorem atop_default_same (h : defaults.Fit fields) :
    List.Forall₂ (fun x y => x.1 = y.1 ∧ x.2.same y.2 = true)
      (combine Value.atop defaults fields defaults) fields := by
  induction h with
  | nil => simp [combine]
  | cons hentry _ ih => exact .cons ⟨hentry.1, Value.atop_default_same hentry.2⟩ ih

theorem record_same (h : defaults.Fit fields) (hnodup : defaults.keys.Nodup) :
    (Value.record (combine Value.atop defaults fields defaults)).same (.record fields) = true :=
  Value.same_record h.atop_default_same (h.keys_eq ▸ hnodup)

theorem atop_self (h : defaults.Fit fields) :
    combine Value.atop defaults fields fields = fields := by
  induction h with
  | nil => simp [combine]
  | cons hentry _ ih => rw [combine, Value.atop_self hentry.2, ih, hentry.1]

theorem atop_assoc (ha : defaults.Fit a) (hb : defaults.Fit b) (hc : defaults.Fit c) :
    combine Value.atop defaults c (combine Value.atop defaults b a) =
      combine Value.atop defaults (combine Value.atop defaults c b) a := by
  induction ha generalizing b c with
  | nil => simp [combine]
  | cons hentry _ ih =>
    cases hb with
    | cons hmiddle hb =>
      cases hc with
      | cons htop hc =>
        rw [combine, combine, combine, combine, Value.atop_assoc hentry.2 hmiddle.2 htop.2, ih hb hc]

theorem get_combine (f : Value → Value → Value → Value) (ha : defaults.Fit a) (hb : defaults.Fit b)
    {name : String} (hname : name ∈ defaults.keys) :
    (combine f defaults a b).get name = f (defaults.get name) (a.get name) (b.get name) := by
  induction ha generalizing b with
  | nil => cases hname
  | @cons default top _ _ hentry _ ih =>
    cases hb with
    | @cons _ below _ _ hbelow hb =>
      rw [combine]
      simp only [get, get?_cons, ← hentry.1, ← hbelow.1]
      by_cases hfirst : name = default.1
      · simp only [if_pos hfirst, Option.getD_some]
      · simp only [if_neg hfirst]
        exact ih hb ((List.mem_cons.mp hname).resolve_left hfirst)

theorem fits_get (h : defaults.Fit fields) (name : String) (hname : name ∈ defaults.keys) :
    (defaults.get name).fits (fields.get name) = true := by
  induction h with
  | nil => cases hname
  | @cons default entry _ _ hentry _ ih =>
    simp only [get, get?_cons, ← hentry.1]
    by_cases hfirst : name = default.1
    · simp only [if_pos hfirst, Option.getD_some]
      exact hentry.2
    · simp only [if_neg hfirst]
      exact ih ((List.mem_cons.mp hname).resolve_left hfirst)

theorem expandFields_eq (h : defaults.Fit fields) (env : Variables) :
    Expansion.expandFields env fields = .ok fields := by
  induction h with
  | nil => rfl
  | cons hentry _ ih =>
    rw [Expansion.expandFields, Value.expand_of_fits env hentry.2, ih]
    rfl

/-- What merging makes of a section. -/
theorem patched_eq (hnodup : defaults.keys.Nodup) (hsome : defaults.isEmpty = false)
    (htop : defaults.Fit a) (hbelow : defaults.Fit b) :
    Value.patched (.record defaults) (.record a) (.record b) =
      .record (combine Value.atop defaults a b) := by
  rw [Value.patched_section hsome, Fields.overlay_changed hnodup htop.keys_eq hbelow.keys_eq,
    htop.combine_patched hbelow]

end Fit

end Fields

end CodeGraph
