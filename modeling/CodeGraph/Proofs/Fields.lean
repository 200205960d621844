import Mathlib.Data.List.Nodup
import CodeGraph.Value

/-!
# Fields laid over fields

Looking a field up after others were put. Putting one keeps the order of the
rest and names nothing twice; laying fields over fields puts them one by one
(`get?_update`), and it makes no difference in which order three levels are laid
(`update_assoc`).
-/

namespace CodeGraph.Fields

variable {fields base : Fields} {key : String}

/-! ## Lookup -/

theorem get?_cons (entry : String × Value) (rest : Fields) (k : String) :
    get? (entry :: rest) k = if k = entry.1 then some entry.2 else get? rest k := by
  rw [get?, List.lookup_cons]
  by_cases hk : k = entry.1
  · rw [if_pos hk, hk, beq_self_eq_true]
  · rw [if_neg hk, beq_false_of_ne hk]
    rfl

theorem get?_put (key k : String) (value : Value) (fields : Fields) :
    (put key value fields).get? k = if k = key then some value else fields.get? k := by
  induction fields with
  | nil => exact get?_cons (key, value) [] k
  | cons entry rest ih =>
      obtain ⟨first, v⟩ := entry
      rw [put]
      by_cases hfirst : first = key
      · subst hfirst
        rw [if_pos (beq_self_eq_true first), get?_cons, get?_cons]
        by_cases hk : k = first
        · rw [if_pos hk, if_pos hk]
        · rw [if_neg hk, if_neg hk, if_neg hk]
      · rw [if_neg (by simpa using hfirst), get?_cons, get?_cons, ih]
        by_cases hk : k = first
        · have hne : k ≠ key := hk ▸ hfirst
          rw [if_pos hk, if_pos hk, if_neg hne]
        · rw [if_neg hk, if_neg hk]

theorem get?_update {changes : Fields} (h : changes.keys.Nodup) (base : Fields) (k : String) :
    (base.update changes).get? k = (changes.get? k).or (base.get? k) := by
  unfold update
  induction changes generalizing base with
  | nil => rfl
  | cons entry rest ih =>
      obtain ⟨hnew, hrest⟩ := List.nodup_cons.mp h
      rw [List.foldl_cons, ih hrest, get?_put, get?_cons]
      by_cases hk : k = entry.1
      · have hnone : get? rest k = none := List.lookup_eq_none_iff.mpr fun other hother => by
          have hne : k ≠ other.1 := fun heq => hnew (hk ▸ heq ▸ List.mem_map_of_mem hother)
          simpa using hne
        rw [if_pos hk, if_pos hk, hnone]
        rfl
      · rw [if_neg hk, if_neg hk]

theorem get?_of_mem (h : fields.keys.Nodup) {entry : String × Value} (hentry : entry ∈ fields) :
    fields.get? entry.1 = some entry.2 := by
  induction fields with
  | nil => cases hentry
  | cons first rest ih =>
    obtain ⟨hnew, hrest⟩ := List.nodup_cons.mp h
    rw [get?_cons]
    rcases List.mem_cons.mp hentry with rfl | hentry
    · rw [if_pos rfl]
    · have hne : entry.1 ≠ first.1 := fun heq => hnew (heq ▸ List.mem_map_of_mem hentry)
      rw [if_neg hne, ih hrest hentry]

theorem mem_of_get? {v : Value} (h : fields.get? key = some v) : (key, v) ∈ fields := by
  obtain ⟨front, back, rfl, -⟩ := List.lookup_eq_some_iff.mp h
  simp

/-! ## Fields that are put -/

theorem put_cons (entry : String × Value) (rest : Fields) (v : Value) :
    Fields.put key v (entry :: rest) =
      if entry.1 = key then (entry.1, v) :: rest else entry :: rest.put key v := by
  rw [put]
  simp only [beq_iff_eq]

theorem mem_put {v : Value} {entry : String × Value} (h : entry ∈ fields.put key v) :
    entry ∈ fields ∨ entry = (key, v) := by
  induction fields with
  | nil => exact .inr (List.mem_singleton.mp h)
  | cons first rest ih =>
    rw [put_cons] at h
    split at h
    · rename_i hfirst
      subst hfirst
      exact (List.mem_cons.mp h).symm.imp_left (List.mem_cons_of_mem _)
    · rcases List.mem_cons.mp h with rfl | h
      · exact .inl List.mem_cons_self
      · exact (ih h).imp_left (List.mem_cons_of_mem _)

theorem put_of_not_mem (h : key ∉ fields.keys) (v : Value) :
    fields.put key v = fields ++ [(key, v)] := by
  induction fields with
  | nil => rfl
  | cons entry rest ih =>
    obtain ⟨hne, hrest⟩ := not_or.mp (mt List.mem_cons.mpr h)
    rw [put_cons, if_neg (Ne.symm hne), ih hrest, List.cons_append]

theorem keys_put_of_mem (h : key ∈ fields.keys) (v : Value) :
    (fields.put key v).keys = fields.keys := by
  induction fields with
  | nil => cases h
  | cons entry rest ih =>
    rw [put_cons]
    by_cases hfirst : entry.1 = key
    · rw [if_pos hfirst]
      rfl
    · rw [if_neg hfirst]
      exact congrArg (entry.1 :: ·) (ih ((List.mem_cons.mp h).resolve_left (Ne.symm hfirst)))

theorem mem_keys_put (v : Value) (fields : Fields) : key ∈ (fields.put key v).keys := by
  by_cases h : key ∈ fields.keys
  · rw [keys_put_of_mem h]
    exact h
  · simp [put_of_not_mem h, keys]

theorem keys_subset_put (key : String) (v : Value) (fields : Fields) :
    fields.keys ⊆ (fields.put key v).keys := by
  by_cases h : key ∈ fields.keys
  · exact (keys_put_of_mem h v).symm ▸ List.Subset.refl _
  · rw [put_of_not_mem h, keys, keys, List.map_append]
    exact List.subset_append_left _ _

theorem nodup_put (h : fields.keys.Nodup) (v : Value) : (fields.put key v).keys.Nodup := by
  by_cases hmem : key ∈ fields.keys
  · rw [keys_put_of_mem hmem]
    exact h
  · rw [put_of_not_mem hmem, keys, List.map_append]
    exact List.nodup_append.mpr ⟨h, List.nodup_singleton _, by
      rintro a ha _ (_ | ⟨_, ⟨⟩⟩) rfl
      exact hmem ha⟩

theorem put_eq_self {v : Value} (h : fields.get? key = some v) : fields.put key v = fields := by
  induction fields with
  | nil => cases h
  | cons entry rest ih =>
    rw [get?_cons] at h
    rw [put_cons]
    by_cases hfirst : entry.1 = key
    · rw [if_pos hfirst.symm] at h
      rw [if_pos hfirst, ← Option.some.inj h]
    · rw [if_neg (Ne.symm hfirst)] at h
      rw [if_neg hfirst, ih h]

theorem put_put (v w : Value) : (fields.put key w).put key v = fields.put key v := by
  induction fields with
  | nil => simp [put]
  | cons entry rest ih =>
    rw [put_cons, put_cons]
    split
    · rename_i hfirst
      rw [put_cons, if_pos hfirst]
    · rename_i hfirst
      rw [put_cons, if_neg hfirst, ih]

/-- Two fields can be put in any order if one of them has its place already. -/
theorem put_comm_of_mem {other : String} (hne : other ≠ key) (h : key ∈ fields.keys) (v w : Value) :
    (fields.put other w).put key v = (fields.put key v).put other w := by
  induction fields with
  | nil => cases h
  | cons entry rest ih =>
    by_cases hkey : entry.1 = key
    · have hother : entry.1 ≠ other := fun heq => hne (heq.symm.trans hkey)
      simp only [put_cons, if_pos hkey, if_neg hother]
    · by_cases hother : entry.1 = other
      · simp only [put_cons, if_neg hkey, if_pos hother]
      · have hrest := (List.mem_cons.mp h).resolve_left (Ne.symm hkey)
        simp only [put_cons, if_neg hkey, if_neg hother, ih hrest]

theorem update_cons (base : Fields) (entry : String × Value) (rest : Fields) :
    base.update (entry :: rest) = Fields.update (base.put entry.1 entry.2) rest :=
  List.foldl_cons ..

theorem update_append_of_nodup (h : (base ++ fields).keys.Nodup) :
    base.update fields = base ++ fields := by
  induction fields generalizing base with
  | nil => exact (List.append_nil base).symm
  | cons entry rest ih =>
    have hnew : entry.1 ∉ base.keys := by
      rw [keys, List.map_append] at h
      intro hmem
      exact (List.nodup_append.mp h).2.2 _ hmem _ List.mem_cons_self rfl
    rw [update_cons, put_of_not_mem hnew, ih (by simpa using h), List.append_assoc,
      List.singleton_append]

theorem nodup_update (h : base.keys.Nodup) (changes : Fields) : (base.update changes).keys.Nodup := by
  induction changes generalizing base with
  | nil => exact h
  | cons entry rest ih => exact ih (nodup_put h entry.2)

theorem mem_update {changes : Fields} {entry : String × Value} (h : entry ∈ base.update changes) :
    entry ∈ base ∨ ∃ change ∈ changes, entry.2 = change.2 := by
  induction changes generalizing base with
  | nil => exact .inl h
  | cons first rest ih =>
    rcases ih h with hput | ⟨change, hchange, heq⟩
    · exact (mem_put hput).imp_right fun heq => ⟨first, List.mem_cons_self, congrArg Prod.snd heq⟩
    · exact .inr ⟨change, List.mem_cons_of_mem _ hchange, heq⟩

theorem update_eq_self {changes : Fields}
    (h : ∀ entry ∈ changes, base.get? entry.1 = some entry.2) : base.update changes = base := by
  induction changes with
  | nil => rfl
  | cons entry rest ih =>
    obtain ⟨hentry, hrest⟩ := List.forall_mem_cons.mp h
    rw [update_cons, put_eq_self hentry, ih hrest]

theorem put_update_of_mem (hmem : key ∈ base.keys) {changes : Fields} (hnew : key ∉ changes.keys)
    (v : Value) : (base.update changes).put key v = Fields.update (base.put key v) changes := by
  induction changes generalizing base with
  | nil => rfl
  | cons entry rest ih =>
    obtain ⟨hne, hrest⟩ := not_or.mp (mt List.mem_cons.mpr hnew)
    have hkept := keys_subset_put entry.1 entry.2 base hmem
    rw [update_cons, update_cons, ih hkept hrest, put_comm_of_mem (Ne.symm hne) hmem]

/-- To change what is laid over some fields is to change the outcome. -/
theorem update_put {changes : Fields} (h : changes.keys.Nodup) (v : Value) :
    base.update (changes.put key v) = (base.update changes).put key v := by
  induction changes generalizing base with
  | nil => rfl
  | cons entry rest ih =>
    obtain ⟨hnew, hrest⟩ := List.nodup_cons.mp h
    rw [put_cons]
    split
    · rename_i hfirst
      subst hfirst
      rw [update_cons, update_cons, put_update_of_mem (mem_keys_put _ _) hnew, put_put]
    · rw [update_cons, update_cons, ih hrest]

theorem update_assoc (base : Fields) {changes : Fields} (h : changes.keys.Nodup) (further : Fields) :
    (base.update changes).update further = base.update (changes.update further) := by
  induction further generalizing changes with
  | nil => rfl
  | cons entry rest ih => rw [update_cons, update_cons, ← update_put h, ih (nodup_put h entry.2)]

end CodeGraph.Fields
