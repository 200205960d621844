import Mathlib.Data.List.Forall2
import Mathlib.Data.List.TakeWhile
import CodeGraph.Config.Expansion
import CodeGraph.Proofs.Snapshot

/-!
# Variables in texts, by one scan

`Piece.Begins` is what it takes for a text to begin with a reference, and `Cuts`
is the scan: a reference wherever one begins, a single character elsewhere. There
is one way to cut a text, and `Expansion.pieces` finds it (`cuts_iff`). The
pieces put together are the text, so a text that refers to no variable that is
set stays as it is.

A value is expanded text by text, unless it refers to a variable that cannot be
looked up (`expand_eq`). What is left of it when the texts are blanked out does
not change, which is to say its keys and their order, the lengths of its lists and
all that is no text (`blanked_filled`). The main statement is `expand_scans_once`.
-/

namespace CodeGraph

/-! ## References -/

namespace Expansion

/-- A letter from `A` to `Z` or from `a` to `z`, or an underscore. -/
def NameStart (c : Char) : Prop :=
  ('A' ≤ c ∧ c ≤ 'Z') ∨ ('a' ≤ c ∧ c ≤ 'z') ∨ c = '_'

/-- What a name may start with, or a digit from `0` to `9`. -/
def NamePart (c : Char) : Prop :=
  NameStart c ∨ ('0' ≤ c ∧ c ≤ '9')

theorem between_iff {first last c : Char} :
    (decide (first.val ≤ c.val) && decide (c.val ≤ last.val)) = true ↔ first ≤ c ∧ c ≤ last := by
  rw [Bool.and_eq_true, decide_eq_true_eq, decide_eq_true_eq]
  rfl

theorem startsName_iff {c : Char} : startsName c = true ↔ NameStart c := by
  have hupper : c.isUpper = true ↔ 'A' ≤ c ∧ c ≤ 'Z' := decide_eq_true_iff
  have hlower : c.isLower = true ↔ 'a' ≤ c ∧ c ≤ 'z' := between_iff
  change (c.isUpper || c.isLower || c == '_') = true ↔ _
  rw [Bool.or_eq_true, Bool.or_eq_true, hupper, hlower, beq_iff_eq, or_assoc, NameStart]

theorem continuesName_iff {c : Char} : continuesName c = true ↔ NamePart c := by
  have hdigit : c.isDigit = true ↔ '0' ≤ c ∧ c ≤ '9' := between_iff
  have hsplit : continuesName c = (startsName c || c.isDigit) := by
    change (c.isAlpha || c.isDigit || c == '_') = (c.isAlpha || c == '_' || c.isDigit)
    rw [Bool.or_assoc, Bool.or_assoc, Bool.or_comm c.isDigit]
  rw [hsplit, Bool.or_eq_true, startsName_iff, hdigit, NamePart]

/-- Taking and dropping stop where a run of characters ends. -/
theorem takeWhile_dropWhile_append {p : Char → Bool} {run rest : List Char}
    (hrun : ∀ c ∈ run, p c = true) (hend : ∀ c ∈ rest.head?, p c = false) :
    (run ++ rest).takeWhile p = run ∧ (run ++ rest).dropWhile p = rest := by
  rw [List.takeWhile_append_of_pos hrun, List.dropWhile_append_of_pos hrun]
  cases rest with
  | nil => simp
  | cons c rest => simp [hend c rfl]

end Expansion

namespace Piece

/-- A text begins with a reference, and the rest of the text comes after it. -/
inductive Begins : Piece → List Char → List Char → Prop
  /-- A name in braces is not empty and goes on to the first closing brace. -/
  | braced {name after : List Char} (hname : name ≠ []) (hopen : '\x7d' ∉ name) :
      Begins (.braced name) ('$' :: '\x7b' :: (name ++ '\x7d' :: after)) after
  /-- A bare name goes on for as long as it can. -/
  | bare {first : Char} {name after : List Char} (hfirst : Expansion.NameStart first)
      (hname : ∀ c ∈ name, Expansion.NamePart c)
      (hend : ∀ c ∈ after.head?, ¬Expansion.NamePart c) :
      Begins (.bare (first :: name)) ('$' :: first :: (name ++ after)) after

theorem Begins.dollar {p : Piece} {c : Char} {rest after : List Char}
    (h : p.Begins (c :: rest) after) : c = '$' := by
  cases h <;> rfl

theorem Begins.source_append {p : Piece} {text after : List Char} (h : p.Begins text after) :
    p.source ++ after = text := by
  cases h <;> simp [source]

end Piece

namespace Expansion

theorem reference?_of_begins {p : Piece} {cs after : List Char} (h : p.Begins ('$' :: cs) after) :
    reference? cs = some (p, after) := by
  cases h with
  | @braced name _ hname hopen =>
    have hrun : ∀ c ∈ name, (c != '\x7d') = true := by
      intro c hc
      rw [bne_iff_ne]
      rintro rfl
      exact hopen hc
    have hstop : ∀ c ∈ ('\x7d' :: after).head?, (c != '\x7d') = false := by simp
    obtain ⟨htake, hdrop⟩ := takeWhile_dropWhile_append hrun hstop
    obtain ⟨first, rest, rfl⟩ := List.exists_cons_of_ne_nil hname
    rw [reference?, if_pos rfl, htake, hdrop]
  | @bare first name _ hfirst hname hend =>
    have hbrace : first ≠ '\x7b' := by
      rintro rfl
      exact absurd (startsName_iff.mpr hfirst) (by decide)
    have hstop : ∀ c ∈ after.head?, continuesName c = false := by
      intro c hc
      rw [← Bool.not_eq_true, continuesName_iff]
      exact hend c hc
    obtain ⟨htake, hdrop⟩ :=
      takeWhile_dropWhile_append (fun c hc => continuesName_iff.mpr (hname c hc)) hstop
    rw [reference?, if_neg hbrace, if_pos (startsName_iff.mpr hfirst), htake, hdrop]

theorem begins_of_reference? {p : Piece} {cs after : List Char}
    (h : reference? cs = some (p, after)) : p.Begins ('$' :: cs) after := by
  cases cs with
  | nil => cases h
  | cons c rest =>
    rw [reference?] at h
    split at h
    · rename_i hbrace
      split at h
      · rename_i first name closing tail hname hafter
        obtain ⟨rfl, rfl⟩ := Prod.mk.inj (Option.some.inj h)
        have hclosing : closing = '\x7d' := by
          have hstop := List.head?_dropWhile_not (· != '\x7d') rest
          rw [hafter] at hstop
          simpa using hstop
        have hopen : '\x7d' ∉ first :: name := by
          intro hmem
          rw [← hname] at hmem
          simpa using List.mem_takeWhile_imp hmem
        have hrest := List.takeWhile_append_dropWhile (p := (· != '\x7d')) (l := rest)
        rw [hname, hafter, hclosing] at hrest
        rw [hbrace, ← hrest]
        exact .braced (List.cons_ne_nil _ _) hopen
      · cases h
    · split at h
      · rename_i hstarts
        obtain ⟨rfl, rfl⟩ := Prod.mk.inj (Option.some.inj h)
        have hname : ∀ c ∈ rest.takeWhile continuesName, NamePart c :=
          fun c hc => continuesName_iff.mp (List.mem_takeWhile_imp hc)
        have hend : ∀ c ∈ (rest.dropWhile continuesName).head?, ¬NamePart c := by
          intro c hc
          have hstop := List.head?_dropWhile_not continuesName rest
          rw [Option.mem_def.mp hc] at hstop
          rw [← continuesName_iff]
          simpa using hstop
        have hbare := Piece.Begins.bare (startsName_iff.mp hstarts) hname hend
        rwa [List.takeWhile_append_dropWhile] at hbare
      · cases h

theorem eq_of_begins {p q : Piece} {text after after' : List Char} (h : p.Begins text after)
    (h' : q.Begins text after') : p = q ∧ after = after' := by
  cases text with
  | nil => cases h
  | cons c rest =>
    obtain rfl := h.dollar
    have heq := (reference?_of_begins h).symm.trans (reference?_of_begins h')
    exact Prod.mk.inj (Option.some.inj heq)

/-! ## The scan -/

/-- One scan from the left. Where a reference begins, it is the next piece; elsewhere the next
character is. -/
inductive Cuts : List Char → List Piece → Prop
  | done : Cuts [] []
  | reference {p : Piece} {text after : List Char} {ps : List Piece} (hp : p.Begins text after)
      (h : Cuts after ps) : Cuts text (p :: ps)
  | literal {c : Char} {rest : List Char} {ps : List Piece}
      (hnone : ∀ p after, ¬Piece.Begins p (c :: rest) after) (h : Cuts rest ps) :
      Cuts (c :: rest) (.literal c :: ps)

theorem cuts_pieces (cs : List Char) : Cuts cs (pieces cs) := by
  fun_induction pieces cs with
  | case1 => exact .done
  | case2 rest p after hreference _ ih => exact .reference (begins_of_reference? hreference) ih
  | case3 rest hnone ih =>
    refine .literal (fun p after hp => ?_) ih
    have hsome := reference?_of_begins hp
    rw [hnone] at hsome
    cases hsome
  | case4 c rest hc ih => exact .literal (fun p after hp => hc hp.dollar) ih

theorem Cuts.unique {cs : List Char} {ps qs : List Piece} (h : Cuts cs ps) (h' : Cuts cs qs) :
    ps = qs := by
  induction h generalizing qs with
  | done =>
    cases h' with
    | done => rfl
    | reference hp => cases hp
  | reference hp _ ih =>
    cases h' with
    | done => cases hp
    | reference hp' hrest =>
      obtain ⟨rfl, rfl⟩ := eq_of_begins hp hp'
      rw [ih hrest]
    | literal hnone => exact absurd hp (hnone _ _)
  | literal hnone _ ih =>
    cases h' with
    | reference hp => exact absurd hp (hnone _ _)
    | literal _ hrest => rw [ih hrest]

theorem cuts_iff {cs : List Char} {ps : List Piece} : Cuts cs ps ↔ ps = pieces cs := by
  constructor
  · exact fun h => h.unique (cuts_pieces cs)
  · rintro rfl
    exact cuts_pieces cs

theorem Cuts.source {cs : List Char} {ps : List Piece} (h : Cuts cs ps) :
    ps.flatMap Piece.source = cs := by
  induction h with
  | done => rfl
  | reference hp _ ih => rw [List.flatMap_cons, ih, hp.source_append]
  | literal _ _ ih =>
    rw [List.flatMap_cons, ih]
    rfl

theorem source_pieces (cs : List Char) : (pieces cs).flatMap Piece.source = cs :=
  (cuts_pieces cs).source

end Expansion

/-! ## Names that can be looked up -/

/-- All of the code points of a text have bytes. -/
def Text.Encodable (s : String) : Prop :=
  (Text.bytes? s).isSome = true

instance (s : String) : Decidable (Text.Encodable s) :=
  inferInstanceAs (Decidable (_ = true))

/-- An answer, on condition that names can be looked up. -/
def provided {α : Type} (condition : Bool) (a : α) : Except Failure α :=
  if condition then .ok a else .error .unencodable

section

variable {α β : Type}

theorem provided_eq_ok {condition : Bool} {a b : α} :
    provided condition a = .ok b ↔ condition = true ∧ a = b := by
  cases condition with
  | true => exact ⟨fun h => ⟨rfl, Except.ok.inj h⟩, fun h => congrArg Except.ok h.2⟩
  | false => exact iff_of_false (by rintro ⟨⟩) (by rintro ⟨⟨⟩, -⟩)

theorem provided_eq_error {condition : Bool} {a : α} :
    provided condition a = .error .unencodable ↔ condition = false := by
  cases condition with
  | true => exact iff_of_false (by rintro ⟨⟩) Bool.noConfusion
  | false => exact iff_of_true rfl rfl

theorem bind_provided {condition also : Bool} {a : α} {b : β} {f : α → Except Failure β}
    (h : f a = provided also b) : (provided condition a >>= f) = provided (condition && also) b := by
  cases condition with
  | true => exact h
  | false => rfl

theorem map_provided {condition : Bool} {a : α} (f : α → β) :
    (provided condition a >>= fun x => pure (f x)) = provided condition (f a) := by
  cases condition <;> rfl

theorem mapM_provided {f : α → Except Failure β} {condition : α → Bool} {g : α → β}
    (h : ∀ x, f x = provided (condition x) (g x)) (xs : List α) :
    xs.mapM f = provided (xs.all condition) (xs.map g) := by
  induction xs with
  | nil => rfl
  | cons x rest ih =>
    rw [List.mapM_cons, h, ih, List.all_cons]
    exact bind_provided (map_provided _)

end

/-! ## What stands for a piece -/

namespace Piece

variable {env : Variables} {p : Piece}

def name? : Piece → Option String
  | literal _ => none
  | braced name | bare name => some (String.ofList name)

/-- What takes the place of a piece: the value of a variable that is set, and otherwise the piece
as it was. -/
inductive Becomes (env : Variables) : Piece → List Char → Prop
  | literal (c : Char) : Becomes env (.literal c) [c]
  | set {p : Piece} {name text : String} (hname : p.name? = some name)
      (hset : env.value? name = .ok (some text)) : Becomes env p text.toList
  | unset {p : Piece} {name : String} (hname : p.name? = some name)
      (hunset : env.value? name = .ok none) : Becomes env p p.source

theorem value_of_name? {name : String} (h : p.name? = some name) :
    p.value env = (env.value? name).map fun v => (v.map String.toList).getD p.source := by
  cases p with
  | literal c => cases h
  | braced chars | bare chars =>
    obtain rfl := Option.some.inj h
    rw [value]
    rcases env.value? (String.ofList chars) with _ | _ | _ <;> rfl

theorem becomes_iff {text : List Char} : p.Becomes env text ↔ p.value env = .ok text := by
  constructor
  · intro h
    cases h with
    | literal c => rfl
    | set hname hset => rw [value_of_name? hname, hset]; rfl
    | unset hname hunset => rw [value_of_name? hname, hunset]; rfl
  · intro h
    cases p with
    | literal c =>
      obtain rfl := Except.ok.inj h
      exact .literal c
    | braced name | bare name =>
      rw [value_of_name? rfl] at h
      rcases hvalue : env.value? (String.ofList name) with _ | _ | _ <;> rw [hvalue] at h
      · cases h
      · obtain rfl := Except.ok.inj h
        exact .unset rfl hvalue
      · obtain rfl := Except.ok.inj h
        exact .set rfl hvalue

/-- What stands for a piece, if its variable can be looked up at all. -/
def filling (env : Variables) (p : Piece) : List Char :=
  (p.value env).toOption.getD p.source

def isKnown (p : Piece) : Bool :=
  p.name?.all fun name => decide (Text.Encodable name)

theorem value_eq (env : Variables) (p : Piece) : p.value env = provided p.isKnown (p.filling env) := by
  cases p with
  | literal c => rfl
  | braced name | bare name =>
    rw [filling, value_of_name? rfl, Variables.value?]
    cases hbytes : Text.bytes? (String.ofList name) <;>
      simp [isKnown, name?, Text.Encodable, hbytes, provided, Except.map, Except.toOption]

theorem filling_eq_source (h : ∀ name, p.name? = some name → env.value? name = .ok none) :
    p.filling env = p.source := by
  cases p with
  | literal c => rfl
  | braced name | bare name =>
    rw [filling, value_of_name? rfl, h _ rfl]
    rfl

end Piece

/-! ## Texts -/

namespace Expansion

variable {env : Variables}

def references (s : String) : List String :=
  (pieces s.toList).filterMap Piece.name?

/-- A text with what stands for its pieces. -/
def filledText (env : Variables) (s : String) : String :=
  String.ofList ((pieces s.toList).flatMap (Piece.filling env))

/-- Whether all variables that a text refers to can be looked up. -/
def isKnown (s : String) : Bool :=
  (pieces s.toList).all Piece.isKnown

theorem expandText_eq (s : String) : expandText env s = provided (isKnown s) (filledText env s) := by
  rw [expandText, mapM_provided (Piece.value_eq env), filledText, List.flatMap_def]
  exact map_provided _

theorem isKnown_iff {s : String} : isKnown s = true ↔ ∀ name ∈ references s, Text.Encodable name := by
  simp only [isKnown, references, List.all_eq_true, List.mem_filterMap, Piece.isKnown,
    Option.all_eq_true, decide_eq_true_eq]
  exact ⟨fun h name ⟨p, hp, hname⟩ => h p hp name hname, fun h p hp name hname => h name ⟨p, hp, hname⟩⟩

/-- A text that refers to no variable that is set stays as it is. -/
theorem filledText_eq_self {s : String} (h : ∀ name ∈ references s, env.value? name = .ok none) :
    filledText env s = s := by
  have hfillings : ∀ p ∈ pieces s.toList, p.filling env = p.source := fun p hp =>
    Piece.filling_eq_source fun name hname => h name (List.mem_filterMap.mpr ⟨p, hp, hname⟩)
  rw [filledText, List.flatMap_congr hfillings, source_pieces, String.ofList_toList]

theorem references_of_plain {s : String} (h : '$' ∉ s.toList) : references s = [] := by
  refine List.filterMap_eq_nil_iff.mpr fun p hp => ?_
  have hsource : p.source ⊆ s.toList := by
    intro c hc
    rw [← source_pieces s.toList]
    exact List.mem_flatMap.mpr ⟨p, hp, hc⟩
  cases p with
  | literal c => rfl
  | braced name | bare name => exact absurd (hsource (List.mem_cons_self)) h

end Expansion

/-! ## Values -/

mutual

/-- The texts of a value at any depth, keys of mappings apart. -/
def Value.allTexts : Value → List String
  | .str s => [s]
  | .list items => itemTexts items
  | .record fields => fieldTexts fields
  | .table entries => entryTexts entries
  | _ => []

def Value.itemTexts : List Value → List String
  | [] => []
  | v :: rest => v.allTexts ++ itemTexts rest

def Value.fieldTexts : List (String × Value) → List String
  | [] => []
  | (_, v) :: rest => v.allTexts ++ fieldTexts rest

def Value.entryTexts : List (Value × Value) → List String
  | [] => []
  | (_, v) :: rest => v.allTexts ++ entryTexts rest

end

namespace Expansion

mutual

/-- A value with what stands for the pieces of its texts. -/
def filled (env : Variables) : Value → Value
  | .str s => .str (filledText env s)
  | .list items => .list (filledItems env items)
  | .record fields => .record (filledFields env fields)
  | .table entries => .table (filledEntries env entries)
  | v => v

def filledItems (env : Variables) : List Value → List Value
  | [] => []
  | v :: rest => filled env v :: filledItems env rest

def filledFields (env : Variables) : List (String × Value) → List (String × Value)
  | [] => []
  | (key, v) :: rest => (key, filled env v) :: filledFields env rest

def filledEntries (env : Variables) : List (Value × Value) → List (Value × Value)
  | [] => []
  | (key, v) :: rest => (key, filled env v) :: filledEntries env rest

end

variable {env : Variables}

mutual

/-- A value is expanded if all variables in its texts can be looked up, and not otherwise. -/
theorem expand_eq (v : Value) : expand env v = provided (v.allTexts.all isKnown) (filled env v) := by
  cases v with
  | str s =>
    rw [expand, expandText_eq, Value.allTexts, List.all_cons, List.all_nil, Bool.and_true]
    exact map_provided _
  | list items => rw [expand, expandItems_eq items]; exact map_provided _
  | record fields => rw [expand, expandFields_eq fields]; exact map_provided _
  | table entries => rw [expand, expandEntries_eq entries]; exact map_provided _
  | _ => rfl

theorem expandItems_eq (items : List Value) :
    expandItems env items = provided ((Value.itemTexts items).all isKnown) (filledItems env items) := by
  cases items with
  | nil => rfl
  | cons v rest =>
    rw [expandItems, expand_eq v, expandItems_eq rest, Value.itemTexts, List.all_append]
    exact bind_provided (map_provided _)

theorem expandFields_eq (fields : List (String × Value)) :
    expandFields env fields =
      provided ((Value.fieldTexts fields).all isKnown) (filledFields env fields) := by
  match fields with
  | [] => rfl
  | (key, v) :: rest =>
    rw [expandFields, expand_eq v, expandFields_eq rest, Value.fieldTexts, List.all_append]
    exact bind_provided (map_provided _)

theorem expandEntries_eq (entries : List (Value × Value)) :
    expandEntries env entries =
      provided ((Value.entryTexts entries).all isKnown) (filledEntries env entries) := by
  match entries with
  | [] => rfl
  | (key, v) :: rest =>
    rw [expandEntries, expand_eq v, expandEntries_eq rest, Value.entryTexts, List.all_append]
    exact bind_provided (map_provided _)

end

theorem filledFields_eq_map (fields : Fields) :
    filledFields env fields = fields.map fun entry => (entry.1, filled env entry.2) := by
  induction fields with
  | nil => rfl
  | cons entry rest ih => rw [filledFields, ih, List.map_cons]

theorem keys_filledFields (fields : Fields) :
    Fields.keys (filledFields env fields) = fields.keys := by
  rw [filledFields_eq_map, Fields.keys, List.map_map]
  rfl

mutual

theorem filled_eq_self_iff (v : Value) :
    filled env v = v ↔ ∀ s ∈ v.allTexts, filledText env s = s := by
  cases v with
  | str s => simp [filled, Value.allTexts]
  | list items => simpa [filled, Value.allTexts] using filledItems_eq_self_iff items
  | record fields => simpa [filled, Value.allTexts] using filledFields_eq_self_iff fields
  | table entries => simpa [filled, Value.allTexts] using filledEntries_eq_self_iff entries
  | _ => simp [filled, Value.allTexts]

theorem filledItems_eq_self_iff (items : List Value) :
    filledItems env items = items ↔ ∀ s ∈ Value.itemTexts items, filledText env s = s := by
  cases items with
  | nil => simp [filledItems, Value.itemTexts]
  | cons v rest =>
    rw [filledItems, Value.itemTexts, List.cons.injEq, List.forall_mem_append,
      filled_eq_self_iff v, filledItems_eq_self_iff rest]

theorem filledFields_eq_self_iff (fields : List (String × Value)) :
    filledFields env fields = fields ↔ ∀ s ∈ Value.fieldTexts fields, filledText env s = s := by
  match fields with
  | [] => simp [filledFields, Value.fieldTexts]
  | (key, v) :: rest =>
    rw [filledFields, Value.fieldTexts, List.cons.injEq, Prod.mk.injEq, List.forall_mem_append,
      filled_eq_self_iff v, filledFields_eq_self_iff rest, and_iff_right rfl]

theorem filledEntries_eq_self_iff (entries : List (Value × Value)) :
    filledEntries env entries = entries ↔ ∀ s ∈ Value.entryTexts entries, filledText env s = s := by
  match entries with
  | [] => simp [filledEntries, Value.entryTexts]
  | (key, v) :: rest =>
    rw [filledEntries, Value.entryTexts, List.cons.injEq, Prod.mk.injEq, List.forall_mem_append,
      filled_eq_self_iff v, filledEntries_eq_self_iff rest, and_iff_right rfl]

end

end Expansion

/-! ## What expansion leaves alone -/

mutual

/-- A value with its texts blanked out; keys are kept. -/
def Value.blanked : Value → Value
  | .str _ => .str ""
  | .list items => .list (blankedItems items)
  | .record fields => .record (blankedFields fields)
  | .table entries => .table (blankedEntries entries)
  | v => v

def Value.blankedItems : List Value → List Value
  | [] => []
  | v :: rest => v.blanked :: blankedItems rest

def Value.blankedFields : List (String × Value) → List (String × Value)
  | [] => []
  | (key, v) :: rest => (key, v.blanked) :: blankedFields rest

def Value.blankedEntries : List (Value × Value) → List (Value × Value)
  | [] => []
  | (key, v) :: rest => (key, v.blanked) :: blankedEntries rest

end

namespace Expansion

variable {env : Variables}

mutual

theorem blanked_filled (v : Value) : (filled env v).blanked = v.blanked := by
  cases v with
  | str s => rfl
  | list items => rw [filled, Value.blanked, Value.blanked, blanked_filledItems items]
  | record fields => rw [filled, Value.blanked, Value.blanked, blanked_filledFields fields]
  | table entries => rw [filled, Value.blanked, Value.blanked, blanked_filledEntries entries]
  | _ => rfl

theorem blanked_filledItems (items : List Value) :
    Value.blankedItems (filledItems env items) = Value.blankedItems items := by
  cases items with
  | nil => rfl
  | cons v rest =>
    rw [filledItems, Value.blankedItems, Value.blankedItems, blanked_filled v,
      blanked_filledItems rest]

theorem blanked_filledFields (fields : List (String × Value)) :
    Value.blankedFields (filledFields env fields) = Value.blankedFields fields := by
  match fields with
  | [] => rfl
  | (key, v) :: rest =>
    rw [filledFields, Value.blankedFields, Value.blankedFields, blanked_filled v,
      blanked_filledFields rest]

theorem blanked_filledEntries (entries : List (Value × Value)) :
    Value.blankedEntries (filledEntries env entries) = Value.blankedEntries entries := by
  match entries with
  | [] => rfl
  | (key, v) :: rest =>
    rw [filledEntries, Value.blankedEntries, Value.blankedEntries, blanked_filled v,
      blanked_filledEntries rest]

end

mutual

theorem allTexts_filled (v : Value) :
    (filled env v).allTexts = v.allTexts.map (filledText env) := by
  cases v with
  | str s => rfl
  | list items => rw [filled, Value.allTexts, Value.allTexts, itemTexts_filledItems items]
  | record fields => rw [filled, Value.allTexts, Value.allTexts, fieldTexts_filledFields fields]
  | table entries => rw [filled, Value.allTexts, Value.allTexts, entryTexts_filledEntries entries]
  | _ => rfl

theorem itemTexts_filledItems (items : List Value) :
    Value.itemTexts (filledItems env items) = (Value.itemTexts items).map (filledText env) := by
  cases items with
  | nil => rfl
  | cons v rest =>
    rw [filledItems, Value.itemTexts, Value.itemTexts, allTexts_filled v,
      itemTexts_filledItems rest, List.map_append]

theorem fieldTexts_filledFields (fields : List (String × Value)) :
    Value.fieldTexts (filledFields env fields)
      = (Value.fieldTexts fields).map (filledText env) := by
  match fields with
  | [] => rfl
  | (key, v) :: rest =>
    rw [filledFields, Value.fieldTexts, Value.fieldTexts, allTexts_filled v,
      fieldTexts_filledFields rest, List.map_append]

theorem entryTexts_filledEntries (entries : List (Value × Value)) :
    Value.entryTexts (filledEntries env entries)
      = (Value.entryTexts entries).map (filledText env) := by
  match entries with
  | [] => rfl
  | (key, v) :: rest =>
    rw [filledEntries, Value.entryTexts, Value.entryTexts, allTexts_filled v,
      entryTexts_filledEntries rest, List.map_append]

end

/-- A text becomes another by one scan: it is cut into pieces, which put together are the text, and
what becomes of the pieces, put together, is the other text. -/
def ScansTo (env : Variables) (s t : String) : Prop :=
  ∃ ps parts, Cuts s.toList ps ∧ ps.flatMap Piece.source = s.toList ∧
    List.Forall₂ (Piece.Becomes env) ps parts ∧ t = String.ofList parts.flatten

theorem forall₂_becomes_iff {ps : List Piece} {parts : List (List Char)} :
    List.Forall₂ (Piece.Becomes env) ps parts ↔ ps.mapM (Piece.value env) = .ok parts := by
  have hbecomes : Piece.Becomes env = fun p text => p.isKnown = true ∧ p.filling env = text := by
    funext p text
    rw [eq_iff_iff, Piece.becomes_iff, Piece.value_eq, provided_eq_ok]
  have hmap : List.Forall₂ (fun p text => p.filling env = text) ps parts ↔
      ps.map (Piece.filling env) = parts := by
    rw [← List.forall₂_map_left_iff, List.forall₂_eq_eq_eq]
  rw [mapM_provided (Piece.value_eq env), provided_eq_ok, hbecomes, List.forall₂_and_left,
    List.all_eq_true, hmap]

theorem scansTo_iff {s t : String} : ScansTo env s t ↔ expandText env s = .ok t := by
  constructor
  · rintro ⟨ps, parts, hps, -, hparts, rfl⟩
    rw [cuts_iff.mp hps] at hparts
    exact bind_eq_ok.mpr ⟨parts, forall₂_becomes_iff.mp hparts, rfl⟩
  · intro h
    obtain ⟨parts, hparts, ht⟩ := bind_eq_ok.mp h
    exact ⟨pieces s.toList, parts, cuts_pieces _, source_pieces _, forall₂_becomes_iff.mpr hparts,
      (Except.ok.inj ht).symm⟩

/-- A value refers to a variable where a scan of one of its texts meets a reference. -/
def Refers (v : Value) (name : String) : Prop :=
  ∃ s ∈ v.allTexts, ∃ ps, Cuts s.toList ps ∧ ∃ p ∈ ps, p.name? = some name

theorem refers_iff {v : Value} {name : String} :
    Refers v name ↔ ∃ s ∈ v.allTexts, name ∈ references s := by
  refine exists_congr fun s => and_congr_right fun _ => ?_
  rw [references, List.mem_filterMap]
  constructor
  · rintro ⟨ps, hps, hname⟩
    rwa [← cuts_iff.mp hps]
  · exact fun hname => ⟨_, cuts_pieces _, hname⟩

theorem all_isKnown_iff {v : Value} :
    v.allTexts.all isKnown = true ↔ ∀ name, Refers v name → Text.Encodable name := by
  simp only [List.all_eq_true, isKnown_iff, refers_iff]
  exact ⟨fun h name ⟨s, hs, hname⟩ => h s hs name hname, fun h s hs name hname => h name ⟨s, hs, hname⟩⟩

theorem expand_of_encodable {v : Value} (h : ∀ name, Refers v name → Text.Encodable name) :
    expand env v = .ok (filled env v) := by
  rw [expand_eq, all_isKnown_iff.mpr h]
  rfl

/-- A value cannot be expanded that refers to a variable which cannot be looked up. -/
theorem expand_of_refers {v : Value} {name : String} (hname : Refers v name)
    (h : ¬Text.Encodable name) : expand env v = .error .unencodable := by
  have hunknown : v.allTexts.all isKnown = false := by
    rw [← Bool.not_eq_true, all_isKnown_iff]
    exact fun hall => h (hall name hname)
  rw [expand_eq, hunknown]
  rfl

theorem filled_eq_self_of_unset {v : Value}
    (h : ∀ name, Refers v name → env.value? name = .ok none) : filled env v = v := by
  refine (filled_eq_self_iff v).mpr fun s hs => filledText_eq_self fun name hname => ?_
  exact h name (refers_iff.mpr ⟨s, hs, hname⟩)

theorem expand_eq_self {v : Value} (h : ∀ name, ¬Refers v name) : expand env v = .ok v := by
  rw [expand_of_encodable fun name hname => absurd hname (h name),
    filled_eq_self_of_unset fun name hname => absurd hname (h name)]

theorem forall₂_scansTo_filled {v : Value} (h : ∀ name, Refers v name → Text.Encodable name) :
    List.Forall₂ (ScansTo env) v.allTexts (filled env v).allTexts := by
  rw [allTexts_filled]
  refine List.forall₂_map_right_iff.mpr (List.forall₂_same.mpr fun s hs => scansTo_iff.mpr ?_)
  rw [expandText_eq, List.all_eq_true.mp (all_isKnown_iff.mpr h) s hs]
  rfl

/-- Every text has one way to be cut by a scan from the left, and its expansion is what the scan
makes of it. A value that refers to a variable which cannot be looked up has no expansion. Any other
has one: its texts are expanded one by one, and what is there besides is left alone, keys, their
order, the lengths of lists and whatever is no text. A value that refers to no variable that is set
is its own expansion. -/
theorem expand_scans_once (env : Variables) :
    (∀ s : String, (∃! ps, Cuts s.toList ps) ∧
      ∀ t, expand env (.str s) = .ok (.str t) ↔ ScansTo env s t) ∧
    (∀ v name, Refers v name → ¬Text.Encodable name → expand env v = .error .unencodable) ∧
    ∀ v, (∀ name, Refers v name → Text.Encodable name) →
      ∃ w, expand env v = .ok w ∧ w.blanked = v.blanked ∧
        List.Forall₂ (ScansTo env) v.allTexts w.allTexts ∧
        ((∀ name, Refers v name → env.value? name = .ok none) → w = v) := by
  refine ⟨fun s => ⟨⟨pieces s.toList, cuts_pieces _, fun ps hps => cuts_iff.mp hps⟩, fun t => ?_⟩,
    fun v name => expand_of_refers, fun v hv => ⟨filled env v, expand_of_encodable hv,
      blanked_filled v, forall₂_scansTo_filled hv, filled_eq_self_of_unset⟩⟩
  rw [scansTo_iff, expand, bind_eq_ok]
  constructor
  · rintro ⟨t', ht, h⟩
    obtain rfl := Value.str.inj (Except.ok.inj h)
    exact ht
  · exact fun ht => ⟨t, ht, rfl⟩

/-- Where only `A` is set, a value with a reference to `B` and an open brace stays as it is, and of
a text only the references to `A` are replaced. -/
theorem expand_scans_once_partly_set :
    (∀ name, Refers (.record [("$A", .list [.str "$B $\x7bA", .int 1])]) name →
      Text.Encodable name ∧ Variables.value? [("A", "1")] name = .ok none) ∧
    expand [("A", "1")] (.record [("$A", .list [.str "$B $\x7bA", .int 1])])
      = .ok (.record [("$A", .list [.str "$B $\x7bA", .int 1])]) ∧
    expand [("A", "1")] (.str "$$A$\x7bA\x7d$\x7b\x7d") = .ok (.str "$11$\x7b\x7d") ∧
    ScansTo [("A", "1")] "$$A$\x7bA\x7d$\x7b\x7d" "$11$\x7b\x7d" := by
  obtain ⟨htext, -, hvalue⟩ := expand_scans_once [("A", "1")]
  have hunset : ∀ name, Refers (.record [("$A", .list [.str "$B $\x7bA", .int 1])]) name →
      Text.Encodable name ∧ Variables.value? [("A", "1")] name = .ok none := by
    intro name hname
    obtain ⟨s, hs, hname⟩ := refers_iff.mp hname
    obtain rfl : s = "$B $\x7bA" := List.mem_singleton.mp hs
    have hreferences : references "$B $\x7bA" = ["B"] := by decide +kernel
    rw [hreferences, List.mem_singleton] at hname
    rw [hname]
    exact ⟨by decide +kernel, rfl⟩
  obtain ⟨w, hw, -, -, hself⟩ := hvalue _ fun name hname => (hunset name hname).1
  obtain rfl := hself fun name hname => (hunset name hname).2
  have hexpand : expand [("A", "1")] (.str "$$A$\x7bA\x7d$\x7b\x7d") = .ok (.str "$11$\x7b\x7d") := by
    with_unfolding_all rfl
  exact ⟨hunset, hw, hexpand, ((htext _).2 _).mp hexpand⟩

/-- A reference to a variable whose name is a surrogate. -/
def loneSurrogate : String :=
  String.ofList ('$' :: '\x7b' :: (Text.Point.surrogate 0).spelling ++ ['\x7d'])

/-- Where no variable is set, there is a reference that is not left as it is. -/
theorem unset_reference_fails : expand [] (.str loneSurrogate) = .error .unencodable := by
  with_unfolding_all rfl

end Expansion

end CodeGraph
