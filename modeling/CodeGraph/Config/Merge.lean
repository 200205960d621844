import CodeGraph.Config

/-!
# Merging configurations

One configuration is laid over another by what it changes: an option that has
its default value does not override anything. Tables are laid over tables key by
key, at any depth.
-/

namespace CodeGraph

def nonemptyRecord? : Value → Option Fields
  | .record (entry :: rest) => some (entry :: rest)
  | _ => none

mutual

/-- What of a value differs from its default, `none` when nothing does. A record is compared
with a default that is a non-empty record field by field. -/
def Value.changed? (v default : Value) : Option Value :=
  match v with
  | .record fields =>
    match nonemptyRecord? default with
    | some defaults =>
      match Fields.changed fields defaults with
      | [] => none
      | entry :: rest => some (.record (entry :: rest))
    | none => if Value.same (.record fields) default then none else some (.record fields)
  | v => if v.same default then none else some v

def Fields.changed (fields : List (String × Value)) (defaults : Fields) : Fields :=
  match fields with
  | [] => []
  | (key, v) :: rest =>
    match Value.changed? v (defaults.get key) with
    | some changed => (key, changed) :: Fields.changed rest defaults
    | none => Fields.changed rest defaults

end

mutual

/-- A value laid over another: mappings are united, anything else replaces what was there. -/
def Value.overlay (top : Value) (base : Option Value) : Value :=
  match top with
  | .record fields =>
    match base with
    | some (.record below) => .record (Fields.overlay fields below)
    | some (.table below) => .mapping (Fields.overlayEntries fields below)
    | _ => .record fields
  | .table entries =>
    match base.bind Value.entries? with
    | some below => .mapping (Entries.overlay entries below)
    | none => .table entries
  | v => v

def Fields.overlay (top : List (String × Value)) (base : Fields) : Fields :=
  match top with
  | [] => base
  | (key, v) :: rest =>
    Fields.overlay rest (base.put key (Value.overlay v (base.get? key)))

def Fields.overlayEntries (top : List (String × Value)) (base : Entries) : Entries :=
  match top with
  | [] => base
  | (key, v) :: rest =>
    Fields.overlayEntries rest (base.put (.str key) (Value.overlay v (base.get? (.str key))))

def Entries.overlay (top : List (Value × Value)) (base : Entries) : Entries :=
  match top with
  | [] => base
  | (key, v) :: rest => Entries.overlay rest (base.put key (Value.overlay v (base.get? key)))

end

/-- Lay data over data, as far as both are tables. -/
def deepMerge (base top : Value) : Except Failure Value :=
  match base, top with
  | .record fields, .record changes => .ok (.record (Fields.overlay changes fields))
  | .record fields, .table changes => .ok (Value.overlay (.table changes) (some (.record fields)))
  | .table entries, .record changes => .ok (Value.overlay (.record changes) (some (.table entries)))
  | .table entries, .table changes => .ok (Value.overlay (.table changes) (some (.table entries)))
  | .list items, .record [] => .ok (.list items)
  | .list _, .record _ => .error (.wrongType (.notInteger "str"))
  | .record _, v | .table _, v | .list _, v => .error (.noMember v.typeName "items")
  | v, _ => .error (.noMember v.typeName "copy")

/-- What of some data differs from defaults, both given as data; without data there is no need
for defaults. -/
def Config.changedValues (data defaults : Value) : Except Failure Fields := do
  let fields ← data.fieldsOr "items"
  if fields.isEmpty then return []
  return Fields.changed fields (← defaults.fieldsOr "get")

def Config.changes (c : Config) : Fields :=
  Fields.changed c.toFields (Config.toFields {})

/-- Lay a configuration over another; variables in its texts are expanded again. -/
def Config.merge (env : Variables) (c top : Config) : Except Failure Config :=
  Config.read env (.record (Fields.overlay top.changes c.toFields))

/-- Whether two configurations have equal options; what was put in place of the thresholds
equals no thresholds. -/
def Config.same (c d : Config) : Bool :=
  c.toValue.same d.toValue &&
    match c.detectors.thresholds, d.detectors.thresholds with
    | .known _, .known _ => true
    | .other _, .other _ => true
    | _, _ => false

end CodeGraph
