import CodeGraph.Format.Json
import CodeGraph.Journal
import CodeGraph.Journal.Clock
import CodeGraph.Value.Sorting

/-!
# Layouts of records

An `Event` is a record with all that a layout may ask for: its properties by name,
the arguments of its message and the failure that it reports on. It is written as
one line for people, with its fields in order behind the message, or as a JSON
document, with its fields in arrival order. Properties whose names belong to every
record, or begin with an underscore, are not shown as fields.

Whoever puts an event together may set any property, also one that the layouts
rely on, and the layouts refuse what they cannot use.
-/

namespace CodeGraph

def recordProperties : List String :=
  ["name", "msg", "args", "levelname", "levelno", "pathname", "filename", "module", "exc_info",
    "exc_text", "stack_info", "lineno", "funcName", "created", "msecs", "relativeCreated",
    "thread", "threadName", "processName", "process"]

def layoutProperties : List String :=
  ["message", "asctime", "context"]

def isHidden (name : String) : Bool :=
  name.toList.head? == some '_'

def shownFields (properties : Fields) : Fields :=
  properties.filter fun entry =>
    !(recordProperties ++ layoutProperties).contains entry.1 && !isHidden entry.1

/-! ## Levels -/

/-- The names of levels, of which some levels have two. -/
def levelNumbers : List (String × Int) :=
  [("CRITICAL", 50), ("FATAL", 50), ("ERROR", 40), ("WARN", 30), ("WARNING", 30), ("INFO", 20),
    ("DEBUG", 10), ("NOTSET", 0)]

def namedLevels : List (Int × String) :=
  (0, "NOTSET") :: Level.all.map fun level => (level.number, level.name)

def levelName (number : Int) : String :=
  (namedLevels.lookup number).getD ("Level " ++ Value.intText number)

/-- What stands for a level: a name for a number, and for a name its number. -/
def levelShown (level : Value) : Except Failure Value := do
  level.hashable
  match namedLevels.find? fun entry => (Value.int entry.1).same level, level with
  | some (_, name), _ => return .str name
  | none, .str name =>
    match levelNumbers.lookup name with
    | some number => return .int number
    | none => return .str ("Level " ++ name)
  | none, level => return .str ("Level " ++ level.text)

/-! ## Events -/

structure Event where
  properties : Fields
  /-- The arguments of the message, unless a property gives them. -/
  args : List Value
  /-- The failure reported on as text, unless a property stands for it. -/
  failure : Option String

/-- The properties that every event begins with, as far as layouts ask for them. -/
def Event.basic (logger level message created : Value) : Except Failure Fields := do
  return [("name", logger), ("msg", message), ("levelname", ← levelShown level),
    ("exc_text", .null), ("stack_info", .null), ("created", created),
    ("msecs", ← Clock.thousandths created)]

/-- How a record shows a plain failure with a text. -/
def failureText (text : String) : String :=
  if text == "" then "ValueError" else "ValueError: " ++ text

namespace Event

def property (e : Event) (name : String) : Value :=
  e.properties.get name

/-- Set a property. The class of a record is none, and neither are its properties as a whole. -/
def setProperty (e : Event) (name : String) (v : Value) : Except Failure Event :=
  match name with
  | "__class__" => .error (.wrongType (.notCallable v.typeName))
  | "__dict__" =>
    match v.entries? with
    | some _ => .error (.noMember "LogRecord" "msg")
    | none => .error (.wrongType (.notMapping v.typeName))
  | "__weakref__" => .error (.noMember "LogRecord" name)
  | name => .ok { e with properties := e.properties.put name v }

def message (e : Event) : Except Failure String :=
  let text := (e.property "msg").text
  match e.properties.get? "getMessage", e.properties.get? "args" with
  | some v, _ => .error (.wrongType (.notCallable v.typeName))
  | none, some v => if v.truthy then Message.format text (.single v) else .ok text
  | none, none => if e.args.isEmpty then .ok text else Message.format text (.ofList e.args)

/-- What a given value shows as a failure: it should be a class, a failure and a trace, and says
nothing when the last two are absent. -/
def givenFailure (v : Value) : Except Failure String :=
  match v with
  | .list (_ :: failure :: trace :: _) =>
    if trace.isNull && failure.isNull then .ok "NoneType: None"
    else .error (.noMember failure.typeName "__suppress_context__")
  | .list _ => .error .outOfRange
  | .str s => .error (if Text.size s < 3 then .outOfRange else .noMember "str" "tb_frame")
  | .record _ | .table _ => .error (.missingKey (.int 2))
  | v => .error (.wrongType (.notSubscriptable v.typeName))

/-- The failure that the event reports on. -/
def reported (e : Event) : Except Failure (Option String) :=
  match e.properties.get? "exc_info" with
  | none => .ok e.failure
  | some v => if v.truthy then (givenFailure v).map some else .ok none

/-- The fields of the context that the event carries, with its own fields laid over them. -/
def fields (e : Event) : Except Failure Entries := do
  let context := e.property "context"
  let context ← if context.truthy then context.toTable else pure []
  return Entries.update context (shownFields e.properties).entries

/-! ## For people -/

def widened (width : Nat) (text : String) : String :=
  text ++ String.ofList (List.replicate (width - Text.size text) ' ')

/-- Add a text on a line of its own, if there is one. -/
def withLine (line : String) (v : Value) : Except Failure String :=
  if !v.truthy then .ok line
  else
    match v with
    | .str text => .ok (if line.toList.getLast? == some '\n' then line ++ text else line ++ "\n" ++ text)
    | v => .error (.wrongType (.operands "+" "str" v.typeName))

/-- A failure as it stands below the line: by a property, else as it is reported. -/
def failureLine (e : Event) : Except Failure Value := do
  let known := e.property "exc_text"
  if known.truthy then return known
  return .ofOption ((← e.reported).map Value.str)

def listed (fields : Entries) : Except Failure String := do
  let ordered ← Value.sortOn (fun entry : Value × Value => .list [entry.1, entry.2]) fields
  return " ".intercalate (ordered.map fun (key, v) => key.text ++ "=" ++ v.text)

def human (e : Event) : Except Failure String := do
  let message ← e.message
  let moment ← Clock.Moment.read (e.property "created")
  let time ← moment.brief (e.property "msecs")
  let level := widened 8 (e.property "levelname").text
  let logger := (e.property "name").text
  let line := s!"{time} {level} {logger}: {message}"
  let line ← withLine line (← e.failureLine)
  let line ← withLine line (e.property "stack_info")
  let fields ← e.fields
  if fields.isEmpty then return line
  return line ++ " " ++ (← listed fields)

/-! ## For machines -/

def json (e : Event) : Except Failure String := do
  let moment ← Clock.Moment.read (e.property "created")
  let payload : Fields :=
    [("timestamp", .str (← moment.precise)), ("level", e.property "levelname"),
      ("logger", e.property "name"), ("message", .str (← e.message))]
  let payload := Entries.update payload.entries (← e.fields)
  match ← e.reported with
  | some text => return Json.write (.table (Entries.put (.str "exception") (.str text) payload))
  | none => return Json.write (.table payload)

end Event

/-- Put the context in force on an event, whatever it has in its place. -/
def Event.under (context : Fields) (e : Event) : Event :=
  { e with properties := e.properties.put "context" (.record context) }

def Record.event (created : Value) (r : Record) : Except Failure Event := do
  let basic ← Event.basic (.str r.logger) (.int r.level) (.str r.message) created
  return .under r.context ⟨basic.update r.extra, [], r.failure⟩

structure Draft where
  logger : Value
  level : Value
  message : Value
  args : List Value
  created : Value
  /-- Properties to set, in order, if there are any. -/
  extra : Value
  /-- The context in force, if there is any for a record to take on. -/
  context : Value
  failure : Option String

def Draft.event (d : Draft) : Except Failure Event := do
  let event : Event := ⟨← Event.basic d.logger d.level d.message d.created, d.args, d.failure⟩
  let extra ← if d.extra.truthy then d.extra.fieldsOr "items" else pure []
  let event ← extra.foldlM (fun event (name, v) => event.setProperty name v) event
  if !d.context.truthy then return event
  event.setProperty "context" (.record (← blockFields d.context))

end CodeGraph
