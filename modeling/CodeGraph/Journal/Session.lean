import CodeGraph.Config
import CodeGraph.Files
import CodeGraph.Journal.Layout

/-!
# Logging sessions

A session sets up where records go and how they are laid out, keeps the context
that records carry, and lets analyses run under both. Blocks of context are
entered and left by name, in any order: leaving one restores the context as it
was when that one was entered, and leaving it again does nothing.
-/

namespace CodeGraph

def rootLogger : String := "cpgscope"

def loggerName (name : String) : String :=
  if name == rootLogger || (rootLogger ++ ".").toList.isPrefixOf name.toList then name
  else rootLogger ++ "." ++ name

def readLogger : Value → Except Failure String
  | .str name => .ok (loggerName name)
  | v => .error (.noMember v.typeName "startswith")

structure Output where
  /-- The file written to, absent for the error stream. -/
  file : Option Files.Spot
  json : Bool

structure Session where
  context : Fields
  level : Int
  outputs : List Output
  /-- Whether records also go to whatever lies above the loggers. -/
  propagates : Bool
  /-- Blocks of context that were entered, by name. -/
  blocks : List (String × Block)
  files : Files
  errors : String
  env : Variables

namespace Session

def clock : Value := .float 1700000000.125

def unsetLevel : Int := 30

def effectiveLevel (s : Session) : Int :=
  if s.level = 0 then unsetLevel else s.level

def isEnabled (s : Session) (level : Int) : Bool :=
  0 < level && s.effectiveLevel ≤ level

/-- Write an event to an output; one that the layout refuses is dropped, and so is one that a file
cannot hold. -/
def writeTo (event : Event) (s : Session) (output : Output) : Session :=
  match if output.json then event.json else event.human with
  | .error _ => s
  | .ok line =>
    let text := line ++ "\n"
    match output.file, Files.encode? text with
    | none, _ => { s with errors := s.errors ++ text }
    | some (.inside location), some bytes => { s with files := s.files.append location bytes }
    | some _, _ => s

def emit (s : Session) (event : Event) : Session :=
  s.outputs.foldl (writeTo event) s

/-- Write a record to all outputs, if its level is high enough. -/
def emitRecord (s : Session) (r : Record) : Session :=
  match r.event clock with
  | .ok event => if s.isEnabled r.level then s.emit event else s
  | .error _ => s

end Session

/-- Records are written to the outputs of the session as they come. -/
instance : Journaled (StateM Session) where
  context := return (← get).context
  putContext fields := modify fun s => { s with context := fields }
  record r := modify (·.emitRecord r)

/-- Computations in a session; what happened before a failure stays. -/
abbrev InSession := ExceptT Failure (StateM Session)

namespace Session

def readLevel : Value → Except Failure Int
  | .str name =>
    match levelNumbers.lookup (Text.upper name) with
    | some n => .ok n
    | none => .error (.argument (.unknownLevel (Text.upper name)))
  | v => .error (.noMember v.typeName "upper")

/-- Write to the error stream and, if one is given, to a file. A file that cannot be opened
leaves the error stream as the only output. -/
def configure (level : Value) (json : Bool) (file : Option Files.Path) : InSession Unit := do
  let level ← readLevel level
  modify fun s => { s with level := level, outputs := [⟨none, json⟩] }
  match file with
  | none => pure ()
  | some path =>
    let (files, spot) ← (← get).files.openForAppend path
    modify fun s => { s with files := files, outputs := s.outputs ++ [⟨some spot, json⟩] }
  modify fun s => { s with propagates := false }

/-- The path that a text names; anything else names none, and the empty text stands for no
path. -/
def pathOf? (files : Files) (v : Value) : Except Failure (Option Files.Path) :=
  if !v.truthy then .ok none
  else
    match v with
    | .str text => .ok (some (files.path text))
    | v => .error (.wrongType (.operands "/" "PosixPath" v.typeName))

def applyOptions (o : LoggingOptions) : InSession Unit := do
  let file ← pathOf? (← get).files o.file
  configure o.level (o.format.same (.str "json")) file

structure Entry where
  logger : Value
  level : Value
  message : Value
  args : List Value
  extra : Value
  failure : Option String

def taken (name : String) : Bool :=
  recordProperties.contains name || name == "message" || name == "asctime"

/-- A field that a list gives: its item is the name, and also the place of the value. -/
def positionalField (items : List Value) (v : Value) : Except Failure (Option (String × Value)) := do
  v.hashable
  match v.asInt? with
  | none => throw (.wrongType (.notInteger v.typeName))
  | some n =>
    let place := if n < 0 then n + items.length else n
    if 0 ≤ place && place < items.length then return none
    throw .outOfRange

def checkName (name : String) : Except Failure Unit :=
  if taken name then
    .error (.missingKey (.str s!"Attempt to overwrite {Text.quoted name} in LogRecord"))
  else .ok ()

/-- The fields that are given to a record; absent when there are some without a name. -/
def readFields (v : Value) : Except Failure (Option Fields) := do
  match v with
  | .null => return some []
  | .record fields => ofFields fields
  | .list items => ofItems items
  | .str s =>
    match Text.letters s with
    | [] => return some []
    | first :: _ => checkName first; throw (.wrongType (.notInteger "str"))
  | v => throw (.wrongType (.notIterable v.typeName))
where
  ofFields (fields : Fields) : Except Failure (Option Fields) := do
    fields.forM fun entry => checkName entry.1
    return some fields
  ofItems (items : List Value) : Except Failure (Option Fields) := do
    items.forM fun
      | .str name => do
        checkName name
        throw (.wrongType (.notInteger "str"))
      | item => discard (positionalField items item)
    return if items.isEmpty then some [] else none

/-- The event that an entry stands for, as long as it carries no context. There is none for a
level that is not a number or not enabled. -/
def Entry.event (enabled : Int → Bool) (e : Entry) : Except Failure (Option Event) := do
  let logger ← readLogger e.logger
  match e.level.asInt? with
  | none => return none
  | some level =>
    if !enabled level then return none
    match ← readFields e.extra with
    | none => return none
    | some extra =>
      let basic ← Event.basic (.str logger) e.level e.message clock
      return some ⟨basic.update extra, e.args, e.failure⟩

def log (e : Entry) : InSession Unit := do
  let s ← get
  match ← e.event s.isEnabled with
  | none => return
  | some event => set (s.emit (event.under s.context))

/-! ## Context -/

def putBlock (name : String) (block : Block) : List (String × Block) → List (String × Block)
  | [] => [(name, block)]
  | (n, old) :: rest =>
    if n == name then (n, block) :: rest else (n, old) :: putBlock name block rest

def enter (name : String) (fields : Value) : InSession Unit := do
  let block ← (Block.ofFields (← blockFields fields)).enter
  modify fun s => { s with blocks := putBlock name block s.blocks }

def leave (name : String) : InSession Unit := do
  match (← get).blocks.lookup name with
  | none => throw (.missingKey (.str name))
  | some block =>
    let block ← block.leave
    modify fun s => { s with blocks := putBlock name block s.blocks }

/-! ## Running -/

/-- Run a computation under the context of the session, writing its records as they come. -/
def run {α : Type} (x : Logged α) : InSession α :=
  ExceptT.mk fun s =>
    let (result, journal) := x.run ⟨s.context, []⟩
    (result, { journal.records.foldl emitRecord s with context := journal.context })

/-- Run a computation as a named operation of a module. -/
def call {α : Type} (module name : Value) (body : InSession α) : InSession α := do
  let logger ← readLogger module
  Logged.operation logger name body

/-- A named operation that does nothing but look at its context, or fail. -/
def operation (module name : Value) (failure : Option String) : InSession Value :=
  call module name do
    match failure with
    | some text => throw (.argument (.stated text))
    | none => return .record (← get).context

/-! ## Steps -/

inductive Step where
  | configure (level : Value) (json : Bool) (file : Value)
  | apply (options : Value)
  | log (entry : Entry)
  | set (fields : Value)
  | clear
  | enter (name : String) (fields : Value)
  | leave (name : String)
  | operation (module name : Value) (failure : Option String)
  | run (analysis : Files → Logged Value)

def setup (s : Session) : Value :=
  .record [("level", .int s.level), ("handlers", .int s.outputs.length),
    ("propagate", .bool s.propagates)]

def perform : Step → InSession Value
  | .configure level json file => do
    configure level json (← pathOf? (← get).files file)
    return (← get).setup
  | .apply options => do
    let config ← Config.read (← get).env (.record [("logging", options)])
    applyOptions config.logging
    return .null
  | .log entry => do
    log entry
    return .null
  | .set fields => do
    discard (setContext (← namedFields fields))
    return .null
  | .clear => do
    clearContext
    return .null
  | .enter name fields => do
    enter name fields
    return .null
  | .leave name => do
    leave name
    return .null
  | .operation module name failure => operation module name failure
  | .run analysis => do run (analysis (← get).files)

end Session

end CodeGraph
