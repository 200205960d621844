import CodeGraph.Value.Reading

/-!
# Journal

Analyses report what they do. A `Journal` holds the records written so far and
the context in force: fields that every record written meanwhile carries along.
`Logged` computations may fail, and what they wrote before failing stays
written. A computation run `within` more context gives the context back as it
was, whether it succeeds or fails and whatever it does to the context itself.
-/

namespace CodeGraph

/-- Log levels are numbers, so that a session may use any of them; these have names. -/
inductive Level where
  | debug
  | info
  | warning
  | error
  | critical
deriving DecidableEq, Repr

namespace Level

def all : List Level :=
  [debug, info, warning, error, critical]

def name : Level → String
  | debug => "DEBUG"
  | info => "INFO"
  | warning => "WARNING"
  | error => "ERROR"
  | critical => "CRITICAL"

def number : Level → Int
  | debug => 10
  | info => 20
  | warning => 30
  | error => 40
  | critical => 50

end Level

structure Record where
  level : Int
  logger : String
  message : String
  context : Fields
  extra : Fields
  /-- The failure that the record reports on, as text. -/
  failure : Option String

/-- Context and own fields together; a record's own fields win. -/
def Record.fields (r : Record) : Fields :=
  r.context.update r.extra

structure Journal where
  context : Fields
  records : List Record

def Journal.empty : Journal := ⟨[], []⟩

/-- Computations that write to the journal and may fail. -/
abbrev Logged := ExceptT Failure (StateM Journal)

/-- What computations need to write records: the context in force, and a place for records. -/
class Journaled (m : Type → Type) where
  context : m Fields
  putContext : Fields → m Unit
  record : Record → m Unit

instance : Journaled (StateM Journal) where
  context := return (← get).context
  putContext fields := modify fun journal => { journal with context := fields }
  record r := modify fun journal => { journal with records := journal.records ++ [r] }

instance {m n : Type → Type} [MonadLift m n] [Journaled m] : Journaled n where
  context := monadLift (Journaled.context : m Fields)
  putContext fields := monadLift (Journaled.putContext fields : m Unit)
  record r := monadLift (Journaled.record r : m Unit)

/-! ## Fields given as data -/

def namedFields (v : Value) : Except Failure Fields :=
  match v with
  | .record fields => .ok fields
  | v => .error (.wrongType (.notMapping v.typeName))

/-- The fields of a block of context; the name by which a block refers to itself is taken. -/
def blockFields (v : Value) : Except Failure Fields := do
  let fields ← namedFields v
  if fields.has "self" then throw (.wrongType (.repeatedArgument "self"))
  return fields

/-! ## Context -/

section Context

variable {m : Type → Type} [Monad m] [Journaled m]

structure Token where
  /-- The context before the change. -/
  outer : Fields

def setContext (fields : Fields) : m Token := do
  let outer ← Journaled.context
  Journaled.putContext (outer.update fields)
  return ⟨outer⟩

def clearContext : m Unit :=
  Journaled.putContext []

/-- Take back a change, and with it all later ones. -/
def Token.reset (token : Token) : m Unit :=
  Journaled.putContext token.outer

/-- Fields to be laid over the context for a while; there is a token in the meantime. -/
structure Block where
  fields : Fields
  token : Option Token

def Block.ofFields (fields : Fields) : Block := ⟨fields, none⟩

def Block.enter (block : Block) : m Block := do
  let token ← setContext block.fields
  return { block with token := some token }

/-- Give the context back as it was; a block that is not entered has none to give back. -/
def Block.leave (block : Block) : m Block := do
  match block.token with
  | none => return block
  | some token =>
    token.reset
    return { block with token := none }

end Context

/-! ## Logging -/

namespace Logged

variable {m : Type → Type} [Monad m] [Journaled m] {α : Type}

def write (level : Level) (logger message : String) (extra : Fields) (failure : Option String) :
    ExceptT Failure m Unit :=
  ExceptT.lift do
    let context ← Journaled.context
    Journaled.record ⟨level.number, logger, message, context, extra, failure⟩

def debug (logger message : String) (extra : Fields) : ExceptT Failure m Unit :=
  write .debug logger message extra none

def info (logger message : String) (extra : Fields) : ExceptT Failure m Unit :=
  write .info logger message extra none

def warning (logger message : String) (extra : Fields) : ExceptT Failure m Unit :=
  write .warning logger message extra none

/-- Run a computation with more context, and restore the context afterwards in either case. -/
def within (fields : Fields) (body : ExceptT Failure m α) : ExceptT Failure m α :=
  ExceptT.mk do
    let block ← (Block.ofFields fields).enter
    let result ← body.run
    discard block.leave
    return result

def onFailure (body : ExceptT Failure m α) (handler : Failure → ExceptT Failure m Unit) :
    ExceptT Failure m α :=
  tryCatch body fun f => do
    handler f
    throw f

/-- The clock stands still, so every span takes no time. -/
def noTime : Value := .float 0

/-- A named operation: its start and its end are written, and its name is part of the context. -/
def operation (logger : String) (name : Value) (body : ExceptT Failure m α) :
    ExceptT Failure m α :=
  within [("operation", name)] do
    debug logger s!"Starting {name.text}" []
    let result ← onFailure body fun _ =>
      debug logger s!"Failed {name.text}" [("duration_seconds", noTime)]
    debug logger s!"Completed {name.text}" [("duration_seconds", noTime)]
    return result

end Logged

end CodeGraph
