import CodeGraph.Proofs.Fields
import CodeGraph.Proofs.Journal.Endings

/-!
# Scopes of context

Programs that log nest blocks of context and named operations, lay fields over the
context and clear it, and fail at any point. The context in force is one variable,
and a block restores it by the token that it got when it was entered.

What such a program does can be told without that variable (`Program.behaviour`):
every part of it lies in a scope, the fields laid so far in their order, and a
block or an operation hands its own scope to what comes next, however its body
ended and whatever that did to the context. Programs do what is told of them
(`Program.meets`), as long as no block stands for two at once.
-/

namespace CodeGraph

/-! ## Contexts and scopes -/

/-- A context is what a scope comes to: of the fields with one name it has the one laid last. -/
structure Fields.Carries (context scope : Fields) : Prop where
  once : context.keys.Nodup
  last : ∀ key, context.get? key = scope.reverse.lookup key

namespace Fields.Carries

variable {context scope : Fields}

theorem nil : Fields.Carries [] [] :=
  ⟨List.nodup_nil, fun _ => rfl⟩

theorem put (h : context.Carries scope) (key : String) (v : Value) :
    Fields.Carries (Fields.put key v context) (scope ++ [(key, v)]) := by
  refine ⟨nodup_put h.once v, fun k => ?_⟩
  rw [get?_put, List.reverse_append, h.last]
  exact (get?_cons (key, v) scope.reverse k).symm

theorem update (h : context.Carries scope) (fields : Fields) :
    (context.update fields).Carries (scope ++ fields) := by
  induction fields generalizing context scope with
  | nil => rwa [List.append_nil]
  | cons entry rest ih =>
    have hput := ih (h.put entry.1 entry.2)
    rwa [List.append_assoc] at hput

end Fields.Carries

/-! ## Behaviours -/

/-- What a part of a program does in a scope. -/
structure Behaviour where
  /-- The events, with the scope in which each of them is logged. -/
  logged : List (Fields × Event)
  ending : Except Failure Unit
  /-- The scope of what comes next. -/
  scope : Fields

namespace Behaviour

def still (scope : Fields) : Behaviour := ⟨[], .ok (), scope⟩

def fails (failure : Failure) (scope : Fields) : Behaviour := ⟨[], .error failure, scope⟩

def goesOn (b c : Behaviour) : Behaviour := ⟨b.logged ++ c.logged, c.ending, c.scope⟩

def andThen (b : Behaviour) (next : Fields → Behaviour) : Behaviour :=
  match b.ending with
  | .ok () => b.goesOn (next b.scope)
  | .error _ => b

def orElse (b : Behaviour) (handler : Failure → Fields → Behaviour) : Behaviour :=
  match b.ending with
  | .ok () => b
  | .error failure => b.goesOn (handler failure b.scope)

/-- Go on with what is found, or fail as it does. -/
def given {α : Type} (found : Except Failure α) (scope : Fields) (next : α → Behaviour) :
    Behaviour :=
  match found with
  | .ok a => next a
  | .error failure => fails failure scope

/-- Whatever happens inside, what comes next lies in the given scope. -/
def inside (scope : Fields) (b : Behaviour) : Behaviour := { b with scope := scope }

def logs (enabled : Int → Bool) (entry : Session.Entry) (scope : Fields) : Behaviour :=
  given (entry.event enabled) scope fun found =>
    ⟨found.toList.map fun event => (scope, event), .ok (), scope⟩

def span : Fields := [("duration_seconds", Logged.noTime)]

/-- An operation notes its start, and its end or its failure. -/
def performs (enabled : Int → Bool) (logger : String) (name : Value) (body : Fields → Behaviour)
    (scope : Fields) : Behaviour :=
  (logs enabled (Session.note logger s!"Starting {name.text}" []) scope).andThen fun scope =>
    ((body scope).orElse fun failure scope =>
      (logs enabled (Session.note logger s!"Failed {name.text}" span) scope).andThen
        (fails failure)).andThen
      (logs enabled (Session.note logger s!"Completed {name.text}" span))

theorem andThen_of_ok {b : Behaviour} (h : b.ending = .ok ()) (next : Fields → Behaviour) :
    b.andThen next = b.goesOn (next b.scope) := by
  rw [andThen, h]

theorem andThen_of_error {b : Behaviour} {failure : Failure} (h : b.ending = .error failure)
    (next : Fields → Behaviour) : b.andThen next = b := by
  rw [andThen, h]

theorem orElse_of_ok {b : Behaviour} (h : b.ending = .ok ())
    (handler : Failure → Fields → Behaviour) : b.orElse handler = b := by
  rw [orElse, h]

theorem orElse_of_error {b : Behaviour} {failure : Failure} (h : b.ending = .error failure)
    (handler : Failure → Fields → Behaviour) :
    b.orElse handler = b.goesOn (handler failure b.scope) := by
  rw [orElse, h]

end Behaviour

/-! ## Programs -/

inductive Program where
  | skip
  | log (entry : Session.Entry)
  | set (fields : Value)
  | clear
  | fail (failure : Failure)
  | andThen (first next : Program)
  | rescue (body : Program) (handler : Failure → Program)
  /-- A block of context, which has a name to be told apart by. -/
  | block (name : String) (fields : Value) (body : Program)
  /-- A named operation of a module. -/
  | call (module name : Value) (body : Program)

namespace Program

def run : Program → InSession Unit
  | .skip => pure ()
  | .log entry => Session.log entry
  | .set fields => do discard (setContext (← namedFields fields))
  | .clear => clearContext
  | .fail failure => throw failure
  | .andThen first next => do
    first.run
    next.run
  | .rescue body handler => tryCatch body.run fun failure => (handler failure).run
  | .block name fields body => do
    Session.enter name fields
    try body.run finally Session.leave name
  | .call module name body => Session.call module name body.run

open Behaviour in
/-- What a program does, told by scopes. -/
def behaviour (enabled : Int → Bool) : Program → Fields → Behaviour
  | .skip, scope => still scope
  | .log entry, scope => logs enabled entry scope
  | .set fields, scope => given (namedFields fields) scope fun fields => still (scope ++ fields)
  | .clear, _ => still []
  | .fail failure, scope => fails failure scope
  | .andThen first next, scope => (first.behaviour enabled scope).andThen (next.behaviour enabled)
  | .rescue body handler, scope =>
    (body.behaviour enabled scope).orElse fun failure => (handler failure).behaviour enabled
  | .block _ fields body, scope =>
    given (blockFields fields) scope fun fields =>
      inside scope (body.behaviour enabled (scope ++ fields))
  | .call module name body, scope =>
    given (readLogger module) scope fun logger =>
      inside scope (performs enabled logger name (body.behaviour enabled)
        (scope ++ [("operation", name)]))

/-- Some block of the program has the name. -/
def Uses (name : String) : Program → Prop
  | .andThen first next => first.Uses name ∨ next.Uses name
  | .rescue body handler => body.Uses name ∨ ∃ failure, (handler failure).Uses name
  | .block other _ body => other = name ∨ body.Uses name
  | .call _ _ body => body.Uses name
  | _ => False

/-- No block has the name of one that it lies in. -/
def Apart : Program → Prop
  | .andThen first next => first.Apart ∧ next.Apart
  | .rescue body handler => body.Apart ∧ ∀ failure, (handler failure).Apart
  | .block name _ body => ¬body.Uses name ∧ body.Apart
  | .call _ _ body => body.Apart
  | _ => True

end Program

/-! ## Doing what is told -/

/-- The event is the one told, and the context that it carries is what its scope comes to. -/
def Event.Bears (event : Event) (told : Fields × Event) : Prop :=
  ∃ context, event = told.2.under context ∧ event.property "context" = .record context ∧
    context.Carries told.1

theorem Event.bears_under {context scope : Fields} (h : context.Carries scope) (event : Event) :
    (event.under context).Bears (scope, event) := by
  refine ⟨context, rfl, ?_, h⟩
  rw [Event.property, Event.under, Fields.get, Fields.get?_put, if_pos rfl]
  rfl

/-- From a session, the end is the one told. -/
structure Follows (used : String → Prop) (b : Behaviour) (s : Session)
    (ended : Except Failure Unit × Session) : Prop where
  ending : ended.1 = b.ending
  carries : ended.2.context.Carries b.scope
  /-- Apart from context and blocks, all that is done is to emit the events. -/
  emits : ∃ events, List.Forall₂ Event.Bears events b.logged ∧
    ended.2 = (events.foldl Session.emit s).renew ended.2.context ended.2.blocks
  /-- Blocks by other names stay as they are. -/
  frame : ∀ name, ¬used name → ended.2.blocks.lookup name = s.blocks.lookup name

namespace Follows

variable {used used' : String → Prop} {b c : Behaviour} {s : Session} {scope : Fields}
  {ended : Except Failure Unit × Session}

theorem still (h : s.context.Carries scope) : Follows used (.still scope) s (.ok (), s) :=
  ⟨rfl, h, ⟨[], .nil, rfl⟩, fun _ _ => rfl⟩

theorem fails (h : s.context.Carries scope) (failure : Failure) :
    Follows used (.fails failure scope) s (.error failure, s) :=
  ⟨rfl, h, ⟨[], .nil, rfl⟩, fun _ _ => rfl⟩

theorem emitted {events : List Event} {logged : List (Fields × Event)}
    (h : s.context.Carries scope) (hevents : List.Forall₂ Event.Bears events logged) :
    Follows used ⟨logged, .ok (), scope⟩ s (.ok (), events.foldl Session.emit s) := by
  have hkept : events.foldl Session.emit s
      = (events.foldl Session.emit s).renew s.context s.blocks :=
    Session.foldl_emit_renew events s s.context s.blocks
  rw [hkept]
  exact ⟨rfl, h, ⟨events, hevents, rfl⟩, fun _ _ => rfl⟩

theorem isEnabled (h : Follows used b s ended) : ended.2.isEnabled = s.isEnabled := by
  obtain ⟨events, -, hended⟩ := h.emits
  rw [hended]
  exact Session.isEnabled_foldl_emit events s

theorem mono (h : Follows used b s ended) (hused : ∀ name, used name → used' name) :
    Follows used' b s ended :=
  ⟨h.ending, h.carries, h.emits, fun name hname => h.frame name (mt (hused name) hname)⟩

theorem goesOn {ended' : Except Failure Unit × Session} (h : Follows used b s ended')
    (h' : Follows used c ended'.2 ended) : Follows used (b.goesOn c) s ended := by
  refine ⟨h'.ending, h'.carries, ?_, fun name hname => ?_⟩
  · obtain ⟨events, hevents, hfirst⟩ := h.emits
    obtain ⟨events', hevents', hnext⟩ := h'.emits
    refine ⟨events ++ events', List.rel_append hevents hevents', ?_⟩
    rw [hfirst, Session.foldl_emit_renew, ← List.foldl_append] at hnext
    exact hnext
  · exact (h'.frame name hname).trans (h.frame name hname)

/-- Where the context is given back in the end, what comes next lies in the old scope. -/
theorem inside {context : Fields} {before after : List (String × Block)}
    (h : Follows used b (s.renew context before) ended) (hs : s.context.Carries scope)
    (hframe : ∀ name, ¬used' name → after.lookup name = s.blocks.lookup name) :
    Follows used' (b.inside scope) s (ended.1, ended.2.renew s.context after) := by
  refine ⟨h.ending, hs, ?_, hframe⟩
  obtain ⟨events, hevents, hended⟩ := h.emits
  refine ⟨events, hevents, ?_⟩
  rw [Session.foldl_emit_renew] at hended
  exact congrArg (·.renew s.context after) hended

end Follows

/-- In every session with these levels enabled, a computation does what is told by scopes. -/
def Meets (used : String → Prop) (enabled : Int → Bool) (x : InSession Unit)
    (told : Fields → Behaviour) : Prop :=
  ∀ (s : Session) (scope : Fields), s.isEnabled = enabled → s.context.Carries scope →
    Follows used (told scope) s (s.ends x)

namespace Meets

variable {used used' : String → Prop} {enabled : Int → Bool} {x : InSession Unit}
  {told : Fields → Behaviour} {α : Type}

theorem mono (h : Meets used enabled x told) (hused : ∀ name, used name → used' name) :
    Meets used' enabled x told :=
  fun s scope hs hscope => (h s scope hs hscope).mono hused

theorem still : Meets used enabled (pure ()) .still :=
  fun _ _ _ hscope => .still hscope

theorem fails (failure : Failure) : Meets used enabled (throw failure) (.fails failure) :=
  fun _ _ _ hscope => .fails hscope failure

theorem andThen {f : Unit → InSession Unit} {next : Fields → Behaviour}
    (h : Meets used enabled x told) (hnext : Meets used enabled (f ()) next) :
    Meets used enabled (x >>= f) fun scope => (told scope).andThen next := by
  intro s scope hs hscope
  have hx := h s scope hs hscope
  change Follows used ((told scope).andThen next) s _
  rcases hends : s.ends x with ⟨r, s'⟩
  rw [hends] at hx
  cases r with
  | ok _ =>
    rw [Session.ends_bind_of_ok hends, Behaviour.andThen_of_ok hx.ending.symm]
    exact hx.goesOn (hnext s' _ (hx.isEnabled.trans hs) hx.carries)
  | error failure =>
    rw [Session.ends_bind_of_error hends, Behaviour.andThen_of_error hx.ending.symm]
    exact hx

theorem orElse {f : Failure → InSession Unit} {handler : Failure → Fields → Behaviour}
    (h : Meets used enabled x told)
    (hf : ∀ failure, Meets used enabled (f failure) (handler failure)) :
    Meets used enabled (tryCatch x f) fun scope => (told scope).orElse handler := by
  intro s scope hs hscope
  have hx := h s scope hs hscope
  change Follows used ((told scope).orElse handler) s _
  rcases hends : s.ends x with ⟨r, s'⟩
  rw [hends] at hx
  cases r with
  | ok _ =>
    rw [Session.ends_tryCatch_of_ok hends, Behaviour.orElse_of_ok hx.ending.symm]
    exact hx
  | error failure =>
    rw [Session.ends_tryCatch_of_error hends, Behaviour.orElse_of_error hx.ending.symm]
    exact hx.goesOn (hf failure s' _ (hx.isEnabled.trans hs) hx.carries)

theorem given {found : Except Failure α} {f : α → InSession Unit} {next : α → Fields → Behaviour}
    (h : ∀ a, found = .ok a → Meets used enabled (f a) (next a)) :
    Meets used enabled (liftM found >>= f) fun scope => .given found scope (next · scope) := by
  intro s scope hs hscope
  cases found with
  | ok a => exact h a rfl s scope hs hscope
  | error failure => exact .fails hscope failure

theorem log (entry : Session.Entry) :
    Meets used enabled (Session.log entry) (.logs enabled entry) := by
  rintro s scope rfl hscope
  unfold Behaviour.logs
  cases hfound : entry.event s.isEnabled with
  | error failure =>
    rw [Session.ends_log_of_error hfound]
    exact .fails hscope failure
  | ok found =>
    rw [Session.ends_log_of_ok hfound]
    refine .emitted hscope ?_
    rw [List.forall₂_map_left_iff, List.forall₂_map_right_iff, List.forall₂_same]
    exact fun event _ => Event.bears_under hscope event

theorem set (fields : Fields) :
    Meets used enabled (discard (setContext fields)) fun scope => .still (scope ++ fields) :=
  fun _ _ _ hscope => ⟨rfl, hscope.update fields, ⟨[], .nil, rfl⟩, fun _ _ => rfl⟩

theorem clear : Meets used enabled clearContext fun _ => .still [] :=
  fun _ _ _ _ => ⟨rfl, .nil, ⟨[], .nil, rfl⟩, fun _ _ => rfl⟩

theorem within (fields : Fields) (h : Meets used enabled x told) :
    Meets used enabled (Logged.within fields x) fun scope =>
      .inside scope (told (scope ++ fields)) := by
  intro s scope hs hscope
  have hx := h (s.renew (s.context.update fields) s.blocks) _ hs (hscope.update fields)
  rw [Session.ends_within]
  exact hx.inside hscope hx.frame

theorem block {name : String} (hname : ¬used name) (h : Meets used enabled x told)
    (fields : Value) :
    Meets (fun other => name = other ∨ used other) enabled
      (do Session.enter name fields; tryFinally x (Session.leave name))
      fun scope => .given (blockFields fields) scope fun laid =>
        .inside scope (told (scope ++ laid)) := by
  intro s scope hs hscope
  cases hlaid : blockFields fields with
  | error failure =>
    rw [Session.ends_bind_of_error (Session.ends_enter_of_error name hlaid s)]
    exact .fails hscope failure
  | ok laid =>
    have hx := h (s.entered name laid) _ hs (hscope.update laid)
    rw [Session.ends_block hlaid (hx.frame name hname)]
    refine hx.inside hscope fun other hother => ?_
    obtain ⟨hne, hother⟩ := not_or.mp hother
    have hbefore : (s.entered name laid).blocks.lookup other = s.blocks.lookup other :=
      (Session.lookup_putBlock name other _ s.blocks).trans (if_neg (Ne.symm hne))
    rw [Session.lookup_putBlock, if_neg (Ne.symm hne), hx.frame other hother, hbefore]

theorem debug {logger message : String} {extra : Fields} (hlogger : loggerName logger = logger)
    (hextra : ∀ entry ∈ extra, Session.taken entry.1 = false) :
    Meets used enabled (Logged.debug logger message extra)
      (.logs enabled (Session.note logger message extra)) := by
  intro s scope hs hscope
  rw [Session.ends_debug hlogger hextra]
  exact log _ s scope hs hscope

theorem operation {logger : String} (hlogger : loggerName logger = logger) (name : Value)
    (h : Meets used enabled x told) :
    Meets used enabled (Logged.operation logger name x) fun scope =>
      .inside scope (.performs enabled logger name told (scope ++ [("operation", name)])) := by
  have hstart : ∀ entry ∈ ([] : Fields), Session.taken entry.1 = false := by simp
  have hspan : ∀ entry ∈ Behaviour.span, Session.taken entry.1 = false := by decide
  have hpassed : Meets used enabled (Logged.onFailure x fun _ =>
      Logged.debug logger s!"Failed {name.text}" Behaviour.span) _ :=
    orElse h fun failure => andThen (debug hlogger hspan) (fails failure)
  have hdone : Meets used enabled
      (do Logged.debug logger s!"Completed {name.text}" Behaviour.span; return ())
      (.logs enabled (Session.note logger s!"Completed {name.text}" Behaviour.span)) := by
    rw [bind_pure_unit]
    exact debug hlogger hspan
  exact within _ (andThen (debug hlogger hstart) (andThen hpassed hdone))

end Meets

namespace Program

theorem meets (p : Program) (h : p.Apart) (enabled : Int → Bool) :
    Meets (fun name => p.Uses name) enabled p.run (p.behaviour enabled) := by
  induction p with
  | skip => exact .still
  | log entry => exact .log entry
  | set fields => exact .given fun laid _ => .set laid
  | clear => exact .clear
  | fail failure => exact .fails failure
  | andThen first next ihfirst ihnext =>
    exact .andThen ((ihfirst h.1).mono fun _ => Or.inl) ((ihnext h.2).mono fun _ => Or.inr)
  | rescue body handler ihbody ihhandler =>
    exact .orElse ((ihbody h.1).mono fun _ => Or.inl) fun failure =>
      (ihhandler failure (h.2 failure)).mono fun _ huses => Or.inr ⟨failure, huses⟩
  | block name fields body ih => exact .block h.1 (ih h.2) fields
  | call module name body ih =>
    exact .given fun logger hlogger =>
      .operation (Session.loggerName_of_readLogger hlogger) name (ih h)

/-- A program logs what is told of it, every event under what its scope comes to. Run as the body
of a block or of an operation, it leaves the context as it found it, whether it fails or not. -/
theorem scopes_kept (p : Program) (h : p.Apart) (s : Session) (scope : Fields)
    (hscope : s.context.Carries scope) :
    Follows (p.Uses ·) (p.behaviour s.isEnabled scope) s (s.ends p.run) ∧
      (∀ name fields, ¬p.Uses name → (s.ends (block name fields p).run).2.context = s.context) ∧
      ∀ module name, (s.ends (call module name p).run).2.context = s.context := by
  refine ⟨p.meets h s.isEnabled s scope rfl hscope, fun name fields hname => ?_,
    fun module name => Session.context_call module name p.run s⟩
  refine Session.context_block fun laid => ?_
  have hbody := p.meets h s.isEnabled (s.entered name laid) _ rfl (hscope.update laid)
  exact hbody.frame name hname

/-- A session with some context that writes to the error stream. -/
def listening : Session where
  context := [("user", .str "u"), ("depth", .int 0)]
  level := Level.debug.number
  outputs := [⟨none, true⟩]
  propagates := false
  blocks := []
  files := ⟨"", []⟩
  errors := ""
  env := []

/-- The context is cleared in an operation within a block, and the failure that follows is
rescued outside of the block. -/
def clearing : Program :=
  .rescue
    (.block "inner" (.record [("depth", .int 1)])
      (.call (.str "work") (.str "step")
        (.andThen .clear (.andThen (.set (.record [("depth", .int 2)])) (.fail .outOfRange)))))
    fun _ => .log (Session.note "work" "Rescued" [])

/-- The scopes in which it logs: at the start of the operation, at its failure, and when that is
rescued. -/
def clearingScopes : List Fields :=
  [[("user", .str "u"), ("depth", .int 0), ("depth", .int 1), ("operation", .str "step")],
    [("depth", .int 2)],
    [("user", .str "u"), ("depth", .int 0)]]

/-- The fields that were cleared are back once the failure has left the block. -/
theorem scopes_kept_clearing :
    clearing.Apart ∧
      (listening.ends clearing.run).1 = .ok () ∧
      (∃ events, List.Forall₂ (fun event scope => ∃ context : Fields,
          event.property "context" = .record context ∧ context.Carries scope)
          events clearingScopes ∧
        (listening.ends clearing.run).2.errors
          = (events.foldl Session.emit listening).errors) ∧
      (listening.ends (block "outer" (.record [("depth", .int 7)]) clearing).run).2.context
        = listening.context := by
  have hcarries : listening.context.Carries listening.context :=
    Fields.Carries.nil.update listening.context
  have hapart : clearing.Apart := by
    simp [clearing, Apart, Uses]
  have hscopes : (clearing.behaviour listening.isEnabled listening.context).logged.map Prod.fst
      = clearingScopes := by
    with_unfolding_all rfl
  obtain ⟨hfollows, hblock, -⟩ := scopes_kept clearing hapart listening listening.context hcarries
  obtain ⟨events, hevents, hended⟩ := hfollows.emits
  refine ⟨hapart, hfollows.ending.trans ?_, ⟨events, ?_, ?_⟩, hblock _ _ ?_⟩
  · with_unfolding_all rfl
  · rw [← hscopes, List.forall₂_map_right_iff]
    refine hevents.imp ?_
    rintro event told ⟨context, -, hcontext, hcarries⟩
    exact ⟨context, hcontext, hcarries⟩
  · rw [hended]
    rfl
  · simp [clearing, Uses]

-- A block that stands for two at once has forgotten the outer context when the outer one is left.
example : (listening.ends (block "b" (.record [("a", .int 1)])
    (block "b" (.record []) skip)).run).2.context.keys = ["user", "depth", "a"] := by
  with_unfolding_all rfl

end Program

end CodeGraph
