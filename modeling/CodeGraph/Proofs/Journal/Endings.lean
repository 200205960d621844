import CodeGraph.Journal.Session
import CodeGraph.Proofs.Answers

/-!
# Endings in sessions

A computation in a session ends with an answer or a failure, and with another
session. Here is how the parts of a program end (`Session.ends`): what follows
upon another part, what is tried, blocks of context and what is logged. To emit
an event changes nothing but files and the error stream, so it does not matter
when the context changes. What modules note about their operations is logged as
any entry is.
-/

namespace CodeGraph

namespace Session

variable {s : Session} {α β : Type}

/-! ## What emitting leaves alone -/

def renew (s : Session) (context : Fields) (blocks : List (String × Block)) : Session :=
  { s with context := context, blocks := blocks }

/-- Writing changes files and the error stream, in a way that does not depend on the session. -/
theorem writeTo_eq (event : Event) (output : Output) :
    ∃ (files : Files → Files) (errors : String → String), ∀ s, writeTo event s output
      = { s with files := files s.files, errors := errors s.errors } := by
  unfold writeTo
  cases if output.json then event.json else event.human with
  | error _ => exact ⟨id, id, fun _ => rfl⟩
  | ok line =>
    cases output.file with
    | none => exact ⟨id, (· ++ (line ++ "\n")), fun _ => rfl⟩
    | some spot =>
      cases spot with
      | elsewhere => exact ⟨id, id, fun _ => rfl⟩
      | inside location =>
        dsimp only
        cases Files.encode? (line ++ "\n") with
        | none => exact ⟨id, id, fun _ => rfl⟩
        | some bytes => exact ⟨(·.append location bytes), id, fun _ => rfl⟩

theorem foldl_writeTo_eq (event : Event) (outputs : List Output) :
    ∃ (files : Files → Files) (errors : String → String), ∀ s, outputs.foldl (writeTo event) s
      = { s with files := files s.files, errors := errors s.errors } := by
  induction outputs with
  | nil => exact ⟨id, id, fun _ => rfl⟩
  | cons output rest ih =>
    obtain ⟨files, errors, hfirst⟩ := writeTo_eq event output
    obtain ⟨files', errors', hrest⟩ := ih
    refine ⟨files' ∘ files, errors' ∘ errors, fun s => ?_⟩
    rw [List.foldl_cons, hfirst, hrest]
    rfl

theorem emit_renew (event : Event) (s : Session) (context : Fields)
    (blocks : List (String × Block)) :
    (s.renew context blocks).emit event = (s.emit event).renew context blocks := by
  obtain ⟨files, errors, h⟩ := foldl_writeTo_eq event s.outputs
  exact (h (s.renew context blocks)).trans (congrArg (renew · context blocks) (h s)).symm

theorem isEnabled_emit (event : Event) (s : Session) : (s.emit event).isEnabled = s.isEnabled := by
  obtain ⟨files, errors, h⟩ := foldl_writeTo_eq event s.outputs
  rw [emit, h]
  rfl

theorem foldl_emit_renew (events : List Event) (s : Session) (context : Fields)
    (blocks : List (String × Block)) :
    events.foldl emit (s.renew context blocks) = (events.foldl emit s).renew context blocks := by
  induction events generalizing s with
  | nil => rfl
  | cons event rest ih => rw [List.foldl_cons, emit_renew, ih, List.foldl_cons]

theorem isEnabled_foldl_emit (events : List Event) (s : Session) :
    (events.foldl emit s).isEnabled = s.isEnabled := by
  induction events generalizing s with
  | nil => rfl
  | cons event rest ih => rw [List.foldl_cons, ih, isEnabled_emit]

theorem lookup_putBlock (name other : String) (block : Block) (blocks : List (String × Block)) :
    (putBlock name block blocks).lookup other
      = if other = name then some block else blocks.lookup other := by
  induction blocks with
  | nil => grind [putBlock]
  | cons entry rest ih => grind [putBlock]

/-! ## How computations end -/

section Ends

def ends (s : Session) (x : InSession α) : Except Failure α × Session :=
  x.run.run s

variable {x : InSession α} {f : α → InSession β} {s' : Session} {failure : Failure}

theorem ends_bind_of_ok {a : α} (h : s.ends x = (.ok a, s')) :
    s.ends (x >>= f) = s'.ends (f a) := by
  change StateT.run (ExceptT.run x >>= ExceptT.bindCont f) s = _
  rw [StateT.run_bind, show StateT.run (ExceptT.run x) s = _ from h]
  rfl

theorem ends_bind_of_error (h : s.ends x = (.error failure, s')) :
    s.ends (x >>= f) = (.error failure, s') := by
  change StateT.run (ExceptT.run x >>= ExceptT.bindCont f) s = _
  rw [StateT.run_bind, show StateT.run (ExceptT.run x) s = _ from h]
  rfl

theorem ends_tryCatch_of_ok {handler : Failure → InSession α} {a : α}
    (h : s.ends x = (.ok a, s')) : s.ends (tryCatch x handler) = (.ok a, s') := by
  change StateT.run (ExceptT.run (ExceptT.tryCatch x handler)) s = _
  rw [ExceptT.tryCatch, ExceptT.run_mk, StateT.run_bind,
    show StateT.run x s = _ from h]
  rfl

theorem ends_tryCatch_of_error {handler : Failure → InSession α}
    (h : s.ends x = (.error failure, s')) :
    s.ends (tryCatch x handler) = s'.ends (handler failure) := by
  change StateT.run (ExceptT.run (ExceptT.tryCatch x handler)) s = _
  rw [ExceptT.tryCatch, ExceptT.run_mk, StateT.run_bind,
    show StateT.run x s = _ from h]
  rfl

theorem ends_tryFinally_of_ok {last : InSession Unit} {r : Except Failure α} {s'' : Session}
    (h : s.ends x = (r, s')) (hlast : s'.ends last = (.ok (), s'')) :
    s.ends (tryFinally x last) = (r, s'') := by
  -- In place of either computation may stand what it ends in.
  have hx : s.ends (tryFinally x last) = s.ends (tryFinally (ExceptT.mk fun _ => s.ends x) last) :=
    rfl
  have hy : s.ends (tryFinally (ExceptT.mk fun _ => (r, s')) last)
      = s.ends (tryFinally (ExceptT.mk fun _ => (r, s')) (ExceptT.mk fun _ => s'.ends last)) := by
    cases r <;> rfl
  rw [hx, h, hy, hlast]
  cases r <;> rfl

theorem ends_within (fields : Fields) (x : InSession α) (s : Session) :
    s.ends (Logged.within fields x)
      = (((s.renew (s.context.update fields) s.blocks).ends x).1,
        ((s.renew (s.context.update fields) s.blocks).ends x).2.renew s.context
          ((s.renew (s.context.update fields) s.blocks).ends x).2.blocks) :=
  rfl

def entered (s : Session) (name : String) (laid : Fields) : Session :=
  s.renew (s.context.update laid) (putBlock name ⟨laid, some ⟨s.context⟩⟩ s.blocks)

theorem ends_enter (name : String) {fields : Value} {laid : Fields}
    (h : blockFields fields = .ok laid) (s : Session) :
    s.ends (enter name fields) = (.ok (), s.entered name laid) := by
  unfold enter
  rw [h]
  rfl

theorem ends_enter_of_error (name : String) {fields : Value}
    (h : blockFields fields = .error failure) (s : Session) :
    s.ends (enter name fields) = (.error failure, s) := by
  unfold enter
  rw [h]
  rfl

theorem ends_get_bind {f : Session → InSession α} : s.ends (get >>= f) = s.ends (f s) :=
  rfl

theorem ends_leave {name : String} {laid outer : Fields}
    (h : s.blocks.lookup name = some ⟨laid, some ⟨outer⟩⟩) :
    s.ends (leave name) = (.ok (), s.renew outer (putBlock name ⟨laid, none⟩ s.blocks)) := by
  rw [leave, ends_get_bind, h]
  rfl

/-- A block that stays as it is in the meantime gives the context back. -/
theorem ends_block {name : String} {fields : Value} {laid : Fields}
    (h : blockFields fields = .ok laid)
    (hkept : ((s.entered name laid).ends x).2.blocks.lookup name
      = (s.entered name laid).blocks.lookup name) :
    s.ends (do enter name fields; tryFinally x (leave name))
      = (((s.entered name laid).ends x).1, ((s.entered name laid).ends x).2.renew s.context
          (putBlock name ⟨laid, none⟩ ((s.entered name laid).ends x).2.blocks)) := by
  have htoken : (s.entered name laid).blocks.lookup name = some ⟨laid, some ⟨s.context⟩⟩ :=
    (lookup_putBlock name name _ s.blocks).trans (if_pos rfl)
  rw [ends_bind_of_ok (ends_enter name h s)]
  exact ends_tryFinally_of_ok rfl (ends_leave (hkept.trans htoken))

/-- However a block ends, the context is what it was before, unless the block was used meanwhile. -/
theorem context_block {name : String} {fields : Value}
    (hkept : ∀ laid, ((s.entered name laid).ends x).2.blocks.lookup name
      = (s.entered name laid).blocks.lookup name) :
    (s.ends (do enter name fields; tryFinally x (leave name))).2.context = s.context := by
  cases h : blockFields fields with
  | error failure => rw [ends_bind_of_error (ends_enter_of_error name h s)]
  | ok laid =>
    rw [ends_block h (hkept laid)]
    rfl

theorem context_call (module name : Value) (x : InSession α) (s : Session) :
    (s.ends (call module name x)).2.context = s.context := by
  unfold call
  cases readLogger module with
  | error failure => rfl
  | ok logger =>
    have hread : s.ends (liftM (Except.ok logger : Except Failure String)) = (.ok logger, s) := rfl
    rw [ends_bind_of_ok hread, Logged.operation, ends_within]
    rfl

theorem ends_log_of_error {e : Entry} (h : e.event s.isEnabled = .error failure) :
    s.ends (log e) = (.error failure, s) := by
  rw [log, ends_get_bind, h]
  rfl

theorem ends_log_of_ok {e : Entry} {found : Option Event} (h : e.event s.isEnabled = .ok found) :
    s.ends (log e) = (.ok (), (found.toList.map (·.under s.context)).foldl emit s) := by
  rw [log, ends_get_bind, h]
  cases found <;> rfl

end Ends

/-! ## Notes -/

/-- What a module notes about its operations. -/
def note (logger message : String) (extra : Fields) : Entry :=
  ⟨.str logger, .int Level.debug.number, .str message, [], .record extra, none⟩

theorem loggerName_loggerName (name : String) : loggerName (loggerName name) = loggerName name := by
  by_cases h : name == rootLogger || (rootLogger ++ ".").toList.isPrefixOf name.toList
  · have hsame : loggerName name = name := if_pos h
    rw [hsame, hsame]
  · have hunder : loggerName name = rootLogger ++ "." ++ name := if_neg h
    have hbelow : (rootLogger ++ ".").toList.isPrefixOf (loggerName name).toList := by
      have hsplit : (rootLogger ++ "." ++ name).toList
          = (rootLogger ++ ".").toList ++ name.toList :=
        String.toList_append
      rw [hunder, List.isPrefixOf_iff_prefix, hsplit]
      exact List.prefix_append _ _
    exact if_pos (Bool.or_eq_true_iff.mpr (Or.inr hbelow))

theorem loggerName_of_readLogger {v : Value} {logger : String} (h : readLogger v = .ok logger) :
    loggerName logger = logger := by
  cases v with
  | str name =>
    obtain rfl : loggerName name = logger := Except.ok.inj h
    exact loggerName_loggerName name
  | _ => cases h

theorem readFields_record {fields : Fields} (h : ∀ entry ∈ fields, taken entry.1 = false) :
    readFields (.record fields) = .ok (some fields) := by
  have hnames : fields.forM (fun entry => checkName entry.1) = .ok () :=
    Gives.forM fun entry hentry => if_neg (Bool.eq_false_iff.mp (h entry hentry))
  change (do fields.forM fun entry => checkName entry.1; return some fields) = _
  rw [hnames]
  rfl

/-- Neither its level nor the time stands in the way of a note. -/
theorem exists_basic (logger message : String) :
    ∃ basic, Event.basic (.str logger) (.int Level.debug.number) (.str message) clock
      = .ok basic := by
  have hknown : ∀ {x : Except Failure Value}, x.toOption.isSome → ∃ v, x = .ok v := fun h =>
    (Option.isSome_iff_exists.mp h).imp fun _ => eq_ok_of_toOption
  obtain ⟨level, hlevel⟩ := hknown (x := levelShown (.int Level.debug.number)) (by decide +kernel)
  obtain ⟨millis, hmillis⟩ := hknown (x := Clock.thousandths clock) (by decide +kernel)
  unfold Event.basic
  rw [hlevel, hmillis]
  exact ⟨_, rfl⟩

theorem ends_debug {logger message : String} {extra : Fields} (hlogger : loggerName logger = logger)
    (hextra : ∀ entry ∈ extra, taken entry.1 = false) (s : Session) :
    s.ends (Logged.debug logger message extra) = s.ends (log (note logger message extra)) := by
  obtain ⟨basic, hbasic⟩ := exists_basic logger message
  have hreads : readLogger (.str logger) = .ok logger := congrArg Except.ok hlogger
  have hevent : (note logger message extra).event s.isEnabled
      = .ok (if s.isEnabled Level.debug.number then some ⟨basic.update extra, [], none⟩
          else none) := by
    unfold Entry.event
    change (readLogger (.str logger) >>= _) = _
    rw [hreads]
    change (if !s.isEnabled Level.debug.number then _ else _) = _
    cases s.isEnabled Level.debug.number with
    | false => rfl
    | true =>
      change (readFields (.record extra) >>= _) = _
      rw [readFields_record hextra]
      change (Event.basic (.str logger) (.int Level.debug.number) (.str message) clock >>= _) = _
      rw [hbasic]
      rfl
  have hrecord : Record.event clock ⟨Level.debug.number, logger, message, s.context, extra, none⟩
      = .ok (.under s.context ⟨basic.update extra, [], none⟩) := by
    unfold Record.event
    rw [hbasic]
    rfl
  have hdebug : s.ends (Logged.debug logger message extra) = (.ok (), s.emitRecord
      ⟨Level.debug.number, logger, message, s.context, extra, none⟩) :=
    rfl
  rw [ends_log_of_ok hevent, hdebug, emitRecord, hrecord]
  dsimp only
  cases s.isEnabled Level.debug.number <;> rfl

end Session

end CodeGraph
