import CodeGraph.Smell.Detection
import CodeGraph.Proofs.Answers

/-!
# Sharing metrics changes no answer

A computation that shares metrics starts from what has been computed before it.
As long as that is right, it ends as it would if every metric were computed
where it is needed, and what it keeps is right again (`Detecting.ComesTo`). So
the end of such a computation is given without any metrics at hand, by going
through its text: `remembered` ends as what it would compute.
-/

namespace CodeGraph

variable {α β : Type}

/-! ## Metrics that are right -/

/-- What the metrics of a graph come to. The rank and the communities depend on settings under which
there may be none. -/
structure Measures where
  degree : Scores Float
  rawDegree : Scores Float
  betweennessRaw : Scores Float
  pagerank : Except Failure (Scores Float)
  communities : Except Failure (List CodeCommunity)

/-- The computations of the metrics come to `M`. -/
structure Measures.Of (M : Measures) (g : Graph) (s : MetricSettings) : Prop where
  degree : (g.degree (.str "total") true).ComesTo (.ok M.degree)
  rawDegree : (g.degree (.str "total") false).ComesTo (.ok M.rawDegree)
  betweennessRaw : (g.betweenness s.workers).ComesTo (.ok M.betweennessRaw)
  pagerank : ∃ settings, PageRank.Settings.read s.pagerank = .ok settings ∧
    (g.pagerank settings).ComesTo M.pagerank
  communities : (g.communities s.algorithm s.rounds).ComesTo M.communities

/-- What is kept is what the computations come to. -/
structure Metrics.Right (m : Metrics) (M : Measures) : Prop where
  degree : ∀ x, m.degree = some x → M.degree = x
  rawDegree : ∀ x, m.rawDegree = some x → M.rawDegree = x
  betweennessRaw : ∀ x, m.betweennessRaw = some x → M.betweennessRaw = x
  betweenness : ∀ x, m.betweenness = some x → M.betweennessRaw.normalizeBetweenness = x
  pagerank : ∀ x, m.pagerank = some x → M.pagerank = .ok x
  communities : ∀ x, m.communities = some x → M.communities = .ok x

theorem Metrics.right_empty (M : Measures) : Metrics.Right {} M := by
  constructor <;> exact fun x hx => nomatch hx

/-! ## Computations over right metrics -/

/-- From right metrics on, the computation ends with `r` and leaves right metrics. -/
def Detecting.ComesTo (M : Measures) (x : Detecting α) (r : Except Failure α) : Prop :=
  ∀ metrics journal, Metrics.Right metrics M → ∃ metrics' journal',
    (x.run.run metrics).run journal = ((r, metrics'), journal') ∧ Metrics.Right metrics' M

theorem Detecting.ComesTo.alone {M : Measures} {x : Detecting α} {r : Except Failure α}
    (h : Detecting.ComesTo M x r) : (Detecting.alone x).ComesTo r := by
  intro journal
  obtain ⟨metrics', journal', hrun, -⟩ := h {} journal (Metrics.right_empty M)
  exact congrArg (fun run => run.1.1) hrun

namespace Detecting.ComesTo

variable {M : Measures} {x : Detecting α} {r : Except Failure α}

theorem ok (a : α) : Detecting.ComesTo M (pure a) (.ok a) :=
  fun metrics journal h => ⟨metrics, journal, rfl, h⟩

theorem lift {x : Logged α} (h : x.ComesTo r) : Detecting.ComesTo M (liftM x) r := by
  intro metrics journal hright
  refine ⟨metrics, (x.run.run journal).2, ?_, hright⟩
  rw [← h journal]
  rfl

theorem except (x : Except Failure α) : Detecting.ComesTo M (liftM x) x := by
  intro metrics journal hright
  refine ⟨metrics, journal, ?_, hright⟩
  cases x <;> rfl

theorem bind {f : α → Detecting β} {k : α → Except Failure β} (h : Detecting.ComesTo M x r)
    (hf : ∀ a, r = .ok a → Detecting.ComesTo M (f a) (k a)) :
    Detecting.ComesTo M (x >>= f) (r >>= k) := by
  intro metrics journal hright
  obtain ⟨metrics', journal', hrun, hright'⟩ := h metrics journal hright
  cases r with
  | error failure =>
    refine ⟨metrics', journal', ?_, hright'⟩
    rw [ExceptT.run_bind, StateT.run_bind, StateT.run_bind, hrun]
    rfl
  | ok a =>
    obtain ⟨metrics'', journal'', hrun', hright''⟩ := hf a rfl metrics' journal' hright'
    refine ⟨metrics'', journal'', ?_, hright''⟩
    rw [ExceptT.run_bind, StateT.run_bind, StateT.run_bind, hrun]
    exact hrun'

theorem andThen {f : α → Detecting β} {a : α} {r : Except Failure β}
    (h : Detecting.ComesTo M x (.ok a)) (hf : Detecting.ComesTo M (f a) r) :
    Detecting.ComesTo M (x >>= f) r := by
  have hbind : Detecting.ComesTo M (x >>= f) ((Except.ok a : Except Failure α) >>= fun _ => r) :=
    h.bind fun a' ha' => by
      obtain rfl := Except.ok.inj ha'
      exact hf
  exact hbind

/-- What comes after passes the answer on. -/
theorem passedOn {f : α → Detecting α} (h : Detecting.ComesTo M x r)
    (hf : ∀ a, r = .ok a → Detecting.ComesTo M (f a) (.ok a)) :
    Detecting.ComesTo M (x >>= f) r := by
  have hbind := h.bind hf
  rw [show (r >>= .ok) = r from bind_pure r] at hbind
  exact hbind

theorem write (level : Level) (logger message : String) (extra : Fields)
    (failure : Option String) :
    Detecting.ComesTo M (Logged.write level logger message extra failure) (.ok ()) :=
  fun metrics _ h => ⟨metrics, _, rfl, h⟩

/-- A record written on the way leaves no trace in the end. -/
theorem written {level : Level} {logger message : String} {extra : Fields}
    {failure : Option String} {r : Except Failure β} {y : Unit → Detecting β}
    (h : Detecting.ComesTo M (y ()) r) :
    Detecting.ComesTo M (Logged.write level logger message extra failure >>= y) r :=
  (write level logger message extra failure).andThen h

theorem within (fields : Fields) (h : Detecting.ComesTo M x r) :
    Detecting.ComesTo M (Logged.within fields x) r := by
  intro metrics journal hright
  obtain ⟨metrics', journal', hrun, hright'⟩ := h metrics
    { journal with context := journal.context.update fields } hright
  refine ⟨metrics', { journal' with context := journal.context }, ?_, hright'⟩
  exact congrArg (fun run : (Except Failure α × Metrics) × Journal =>
    ((run.1.1, run.1.2), { run.2 with context := journal.context })) hrun

theorem onFailure {handler : Failure → Detecting Unit} (h : Detecting.ComesTo M x r)
    (hhandler : ∀ failure, Detecting.ComesTo M (handler failure) (.ok ())) :
    Detecting.ComesTo M (Logged.onFailure x handler) r := by
  intro metrics journal hright
  obtain ⟨metrics', journal', hrun, hright'⟩ := h metrics journal hright
  cases r with
  | ok a =>
    refine ⟨metrics', journal', ?_, hright'⟩
    change StateT.run ((ExceptT.tryCatch x _).run.run metrics) journal = _
    rw [ExceptT.tryCatch, ExceptT.run_mk, StateT.run_bind, StateT.run_bind]
    rw [show StateT.run (StateT.run x metrics) journal = _ from hrun]
    rfl
  | error failure =>
    -- The failure is thrown again after the handler.
    have hthrow : Detecting.ComesTo M (throw failure : Detecting α) (.error failure) :=
      fun metrics journal h => ⟨metrics, journal, rfl, h⟩
    obtain ⟨metrics'', journal'', hrun', hright''⟩ :=
      (hhandler failure).andThen (f := fun _ => throw failure) hthrow metrics' journal' hright'
    refine ⟨metrics'', journal'', ?_, hright''⟩
    change StateT.run ((ExceptT.tryCatch x _).run.run metrics) journal = _
    rw [ExceptT.tryCatch, ExceptT.run_mk, StateT.run_bind, StateT.run_bind]
    rw [show StateT.run (StateT.run x metrics) journal = _ from hrun]
    exact hrun'

theorem operation (logger : String) (name : Value) (h : Detecting.ComesTo M x r) :
    Detecting.ComesTo M (Logged.operation logger name x) r := by
  refine within _ (written ?_)
  exact passedOn (onFailure h fun _ => write _ _ _ _ _) fun a _ => written (ok a)

theorem mapM {f : β → Detecting α} {k : β → Except Failure α} {xs : List β}
    (h : ∀ x ∈ xs, Detecting.ComesTo M (f x) (k x)) :
    Detecting.ComesTo M (xs.mapM f) (xs.mapM k) := by
  induction xs with
  | nil => exact ok []
  | cons x rest ih =>
    rw [List.mapM_cons, List.mapM_cons]
    refine (h x (List.mem_cons_self ..)).bind fun a _ => ?_
    refine (ih fun y hy => h y (List.mem_cons_of_mem _ hy)).bind fun as _ => ?_
    exact ok (a :: as)

theorem filterMapM {f : β → Detecting (Option α)} {k : β → Except Failure (Option α)}
    {xs : List β} (h : ∀ x ∈ xs, Detecting.ComesTo M (f x) (k x)) :
    Detecting.ComesTo M (xs.filterMapM f) (xs.filterMapM k) := by
  induction xs with
  | nil => exact ok []
  | cons x rest ih =>
    have hrest := ih fun y hy => h y (List.mem_cons_of_mem _ hy)
    rw [List.filterMapM_cons, List.filterMapM_cons]
    refine (h x (List.mem_cons_self ..)).bind fun found _ => ?_
    cases found with
    | none => exact hrest
    | some a => exact hrest.bind fun as _ => ok (a :: as)

/-! ## The metrics -/

theorem remembered {kept : Metrics → Option α} {keep : α → Metrics → Metrics}
    (hkept : ∀ metrics a, Metrics.Right metrics M → kept metrics = some a → r = .ok a)
    (hkeep : ∀ metrics a, Metrics.Right metrics M → r = .ok a → Metrics.Right (keep a metrics) M)
    (h : Detecting.ComesTo M x r) :
    Detecting.ComesTo M (CodeGraph.remembered kept keep x) r := by
  intro metrics journal hright
  change ∃ metrics' journal', StateT.run ((keptOr keep x (kept metrics)).run.run metrics) journal
    = ((r, metrics'), journal') ∧ Metrics.Right metrics' M
  cases hmetrics : kept metrics with
  | some a =>
    rw [hkept metrics a hright hmetrics]
    exact ok a metrics journal hright
  | none =>
    have hcompute : Detecting.ComesTo M (keptOr keep x none) r :=
      h.passedOn fun a ha metrics journal hright =>
        ⟨keep a metrics, journal, rfl, hkeep metrics a hright ha⟩
    exact hcompute metrics journal hright

theorem getCommunities {g : Graph} {s : MetricSettings}
    (h : (g.communities s.algorithm s.rounds).ComesTo M.communities) :
    Detecting.ComesTo M (Metrics.getCommunities g s) M.communities :=
  .remembered (fun _ a hm ha => hm.communities a ha)
    (fun _ _ hm ha => { hm with communities := fun _ hx => Option.some.inj hx ▸ ha })
    (.lift h)

end Detecting.ComesTo

namespace Measures.Of

variable {M : Measures} {g : Graph} {s : MetricSettings}

theorem getDegree (h : M.Of g s) : Detecting.ComesTo M (Metrics.getDegree g) (.ok M.degree) :=
  .remembered (fun _ a hm ha => congrArg Except.ok (hm.degree a ha))
    (fun _ _ hm ha => { hm with
      degree := fun _ hx => (Except.ok.inj ha).trans (Option.some.inj hx) })
    (.lift h.degree)

theorem getRawDegree (h : M.Of g s) :
    Detecting.ComesTo M (Metrics.getRawDegree g) (.ok M.rawDegree) :=
  .remembered (fun _ a hm ha => congrArg Except.ok (hm.rawDegree a ha))
    (fun _ _ hm ha => { hm with
      rawDegree := fun _ hx => (Except.ok.inj ha).trans (Option.some.inj hx) })
    (.lift h.rawDegree)

theorem getBetweennessRaw (h : M.Of g s) :
    Detecting.ComesTo M (Metrics.getBetweennessRaw g s) (.ok M.betweennessRaw) :=
  .remembered (fun _ a hm ha => congrArg Except.ok (hm.betweennessRaw a ha))
    (fun _ _ hm ha => { hm with
      betweennessRaw := fun _ hx => (Except.ok.inj ha).trans (Option.some.inj hx) })
    (.lift h.betweennessRaw)

theorem getBetweenness (h : M.Of g s) :
    Detecting.ComesTo M (Metrics.getBetweenness g s)
      (.ok M.betweennessRaw.normalizeBetweenness) :=
  .remembered (fun _ a hm ha => congrArg Except.ok (hm.betweenness a ha))
    (fun _ _ hm ha => { hm with
      betweenness := fun _ hx => (Except.ok.inj ha).trans (Option.some.inj hx) })
    (h.getBetweennessRaw.andThen (.ok _))

theorem getPagerank (h : M.Of g s) :
    Detecting.ComesTo M (Metrics.getPagerank g s) M.pagerank := by
  obtain ⟨settings, hsettings, hrank⟩ := h.pagerank
  have hcompute : Logged.ComesTo
      (do g.pagerank (← PageRank.Settings.read s.pagerank)) M.pagerank := by
    rw [hsettings]
    exact hrank
  exact .remembered (fun _ a hm ha => hm.pagerank a ha)
    (fun _ _ hm ha => { hm with pagerank := fun _ hx => Option.some.inj hx ▸ ha })
    (.lift hcompute)

theorem getCommunities (h : M.Of g s) :
    Detecting.ComesTo M (Metrics.getCommunities g s) M.communities :=
  .getCommunities h.communities

end Measures.Of

end CodeGraph
