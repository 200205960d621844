import Mathlib.Data.List.Forall2
import CodeGraph.Proofs.Snapshot

/-!
# Computations that answer

Many functions can fail, and a statement about their results has to say first
that there is one. `Gives x P` is that statement: `x` does not fail, and what it
answers satisfies `P`. `Logged.Gives` is the same for computations that write to
the journal, whatever has been written before.

The lemmas follow the way computations are put together, so that a function is
shown to answer by going through its text.
-/

namespace CodeGraph

variable {α β : Type}

theorem exists_mem_of_forall₂ {R : α → β → Prop} {xs : List α} {ys : List β}
    (h : List.Forall₂ R xs ys) : ∀ x ∈ xs, ∃ y ∈ ys, R x y := by
  induction h with
  | nil => exact fun x hx => absurd hx List.not_mem_nil
  | cons hfirst _ ih =>
    refine List.forall_mem_cons.mpr ⟨⟨_, List.mem_cons_self .., hfirst⟩, fun x hx => ?_⟩
    obtain ⟨y, hy, hxy⟩ := ih x hx
    exact ⟨y, List.mem_cons_of_mem _ hy, hxy⟩

/-- Answers can be told apart by evaluation where failures cannot. -/
theorem eq_ok_of_toOption {x : Except Failure α} {a : α} (h : x.toOption = some a) : x = .ok a := by
  cases x with
  | ok a' => exact congrArg Except.ok (Option.some.inj h)
  | error failure => cases h

/-- The computation does not fail, and its answer is as stated. -/
def Gives (x : Except Failure α) (P : α → Prop) : Prop :=
  ∃ a, x = .ok a ∧ P a

namespace Gives

variable {x : Except Failure α} {P : α → Prop}

theorem of_ok {a : α} (h : P a) : Gives (.ok a) P :=
  ⟨a, rfl, h⟩

theorem imp {Q : α → Prop} (h : Gives x P) (hPQ : ∀ a, P a → Q a) : Gives x Q := by
  obtain ⟨a, ha, hP⟩ := h
  exact ⟨a, ha, hPQ a hP⟩

theorem bind {f : α → Except Failure β} {Q : β → Prop} (h : Gives x P)
    (hf : ∀ a, P a → Gives (f a) Q) : Gives (x >>= f) Q := by
  obtain ⟨a, rfl, hP⟩ := h
  exact hf a hP

/-- Every item gives its answer, and the answers stand in the order of the items. -/
theorem mapM {xs : List α} {f : α → Except Failure β} {Q : α → β → Prop}
    (h : ∀ x ∈ xs, Gives (f x) (Q x)) : Gives (xs.mapM f) (List.Forall₂ Q xs) := by
  induction xs with
  | nil => exact of_ok .nil
  | cons x rest ih =>
      rw [List.mapM_cons]
      refine (h x (List.mem_cons_self ..)).bind fun y hy => ?_
      refine (ih fun z hz => h z (List.mem_cons_of_mem _ hz)).bind fun ys hys => ?_
      exact of_ok (.cons hy hys)

theorem mapM_eq_ok {xs : List α} {f : α → Except Failure β} {f' : α → β}
    (h : ∀ x ∈ xs, f x = .ok (f' x)) : xs.mapM f = .ok (xs.map f') := by
  induction xs with
  | nil => rfl
  | cons x rest ih =>
      rw [List.mapM_cons, h x (List.mem_cons_self ..),
        ih fun y hy => h y (List.mem_cons_of_mem _ hy)]
      rfl

theorem of_mapM {xs : List α} {f : α → Except Failure β} {ys : List β} (h : xs.mapM f = .ok ys) :
    ∀ x ∈ xs, ∃ y, f x = .ok y := by
  induction xs generalizing ys with
  | nil => exact fun x hx => absurd hx List.not_mem_nil
  | cons first rest ih =>
      rw [List.mapM_cons] at h
      obtain ⟨y, hy, h⟩ := bind_eq_ok.mp h
      obtain ⟨ys', hys, -⟩ := bind_eq_ok.mp h
      intro x hx
      rcases List.mem_cons.mp hx with rfl | hx
      · exact ⟨y, hy⟩
      · exact ih hys x hx

theorem forall₂_of_mapM {xs : List α} {f : α → Except Failure β} {ys : List β}
    (h : xs.mapM f = .ok ys) : List.Forall₂ (fun x y => f x = .ok y) xs ys := by
  induction xs generalizing ys with
  | nil =>
      obtain rfl := Except.ok.inj h
      exact .nil
  | cons first rest ih =>
      rw [List.mapM_cons] at h
      obtain ⟨y, hy, h⟩ := bind_eq_ok.mp h
      obtain ⟨ys', hys, h⟩ := bind_eq_ok.mp h
      obtain rfl := Except.ok.inj h
      exact .cons hy (ih hys)

theorem forall_of_mapM {xs : List α} {f : α → Except Failure β} {ys : List β} {Q : β → Prop}
    (h : xs.mapM f = .ok ys) (hf : ∀ x y, f x = .ok y → Q y) : ∀ y ∈ ys, Q y := by
  induction xs generalizing ys with
  | nil =>
      obtain rfl := Except.ok.inj h
      exact fun y hy => absurd hy List.not_mem_nil
  | cons first rest ih =>
      rw [List.mapM_cons] at h
      obtain ⟨y', hy', h⟩ := bind_eq_ok.mp h
      obtain ⟨ys', hys, h⟩ := bind_eq_ok.mp h
      obtain rfl := Except.ok.inj h
      intro y hy
      rcases List.mem_cons.mp hy with rfl | hy
      · exact hf first y hy'
      · exact ih hys y hy

theorem map_of_mapM {γ : Type} {xs : List α} {f : α → Except Failure β} {ys : List β} {k : β → γ}
    {k' : α → γ} (h : xs.mapM f = .ok ys) (hf : ∀ x y, f x = .ok y → k y = k' x) :
    ys.map k = xs.map k' := by
  induction xs generalizing ys with
  | nil =>
      obtain rfl := Except.ok.inj h
      rfl
  | cons first rest ih =>
      rw [List.mapM_cons] at h
      obtain ⟨y, hy, h⟩ := bind_eq_ok.mp h
      obtain ⟨ys', hys, h⟩ := bind_eq_ok.mp h
      obtain rfl := Except.ok.inj h
      rw [List.map_cons, List.map_cons, hf first y hy, ih hys]

theorem filterM_eq_ok {xs : List α} {f : α → Except Failure Bool} {f' : α → Bool}
    (h : ∀ x ∈ xs, f x = .ok (f' x)) : xs.filterM f = .ok (xs.filter f') := by
  suffices ∀ seen : List α, List.filterAuxM f xs seen = .ok ((xs.filter f').reverse ++ seen) by
    rw [List.filterM, this [], List.append_nil]
    exact congrArg Except.ok (List.reverse_reverse _)
  induction xs with
  | nil => exact fun seen => rfl
  | cons x rest ih =>
    intro seen
    rw [List.filterAuxM, h x (List.mem_cons_self ..)]
    change List.filterAuxM f rest (cond (f' x) (x :: seen) seen) = _
    rw [ih fun y hy => h y (List.mem_cons_of_mem _ hy), List.filter_cons]
    cases f' x <;> simp

theorem filterMapM_eq_ok {xs : List α} {f : α → Except Failure (Option β)} {f' : α → Option β}
    (h : ∀ x ∈ xs, f x = .ok (f' x)) : xs.filterMapM f = .ok (xs.filterMap f') := by
  induction xs with
  | nil => rfl
  | cons x rest ih =>
      rw [List.filterMapM_cons, h x (List.mem_cons_self ..),
        ih fun y hy => h y (List.mem_cons_of_mem _ hy), List.filterMap_cons]
      cases f' x <;> rfl

theorem of_forM {xs : List α} {f : α → Except Failure Unit} (h : xs.forM f = .ok ()) :
    ∀ x ∈ xs, f x = .ok () := by
  induction xs with
  | nil => exact fun x hx => absurd hx List.not_mem_nil
  | cons first rest ih =>
      rw [List.forM] at h
      obtain ⟨_, hfirst, hrest⟩ := bind_eq_ok.mp h
      exact List.forall_mem_cons.mpr ⟨hfirst, ih hrest⟩

theorem forM {xs : List α} {f : α → Except Failure Unit} (h : ∀ x ∈ xs, f x = .ok ()) :
    xs.forM f = .ok () := by
  induction xs with
  | nil => rfl
  | cons x rest ih =>
      rw [List.forM, h x (List.mem_cons_self ..)]
      exact ih fun y hy => h y (List.mem_cons_of_mem _ hy)

/-- What every step preserves holds in the end. -/
theorem foldlM {xs : List α} {f : β → α → Except Failure β} {I : β → Prop} {b : β} (hb : I b)
    (h : ∀ b, ∀ x ∈ xs, I b → Gives (f b x) I) : Gives (xs.foldlM f b) I := by
  induction xs generalizing b with
  | nil => exact of_ok hb
  | cons x rest ih =>
      rw [List.foldlM_cons]
      refine (h b x (List.mem_cons_self ..) hb).bind fun b' hb' => ?_
      exact ih hb' fun b y hy => h b y (List.mem_cons_of_mem _ hy)

theorem of_foldlM {xs : List α} {f : β → α → Except Failure β} {b c : β}
    (h : xs.foldlM f b = .ok c) : ∀ x ∈ xs, ∃ before after, f before x = .ok after := by
  induction xs generalizing b with
  | nil => exact fun x hx => absurd hx List.not_mem_nil
  | cons x rest ih =>
      rw [List.foldlM_cons] at h
      obtain ⟨next, hnext, hrest⟩ := bind_eq_ok.mp h
      exact List.forall_mem_cons.mpr ⟨⟨b, next, hnext⟩, ih hrest⟩

end Gives

theorem Value.texts_map_str (texts : List String) : Value.texts (texts.map .str) = .ok texts := by
  rw [Value.texts, List.zipIdx_map, List.mapM_map]
  have hall := congrArg (Except.ok (ε := Failure)) (List.zipIdx_map_fst 0 texts)
  exact (Gives.mapM_eq_ok fun entry _ => rfl).trans hall

/-! ## With a journal -/

theorem Logged.lift_error_bind (failure : Failure) (f : α → Logged β) :
    (liftM (Except.error failure : Except Failure α) : Logged α) >>= f
      = liftM (Except.error failure : Except Failure β) := rfl

theorem Logged.mapM_lift (xs : List α) (f : α → Except Failure β) :
    (xs.mapM fun x => (liftM (f x) : Logged β)) = liftM (xs.mapM f) := by
  induction xs with
  | nil => rfl
  | cons x rest ih =>
      rw [List.mapM_cons, List.mapM_cons, ih]
      cases f x with
      | error failure => rfl
      | ok y => cases rest.mapM f <;> rfl

theorem Logged.forM_lift (xs : List α) (f : α → Except Failure Unit) :
    (xs.forM fun x => (liftM (f x) : Logged Unit)) = liftM (xs.forM f) := by
  induction xs with
  | nil => rfl
  | cons x rest ih =>
      rw [List.forM, List.forM, ih]
      cases f x <;> rfl

theorem Logged.outcome_bind_of_ok {x : Logged α} {f : α → Logged β} {a : α} {journal : Journal}
    (h : x.outcome journal = .ok a) :
    ∃ journal', (x >>= f).outcome journal = (f a).outcome journal' := by
  refine ⟨(x.run.run journal).2, ?_⟩
  have hrun : x.run.run journal = (.ok a, (x.run.run journal).2) := Prod.ext h rfl
  unfold Logged.outcome
  rw [ExceptT.run_bind, StateT.run_bind, hrun]
  rfl

/-- Two computations in a row answer as the second does, after an answer of the first. -/
theorem Logged.exists_of_bind_eq_ok {x : Logged α} {f : α → Logged β} {b : β} {journal : Journal}
    (h : (x >>= f).outcome journal = .ok b) :
    ∃ a journal', x.outcome journal = .ok a ∧ (f a).outcome journal' = .ok b := by
  cases hx : x.outcome journal with
  | ok a =>
      obtain ⟨journal', hbind⟩ := outcome_bind_of_ok (f := f) hx
      exact ⟨a, journal', rfl, hbind ▸ h⟩
  | error failure =>
      have hrun : x.run.run journal = (.error failure, (x.run.run journal).2) := Prod.ext hx rfl
      unfold Logged.outcome at h
      rw [ExceptT.run_bind, StateT.run_bind, hrun] at h
      cases h

theorem Logged.exists_of_lift_bind_eq_ok {x : Except Failure α} {f : α → Logged β} {b : β}
    {journal : Journal} (h : (liftM x >>= f).outcome journal = .ok b) :
    ∃ a, x = .ok a ∧ (f a).outcome journal = .ok b := by
  cases x with
  | ok a => exact ⟨a, rfl, h⟩
  | error failure => cases h

/-- Whatever stands in the journal, the computation answers, and its answer is as stated. -/
def Logged.Gives (x : Logged α) (P : α → Prop) : Prop :=
  ∀ journal, ∃ a journal', x.run.run journal = (.ok a, journal') ∧ P a

namespace Logged.Gives

variable {x : Logged α} {P : α → Prop}

theorem outcome (h : Logged.Gives x P) (journal : Journal) :
    CodeGraph.Gives (x.outcome journal) P := by
  obtain ⟨a, _, hrun, hP⟩ := h journal
  exact ⟨a, congrArg Prod.fst hrun, hP⟩

theorem of_outcome (h : ∀ journal, CodeGraph.Gives (x.outcome journal) P) : Logged.Gives x P := by
  intro journal
  obtain ⟨a, ha, hP⟩ := h journal
  exact ⟨a, (x.run.run journal).2, Prod.ext ha rfl, hP⟩

theorem of_pure {a : α} (h : P a) : Logged.Gives (pure a) P :=
  fun journal => ⟨a, journal, rfl, h⟩

theorem lift {x : Except Failure α} (h : CodeGraph.Gives x P) :
    Logged.Gives (liftM x : Logged α) P := by
  obtain ⟨a, rfl, hP⟩ := h
  exact of_pure hP

theorem bind {f : α → Logged β} {Q : β → Prop} (h : Logged.Gives x P)
    (hf : ∀ a, P a → Logged.Gives (f a) Q) : Logged.Gives (x >>= f) Q := by
  intro journal
  obtain ⟨a, journal', hrun, hP⟩ := h journal
  obtain ⟨b, journal'', hrun', hQ⟩ := hf a hP journal'
  refine ⟨b, journal'', ?_, hQ⟩
  rw [ExceptT.run_bind, StateT.run_bind, hrun]
  exact hrun'

theorem outcome_bind {a : α} {f : α → Logged β} (h : Logged.Gives x (· = a)) (journal : Journal) :
    ∃ journal', (x >>= f).outcome journal = (f a).outcome journal' := by
  obtain ⟨_, ha, rfl⟩ := h.outcome journal
  exact Logged.outcome_bind_of_ok ha

theorem debug (logger message : String) (fields : Fields) :
    Logged.Gives (Logged.debug logger message fields) fun _ => True :=
  fun _ => ⟨(), _, rfl, trivial⟩

end Logged.Gives

/-! ## Ends -/

/-- Whatever stands in the journal, the computation ends with `r`. -/
def Logged.ComesTo (x : Logged α) (r : Except Failure α) : Prop :=
  ∀ journal, x.outcome journal = r

theorem Logged.ComesTo.lift (x : Except Failure α) : (liftM x : Logged α).ComesTo x := by
  intro journal
  cases x <;> rfl

theorem Logged.ComesTo.andThen {x : Logged α} {f : α → Logged β} {a : α} {r : Except Failure β}
    (h : x.ComesTo (.ok a)) (hf : (f a).ComesTo r) : (x >>= f).ComesTo r := by
  intro journal
  obtain ⟨journal', hbind⟩ := Logged.outcome_bind_of_ok (f := f) (h journal)
  rw [hbind]
  exact hf journal'

theorem Logged.ComesTo.bind {x : Logged α} {f : α → Logged β} {r : Except Failure α}
    {g : α → Except Failure β} (h : x.ComesTo r) (hf : ∀ a, r = .ok a → (f a).ComesTo (g a)) :
    (x >>= f).ComesTo (r >>= g) := by
  cases r with
  | ok a => exact h.andThen (hf a rfl)
  | error failure =>
    intro journal
    have hrun : x.run.run journal = (.error failure, (x.run.run journal).2) := Prod.ext (h journal) rfl
    unfold Logged.outcome
    rw [ExceptT.run_bind, StateT.run_bind, hrun]
    rfl

end CodeGraph
