import CodeGraph.Config.Validation
import CodeGraph.Smell.Detection
import CodeGraph.Proofs.Order

/-!
# What validation leaves of a configuration

A validation that raises nothing has compared the options with their bounds,
and only numbers compare with numbers. So the options of an accepted
configuration are numbers where numbers are meant, in range as far as a
comparison can tell (a not-a-number is below nothing), and words where words are
meant (`Config.accepted_of_validate`). It has not asked whether a number is
whole.
-/

namespace CodeGraph

variable {α β : Type}

/-! ## Validations that return -/

/-- After some warnings, the validation ends with `a`. -/
def Validation.Returns (x : Validation α) (a : α) : Prop :=
  ∃ before after, x.run before = .ok (a, after)

namespace Validation.Returns

theorem of_bind {x : Validation α} {f : α → Validation β} {b : β} (h : Returns (x >>= f) b) :
    ∃ a, Returns x a ∧ Returns (f a) b := by
  obtain ⟨before, after, h⟩ := h
  rw [StateT.run_bind] at h
  obtain ⟨⟨a, between⟩, hx, hf⟩ := bind_eq_ok.mp h
  exact ⟨a, ⟨before, between, hx⟩, between, after, hf⟩

theorem of_lift {x : Except Failure α} {a : α} (h : Returns (liftM x : Validation α) a) :
    x = .ok a := by
  obtain ⟨before, after, h⟩ := h
  cases x with
  | ok a' =>
    obtain rfl := congrArg Prod.fst (Except.ok.inj h)
    rfl
  | error failure => cases h

theorem not_refuse {problem : ConfigProblem} {u : Unit} : ¬Returns (refuse problem) u := by
  rintro ⟨before, after, h⟩
  cases h

theorem of_forM {xs : List α} {f : α → Validation Unit} {u : Unit} (h : Returns (xs.forM f) u) :
    ∀ x ∈ xs, Returns (f x) () := by
  induction xs with
  | nil => exact fun x hx => absurd hx List.not_mem_nil
  | cons first rest ih =>
    rw [List.forM] at h
    obtain ⟨_, hfirst, hrest⟩ := h.of_bind
    exact List.forall_mem_cons.mpr ⟨hfirst, ih hrest⟩

theorem of_unless {check : Except Failure Bool} {problem : ConfigProblem} {u : Unit}
    (h : Returns (do if ← check then refuse problem) u) : check = .ok false := by
  obtain ⟨answer, hcheck, h⟩ := h.of_bind
  cases answer with
  | false => exact hcheck.of_lift
  | true => exact absurd h not_refuse

theorem of_required {holds : Bool} {problem : ConfigProblem} {u : Unit}
    (h : Returns (do if !holds then refuse problem) u) : holds = true := by
  cases holds with
  | false => exact absurd h not_refuse
  | true => rfl

/-- A warning under a condition is passed over. -/
theorem of_warning {check : Except Failure Bool} {text : String} {rest : Validation β} {b : β}
    (h : Returns (do
      if ← check then warn text
      rest) b) : Returns rest b := by
  obtain ⟨answer, -, h⟩ := h.of_bind
  cases answer with
  | false => exact h
  | true =>
    obtain ⟨_, -, h⟩ := h.of_bind
    exact h

theorem of_refusal {check : Except Failure Bool} {problem : ConfigProblem} {rest : Validation β}
    {b : β} (h : Returns (do
      if ← check then refuse problem
      rest) b) : check = .ok false ∧ Returns rest b := by
  obtain ⟨answer, hcheck, h⟩ := h.of_bind
  cases answer with
  | false => exact ⟨hcheck.of_lift, h⟩
  | true =>
    obtain ⟨_, hrefused, -⟩ := h.of_bind
    exact absurd hrefused not_refuse

end Validation.Returns

namespace Validation

/-! ## Numbers in range -/

/-- A number that is not below a bound, as far as a comparison tells. -/
structure NotBelow (bound : Int) (v : Value) : Prop where
  isNumber : v.isNumber = true
  notLt : v.lt (.int bound) = .ok false

theorem isNumber_of_lt {v : Value} {bound : Int} {answer : Bool}
    (h : v.lt (.int bound) = .ok answer) : v.isNumber = true :=
  (Value.isNumber_of_relate? (Value.relate?_isSome_of_map h)).mpr rfl

theorem notBelow_of_lt {v : Value} {bound : Int} (h : v.lt (.int bound) = .ok false) :
    NotBelow bound v :=
  ⟨isNumber_of_lt h, h⟩

theorem notBelow_of_atLeast {bound : Int} {problem : ConfigProblem} {v : Value} {u : Unit}
    (h : Returns (atLeast bound problem v) u) : NotBelow bound v :=
  notBelow_of_lt h.of_unless

theorem isNumber_of_atLeastIfGiven {bound : Int} {problem : ConfigProblem} {v : Value} {u : Unit}
    (h : Returns (atLeastIfGiven bound problem v) u) : v = .null ∨ v.isNumber = true := by
  unfold atLeastIfGiven at h
  cases v with
  | null => exact .inl rfl
  | _ => exact .inr (notBelow_of_atLeast h).isNumber

theorem NotBelow.le_of_asInt? {bound k : Int} {v : Value} (h : NotBelow bound v)
    (hk : v.asInt? = some k) : bound ≤ k := by
  have hlt := h.notLt
  rw [Value.lt_of_asInt? hk, Except.ok.injEq, decide_eq_false_iff_not] at hlt
  omega

/-- A number that is not below zero is a depth. -/
theorem NotBelow.checkBudget_eq {v : Value} (h : NotBelow 0 v) (name : String) :
    checkBudget name v = .ok () := by
  have hnot : v.isNull = false := by
    cases v with
    | null => cases h.isNumber
    | _ => rfl
  unfold checkBudget
  rw [hnot, h.notLt]
  rfl

theorem NotBelow.impactDepth_gives {bound : Int} {v : Value} (h : NotBelow bound v) (order : Nat) :
    Gives (impactDepth order v) fun _ => True := by
  cases v with
  | null => cases h.isNumber
  | _ => exact Gives.of_ok trivial

structure InUnit (v : Value) : Prop where
  zero_le : (Value.float 0).le v = .ok true
  le_one : v.le (.float 1) = .ok true

theorem inUnit_of_unit {option : String} {v : Value} {u : Unit} (h : Returns (unit option v) u) :
    InUnit v := by
  unfold unit at h
  obtain ⟨lower, hlower, h⟩ := h.of_bind
  cases lower with
  | false => exact absurd h Returns.not_refuse
  | true =>
    obtain ⟨upper, hupper, h⟩ := h.of_bind
    cases upper with
    | false => exact absurd h Returns.not_refuse
    | true => exact ⟨hlower.of_lift, hupper.of_lift⟩

theorem InUnit.isNumber {v : Value} (h : InUnit v) : v.isNumber = true :=
  (Value.isNumber_of_relate? (Value.relate?_isSome_of_map h.le_one)).mpr rfl

theorem notBelow_of_anyBelowZero {vs : List Value} (h : anyBelowZero vs = .ok false) :
    ∀ v ∈ vs, NotBelow 0 v := by
  induction vs with
  | nil => exact fun v hv => absurd hv List.not_mem_nil
  | cons v rest ih =>
    obtain ⟨below, hbelow, h⟩ := bind_eq_ok.mp h
    cases below with
    | false => exact List.forall_mem_cons.mpr ⟨notBelow_of_lt hbelow, ih h⟩
    | true => cases h

/-! ## Words that are known -/

theorem isNull_eq_false {v : Value} (h : v ≠ .null) : v.isNull = false := by
  cases v with
  | null => exact absurd rfl h
  | _ => rfl

theorem eq_of_isAmong {v : Value} {words : List String} (h : v.isAmong (words.map .str) = true) :
    ∃ word ∈ words, v = .str word := by
  obtain ⟨_, hword, hsame⟩ := List.any_eq_true.mp h
  obtain ⟨word, hmem, rfl⟩ := List.mem_map.mp hword
  refine ⟨word, hmem, ?_⟩
  cases v with
  | str s =>
    rw [Value.same, beq_iff_eq] at hsame
    rw [hsame]
  | _ => simp [Value.same, Value.relateNumbers?, Value.asInt?] at hsame

theorem coerceOr_edgeKind (unknown : Value → List String → Failure) (kind : EdgeKind) :
    Tagged.coerceOr unknown (Tagged.value kind) = .ok kind := by
  cases kind <;> rfl

theorem coerceOr_smell (unknown : Value → List String → Failure) (smell : Smell) :
    Tagged.coerceOr unknown (Tagged.value smell) = .ok smell := by
  cases smell <;> rfl

theorem coerce_algorithm (algorithm : CommunityAlgorithm) :
    Tagged.coerce (Tagged.value algorithm) = .ok algorithm := by
  cases algorithm <;> rfl

theorem exists_of_isAmong [Tagged α] {v : Value} {words : List String}
    (hwords : words ⊆ Tagged.tags α) (h : v.isAmong (words.map .str) = true) :
    ∃ x : α, v = Tagged.value x := by
  obtain ⟨word, hword, rfl⟩ := eq_of_isAmong h
  obtain ⟨x, -, rfl⟩ := List.mem_map.mp (hwords hword)
  exact ⟨x, rfl⟩

theorem mapM_coerceOr_gives [Tagged α] {unknown : Value → List String → Failure}
    (hcoerce : ∀ x : α, Tagged.coerceOr unknown (Tagged.value x) = .ok x) {vs : List Value}
    (h : ∀ v ∈ vs, ∃ x : α, v = Tagged.value x) :
    Gives (vs.mapM (Tagged.coerceOr unknown) : Except Failure (List α)) fun _ => True := by
  have hread : ∀ v ∈ vs, Gives (Tagged.coerceOr unknown v) fun _ : α => True := by
    intro v hv
    obtain ⟨x, rfl⟩ := h v hv
    exact ⟨x, hcoerce x, trivial⟩
  exact (Gives.mapM hread).imp fun _ _ => trivial

/-- Kinds of edges that validation lets pass can be read. -/
theorem read_of_edgeKinds {option : String} {v : Value} {u : Unit}
    (h : Returns (edgeKinds option v) u) : Gives (KindFilter.read v) fun _ => True := by
  by_cases hnull : v = .null
  · subst hnull
    exact Gives.of_ok trivial
  · unfold edgeKinds at h
    rw [isNull_eq_false hnull] at h
    obtain ⟨kinds, hkinds, h⟩ := h.of_bind
    have hknown : ∀ kind ∈ kinds, ∃ known : EdgeKind, kind = Tagged.value known := by
      intro kind hkind
      obtain ⟨_, -, h⟩ := (h.of_forM kind hkind).of_bind
      exact exists_of_isAmong (fun _ hword => List.mem_mergeSort.mp hword) h.of_required
    have hread : KindFilter.read v = v.elements >>= fun kinds =>
        kinds.mapM Tagged.coerce >>= fun kinds => .ok (some kinds) := by
      cases v with
      | null => exact absurd rfl hnull
      | _ => rfl
    rw [hread, hkinds.of_lift]
    exact (mapM_coerceOr_gives (coerceOr_edgeKind _) hknown).bind fun _ _ => Gives.of_ok trivial

/-- Smells that validation lets pass can be read. -/
theorem readList_of_enabled {v : Value} {u : Unit} (h : Returns (enabled v) u) :
    Gives (Smell.readList v) fun _ => True := by
  by_cases hnull : v = .null
  · subst hnull
    exact Gives.of_ok trivial
  · unfold enabled at h
    rw [isNull_eq_false hnull] at h
    obtain ⟨smells, hsmells, h⟩ := h.of_bind
    obtain ⟨_, hchecked, -⟩ := h.of_bind
    have hknown : ∀ smell ∈ smells, ∃ known : Smell, smell = Tagged.value known :=
      fun smell hsmell => exists_of_isAmong (List.Subset.refl _)
        (hchecked.of_forM smell hsmell).of_required
    have hread : Smell.readList v = v.elements >>= fun smells =>
        smells.mapM (Tagged.coerceOr .unsupportedSmell) >>= fun smells =>
          .ok (smells.foldl (fun seen s => if seen.contains s then seen else seen ++ [s]) []) := by
      cases v with
      | null => exact absurd rfl hnull
      | _ => rfl
    rw [hread, hsmells.of_lift]
    exact (mapM_coerceOr_gives (coerceOr_smell _) hknown).bind fun _ _ => Gives.of_ok trivial

end Validation

/-! ## Accepted configurations -/

open Validation (NotBelow InUnit Returns)

structure CentralityOptions.Accepted (o : CentralityOptions) : Prop where
  damping : InUnit o.damping
  maxIterations : NotBelow 1 o.maxIterations
  tolerance : o.tolerance.isNumber = true
  maxWorkers : o.maxWorkers = .null ∨ o.maxWorkers.isNumber = true
  topCount : NotBelow 0 o.topCount

structure Thresholds.Accepted (t : Thresholds) : Prop where
  degreeHigh : t.degreeHigh.isNumber = true
  degreeMedium : t.degreeMedium.isNumber = true
  betweennessHigh : t.betweennessHigh.isNumber = true
  betweennessMedium : t.betweennessMedium.isNumber = true
  communitySpread : t.communitySpread.isNumber = true
  fanout : t.fanout.isNumber = true
  impactDepth : NotBelow 0 t.impactDepth
  cycleEdgeKinds : Gives (KindFilter.read t.cycleEdgeKinds) fun _ => True

structure Config.Accepted (c : Config) : Prop where
  centrality : c.centrality.Accepted
  impactDepth : NotBelow 0 c.impact.depth
  dependencyKinds : Gives (KindFilter.read c.impact.dependencyKinds) fun _ => True
  algorithm : ∃ algorithm : CommunityAlgorithm, c.communities.algorithm = Tagged.value algorithm
  rounds : NotBelow 1 c.communities.maxIterations
  enabled : Gives (Smell.readList c.detectors.enabled) fun _ => True
  thresholds : ∃ t, c.detectors.thresholds = .known t ∧ t.Accepted

namespace Validation

theorem accepted_of_centrality {o : CentralityOptions} {u : Unit} (h : Returns (centrality o) u) :
    o.Accepted := by
  unfold centrality at h
  obtain ⟨_, hdamping, h⟩ := h.of_bind
  obtain ⟨_, hiterations, h⟩ := h.of_bind
  obtain ⟨htolerance, h⟩ := h.of_refusal
  obtain ⟨_, hworkers, hcount⟩ := h.of_bind
  exact {
    damping := inUnit_of_unit hdamping
    maxIterations := notBelow_of_atLeast hiterations
    tolerance := (Value.isNumber_of_relate? (Value.relate?_isSome_of_map htolerance)).mpr rfl
    maxWorkers := isNumber_of_atLeastIfGiven hworkers
    topCount := notBelow_of_atLeast hcount }

theorem accepted_of_impact {o : ImpactOptions} {u : Unit} (h : Returns (impact o) u) :
    NotBelow 0 o.depth ∧ Gives (KindFilter.read o.dependencyKinds) fun _ => True := by
  unfold impact at h
  obtain ⟨_, hdepth, h⟩ := h.of_bind
  exact ⟨notBelow_of_atLeast hdepth, read_of_edgeKinds h.of_warning⟩

theorem accepted_of_communities {o : CommunityOptions} {u : Unit} (h : Returns (communities o) u) :
    (∃ algorithm : CommunityAlgorithm, o.algorithm = Tagged.value algorithm) ∧
      NotBelow 1 o.maxIterations := by
  unfold communities at h
  obtain ⟨_, halgorithm, hrounds⟩ := h.of_bind
  refine ⟨?_, notBelow_of_atLeast hrounds⟩
  unfold oneOf at halgorithm
  by_cases hamong : o.algorithm.isAmong ((Tagged.tags CommunityAlgorithm).map .str) = true
  · exact exists_of_isAmong (List.Subset.refl _) hamong
  · rw [if_neg hamong] at halgorithm
    exact absurd halgorithm Returns.not_refuse

theorem accepted_of_thresholds {t : Thresholds} {u : Unit} (h : Returns (thresholds t) u) :
    t.Accepted := by
  unfold thresholds at h
  obtain ⟨_, hdegreeHigh, h⟩ := h.of_bind
  obtain ⟨_, hdegreeMedium, h⟩ := h.of_bind
  obtain ⟨_, hbetweennessHigh, h⟩ := h.of_bind
  obtain ⟨_, hbetweennessMedium, h⟩ := h.of_bind
  obtain ⟨hbelow, hkinds⟩ := h.of_warning.of_warning.of_refusal
  have hbounds := notBelow_of_anyBelowZero hbelow
  exact {
    degreeHigh := (inUnit_of_unit hdegreeHigh).isNumber
    degreeMedium := (inUnit_of_unit hdegreeMedium).isNumber
    betweennessHigh := (inUnit_of_unit hbetweennessHigh).isNumber
    betweennessMedium := (inUnit_of_unit hbetweennessMedium).isNumber
    communitySpread := (hbounds _ (by simp)).isNumber
    fanout := (hbounds _ (by simp)).isNumber
    impactDepth := hbounds _ (by simp)
    cycleEdgeKinds := read_of_edgeKinds hkinds }

end Validation

/-- A validation that raises nothing has seen to all of this. -/
theorem Config.accepted_of_validate {c : Config} {warnings : List String}
    (h : c.validate = .ok warnings) : c.Accepted := by
  obtain ⟨⟨u, after⟩, hall, -⟩ := bind_eq_ok.mp h
  have h : Returns (Validation.all c) u := ⟨[], after, hall⟩
  unfold Validation.all at h
  obtain ⟨_, hcentrality, h⟩ := h.of_bind
  obtain ⟨_, -, h⟩ := h.of_bind
  obtain ⟨_, himpact, h⟩ := h.of_bind
  obtain ⟨_, hcommunities, h⟩ := h.of_bind
  obtain ⟨_, henabled, h⟩ := h.of_bind
  obtain ⟨hdepth, hkinds⟩ := Validation.accepted_of_impact himpact
  obtain ⟨halgorithm, hrounds⟩ := Validation.accepted_of_communities hcommunities
  refine ⟨Validation.accepted_of_centrality hcentrality, hdepth, hkinds, halgorithm, hrounds,
    Validation.readList_of_enabled henabled, ?_⟩
  cases hthresholds : c.detectors.thresholds with
  | known t =>
    rw [hthresholds] at h
    obtain ⟨_, ht, -⟩ := h.of_bind
    exact ⟨t, rfl, Validation.accepted_of_thresholds ht⟩
  | other v =>
    rw [hthresholds] at h
    obtain ⟨_, ht, -⟩ := h.of_bind
    obtain ⟨_, _, ht⟩ := ht
    cases ht

end CodeGraph
