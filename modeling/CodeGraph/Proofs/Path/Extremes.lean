import CodeGraph.Proofs.Path.Itemized

/-!
# Cheapest and costliest paths

The two searches for paths have little in common: one settles vertices in order
of cost and keeps the least, the other lists simple paths up to a number of
candidates and keeps the greatest. Under the same costs, and with the same bound,
they are in order all the same (`Graph.shortestLengthUnder_le_criticalPathIn`). A
path that the second answers with is a walk that the first has to beat.

A bound that is a fraction is rounded up by the one and down by the other, so
that what the second lists keeps to the bound of the first (`fits_of_fits`).
-/

namespace CodeGraph

/-! ## Bounds -/

theorem stepsOfFloat_getD_le (x : Float) (order : Nat) :
    (stepsOfFloat false x).getD order ≤ (stepsOfFloat true x).getD order := by
  unfold stepsOfFloat
  cases Decimal.Binary.ofFloat x with
  | nan => exact Nat.le_refl order
  | infinite negative => exact Nat.le_refl order
  | finite d =>
    by_cases hnegative : d.negative = true
    · simp only [hnegative, if_true, Option.getD_some, Nat.le_refl]
    · simp only [hnegative, if_false, Bool.false_eq_true, if_true, Option.getD_some]
      cases d.fraction.2 with
      | zero => simp
      | succ den => exact Nat.div_le_div_right (by omega)

theorem fits_of_fits {order steps : Nat} {limit : Value}
    (h : ∀ d ∈ budgetSteps false order limit, steps ≤ d) :
    ∀ d ∈ budgetSteps true order limit, steps ≤ d := by
  cases limit with
  | float x =>
    intro d hd
    obtain rfl := Option.some.inj hd
    exact Nat.le_trans (h _ rfl) (stepsOfFloat_getD_le x order)
  | _ => exact h

namespace Graph

variable {g : Graph} {source target : Value} {s t : Fin g.order}

/-! ## The cheapest path, whatever the bound -/

/-- Where a walk keeps to the bound there is a cheapest path, and it costs no more than the walk. -/
theorem shortestLengthUnder_le (hv : g.Valid) (hc : g.Closed) (hs : g.vertex? source = some s)
    (ht : g.vertex? target = some t) {limit : Value}
    (hlimit : checkBudget "max_depth" limit = .ok ()) {measure : Edge → Except Failure ℚ}
    {w : Edge → ℚ} (hw : ∀ e ∈ g.edges, measure e = .ok (w e) ∧ 0 ≤ w e)
    {p : List (Arc g.order)} (hp : (Index.ofArcs (g.arcs keepAll)).Walk s p t)
    (hfits : ∀ d ∈ budgetSteps true g.order limit, p.length ≤ d) (journal : Journal) :
    ∃ cost, (g.shortestLengthUnder source target (some measure) limit).outcome journal = .ok cost ∧
      cost ≤ Path.walkCost w p := by
  have hfs : g.find source = .ok s := find_eq_ok.mpr ⟨hv.scalar_of_vertex? hs, hs⟩
  have hft : g.find target = .ok t := find_eq_ok.mpr ⟨hv.scalar_of_vertex? ht, ht⟩
  have hfair : ∀ e ∈ g.edges, measure e = .ok (w e) ∧ Path.Fair (w e) := fun e he =>
    ⟨(hw e he).1, Path.fair_rat.mpr (hw e he).2⟩
  have hsound := sound_pathProblem hfair (budgetSteps true g.order limit) s t
  by_cases heq : s = t
  · have hanswer : g.shortestUnder source target (some measure) limit
        = liftM (.ok ([source], 0) : Except Failure (List Value × ℚ)) := by
      unfold shortestUnder
      rw [hlimit, index_eq_pure hv hc, hfs, hft]
      simp only [Logged.lift_ok, pure_bind, if_pos heq]
    exact ⟨0, outcome_shortestLengthUnder hanswer journal,
      Path.fair_rat.mp (hsound.walk_fair hp)⟩
  · obtain ⟨q, c, hfound, hcheapest⟩ := (Path.byCost_spec hsound).found_of_within ⟨p, hp, hfits⟩
    have hfound' : Path.byCost (Index.ofArcs (g.arcs keepAll)) measure s t
        (budgetSteps true g.order limit) = .found q c := hfound
    have hanswer : g.shortestUnder source target (some measure) limit
        = liftM (.ok (costNames source q, c) : Except Failure (List Value × ℚ)) := by
      unfold shortestUnder
      rw [hlimit, index_eq_pure hv hc, hfs, hft]
      simp only [Logged.lift_ok, pure_bind, if_neg heq, hfound', resolve]
    exact ⟨c, outcome_shortestLengthUnder hanswer journal,
      not_lt.mp (hcheapest.least p ⟨hp, hfits⟩)⟩

/-! ## Both searches -/

theorem walk_keepAll {keep : Edge → Bool} {p : List (Arc g.order)}
    (hp : (Index.ofArcs (g.arcs keep)).Walk s p t) :
    (Index.ofArcs (g.arcs keepAll)).Walk s p t := by
  induction p generalizing s with
  | nil => exact hp
  | cons arc rest ih =>
    obtain ⟨hmem, hsource⟩ := Index.mem_out_ofArcs.mp hp.1
    obtain ⟨he, -, hends⟩ := mem_arcs.mp hmem
    exact ⟨Index.mem_out_ofArcs.mpr ⟨mem_arcs.mpr ⟨he, rfl, hends⟩, hsource⟩, ih hp.2⟩

/-- Whenever there is a critical path there is a cheapest one under the same costs and with the same
bound, and it costs no more. -/
theorem shortestLengthUnder_le_criticalPathIn (hv : g.Valid) {m : CostModel}
    (hcosts : ∀ e ∈ g.edges, ∃ x, m.exactCost g e = .ok x ∧ 0 ≤ x) {query : CriticalQuery}
    {journal : Journal} {result : CriticalPath ℚ}
    (h : (g.criticalPathIn ℚ source target (.ok m) query).outcome journal = .ok result)
    (journal' : Journal) :
    ∃ cost,
      (g.shortestLengthUnder source target (some (m.exactCost g)) query.maxDepth).outcome journal'
        = .ok cost ∧ cost ≤ result.cost := by
  obtain ⟨m', pathType, s, t, arcs, hm, -, hlimit, hc, hfound⟩ := exists_of_criticalPathIn h
  obtain rfl := Except.ok.inj hm
  choose! w hw hnonneg using hcosts
  obtain ⟨cost, hcost, hle⟩ := shortestLengthUnder_le hv hc hfound.starts hfound.ends hlimit
    (fun e he => ⟨hw e he, hnonneg e he⟩) (walk_keepAll hfound.walk) (fits_of_fits hfound.fits)
    journal'
  refine ⟨cost, hcost, hle.trans_eq ?_⟩
  -- The path is scored by the same costs.
  have hedge : ∀ arc ∈ arcs, Critical.Costs m g arc.edge (w arc.edge) := by
    intro arc harc
    obtain ⟨v, hv⟩ := hfound.walk.mem_out harc
    exact Critical.costs_of_exactCost (hw _ (mem_arcs.mp (Index.mem_out_ofArcs.mp hv).1).1)
  obtain ⟨total, htotal, hsum⟩ := Critical.score_gives hedge
  have hsame := Except.ok.inj (htotal.symm.trans hfound.score)
  rw [← hsum, hsame]

theorem levied_valid : levied.Valid where
  scalar := by simp [levied, specimenNode, Value.isScalar]
  distinct := by simp [levied, specimenNode, Value.same]
  same := by simp [levied, specimenNode, Value.same]

theorem levies_nonneg : ∀ e ∈ levied.edges, ∃ x, levies.exactCost levied e = .ok x ∧ 0 ≤ x := by
  have hcosts : ∀ e ∈ levied.edges,
      ((levies.exactCost levied e).toOption.filter (fun x => 0 ≤ x)).isSome := by
    decide +kernel
  intro e he
  obtain ⟨x, hx⟩ := Option.isSome_iff_exists.mp (hcosts e he)
  obtain ⟨hx, hnonneg⟩ := Option.filter_eq_some_iff.mp hx
  exact ⟨x, eq_ok_of_toOption hx, of_decide_eq_true hnonneg⟩

theorem shortestLengthUnder_le_levied :
    levied.Valid ∧
    (∀ e ∈ levied.edges, ∃ x, levies.exactCost levied e = .ok x ∧ 0 ≤ x) ∧
    ∃ result cost,
      (levied.criticalPathIn ℚ (.str "a") (.str "c") (.ok levies) (levyQuery "any")).outcome .empty
        = .ok result ∧ result.cost = 13 / 2 ∧
      (levied.shortestLengthUnder (.str "a") (.str "c") (some (levies.exactCost levied))
        (.int 2)).outcome .empty = .ok cost ∧ cost ≤ result.cost := by
  obtain ⟨result, hresult, hvalue⟩ := levied_answer "any" (by decide)
  obtain ⟨cost, hcost, hle⟩ :=
    shortestLengthUnder_le_criticalPathIn levied_valid levies_nonneg hresult .empty
  exact ⟨levied_valid, levies_nonneg, result, cost, hresult, hvalue, hcost, hle⟩

end Graph

end CodeGraph
