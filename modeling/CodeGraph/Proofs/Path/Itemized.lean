import Mathlib.Algebra.BigOperators.Fin
import Mathlib.Algebra.Order.Ring.Rat
import CodeGraph.Proofs.Path.Critical
import CodeGraph.Proofs.Sums

/-!
# What the cost of a critical path is made of

An answer lists the edges of the path, its cost, and factors that the cost is
made of: an amount for every refinement with a cost of its own, an amount for
every category with a penalty, and one for everything else. Cost and factors are
added up side by side along the path. With exact costs they agree
(`Graph.criticalPathIn_accounts`): the factors sum up to the cost, the cost is
that of the edges, and every amount comes from the edges it is named after.

All of this is one induction along the path. `Critical.Accounts` says that a cost
and its factors stand for the edges passed so far; one more edge preserves it
(`Critical.Accounts.snoc`), whichever names its cost comes under, and so does the
rest of the path (`Critical.Accounts.along`).
-/

namespace CodeGraph

/-! ## Exact parts -/

/-- The exact value of a part of a cost. -/
def Value.worth (v : Value) : ℚ :=
  v.exact.toOption.getD 0

theorem Value.worth_of_exact {v : Value} {x : ℚ} (h : v.exact = .ok x) : v.worth = x := by
  rw [worth, h]
  rfl

namespace Breakdown

/-- The exact cost that the parts add up to. -/
def worth (b : Breakdown) : ℚ :=
  b.base.worth + (b.penalties.map fun entry => entry.2.worth).sum

/-- The base, if it stands under one of the names. -/
def baseUnder (b : Breakdown) (p : String → Bool) : ℚ :=
  if b.matched.any p then b.base.worth else 0

def baseElse (b : Breakdown) : ℚ :=
  if b.matched.isNone then b.base.worth else 0

/-- The penalties that stand under the names. -/
def penaltiesUnder (b : Breakdown) (p : String → Bool) : ℚ :=
  ((b.penalties.filter fun entry => p entry.1).map fun entry => entry.2.worth).sum

theorem whole_eq {b : Breakdown} {x : ℚ} (h : Priced.whole b = .ok x) : x = b.worth := by
  obtain ⟨amounts, hamounts, h⟩ := bind_eq_ok.mp h
  obtain ⟨base, hbase, h⟩ := bind_eq_ok.mp h
  have hpenalties : amounts.map id = b.penalties.map fun entry => entry.2.worth :=
    Gives.map_of_mapM hamounts fun entry y hy => (Value.worth_of_exact hy).symm
  rw [List.map_id] at hpenalties
  rw [worth, Value.worth_of_exact hbase, ← hpenalties, ← sum_rat]
  exact (Except.ok.inj h).symm

/-- Every part stands under some name or under none. -/
theorem worth_eq (b : Breakdown) :
    b.worth = b.baseUnder (fun _ => true) + b.penaltiesUnder (fun _ => true) + b.baseElse := by
  have hall : b.penalties.filter (fun _ => true) = b.penalties :=
    List.filter_eq_self.mpr fun _ _ => rfl
  unfold worth baseUnder penaltiesUnder baseElse
  rw [hall]
  cases b.matched with
  | none =>
    simp only [Option.any_none, Bool.false_eq_true, if_false, Option.isNone_none, if_true]
    ring
  | some refinement =>
    simp only [Option.any_some, if_true, Option.isNone_some, Bool.false_eq_true, if_false]
    ring

end Breakdown

namespace Critical

variable {n : Nat}

/-! ## Amounts under names -/

section Amounts

/-- The amounts under the names, together. -/
def amountUnder (p : String → Bool) (amounts : List (String × ℚ)) : ℚ :=
  ((amounts.filter fun entry => p entry.1).map Prod.snd).sum

theorem amountUnder_all (amounts : List (String × ℚ)) :
    amountUnder (fun _ => true) amounts = (amounts.map Prod.snd).sum := by
  rw [amountUnder, List.filter_eq_self.mpr fun _ _ => rfl]

theorem amountUnder_cons (p : String → Bool) (name : String) (x : ℚ)
    (amounts : List (String × ℚ)) :
    amountUnder p ((name, x) :: amounts) = (if p name then x else 0) + amountUnder p amounts := by
  unfold amountUnder
  rw [List.filter_cons]
  split
  · rw [List.map_cons, List.sum_cons]
  · rw [zero_add]

def Keyed (amounts : List (String × ℚ)) : Prop :=
  (amounts.map Prod.fst).Nodup

variable {name : String} {x : ℚ} {amounts amounts' : List (String × ℚ)}

theorem amountUnder_addTo (p : String → Bool) :
    amountUnder p (addTo name x amounts) = amountUnder p amounts + if p name then x else 0 := by
  induction amounts with
  | nil => rw [addTo, amountUnder_cons, zero_add, add_comm]
  | cons entry rest ih =>
    obtain ⟨key, y⟩ := entry
    rw [addTo]
    by_cases hkey : key = name
    · rw [if_pos (beq_iff_eq.mpr hkey), amountUnder_cons, amountUnder_cons, hkey]
      split <;> ring
    · rw [if_neg (by simpa using hkey), amountUnder_cons, amountUnder_cons, ih, add_assoc]

theorem keys_addTo (name : String) (x : ℚ) (amounts : List (String × ℚ)) :
    (addTo name x amounts).map Prod.fst = amounts.map Prod.fst ∨
      name ∉ amounts.map Prod.fst ∧
        (addTo name x amounts).map Prod.fst = amounts.map Prod.fst ++ [name] := by
  induction amounts with
  | nil => exact .inr ⟨by simp, rfl⟩
  | cons entry rest ih =>
    obtain ⟨key, y⟩ := entry
    rw [addTo]
    by_cases hkey : key = name
    · rw [if_pos (beq_iff_eq.mpr hkey)]
      exact .inl rfl
    · rw [if_neg (by simpa using hkey)]
      rcases ih with hsame | ⟨hnew, happend⟩
      · exact .inl (by simp only [List.map_cons, hsame])
      · refine .inr ⟨?_, by simp only [List.map_cons, happend, List.cons_append]⟩
        rw [List.map_cons, List.mem_cons, not_or]
        exact ⟨Ne.symm hkey, hnew⟩

theorem Keyed.addTo (h : Keyed amounts) : Keyed (addTo name x amounts) := by
  unfold Keyed
  rcases keys_addTo name x amounts with hsame | ⟨hnew, happend⟩
  · rw [hsame]
    exact h
  · rw [happend, List.nodup_append]
    refine ⟨h, List.nodup_singleton name, fun key hkey other hother heq => hnew ?_⟩
    rw [← List.mem_singleton.mp hother, ← heq]
    exact hkey

theorem addPenalty_eq_ok {entry : String × Value} (h : addPenalty amounts entry = .ok amounts') :
    amounts' = Critical.addTo entry.1 entry.2.worth amounts := by
  obtain ⟨y, hy, h⟩ := bind_eq_ok.mp h
  rw [Value.worth_of_exact hy]
  exact (Except.ok.inj h).symm

/-- Penalties are added one after the other, each under its category. -/
theorem addPenalties_eq_ok {entries : Fields} (h : entries.foldlM addPenalty amounts = .ok amounts')
    (hkeyed : Keyed amounts) :
    Keyed amounts' ∧ ∀ p, amountUnder p amounts' = amountUnder p amounts
      + ((entries.filter fun entry => p entry.1).map fun entry => entry.2.worth).sum := by
  induction entries generalizing amounts with
  | nil =>
    obtain rfl := Except.ok.inj h
    exact ⟨hkeyed, fun p => by simp⟩
  | cons entry rest ih =>
    rw [List.foldlM_cons] at h
    obtain ⟨next, hnext, h⟩ := bind_eq_ok.mp h
    obtain rfl := addPenalty_eq_ok hnext
    obtain ⟨hkeyed', hamount⟩ := ih h hkeyed.addTo
    refine ⟨hkeyed', fun p => ?_⟩
    rw [hamount, amountUnder_addTo, List.filter_cons]
    split
    · rw [List.map_cons, List.sum_cons, add_assoc]
    · rw [add_zero]

end Amounts

/-! ## Factors along a path -/

def Factors.total (f : Factors ℚ) : ℚ :=
  (f.edgeCosts.map Prod.snd).sum + (f.penalties.map Prod.snd).sum + f.defaultCost

theorem Factors.total_eq (f : Factors ℚ) :
    f.total = amountUnder (fun _ => true) f.edgeCosts + amountUnder (fun _ => true) f.penalties
      + f.defaultCost := by
  rw [total, amountUnder_all, amountUnder_all]

/-- What one more edge with the given parts does to the factors. -/
structure Factors.Counts (f : Factors ℚ) (b : Breakdown) (f' : Factors ℚ) : Prop where
  edgeCosts : ∀ p, amountUnder p f'.edgeCosts = amountUnder p f.edgeCosts + b.baseUnder p
  penalties : ∀ p, amountUnder p f'.penalties = amountUnder p f.penalties + b.penaltiesUnder p
  defaultCost : f'.defaultCost = f.defaultCost + b.baseElse
  keyed : Keyed f'.edgeCosts ∧ Keyed f'.penalties

theorem add_counts {f f' : Factors ℚ} {b : Breakdown} (h : f.add b = .ok f')
    (hcosts : Keyed f.edgeCosts) (hpenalties : Keyed f.penalties) : f.Counts b f' := by
  obtain ⟨base, hbase, h⟩ := bind_eq_ok.mp h
  obtain ⟨penalties, hfold, h⟩ := bind_eq_ok.mp h
  obtain rfl := Value.worth_of_exact hbase
  obtain ⟨hkeyed, hamount⟩ := addPenalties_eq_ok hfold hpenalties
  cases hmatched : b.matched with
  | none =>
    rw [hmatched] at h
    obtain rfl := Except.ok.inj h
    refine ⟨fun p => ?_, hamount, ?_, hcosts, hkeyed⟩
    · simp [Breakdown.baseUnder, hmatched]
    · simp [Breakdown.baseElse, hmatched]
  | some refinement =>
    rw [hmatched] at h
    obtain rfl := Except.ok.inj h
    refine ⟨fun p => ?_, hamount, ?_, hcosts.addTo, hkeyed⟩
    · simp [Breakdown.baseUnder, hmatched, amountUnder_addTo]
    · simp [Breakdown.baseElse, hmatched]

theorem addArc_eq_ok {m : CostModel} {g : Graph} {arc : Arc n} {total total' : ℚ × Factors ℚ}
    (h : addArc m g total arc = .ok total') :
    ∃ b, m.breakdown g arc.edge = .ok b ∧ Priced.whole b = .ok b.worth ∧
      total'.1 = total.1 + b.worth ∧ total.2.add b = .ok total'.2 := by
  obtain ⟨b, hb, h⟩ := bind_eq_ok.mp h
  obtain ⟨factors, hfactors, h⟩ := bind_eq_ok.mp h
  obtain ⟨x, hx, h⟩ := bind_eq_ok.mp h
  obtain rfl := Breakdown.whole_eq hx
  obtain rfl := Except.ok.inj h
  exact ⟨b, hb, hx, rfl, hfactors⟩

/-- Cost and factors are those of edges with the given parts. -/
structure Accounts (parts : List Breakdown) (total : ℚ × Factors ℚ) : Prop where
  cost : total.1 = (parts.map Breakdown.worth).sum
  edgeCosts : ∀ p, amountUnder p total.2.edgeCosts = (parts.map fun b => b.baseUnder p).sum
  penalties : ∀ p, amountUnder p total.2.penalties = (parts.map fun b => b.penaltiesUnder p).sum
  defaultCost : total.2.defaultCost = (parts.map Breakdown.baseElse).sum
  keyed : Keyed total.2.edgeCosts ∧ Keyed total.2.penalties

namespace Accounts

variable {m : CostModel} {g : Graph} {parts : List Breakdown} {total total' : ℚ × Factors ℚ}

theorem nil : Accounts [] (0, Factors.zero) where
  cost := rfl
  edgeCosts _ := rfl
  penalties _ := rfl
  defaultCost := rfl
  keyed := ⟨List.nodup_nil, List.nodup_nil⟩

theorem total_eq (h : Accounts parts total) : total.2.total = total.1 := by
  rw [Factors.total_eq, h.edgeCosts, h.penalties, h.defaultCost, h.cost, ← List.sum_map_add,
    ← List.sum_map_add]
  exact congrArg List.sum (List.map_congr_left fun b _ => b.worth_eq.symm)

theorem snoc (h : Accounts parts total) {b : Breakdown} (hcost : total'.1 = total.1 + b.worth)
    (hcounts : total.2.Counts b total'.2) : Accounts (parts ++ [b]) total' where
  cost := by rw [hcost, h.cost]; simp
  edgeCosts p := by rw [hcounts.edgeCosts, h.edgeCosts]; simp
  penalties p := by rw [hcounts.penalties, h.penalties]; simp
  defaultCost := by rw [hcounts.defaultCost, h.defaultCost]; simp
  keyed := hcounts.keyed

/-- Going on along a path accounts for its edges as well. -/
theorem along (h : Accounts parts total) {path : List (Arc n)}
    (hpath : path.foldlM (addArc m g) total = .ok total') :
    ∃ more, (path.map Arc.edge).mapM (m.breakdown g) = .ok more ∧
      (path.map Arc.edge).mapM (m.exactCost g) = .ok (more.map Breakdown.worth) ∧
      Accounts (parts ++ more) total' := by
  induction path generalizing parts total with
  | nil =>
    obtain rfl := Except.ok.inj hpath
    exact ⟨[], rfl, rfl, by rwa [List.append_nil]⟩
  | cons arc rest ih =>
    rw [List.foldlM_cons] at hpath
    obtain ⟨next, hnext, hrest⟩ := bind_eq_ok.mp hpath
    obtain ⟨b, hb, hwhole, hcost, hadd⟩ := addArc_eq_ok hnext
    have hstep : Accounts (parts ++ [b]) next := h.snoc hcost (add_counts hadd h.keyed.1 h.keyed.2)
    obtain ⟨more, hparts, hcosts, hmore⟩ := ih hstep hrest
    have hexact : m.exactCost g arc.edge = .ok b.worth := by
      rw [CostModel.exactCost, hb]
      exact hwhole
    refine ⟨b :: more, ?_, ?_, by rwa [List.append_assoc] at hmore⟩
    · rw [List.map_cons, List.mapM_cons, hb, hparts]
      rfl
    · rw [List.map_cons, List.mapM_cons, hexact, hcosts]
      rfl

end Accounts

end Critical

namespace Graph

variable {g : Graph} {keep : Edge → Bool}

/-! ## Edges that join nodes -/

/-- There is one kept edge for every step of a path, from a node of the path to the next. -/
structure Spans (g : Graph) (keep : Edge → Bool) (path : List Value) (edges : List Edge) :
    Prop where
  kept : ∀ e ∈ edges, e ∈ g.edges ∧ keep e = true
  ends : edges.map (fun e => (g.vertex? e.source, g.vertex? e.target))
    = (path.map g.vertex?).zip (path.tail.map g.vertex?)

theorem Walk.spans {edges : List Edge} {s t : Fin g.order} (h : g.Walk keep s edges t)
    {source : Value} (hs : g.vertex? source = some s) :
    g.Spans keep (source :: edges.map Edge.target) edges := by
  induction edges generalizing s source with
  | nil => exact ⟨by simp, rfl⟩
  | cons e rest ih =>
    obtain ⟨⟨he, hkeep, hsource⟩, v, hv, hrest⟩ := h
    obtain ⟨hkept, hends⟩ := ih hrest hv
    refine ⟨List.forall_mem_cons.mpr ⟨⟨he, hkeep⟩, hkept⟩, ?_⟩
    rw [List.map_cons, hends, hsource, ← hs]
    rfl

theorem Walk.getLast? {edges : List Edge} {s t : Fin g.order} (h : g.Walk keep s edges t)
    {source : Value} (hs : g.vertex? source = some s) :
    ((source :: edges.map Edge.target).map g.vertex?).getLast? = some (some t) := by
  induction edges generalizing s source with
  | nil =>
    obtain rfl : s = t := h
    rw [← hs]
    rfl
  | cons e rest ih =>
    obtain ⟨-, v, hv, hrest⟩ := h
    rw [List.map_cons, List.map_cons, List.map_cons, List.getLast?_cons_cons]
    exact ih hrest hv

end Graph

/-! ## Answers

What is known of an answer, whatever was asked for: nothing is supposed of the query or of the
snapshot, since a query that makes no sense has no answer. -/

section Answers

variable {α : Type} [Priced α] {g : Graph} {source target : Value}
  {model : Except Failure CostModel} {query : CriticalQuery} {journal : Journal}
  {result : CriticalPath α}

theorem Graph.closed_of_index {keep : Edge → Bool} {index : Index g.order}
    (h : (g.index keep).outcome journal = .ok index) :
    g.Closed ∧ index = Index.ofArcs (g.arcs keep) := by
  obtain ⟨_, _, hcheck, h⟩ := Logged.exists_of_bind_eq_ok h
  obtain ⟨_, _, -, hcheck⟩ := Logged.exists_of_bind_eq_ok hcheck
  refine ⟨?_, (Except.ok.inj h).symm⟩
  by_contra hopen
  have hsome : (!g.dangling.isEmpty) = true := by simpa [Graph.Closed] using hopen
  simp only [hsome, if_true] at hcheck
  obtain ⟨_, _, -, hcheck⟩ := Logged.exists_of_bind_eq_ok hcheck
  obtain ⟨_, -, hcheck⟩ := Logged.exists_of_lift_bind_eq_ok hcheck
  cases hcheck

theorem Critical.best_mem {n : Nat} {cs : List (Candidate n α)} {winner : Candidate n α}
    (h : best cs = some winner) : winner ∈ cs := by
  cases cs with
  | nil => cases h
  | cons first rest =>
    obtain rfl := Option.some.inj h
    clear h
    induction rest generalizing first with
    | nil => exact List.mem_singleton_self first
    | cons c rest ih =>
      rw [List.foldl_cons]
      rcases List.mem_cons.mp (ih (if c.beats first then c else first)) with heq | hmem
      · rw [heq]
        split
        · exact List.mem_cons_of_mem _ (List.mem_cons_self ..)
        · exact List.mem_cons_self ..
      · exact List.mem_cons_of_mem _ (List.mem_cons_of_mem _ hmem)

theorem Critical.score_of_mem_candidates {n : Nat} {m : CostModel} {paths : List (List (Arc n))}
    {cs : List (Candidate n α)} (h : candidates m g paths = .ok cs) {c : Candidate n α}
    (hc : c ∈ cs) : c.arcs ∈ paths ∧ score m g c.arcs = .ok (c.cost, c.factors) := by
  obtain ⟨arcs, harcs, heq⟩ := exists_mem_of_forall₂ (Gives.forall₂_of_mapM h).flip c hc
  obtain ⟨total, htotal, heq⟩ := bind_eq_ok.mp heq
  obtain rfl := Except.ok.inj heq
  exact ⟨harcs, htotal⟩

/-- What is listed leads to the target within the budget. -/
theorem Graph.walk_of_mem_list (hc : g.Closed) {keep : Edge → Bool} {s t : Fin g.order}
    (hne : s ≠ t) {depth : Option Nat} {limit : Nat} {p : List (Arc g.order)}
    (hp : p ∈ (Critical.list (Index.ofArcs (g.arcs keep)) s t depth limit).paths) :
    (Index.ofArcs (g.arcs keep)).Walk s p t ∧ ∀ d ∈ depth, p.length ≤ d := by
  rw [Critical.list_paths (places hc keep)] at hp
  obtain ⟨code, hcode, rfl⟩ := List.mem_map.mp hp
  obtain ⟨hsimple, hfits⟩ := (mem_simplePaths hc hne).mp (List.mem_of_mem_take hcode)
  refine ⟨((simpleWalk_arcAt hc).mpr hsimple).1, fun d hd => ?_⟩
  rw [List.length_map]
  simpa using hfits d hd

/-- A critical path was found along the arcs. -/
structure Graph.FoundAlong (g : Graph) (source target : Value) (m : CostModel) (keep : Edge → Bool)
    (limit : Value) (s t : Fin g.order) (arcs : List (Arc g.order)) (result : CriticalPath α) :
    Prop where
  starts : g.vertex? source = some s
  ends : g.vertex? target = some t
  walk : (Index.ofArcs (g.arcs keep)).Walk s arcs t
  fits : ∀ d ∈ budgetSteps false g.order limit, arcs.length ≤ d
  score : Critical.score m g arcs = .ok (result.cost, result.factors)
  path : result.path = source :: (arcs.map Arc.edge).map Edge.target
  edges : result.edges = (arcs.map Arc.edge).map Edge.id

theorem Graph.foundAlong_of_conclude {m : CostModel} {keep : Edge → Bool} {limit : Value}
    {pathType : PathType} {s t : Fin g.order} {depth : Option Nat} {most : Nat}
    {listing : Critical.Listing g.order} {candidates : List (Critical.Candidate g.order α)}
    (hc : g.Closed) (hs : g.vertex? source = some s) (ht : g.vertex? target = some t)
    (hne : s ≠ t) (hdepth : depth = budgetSteps false g.order limit)
    (hlisting : listing = Critical.list (Index.ofArcs (g.arcs keep)) s t depth most)
    (hcandidates : Critical.candidates m g listing.paths = .ok candidates)
    (h : (Critical.conclude source target pathType limit listing
      (Critical.best candidates)).outcome journal = .ok result) :
    ∃ arcs, g.FoundAlong source target m keep limit s t arcs result := by
  cases hbest : Critical.best candidates with
  | none =>
    rw [hbest, Critical.conclude] at h
    cases hcut : listing.cut <;> simp only [hcut] at h <;> cases h
  | some winner =>
    rw [hbest, Critical.conclude] at h
    obtain ⟨_, _, -, h⟩ := Logged.exists_of_bind_eq_ok h
    obtain rfl := Except.ok.inj h
    obtain ⟨hmem, hscore⟩ :=
      Critical.score_of_mem_candidates hcandidates (Critical.best_mem hbest)
    rw [hlisting] at hmem
    obtain ⟨hwalk, hfits⟩ := walk_of_mem_list hc hne hmem
    refine ⟨winner.arcs, hs, ht, hwalk, hdepth ▸ hfits, hscore, ?_, ?_⟩
    · rw [List.map_map]
      rfl
    · rw [List.map_map]
      rfl

/-- Behind every answer there is a path. -/
theorem Graph.exists_of_criticalPathIn
    (h : (g.criticalPathIn α source target model query).outcome journal = .ok result) :
    ∃ (m : CostModel) (pathType : PathType) (s t : Fin g.order) (arcs : List (Arc g.order)),
      model = .ok m ∧ Tagged.coerce query.pathType = .ok pathType ∧
      checkBudget "max_depth" query.maxDepth = .ok () ∧ g.Closed ∧
      g.FoundAlong source target m pathType.edgeKinds.keeps query.maxDepth s t arcs result := by
  unfold criticalPathIn at h
  obtain ⟨pathType, htype, h⟩ := Logged.exists_of_lift_bind_eq_ok h
  obtain ⟨_, hbudget, h⟩ := Logged.exists_of_lift_bind_eq_ok h
  obtain ⟨few, -, h⟩ := Logged.exists_of_lift_bind_eq_ok h
  cases few with
  | true => cases h
  | false =>
    obtain ⟨m, hm, h⟩ := Logged.exists_of_lift_bind_eq_ok h
    obtain ⟨index, _, hindex, h⟩ := Logged.exists_of_bind_eq_ok h
    obtain ⟨s, hs, h⟩ := Logged.exists_of_lift_bind_eq_ok h
    obtain ⟨t, ht, h⟩ := Logged.exists_of_lift_bind_eq_ok h
    obtain ⟨hc, rfl⟩ := closed_of_index hindex
    obtain ⟨-, hs⟩ := find_eq_ok.mp hs
    obtain ⟨-, ht⟩ := find_eq_ok.mp ht
    have hfound : ∃ arcs, g.FoundAlong source target m pathType.edgeKinds.keeps query.maxDepth s t
        arcs result := by
      by_cases heq : s = t
      · rw [if_pos heq] at h
        obtain rfl := Except.ok.inj h
        exact ⟨[], hs, ht, heq, fun d _ => Nat.zero_le d, rfl, rfl, rfl⟩
      · rw [if_neg heq] at h
        obtain ⟨candidates, hcandidates, h⟩ := Logged.exists_of_lift_bind_eq_ok h
        exact foundAlong_of_conclude hc hs ht heq rfl rfl hcandidates h
    obtain ⟨arcs, harcs⟩ := hfound
    exact ⟨m, pathType, s, t, arcs, hm, htype, hbudget, hc, harcs⟩

end Answers

/-! ## The account -/

/-- The path leads from `source` to `target` along the edges, and its cost is accounted for. -/
structure CriticalPath.Itemized (g : Graph) (m : CostModel) (keep : Edge → Bool)
    (source target : Value) (edges : List Edge) (result : CriticalPath ℚ) : Prop where
  starts : result.path.head? = some source
  arrives : (result.path.map g.vertex?).getLast? = some (g.vertex? target)
  names : result.edges = edges.map Edge.id
  spans : g.Spans keep result.path edges
  /-- The cost is that of the edges. -/
  cost : ∃ weights, edges.mapM (m.exactCost g) = .ok weights ∧ result.cost = weights.sum
  /-- The factors make up the cost. -/
  factors : result.factors.total = result.cost
  /-- Every factor comes from the edges it is named after, and from their parts. -/
  parts : ∃ parts, edges.mapM (m.breakdown g) = .ok parts ∧
    Critical.Accounts parts (result.cost, result.factors)

/-- Every answer accounts for its cost. -/
theorem Graph.criticalPathIn_accounts {g : Graph} {source target : Value}
    {model : Except Failure CostModel} {query : CriticalQuery} {journal : Journal}
    {result : CriticalPath ℚ}
    (h : (g.criticalPathIn ℚ source target model query).outcome journal = .ok result) :
    ∃ (m : CostModel) (pathType : PathType) (edges : List Edge),
      model = .ok m ∧ Tagged.coerce query.pathType = .ok pathType ∧
      result.Itemized g m pathType.edgeKinds.keeps source target edges := by
  obtain ⟨m, pathType, s, t, arcs, hm, htype, -, -, hfound⟩ := exists_of_criticalPathIn h
  have hwalk : g.Walk pathType.edgeKinds.keeps s (arcs.map Arc.edge) t :=
    walk_iff.mpr ⟨arcs, hfound.walk, rfl⟩
  obtain ⟨parts, hparts, hcosts, haccounts⟩ := Critical.Accounts.nil.along hfound.score
  refine ⟨m, pathType, arcs.map Arc.edge, hm, htype, ?_, ?_, hfound.edges, ?_,
    ⟨_, hcosts, haccounts.cost⟩, haccounts.total_eq, parts, hparts, haccounts⟩
  · rw [hfound.path]
    rfl
  · rw [hfound.path, hfound.ends]
    exact hwalk.getLast? hfound.starts
  · rw [hfound.path]
    exact hwalk.spans hfound.starts

/-! ### With levies

Nodes of several categories, one of them named twice, and edges of which one has a suggested weight
and no refinement. -/

namespace Graph

def levied : Graph where
  nodes := [specimenNode "a",
    ⟨.str "b", .str "function", .null, ⟨.null, none, [.str "io", .str "db", .str "io"], []⟩⟩,
    ⟨.str "c", .str "function", .null, ⟨.null, none, [.str "io"], []⟩⟩]
  edges := [⟨.str "ab", .str "a", .str "b", .callGraph, .str "direct_call", .empty⟩,
    ⟨.str "bc", .str "b", .str "c", .callGraph, .null, ⟨some 2.5, []⟩⟩,
    ⟨.str "bc2", .str "b", .str "c", .callGraph, .str "direct_call", .empty⟩,
    ⟨.str "ac", .str "a", .str "c", .dataFlow, .str "direct_call", .empty⟩]
  cache := []
  metadata := []

def levies : CostModel :=
  ⟨[("io", .float 0.5), ("db", .int 1)], [("direct_call", .int 2)]⟩

def levyQuery (pathType : String) : CriticalQuery :=
  ⟨.str pathType, .int 2, .int 8⟩

theorem levied_answer : ∀ pathType ∈ ["any", "execution"], ∃ result,
    (levied.criticalPathIn ℚ (.str "a") (.str "c") (.ok levies) (levyQuery pathType)).outcome .empty
      = .ok result ∧ result.cost = 13 / 2 := by
  have hcost : ∀ pathType ∈ ["any", "execution"],
      ((levied.criticalPathIn ℚ (.str "a") (.str "c") (.ok levies) (levyQuery pathType)).outcome
        .empty).toOption.map CriticalPath.cost = some (13 / 2) := by
    decide +kernel
  intro pathType hmem
  obtain ⟨result, hresult, hcost⟩ := Option.map_eq_some_iff.mp (hcost pathType hmem)
  exact ⟨result, eq_ok_of_toOption hresult, hcost⟩

theorem criticalPathIn_accounts_levied : ∃ result edges,
    (levied.criticalPathIn ℚ (.str "a") (.str "c") (.ok levies) (levyQuery "execution")).outcome
      .empty = .ok result ∧ result.cost = 13 / 2 ∧
    result.Itemized levied levies PathType.execution.edgeKinds.keeps (.str "a") (.str "c") edges := by
  obtain ⟨result, hresult, hcost⟩ := levied_answer "execution" (by decide)
  obtain ⟨m, pathType, edges, hm, htype, hitemized⟩ := criticalPathIn_accounts hresult
  obtain rfl := Except.ok.inj hm
  obtain rfl : PathType.execution = pathType := Except.ok.inj htype
  exact ⟨result, edges, hresult, hcost, hitemized⟩

end Graph

end CodeGraph
