import CodeGraph.Proofs.Community.Partition
import CodeGraph.Proofs.Component
import CodeGraph.Smell.Cycle

/-!
# Cycles as they are reported

Where the names on cycles are texts, one finding is reported for every component
of two or more nodes (`Cycle.detect_comesTo`). Where all names are, what the search
for components leaves behind is gone from the report: sorting by ranks that all
differ has one outcome. The reported cycles are the classes of two or more names
that lead to each other, each in order, larger ones first and then by the least
member (`Cycle.exists_cycles`), and no other list is that (`Graph.Cycles.unique`).
-/

namespace CodeGraph

/-! ## The larger components -/

namespace Component

/-- Larger ones first, then by the least member. -/
def rank (members : List String) : ℤ ×ₗ String :=
  toLex (-(members.length : ℤ), members.min?.getD "")

theorem min?_perm {as bs : List String} (h : as.Perm bs) : as.min? = bs.min? := by
  ext s
  rw [List.min?_eq_some_iff, List.min?_eq_some_iff]
  simp only [h.mem_iff]

theorem isLeast_min? {members : List String} (h : members ≠ []) :
    IsLeast {a | a ∈ members} (members.min?.getD "") := by
  obtain ⟨least, hleast⟩ := Option.isSome_iff_exists.mp (List.isSome_min?_of_ne_nil h)
  rw [hleast]
  exact List.min?_eq_some_iff.mp hleast

theorem rank_lt_iff {c d : List String} : rank c < rank d ↔ d.length < c.length ∨
    c.length = d.length ∧ c.min?.getD "" < d.min?.getD "" := by
  rw [rank, rank, Prod.Lex.toLex_lt_toLex]
  simp

theorem rank_ne {c d : List String} (hc : c ≠ []) (hd : d ≠ []) (h : c.Disjoint d) :
    rank c ≠ rank d := by
  intro heq
  have hleast : c.min?.getD "" = d.min?.getD "" := congrArg (fun r => (ofLex r).2) heq
  have hmem := (isLeast_min? hd).1
  rw [← hleast] at hmem
  exact h (isLeast_min? hc).1 hmem

theorem rank_perm {as bs : List String} (h : as.Perm bs) : rank as = rank bs := by
  rw [rank, rank, h.length_eq, min?_perm h]

def keyed (part : List String) : Value × List Value :=
  (.list [.int (-(part.length : Int)), .str (part.min?.getD "")], part.map .str)

theorem keyed_eq_ok {part : List String} (h : part ≠ []) :
    (do return (Value.list [.int (-((part.map Value.str).length : Int)),
      ← Value.least (part.map .str)], part.map .str)) = Except.ok (keyed part) := by
  obtain ⟨s, rest, rfl⟩ := List.exists_cons_of_ne_nil h
  rw [Value.least_texts, List.length_map]
  rfl

def ranked (minSize : Int) (parts : List (List String)) : List (List String) :=
  (parts.filter fun part => decide (minSize ≤ part.length)).mergeSort
    fun c d => decide (rank c ≤ rank d)

theorem mem_ranked {minSize : Int} {parts : List (List String)} {c : List String} :
    c ∈ ranked minSize parts ↔ c ∈ parts ∧ minSize ≤ c.length := by
  rw [ranked, List.mem_mergeSort, List.mem_filter, decide_eq_true_eq]

/-- Where no two have a member in common, no two have the same rank. -/
theorem ranked_pairwise (minSize : Int) {parts : List (List String)}
    (hne : ∀ part ∈ parts, part ≠ []) (hapart : parts.Pairwise List.Disjoint) :
    (ranked minSize parts).Pairwise fun c d => rank c < rank d := by
  have hdisjoint : (ranked minSize parts).Pairwise List.Disjoint :=
    ((List.mergeSort_perm _ _).pairwise_iff fun h => h.symm).mpr (hapart.filter _)
  refine ((Value.pairwise_mergeSort_rank rank _).and hdisjoint).imp_of_mem fun {c d} hc hd h => ?_
  exact lt_of_le_of_ne h.1
    (rank_ne (hne c (mem_ranked.mp hc).1) (hne d (mem_ranked.mp hd).1) h.2)

theorem largest_texts (minSize : Int) {parts : List (List String)}
    (h : ∀ part ∈ parts, part ≠ []) :
    largest (.int minSize) (parts.map (List.map .str))
      = .ok ((ranked minSize parts).map (List.map .str)) := by
  have hlarge : (parts.map (List.map Value.str)).filterM
      (fun members => Value.le (.int minSize) (.int members.length))
        = .ok ((parts.filter fun part => decide (minSize ≤ part.length)).map (List.map .str)) := by
    rw [Gives.filterM_eq_ok fun members _ => Value.le_int minSize members.length, List.filter_map]
    simp [Function.comp_def]
  have hsorted : Value.sortOn Prod.fst
      ((parts.filter fun part => decide (minSize ≤ part.length)).map keyed) = _ :=
    Value.sortOn_map rank (Value.orderly_pairs _ _ _) fun c _ d _ => Value.before_pairs ..
  refine bind_eq_ok.mpr ⟨_, hlarge, bind_eq_ok.mpr ⟨_, ?_, bind_eq_ok.mpr ⟨_, hsorted, ?_⟩⟩⟩
  · rw [List.mapM_map]
    exact Gives.mapM_eq_ok fun part hpart => keyed_eq_ok (h part (List.mem_of_mem_filter hpart))
  · exact congrArg Except.ok List.map_map

theorem largest_congr {minSize : Int} {found found' : List (List Value)}
    (h : (found.filter fun members => decide (minSize ≤ members.length))
      = found'.filter fun members => decide (minSize ≤ members.length)) :
    largest (.int minSize) found = largest (.int minSize) found' := by
  have hlarge : ∀ found : List (List Value),
      (found.filterM fun members => Value.le (.int minSize) (.int members.length)) = _ := fun _ =>
    Gives.filterM_eq_ok fun members _ => Value.le_int minSize members.length
  unfold largest
  rw [hlarge, hlarge, h]

end Component

/-! ## Findings -/

namespace Cycle

/-- What is said of a cycle with the given members. -/
def report (members : List String) : Finding where
  smell := .cyclicDependencies
  title := s!"Circular dependency involving {members.length} nodes"
  description := s!"Found circular dependency chain: {preview members}"
  cycle := members.map .str
  evidence := .record [("cycle_length", .int members.length)]
  fix := some (advice members.length)
  effort := some (effort members.length)

theorem finding_texts (members : List String) :
    finding (members.map .str) = .ok (report members.mergeSort) := by
  have hnamed : Value.texts ((members.mergeSort.map .str).take membersShown)
      = .ok (members.mergeSort.take membersShown) := by
    rw [← List.map_take, Value.texts_map_str]
  have hrest : ((members.mergeSort.map Value.str).drop membersShown).map Value.text
      = members.mergeSort.drop membersShown := by
    rw [← List.map_drop, List.map_map]
    exact List.map_id _
  refine bind_eq_ok.mpr ⟨_, Value.sorted_texts members, bind_eq_ok.mpr ⟨_, hnamed, ?_⟩⟩
  dsimp only
  rw [hrest, List.take_append_drop, List.length_map]
  rfl

end Cycle

theorem exists_cons_cons {α : Type} {members : List α} (h : 2 ≤ members.length) :
    ∃ a b rest, members = a :: b :: rest := by
  rcases members with _ | ⟨a, _ | ⟨b, rest⟩⟩
  · cases h
  · cases Nat.le_of_succ_le_succ h
  · exact ⟨a, b, rest, rfl⟩

theorem exists_ne_of_two_le_length {α : Type} {members : List α} (hnodup : members.Nodup)
    (h : 2 ≤ members.length) (c : α) : ∃ d ∈ members, c ≠ d := by
  obtain ⟨a, b, rest, rfl⟩ := exists_cons_cons h
  by_cases hca : c = a
  · subst hca
    exact ⟨b, by simp, fun hcb => (List.nodup_cons.mp hnodup).1 (by simp [hcb])⟩
  · exact ⟨a, by simp, hca⟩

theorem two_le_length {α : Type} {members : List α} {a b : α} (ha : a ∈ members) (hb : b ∈ members)
    (hne : a ≠ b) : 2 ≤ members.length := by
  rcases members with _ | ⟨c, _ | ⟨d, rest⟩⟩
  · cases ha
  · rw [List.mem_singleton] at ha hb
    exact absurd (ha.trans hb.symm) hne
  · exact Nat.le_add_left 2 rest.length

theorem eq_of_nodup_flatten {α : Type} {groups : List (List α)} (h : groups.flatten.Nodup)
    {c d : List α} (hc : c ∈ groups) (hd : d ∈ groups) {a : α} (hac : a ∈ c) (had : a ∈ d) :
    c = d := by
  have : Std.Symm (List.Disjoint (α := α)) := ⟨fun _ _ h => h.symm⟩
  by_contra hne
  exact (List.nodup_flatten.mp h).2.forall hc hd hne hac had

namespace Graph

variable {g : Graph} {keep : Edge → Bool}

/-! ## Nodes that reach each other -/

theorem reach_iff_reaches {u v : Fin g.order} :
    Component.Reach (Index.ofArcs (g.arcs keep)).successors u v ↔ g.Reaches keep u v := by
  rw [reach_iff_walk, reaches_iff]

/-- Every vertex is in exactly one group, with all that it reaches and that reach it. -/
structure StrongGroups (g : Graph) (keep : Edge → Bool) (groups : List (List (Fin g.order))) :
    Prop where
  nonempty : ∀ group ∈ groups, group ≠ []
  shared : groups.flatten.Perm g.vertices
  strong : ∀ u v, (∃ group ∈ groups, u ∈ group ∧ v ∈ group) ↔
    g.Reaches keep u v ∧ g.Reaches keep v u

theorem exists_strongGroups (hv : g.Valid) (hc : g.Closed) {kinds : Value} {filter : KindFilter}
    (hkinds : KindFilter.read kinds = .ok filter) :
    ∃ groups, g.StrongGroups filter.keeps groups ∧ (g.components kinds).ComesTo
      (.ok (groups.map (List.map (g.searchName (Index.ofArcs (g.arcs filter.keeps)))))) := by
  obtain ⟨groups, hgroups, hne, hperm, hstrong⟩ :=
    Component.components_spec (Index.ofArcs (g.arcs filter.keeps)).successors
  refine ⟨groups, ⟨hne, hperm, fun u v => ?_⟩, fun journal => ?_⟩
  · rw [hstrong, reach_iff_reaches, reach_iff_reaches]
  · unfold components componentVertices
    rw [hkinds, Logged.lift_ok, pure_bind, index_eq_pure hv hc, pure_bind, hgroups]
    rfl

namespace StrongGroups

variable {groups : List (List (Fin g.order))}

theorem nodup (h : g.StrongGroups keep groups) : groups.flatten.Nodup :=
  h.shared.nodup_iff.mpr (List.nodup_finRange _)

theorem covers (h : g.StrongGroups keep groups) (v : Fin g.order) : ∃ group ∈ groups, v ∈ group :=
  List.mem_flatten.mp (h.shared.mem_iff.mpr (List.mem_finRange v))

theorem mem_iff (h : g.StrongGroups keep groups) {group : List (Fin g.order)}
    (hgroup : group ∈ groups) {v : Fin g.order} (hv : v ∈ group) (w : Fin g.order) :
    w ∈ group ↔ g.Reaches keep v w ∧ g.Reaches keep w v := by
  rw [← h.strong]
  constructor
  · exact fun hw => ⟨group, hgroup, hv, hw⟩
  · rintro ⟨group', hgroup', hv', hw⟩
    rwa [eq_of_nodup_flatten h.nodup hgroup hgroup' hv hv']

end StrongGroups

/-- Nodes on a cycle, of two or more that reach each other, have texts for names. -/
def TextCycles (g : Graph) (keep : Edge → Bool) : Prop :=
  ∀ u v, u ≠ v → g.Reaches keep u v → g.Reaches keep v u → (g.name u).isText = true

theorem TextNamed.textCycles (ht : g.TextNamed) : g.TextCycles keep :=
  fun u _ _ _ _ => isText_name ht u

/-- In a group of two or more every node is on a cycle. -/
theorem TextCycles.isText_name (ht : g.TextCycles keep) {groups : List (List (Fin g.order))}
    (h : g.StrongGroups keep groups) {group : List (Fin g.order)} (hgroup : group ∈ groups)
    (hlarge : 2 ≤ group.length) {v : Fin g.order} (hv : v ∈ group) :
    (g.name v).isText = true := by
  have hnodup := (List.nodup_flatten.mp h.nodup).1 group hgroup
  obtain ⟨w, hw, hne⟩ := exists_ne_of_two_le_length hnodup hlarge v
  obtain ⟨hvw, hwv⟩ := (h.mem_iff hgroup hv w).mp hw
  exact ht v w hne hvw hwv

/-! ## Names that lead to each other -/

/-- A kept edge leads from `a` to `b`. -/
def Leads (g : Graph) (keep : Edge → Bool) (a b : String) : Prop :=
  ∃ e ∈ g.edges, keep e = true ∧ e.source = .str a ∧ e.target = .str b

/-- Kept edges lead from `a` to `b` and back. -/
def Mutual (g : Graph) (keep : Edge → Bool) (a b : String) : Prop :=
  Relation.ReflTransGen (g.Leads keep) a b ∧ Relation.ReflTransGen (g.Leads keep) b a

theorem vertex?_eq_some_iff (hv : g.Valid) (ht : g.TextNamed) {id : Value} {v : Fin g.order} :
    g.vertex? id = some v ↔ id = .str (g.nameText v) := by
  constructor
  · exact fun h => (ht.eq_name h).trans (ht.name_eq v)
  · rintro rfl
    rw [← ht.name_eq v]
    exact hv.vertex?_name v

theorem leads_iff (hv : g.Valid) (ht : g.TextNamed) {v w : Fin g.order} :
    g.Leads keep (g.nameText v) (g.nameText w)
      ↔ w ∈ (Index.ofArcs (g.arcs keep)).successors v := by
  simp only [Leads, mem_successors, vertex?_eq_some_iff hv ht]

/-- Edges lead between names of nodes. -/
theorem Leads.exists_vertices (hc : g.Closed) (ht : g.TextNamed) {a b : String}
    (h : g.Leads keep a b) : (∃ v, g.nameText v = a) ∧ ∃ w, g.nameText w = b := by
  obtain ⟨e, he, -, ha, hb⟩ := h
  obtain ⟨v, w, hv, hw⟩ := closed_iff.mp hc e he
  refine ⟨⟨v, Value.str.inj ?_⟩, w, Value.str.inj ?_⟩
  · rw [← ha, ht.eq_name hv, ht.name_eq]
  · rw [← hb, ht.eq_name hw, ht.name_eq]

/-- From the name of a node edges lead to the names of what is reached from it. -/
theorem exists_of_leads (hv : g.Valid) (hc : g.Closed) (ht : g.TextNamed) {v : Fin g.order}
    {b : String} (h : Relation.ReflTransGen (g.Leads keep) (g.nameText v) b) :
    ∃ w, g.nameText w = b ∧ Component.Reach (Index.ofArcs (g.arcs keep)).successors v w := by
  induction h with
  | refl => exact ⟨v, rfl, .refl⟩
  | tail _ hstep ih =>
    obtain ⟨u, rfl, hu⟩ := ih
    obtain ⟨-, w, rfl⟩ := hstep.exists_vertices hc ht
    exact ⟨w, rfl, hu.tail ((leads_iff hv ht).mp hstep)⟩

theorem reach_iff_leads (hv : g.Valid) (hc : g.Closed) (ht : g.TextNamed) {v w : Fin g.order} :
    Component.Reach (Index.ofArcs (g.arcs keep)).successors v w
      ↔ Relation.ReflTransGen (g.Leads keep) (g.nameText v) (g.nameText w) := by
  constructor
  · exact fun h => Relation.ReflTransGen.lift g.nameText (fun _ _ => (leads_iff hv ht).mpr) _ _ h
  · intro h
    obtain ⟨w', hw', hreach⟩ := exists_of_leads hv hc ht h
    rwa [← nameText_injective hv ht hw']

/-- Different names that lead to each other are those of two nodes that reach each other. -/
theorem Mutual.exists_vertices (hv : g.Valid) (hc : g.Closed) (ht : g.TextNamed) {a b : String}
    (h : g.Mutual keep a b) (hne : a ≠ b) : ∃ v w, g.nameText v = a ∧ g.nameText w = b ∧
      Component.Reach (Index.ofArcs (g.arcs keep)).successors v w ∧
      Component.Reach (Index.ofArcs (g.arcs keep)).successors w v := by
  obtain rfl | ⟨_, hstep, -⟩ := h.1.cases_head
  · exact absurd rfl hne
  obtain ⟨⟨v, rfl⟩, -⟩ := hstep.exists_vertices hc ht
  obtain ⟨w, rfl, hvw⟩ := exists_of_leads hv hc ht h.1
  exact ⟨v, w, rfl, rfl, hvw, (reach_iff_leads hv hc ht).mpr h.2⟩

/-- Every name of a node stands in exactly one list, with all that lead to it and back. -/
structure Classes (g : Graph) (keep : Edge → Bool) (parts : List (List String)) : Prop where
  nonempty : ∀ part ∈ parts, part ≠ []
  nodup : parts.flatten.Nodup
  covers : ∀ v : Fin g.order, ∃ part ∈ parts, g.nameText v ∈ part
  strong : ∀ part ∈ parts, ∀ a ∈ part, ∀ b, b ∈ part ↔ g.Mutual keep a b

theorem StrongGroups.classes {groups : List (List (Fin g.order))} (h : g.StrongGroups keep groups)
    (hv : g.Valid) (hc : g.Closed) (ht : g.TextNamed) :
    g.Classes keep (groups.map (List.map g.nameText)) := by
  have hleads : ∀ {v w}, g.Reaches keep v w ↔
      Relation.ReflTransGen (g.Leads keep) (g.nameText v) (g.nameText w) := by
    intro v w
    rw [← reach_iff_reaches, reach_iff_leads hv hc ht]
  constructor
  case nonempty =>
    refine List.forall_mem_map.mpr fun group hgroup hnil => ?_
    exact h.nonempty group hgroup (List.map_eq_nil_iff.mp hnil)
  case nodup =>
    rw [← List.map_flatten]
    exact h.nodup.map (nameText_injective hv ht)
  case covers =>
    intro v
    obtain ⟨group, hgroup, hmem⟩ := h.covers v
    exact ⟨_, List.mem_map_of_mem hgroup, List.mem_map_of_mem hmem⟩
  case strong =>
    refine List.forall_mem_map.mpr fun group hgroup => List.forall_mem_map.mpr fun v hvmem b => ?_
    constructor
    · intro hb
      obtain ⟨w, hwmem, rfl⟩ := List.mem_map.mp hb
      exact ((h.mem_iff hgroup hvmem w).mp hwmem).imp hleads.mp hleads.mp
    · rintro ⟨hab, hba⟩
      obtain ⟨w, rfl, -⟩ := exists_of_leads hv hc ht hab
      exact List.mem_map_of_mem ((h.mem_iff hgroup hvmem w).mpr ⟨hleads.mpr hab, hleads.mpr hba⟩)

/-! ## Cycles -/

/-- The classes of two or more names that lead to each other, each in order, larger ones first and
then by the least member. -/
structure Cycles (g : Graph) (keep : Edge → Bool) (cycles : List (List String)) : Prop where
  sorted : ∀ c ∈ cycles, c.Pairwise (· < ·)
  large : ∀ c ∈ cycles, 2 ≤ c.length
  strong : ∀ c ∈ cycles, ∀ a ∈ c, ∀ b, b ∈ c ↔ g.Mutual keep a b
  complete : ∀ a b, a ≠ b → g.Mutual keep a b → ∃ c ∈ cycles, a ∈ c
  ordered : cycles.Pairwise fun c d => Component.rank c < Component.rank d

namespace Cycles

variable {g' : Graph} {keep' : Edge → Bool} {cycles cycles' : List (List String)}

/-- A cycle is known from one of its members. -/
theorem eq_of_mem (h : g.Cycles keep cycles) (h' : g'.Cycles keep' cycles')
    (hmutual : ∀ a b, g.Mutual keep a b ↔ g'.Mutual keep' a b) {c d : List String}
    (hc : c ∈ cycles) (hd : d ∈ cycles') {a : String} (hac : a ∈ c) (had : a ∈ d) : c = d := by
  refine (h.sorted c hc).eq_of_mem_iff (h'.sorted d hd) fun b => ?_
  rw [h.strong c hc a hac, h'.strong d hd a had, hmutual]

theorem disjoint (h : g.Cycles keep cycles) : cycles.Pairwise List.Disjoint := by
  refine h.ordered.imp_of_mem fun {c d} hc hd hlt a hac had => ?_
  rw [h.eq_of_mem h (fun _ _ => Iff.rfl) hc hd hac had] at hlt
  exact lt_irrefl _ hlt

theorem subset (h : g.Cycles keep cycles) (h' : g'.Cycles keep' cycles')
    (hmutual : ∀ a b, g.Mutual keep a b ↔ g'.Mutual keep' a b) : cycles ⊆ cycles' := by
  intro c hc
  -- Two members of the cycle show that the other list has one with them.
  obtain ⟨a, b, rest, rfl⟩ := exists_cons_cons (h.large c hc)
  have hne : a ≠ b := ((List.pairwise_cons.mp (h.sorted _ hc)).1 b (by simp)).ne
  have hab : g'.Mutual keep' a b := (hmutual a b).mp ((h.strong _ hc a (by simp) b).mp (by simp))
  obtain ⟨d, hd, had⟩ := h'.complete a b hne hab
  rwa [h.eq_of_mem h' hmutual hc hd (by simp) had]

/-- Where the same names lead to each other, the cycles are the same, in the same order. -/
theorem unique (h : g.Cycles keep cycles) (h' : g'.Cycles keep' cycles')
    (hmutual : ∀ a b, g.Mutual keep a b ↔ g'.Mutual keep' a b) : cycles = cycles' := by
  have : Std.Irrefl fun c d : List String => Component.rank c < Component.rank d :=
    ⟨fun c => lt_irrefl _⟩
  have : Std.Antisymm fun c d : List String => Component.rank c < Component.rank d :=
    ⟨fun c d hcd hdc => absurd hcd (lt_asymm hdc)⟩
  refine h.ordered.eq_of_mem_iff h'.ordered fun c => ?_
  exact ⟨fun hc => h.subset h' hmutual hc, fun hc => h'.subset h (fun a b => (hmutual a b).symm) hc⟩

end Cycles

/-- The classes of two or more, by rank and each in order, are the cycles. -/
theorem Classes.cycles {parts : List (List String)} (h : g.Classes keep parts) (hv : g.Valid)
    (hc : g.Closed) (ht : g.TextNamed) :
    g.Cycles keep ((Component.ranked 2 parts).map fun part => part.mergeSort) := by
  obtain ⟨hinside, hapart⟩ := List.nodup_flatten.mp h.nodup
  constructor
  case sorted =>
    refine List.forall_mem_map.mpr fun part hpart => ?_
    have hnodup : part.mergeSort.Nodup :=
      (List.mergeSort_perm part _).nodup_iff.mpr (hinside part (Component.mem_ranked.mp hpart).1)
    exact (List.sortedLE_mergeSort.pairwise.and hnodup).imp fun hab => lt_of_le_of_ne hab.1 hab.2
  case large =>
    refine List.forall_mem_map.mpr fun part hpart => ?_
    rw [List.length_mergeSort]
    exact Int.ofNat_le.mp (Component.mem_ranked.mp hpart).2
  case strong =>
    refine List.forall_mem_map.mpr fun part hpart a ha b => ?_
    rw [List.mem_mergeSort] at ha ⊢
    exact h.strong part (Component.mem_ranked.mp hpart).1 a ha b
  case complete =>
    intro a b hne hab
    obtain ⟨v, -, rfl, -⟩ := hab.exists_vertices hv hc ht hne
    obtain ⟨part, hpart, ha⟩ := h.covers v
    have hb : b ∈ part := (h.strong part hpart _ ha b).mpr hab
    have hlarge := Int.ofNat_le.mpr (two_le_length ha hb hne)
    exact ⟨_, List.mem_map_of_mem (Component.mem_ranked.mpr ⟨hpart, hlarge⟩),
      List.mem_mergeSort.mpr ha⟩
  case ordered =>
    rw [List.pairwise_map]
    refine (Component.ranked_pairwise 2 h.nonempty hapart).imp fun {c d} hlt => ?_
    rwa [Component.rank_perm (List.mergeSort_perm c _),
      Component.rank_perm (List.mergeSort_perm d _)]

/-- The larger groups are answered by rank if their names are texts. -/
theorem TextCycles.cyclicComponents_comesTo (ht : g.TextCycles keep)
    {groups : List (List (Fin g.order))} (h : g.StrongGroups keep groups) {kinds : Value}
    (hfound : (g.components kinds).ComesTo
      (.ok (groups.map (List.map (g.searchName (Index.ofArcs (g.arcs keep))))))) :
    (g.cyclicComponents Cycle.leastSize kinds).ComesTo
      (.ok ((Component.ranked 2 (groups.map (List.map g.nameText))).map (List.map .str))) := by
  have hne : ∀ part ∈ groups.map (List.map g.nameText), part ≠ [] :=
    List.forall_mem_map.mpr fun group hgroup hnil =>
      h.nonempty group hgroup (List.map_eq_nil_iff.mp hnil)
  refine hfound.andThen ?_
  rw [← Component.largest_texts 2 hne]
  have hlarge : Component.largest (.int 2)
      (groups.map (List.map (g.searchName (Index.ofArcs (g.arcs keep)))))
        = Component.largest (.int 2) ((groups.map (List.map g.nameText)).map (List.map .str)) := by
    refine Component.largest_congr ?_
    simp only [List.filter_map, List.map_map, Function.comp_def, List.length_map]
    refine List.map_congr_left fun group hgroup => List.map_congr_left fun v hv => ?_
    obtain ⟨hgroup, hsize⟩ := List.mem_filter.mp hgroup
    have htext := ht.isText_name h hgroup (Int.ofNat_le.mp (of_decide_eq_true hsize)) hv
    exact (names_searchName keep v).eq_of_text (name_eq_of_isText htext)
  rw [← hlarge]
  exact Logged.ComesTo.lift _

end Graph

namespace Cycle

variable {g : Graph} {t : Thresholds} {keep : Edge → Bool}

/-- Where the names on cycles are texts, one finding is reported for each of the larger groups. -/
theorem detect_comesTo (ht : g.TextCycles keep) {groups : List (List (Fin g.order))}
    (h : g.StrongGroups keep groups) (hfound : (g.components t.cycleEdgeKinds).ComesTo
      (.ok (groups.map (List.map (g.searchName (Index.ofArcs (g.arcs keep))))))) :
    (detect g t).ComesTo (.ok (((Component.ranked 2 (groups.map (List.map g.nameText))).map
      fun part => part.mergeSort).map report)) := by
  refine (ht.cyclicComponents_comesTo h hfound).andThen ?_
  have hfindings : (Component.ranked 2 (groups.map (List.map g.nameText))).mapM
      (finding ∘ List.map .str) = _ := Gives.mapM_eq_ok fun part _ => finding_texts part
  rw [Logged.mapM_lift, List.mapM_map, hfindings, Logged.lift_ok, List.map_map]
  exact fun journal => rfl

theorem exists_cycles (hv : g.Valid) (hc : g.Closed) (ht : g.TextNamed) {filter : KindFilter}
    (hkinds : KindFilter.read t.cycleEdgeKinds = .ok filter) :
    ∃ cycles, g.Cycles filter.keeps cycles ∧ (detect g t).ComesTo (.ok (cycles.map report)) := by
  obtain ⟨groups, hgroups, hfound⟩ := Graph.exists_strongGroups hv hc hkinds
  exact ⟨_, (hgroups.classes hv hc ht).cycles hv hc ht, detect_comesTo ht.textCycles hgroups hfound⟩

end Cycle

end CodeGraph
