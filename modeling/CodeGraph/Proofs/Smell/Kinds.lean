import CodeGraph.Proofs.Smell.Cycle

/-!
# More kinds of edges, larger cycles

With more kinds of edges to follow more nodes are reached, so a component over
some kinds lies inside one component over more of them
(`StrongGroups.existsUnique_wider`). What is reported is another matter: members
are compared and joined as texts, so the detector answers just when the nodes on
cycles have texts for names (`Cycle.detect_answers_iff`). It may answer for some
kinds and fail for more (`Cycle.numbered_circle_fails`); where it answers for
more, it answers for fewer, and the cycles lie inside one another
(`Cycle.cycles_within_wider`).
-/

namespace CodeGraph

/-! ## Answers come from texts -/

namespace Value

theorem isText_of_relate? {a b : Value} (h : (relate? a b).isSome = true) :
    a.isText = b.isText := by
  cases a <;> cases b <;> simp_all [relate?, isText, relateNumbers?, asInt?]

/-- The least of some values is found only if all of them are texts or none is. -/
theorem isText_of_least {members : List Value} {m : Value} (h : least members = .ok m) :
    ∀ a ∈ members, ∀ b ∈ members, a.isText = b.isText := by
  cases members with
  | nil => cases h
  | cons first rest =>
    suffices ∀ a ∈ rest, a.isText = first.isText by
      have hall : ∀ a ∈ first :: rest, a.isText = first.isText :=
        List.forall_mem_cons.mpr ⟨rfl, this⟩
      exact fun a ha b hb => (hall a ha).trans (hall b hb).symm
    -- The best so far is a text just when the first one is.
    induction rest generalizing first with
    | nil => exact fun a ha => absurd ha List.not_mem_nil
    | cons second rest ih =>
      rw [least, List.foldlM_cons] at h
      obtain ⟨best, hbest, h⟩ := bind_eq_ok.mp h
      obtain ⟨less, hless, hbest⟩ := bind_eq_ok.mp hbest
      have hsecond := isText_of_relate? (relate?_isSome_of_map hless)
      obtain rfl := Except.ok.inj hbest
      have hsame : (if less = true then second else first).isText = first.isText := by
        split
        · exact hsecond
        · rfl
      refine List.forall_mem_cons.mpr ⟨hsecond, fun a ha => ?_⟩
      exact (ih _ h a ha).trans hsame

end Value

/-- Large components are all answered, and each has a least member. -/
theorem Component.of_largest {minSize : Int} {found cycles : List (List Value)}
    (h : largest (.int minSize) found = .ok cycles) {members : List Value}
    (hmembers : members ∈ found) (hsize : minSize ≤ members.length) :
    members ∈ cycles ∧ ∃ m, Value.least members = .ok m := by
  obtain ⟨large, hlarge, h⟩ := bind_eq_ok.mp h
  obtain ⟨keyed, hkeyed, h⟩ := bind_eq_ok.mp h
  obtain ⟨sorted, hsorted, h⟩ := bind_eq_ok.mp h
  obtain rfl := Except.ok.inj h
  rw [Gives.filterM_eq_ok fun members _ => Value.le_int minSize members.length] at hlarge
  obtain rfl := Except.ok.inj hlarge
  have hmem : members ∈ found.filter fun members => decide (minSize ≤ members.length) :=
    List.mem_filter.mpr ⟨hmembers, decide_eq_true hsize⟩
  obtain ⟨entry, hentry, hkey⟩ := exists_mem_of_forall₂ (Gives.forall₂_of_mapM hkeyed) members hmem
  obtain ⟨m, hm, hkey⟩ := bind_eq_ok.mp hkey
  obtain rfl := Except.ok.inj hkey
  exact ⟨List.mem_map.mpr ⟨_, (Value.sortOn_perm hsorted).mem_iff.mpr hentry, rfl⟩, m, hm⟩

namespace Cycle

/-- The members that a finding shows are texts, and it shows one at least. -/
theorem exists_isText_of_finding {cycle : List Value} {f : Finding} (h : finding cycle = .ok f)
    (hne : cycle ≠ []) : ∃ member ∈ cycle, member.isText = true := by
  obtain ⟨members, hmembers, h⟩ := bind_eq_ok.mp h
  obtain ⟨named, hnamed, -⟩ := bind_eq_ok.mp h
  have hperm := Value.sortOn_perm hmembers
  cases members with
  | nil => exact absurd hperm.nil_eq.symm hne
  | cons first rest =>
    refine ⟨first, hperm.mem_iff.mp (List.mem_cons_self ..), ?_⟩
    obtain ⟨_, hfirst⟩ := Gives.of_mapM hnamed (first, 0) (List.mem_cons_self ..)
    cases first with
    | str s => rfl
    | _ => cases hfirst

end Cycle

namespace Graph

variable {g : Graph} {keep keep' : Edge → Bool}

/-- A name is a text just when the node's own is. -/
theorem Names.isText_eq {v : Fin g.order} {id : Value} (h : g.Names v id) :
    id.isText = (g.name v).isText := by
  rcases h with rfl | hid
  · rfl
  · have hsame := same_of_vertex? hid
    revert hsame
    cases g.name v <;> cases id <;>
      simp [Value.same, Value.isText, Value.relateNumbers?, Value.asInt?]

end Graph

namespace Cycle

variable {g : Graph} {t : Thresholds} {filter : KindFilter}

/-- An answer shows that the names on cycles are texts. -/
theorem textCycles_of_detect (hv : g.Valid) (hc : g.Closed)
    (hkinds : KindFilter.read t.cycleEdgeKinds = .ok filter) {journal : Journal}
    {findings : List Finding} (h : (detect g t).outcome journal = .ok findings) :
    g.TextCycles filter.keeps := by
  intro u v hne huv hvu
  obtain ⟨groups, hgroups, hfound⟩ := Graph.exists_strongGroups hv hc hkinds
  obtain ⟨group, hgroup, hu, hw⟩ := (hgroups.strong u v).mpr ⟨huv, hvu⟩
  obtain ⟨cycles, journal', hcycles, h⟩ := Logged.exists_of_bind_eq_ok h
  obtain ⟨_, _, hfindings, -⟩ := Logged.exists_of_bind_eq_ok h
  rw [Logged.mapM_lift, Logged.ComesTo.lift] at hfindings
  obtain ⟨found, _, hcomponents, hlargest⟩ := Logged.exists_of_bind_eq_ok hcycles
  rw [hfound] at hcomponents
  obtain rfl := Except.ok.inj hcomponents
  rw [Logged.ComesTo.lift] at hlargest
  have hsize : (2 : Int) ≤ (group.map
      (g.searchName (Index.ofArcs (g.arcs filter.keeps)))).length := by
    rw [List.length_map]
    exact Int.ofNat_le.mpr (two_le_length hu hw hne)
  obtain ⟨hcycle, m, hm⟩ := Component.of_largest hlargest (List.mem_map_of_mem hgroup) hsize
  obtain ⟨f, hf⟩ := Gives.of_mapM hfindings _ hcycle
  obtain ⟨member, hmember, htext⟩ := exists_isText_of_finding hf
    (List.ne_nil_of_mem (List.mem_map_of_mem hu))
  rw [← (Graph.names_searchName filter.keeps u).isText_eq, ← htext]
  exact Value.isText_of_least hm _ (List.mem_map_of_mem hu) _ hmember

/-- The detector answers just when the nodes on cycles have texts for names. -/
theorem detect_answers_iff (hv : g.Valid) (hc : g.Closed)
    (hkinds : KindFilter.read t.cycleEdgeKinds = .ok filter) (journal : Journal) :
    (∃ findings, (detect g t).outcome journal = .ok findings) ↔ g.TextCycles filter.keeps := by
  constructor
  · rintro ⟨findings, h⟩
    exact textCycles_of_detect hv hc hkinds h
  · intro ht
    obtain ⟨groups, hgroups, hfound⟩ := Graph.exists_strongGroups hv hc hkinds
    exact ⟨_, detect_comesTo ht hgroups hfound journal⟩

end Cycle

/-! ## Wider components -/

namespace Graph

variable {g : Graph} {keep keep' : Edge → Bool}

theorem Reaches.single {e : Edge} (he : e ∈ g.edges) (hkeep : keep e = true) {u v : Fin g.order}
    (hu : g.vertex? e.source = some u) (hv : g.vertex? e.target = some v) : g.Reaches keep u v :=
  ⟨[e], ⟨he, hkeep, hu⟩, v, hv, rfl⟩

theorem Reaches.trans {u v w : Fin g.order} (huv : g.Reaches keep u v) (hvw : g.Reaches keep v w) :
    g.Reaches keep u w := by
  rw [← reach_iff_reaches] at huv hvw ⊢
  exact Relation.ReflTransGen.trans huv hvw

theorem Reaches.mono (hwider : ∀ e, keep e = true → keep' e = true) {u v : Fin g.order}
    (h : g.Reaches keep u v) : g.Reaches keep' u v := by
  rw [← reach_iff_reaches] at h ⊢
  refine Relation.ReflTransGen.mono (fun a b hstep => ?_) u v h
  obtain ⟨e, he, hkeep, hends⟩ := mem_successors.mp hstep
  exact mem_successors.mpr ⟨e, he, hwider e hkeep, hends⟩

theorem TextCycles.mono (hwider : ∀ e, keep e = true → keep' e = true)
    (h : g.TextCycles keep') : g.TextCycles keep :=
  fun u v hne huv hvu => h u v hne (huv.mono hwider) (hvu.mono hwider)

/-- A component lies inside exactly one component over more edges. -/
theorem StrongGroups.existsUnique_wider {groups groups' : List (List (Fin g.order))}
    (h : g.StrongGroups keep groups) (h' : g.StrongGroups keep' groups')
    (hwider : ∀ e, keep e = true → keep' e = true) {group : List (Fin g.order)}
    (hgroup : group ∈ groups) : ∃! group', group' ∈ groups' ∧ group ⊆ group' := by
  obtain ⟨v, hv⟩ := List.exists_mem_of_ne_nil group (h.nonempty group hgroup)
  obtain ⟨group', hgroup', hv'⟩ := h'.covers v
  refine ⟨group', ⟨hgroup', fun w hw => ?_⟩, fun other hother => ?_⟩
  · obtain ⟨hvw, hwv⟩ := (h.mem_iff hgroup hv w).mp hw
    exact (h'.mem_iff hgroup' hv' w).mpr ⟨hvw.mono hwider, hwv.mono hwider⟩
  · exact eq_of_nodup_flatten h'.nodup hother.1 hgroup' (hother.2 hv) hv'

end Graph

/-! ## Wider cycles -/

namespace Cycle

variable {g : Graph} {groups : List (List (Fin g.order))}

/-- What is reported of a group of nodes with texts for names. -/
def reportOf (g : Graph) (group : List (Fin g.order)) : Finding :=
  report (group.map g.nameText).mergeSort

theorem length_reportOf (group : List (Fin g.order)) :
    (reportOf g group).cycle.length = group.length := by
  simp [reportOf, report]

theorem mem_reportOf {group : List (Fin g.order)} {id : Value} :
    id ∈ (reportOf g group).cycle ↔ ∃ v ∈ group, .str (g.nameText v) = id := by
  simp [reportOf, report]

theorem mem_reports {f : Finding} :
    f ∈ ((Component.ranked 2 (groups.map (List.map g.nameText))).map
      fun part => part.mergeSort).map report ↔
        ∃ group ∈ groups, 2 ≤ group.length ∧ reportOf g group = f := by
  simp only [List.mem_map, Component.mem_ranked]
  constructor
  · rintro ⟨_, ⟨_, ⟨⟨group, hgroup, rfl⟩, hsize⟩, rfl⟩, rfl⟩
    rw [List.length_map] at hsize
    exact ⟨group, hgroup, Int.ofNat_le.mp hsize, rfl⟩
  · rintro ⟨group, hgroup, hsize, rfl⟩
    refine ⟨_, ⟨_, ⟨⟨group, hgroup, rfl⟩, ?_⟩, rfl⟩, rfl⟩
    rw [List.length_map]
    exact Int.ofNat_le.mpr hsize

/-- Two groups on record that have a name in common are one. -/
theorem eq_of_mem_reportOf {keep : Edge → Bool} (hv : g.Valid) (ht : g.TextCycles keep)
    (h : g.StrongGroups keep groups) {c d : List (Fin g.order)} (hc : c ∈ groups) (hd : d ∈ groups)
    (hcsize : 2 ≤ c.length) (hdsize : 2 ≤ d.length) {id : Value}
    (hidc : id ∈ (reportOf g c).cycle) (hidd : id ∈ (reportOf g d).cycle) : c = d := by
  obtain ⟨v, hvc, rfl⟩ := mem_reportOf.mp hidc
  obtain ⟨w, hwd, hname⟩ := mem_reportOf.mp hidd
  have hvtext := ht.isText_name h hc hcsize hvc
  have hwtext := ht.isText_name h hd hdsize hwd
  obtain rfl := hv.eq_of_nameText hwtext hvtext (Value.str.inj hname)
  exact eq_of_nodup_flatten h.nodup hc hd hvc hwd

theorem exists_finding_of_reaches {t : Thresholds} {filter : KindFilter} (hv : g.Valid)
    (hc : g.Closed) (hkinds : KindFilter.read t.cycleEdgeKinds = .ok filter) {journal : Journal}
    {findings : List Finding} (h : (detect g t).outcome journal = .ok findings)
    {u v : Fin g.order} (hne : u ≠ v) (huv : g.Reaches filter.keeps u v)
    (hvu : g.Reaches filter.keeps v u) :
    ∃ f ∈ findings, g.name u ∈ f.cycle ∧ g.name v ∈ f.cycle := by
  have ht := textCycles_of_detect hv hc hkinds h
  obtain ⟨groups, hgroups, hfound⟩ := Graph.exists_strongGroups hv hc hkinds
  rw [detect_comesTo ht hgroups hfound] at h
  obtain rfl := Except.ok.inj h
  obtain ⟨group, hgroup, hu, hw⟩ := (hgroups.strong u v).mpr ⟨huv, hvu⟩
  refine ⟨_, mem_reports.mpr ⟨group, hgroup, two_le_length hu hw hne, rfl⟩, ?_, ?_⟩
  · rw [Graph.name_eq_of_isText (ht u v hne huv hvu)]
    exact mem_reportOf.mpr ⟨u, hu, rfl⟩
  · rw [Graph.name_eq_of_isText (ht v u hne.symm hvu huv)]
    exact mem_reportOf.mpr ⟨v, hw, rfl⟩

/-- Over more kinds of edges every component lies inside exactly one of the new ones. Where the
detector answers for them, as it does just when the nodes on their cycles have texts for names, it
answers for fewer kinds too, and every cycle lies inside exactly one of the new ones and is no
larger. -/
theorem cycles_within_wider (hv : g.Valid) (hc : g.Closed) {t t' : Thresholds}
    {filter filter' : KindFilter} (hkinds : KindFilter.read t.cycleEdgeKinds = .ok filter)
    (hkinds' : KindFilter.read t'.cycleEdgeKinds = .ok filter')
    (hwider : ∀ e, filter.keeps e = true → filter'.keeps e = true) (journal journal' : Journal) :
    (∃ (groups groups' : List (List (Fin g.order))) (name name' : Fin g.order → Value),
      (g.components t.cycleEdgeKinds).outcome journal = .ok (groups.map (List.map name)) ∧
      (g.components t'.cycleEdgeKinds).outcome journal' = .ok (groups'.map (List.map name')) ∧
      (∀ v, g.Names v (name v) ∧ g.Names v (name' v)) ∧
      groups.flatten.Perm g.vertices ∧ groups'.flatten.Perm g.vertices ∧
      ∀ group ∈ groups, ∃! group', group' ∈ groups' ∧ group ⊆ group') ∧
    ((∃ findings', (detect g t').outcome journal' = .ok findings') ↔
      g.TextCycles filter'.keeps) ∧
    ∀ findings', (detect g t').outcome journal' = .ok findings' →
      ∃ findings, (detect g t).outcome journal = .ok findings ∧
        ∀ f ∈ findings, ∃ f' ∈ findings', f.cycle ⊆ f'.cycle ∧ f.cycle.length ≤ f'.cycle.length ∧
          ∀ other ∈ findings', f.cycle ⊆ other.cycle → other = f' := by
  obtain ⟨groups, hgroups, hfound⟩ := Graph.exists_strongGroups hv hc hkinds
  obtain ⟨groups', hgroups', hfound'⟩ := Graph.exists_strongGroups hv hc hkinds'
  refine ⟨⟨groups, groups', _, _, hfound journal, hfound' journal', fun v =>
      ⟨Graph.names_searchName _ v, Graph.names_searchName _ v⟩, hgroups.shared, hgroups'.shared,
      fun group hgroup => hgroups.existsUnique_wider hgroups' hwider hgroup⟩,
    detect_answers_iff hv hc hkinds' journal', fun findings' hfindings' => ?_⟩
  have ht' := textCycles_of_detect hv hc hkinds' hfindings'
  rw [detect_comesTo ht' hgroups' hfound'] at hfindings'
  obtain rfl := Except.ok.inj hfindings'
  refine ⟨_, detect_comesTo (ht'.mono hwider) hgroups hfound journal, fun f hf => ?_⟩
  obtain ⟨group, hgroup, hsize, rfl⟩ := mem_reports.mp hf
  obtain ⟨group', ⟨hgroup', hinside⟩, -⟩ := hgroups.existsUnique_wider hgroups' hwider hgroup
  have hnodup := (List.nodup_flatten.mp hgroups.nodup).1 group hgroup
  have hlength : group.length ≤ group'.length := (List.subperm_of_subset hnodup hinside).length_le
  have hcycle : (reportOf g group).cycle ⊆ (reportOf g group').cycle := by
    intro id hid
    obtain ⟨v, hvmem, rfl⟩ := mem_reportOf.mp hid
    exact mem_reportOf.mpr ⟨v, hinside hvmem, rfl⟩
  refine ⟨_, mem_reports.mpr ⟨group', hgroup', hsize.trans hlength, rfl⟩, hcycle, ?_, ?_⟩
  · rwa [length_reportOf, length_reportOf]
  · intro other hother hinside'
    obtain ⟨group'', hgroup'', hsize'', rfl⟩ := mem_reports.mp hother
    obtain ⟨v, hvmem⟩ := List.exists_mem_of_ne_nil group (hgroups.nonempty group hgroup)
    have hid : Value.str (g.nameText v) ∈ (reportOf g group).cycle :=
      mem_reportOf.mpr ⟨v, hvmem, rfl⟩
    rw [eq_of_mem_reportOf hv ht' hgroups' hgroup'' hgroup' hsize'' (hsize.trans hlength)
      (hinside' hid) (hcycle hid)]

end Cycle

/-! ## Some kinds and all of them

A circle of calls between two functions, first as part of a larger one, then
beside one of nodes whose names are numbers. -/

/-- Follow calls alone. -/
def Thresholds.callsOnly : Thresholds :=
  { cycleEdgeKinds := .list [.str "call_graph"] }

theorem Thresholds.read_callsOnly :
    KindFilter.read callsOnly.cycleEdgeKinds = .ok (some [.callGraph]) := rfl

namespace Graph

def nestedCircles : Graph where
  nodes := [specimenNode "a", specimenNode "b", specimenNode "c"]
  edges := [specimenEdge "ab" "a" "b" .callGraph, specimenEdge "ba" "b" "a" .callGraph,
    specimenEdge "bc" "b" "c" .dataFlow, specimenEdge "ca" "c" "a" .dataFlow]
  cache := []
  metadata := []

def numberedNode (id : Int) : Node :=
  ⟨.int id, .str "function", .null, .empty⟩

def numberedEdge (id : String) (source target : Int) : Edge :=
  ⟨.str id, .int source, .int target, .dataFlow, .null, .empty⟩

def numberedCircle : Graph where
  nodes := [specimenNode "a", specimenNode "b", numberedNode 1, numberedNode 2, numberedNode 3]
  edges := [specimenEdge "ab" "a" "b" .callGraph, specimenEdge "ba" "b" "a" .callGraph,
    numberedEdge "12" 1 2, numberedEdge "23" 2 3, numberedEdge "31" 3 1]
  cache := []
  metadata := []

end Graph

namespace Cycle

open CodeGraph.Graph in
theorem cycles_within_wider_nestedCircles :
    nestedCircles.Valid ∧ nestedCircles.Closed ∧
    KindFilter.read Thresholds.callsOnly.cycleEdgeKinds = .ok (some [.callGraph]) ∧
    KindFilter.read (Thresholds.cycleEdgeKinds {}) = .ok none ∧
    (∀ e, KindFilter.keeps (some [.callGraph]) e = true → KindFilter.keeps none e = true) ∧
    ∃ findings findings', (detect nestedCircles .callsOnly).outcome .empty = .ok findings ∧
      (detect nestedCircles {}).outcome .empty = .ok findings' ∧
      (∃ f ∈ findings, .str "a" ∈ f.cycle ∧ .str "b" ∈ f.cycle) ∧
      ∀ f ∈ findings, ∃ f' ∈ findings', f.cycle ⊆ f'.cycle ∧ f.cycle.length ≤ f'.cycle.length ∧
        ∀ other ∈ findings', f.cycle ⊆ other.cycle → other = f' := by
  have hv : nestedCircles.Valid :=
    ⟨⟨by simp [nestedCircles, specimenNode, Value.isScalar],
      by simp [nestedCircles, specimenNode, Value.same]⟩,
      by simp [nestedCircles, specimenNode, Value.same]⟩
  have hc : nestedCircles.Closed := by
    unfold Closed
    decide +kernel
  have ht : nestedCircles.TextNamed := by
    simp [TextNamed, nestedCircles, specimenNode, Value.isText]
  have hnull : KindFilter.read (Thresholds.cycleEdgeKinds {}) = .ok none := rfl
  have hwider : ∀ e, KindFilter.keeps (some [.callGraph]) e = true →
      KindFilter.keeps none e = true := fun _ _ => rfl
  obtain ⟨-, hanswers, hwithin⟩ := cycles_within_wider hv hc Thresholds.read_callsOnly hnull hwider
    .empty .empty
  obtain ⟨findings', hfindings'⟩ := hanswers.mpr ht.textCycles
  obtain ⟨findings, hfindings, hinside⟩ := hwithin findings' hfindings'
  refine ⟨hv, hc, Thresholds.read_callsOnly, hnull, hwider, findings, findings', hfindings,
    hfindings', ?_, hinside⟩
  have hab : nestedCircles.Reaches (KindFilter.keeps (some [.callGraph])) ⟨0, by decide⟩
      ⟨1, by decide⟩ :=
    .single (List.get_mem nestedCircles.edges ⟨0, by decide⟩) rfl (by decide +kernel)
      (by decide +kernel)
  have hba : nestedCircles.Reaches (KindFilter.keeps (some [.callGraph])) ⟨1, by decide⟩
      ⟨0, by decide⟩ :=
    .single (List.get_mem nestedCircles.edges ⟨1, by decide⟩) rfl (by decide +kernel)
      (by decide +kernel)
  exact exists_finding_of_reaches hv hc Thresholds.read_callsOnly hfindings (by decide) hab hba

open CodeGraph.Graph in
/-- With calls alone the circle of calls is found. With all kinds nothing is answered, since the
other circle has numbers for names. -/
theorem numbered_circle_fails :
    numberedCircle.Valid ∧ numberedCircle.Closed ∧
    KindFilter.read Thresholds.callsOnly.cycleEdgeKinds = .ok (some [.callGraph]) ∧
    KindFilter.read (Thresholds.cycleEdgeKinds {}) = .ok none ∧
    (∀ e, KindFilter.keeps (some [.callGraph]) e = true → KindFilter.keeps none e = true) ∧
    (∃ findings, (detect numberedCircle .callsOnly).outcome .empty = .ok findings ∧
      ∃ f ∈ findings, .str "a" ∈ f.cycle ∧ .str "b" ∈ f.cycle) ∧
    ∀ findings', (detect numberedCircle {}).outcome .empty ≠ .ok findings' := by
  have hv : numberedCircle.Valid := by
    refine ⟨⟨?_, ?_⟩, ?_⟩
    · simp [numberedCircle, specimenNode, numberedNode, Value.isScalar]
    · decide +kernel
    · decide +kernel
  have hc : numberedCircle.Closed := by
    unfold Closed
    decide +kernel
  have hnull : KindFilter.read (Thresholds.cycleEdgeKinds {}) = .ok none := rfl
  have ht : numberedCircle.TextCycles (KindFilter.keeps (some [.callGraph])) := by
    intro u v hne huv _
    rw [← reach_iff_reaches] at huv
    obtain rfl | ⟨w, hstep, -⟩ := huv.cases_head
    · exact absurd rfl hne
    obtain ⟨e, he, hkeep, hsource, -⟩ := mem_successors.mp hstep
    rw [← Names.isText_eq (.inr hsource)]
    have hcalls : ∀ e ∈ numberedCircle.edges, KindFilter.keeps (some [.callGraph]) e = true →
        e.source.isText = true := by
      decide +kernel
    exact hcalls e he hkeep
  obtain ⟨findings, hfindings⟩ :=
    (detect_answers_iff hv hc Thresholds.read_callsOnly .empty).mpr ht
  refine ⟨hv, hc, Thresholds.read_callsOnly, hnull, fun _ _ => rfl, ⟨findings, hfindings, ?_⟩, ?_⟩
  · have hab : numberedCircle.Reaches (KindFilter.keeps (some [.callGraph])) ⟨0, by decide⟩
        ⟨1, by decide⟩ :=
      .single (List.get_mem numberedCircle.edges ⟨0, by decide⟩) rfl (by decide +kernel)
        (by decide +kernel)
    have hba : numberedCircle.Reaches (KindFilter.keeps (some [.callGraph])) ⟨1, by decide⟩
        ⟨0, by decide⟩ :=
      .single (List.get_mem numberedCircle.edges ⟨1, by decide⟩) rfl (by decide +kernel)
        (by decide +kernel)
    exact exists_finding_of_reaches hv hc Thresholds.read_callsOnly hfindings (by decide) hab hba
  · intro findings' hfindings'
    have htexts := textCycles_of_detect hv hc hnull hfindings'
    have hthere : numberedCircle.Reaches (KindFilter.keeps none) ⟨2, by decide⟩ ⟨3, by decide⟩ :=
      .single (List.get_mem numberedCircle.edges ⟨2, by decide⟩) rfl (by decide +kernel)
        (by decide +kernel)
    have honward : numberedCircle.Reaches (KindFilter.keeps none) ⟨3, by decide⟩ ⟨4, by decide⟩ :=
      .single (List.get_mem numberedCircle.edges ⟨3, by decide⟩) rfl (by decide +kernel)
        (by decide +kernel)
    have hback : numberedCircle.Reaches (KindFilter.keeps none) ⟨4, by decide⟩ ⟨2, by decide⟩ :=
      .single (List.get_mem numberedCircle.edges ⟨4, by decide⟩) rfl (by decide +kernel)
        (by decide +kernel)
    cases htexts _ _ (by decide) hthere (honward.trans hback)

end Cycle

end CodeGraph
