import Mathlib.Data.List.DropRight
import CodeGraph.Proofs.Path.Critical
import CodeGraph.Proofs.Path.UnitCosts

/-!
# The walk that a path by number of edges follows

Of the walks with the fewest edges, a path by number of edges follows the one
whose edges come first in the list of edges, compared from the source on. Walks
are written as the places of their edges (`LeastWalk`), so that parallel edges
are told apart even where they are equal.

The search numbers arcs by where they are first listed (`placeIn`). An edge that
is listed again has a later place but the same arc, so its place is no smaller
than the number of its arc, and the least sequence of numbers is the least one of
places.

Names are another matter. They are read off the path backwards up to a nameless
node, and what comes before it is lost (`NamedPart`, `unnamed_walk_cut`).
-/

namespace CodeGraph.Graph

variable {g : Graph} {source target : Value} {s t : Fin g.order} {depth : Option Nat}

/-! ## Least walks -/

/-- The places of edges that lead from `s` to `t`: as few as possible, and of these the least. -/
structure LeastWalk (g : Graph) (s : Fin g.order) (code : List (Fin g.edges.length))
    (t : Fin g.order) : Prop where
  walk : g.Walk keepAll s (code.map g.edges.get) t
  shortest : ∀ other : List (Fin g.edges.length),
    g.Walk keepAll s (other.map g.edges.get) t → code.length ≤ other.length
  least : ∀ other : List (Fin g.edges.length),
    g.Walk keepAll s (other.map g.edges.get) t → other.length = code.length → code ≤ other

theorem LeastWalk.unique {code other : List (Fin g.edges.length)} (h : g.LeastWalk s code t)
    (h' : g.LeastWalk s other t) : other = code := by
  have hlen : other.length = code.length :=
    Nat.le_antisymm (h'.shortest code h.walk) (h.shortest other h'.walk)
  exact le_antisymm (h'.least code h.walk hlen.symm) (h.least other h'.walk hlen)

theorem arcs_keepAll (hc : g.Closed) :
    g.arcs keepAll = (List.finRange g.edges.length).map (g.arcAt hc) := by
  rw [arcs_eq_map hc]
  simp [keepAll]

/-- An arc is that of the edge at the place where the arc is first listed. -/
theorem exists_place (hc : g.Closed) {arc : Arc g.order} (h : arc ∈ g.arcs keepAll) :
    ∃ i : Fin g.edges.length, g.arcAt hc i = arc ∧ (i : Nat) = placeIn (g.arcs keepAll) arc := by
  classical
  rw [arcs_keepAll hc] at h ⊢
  have hlt := List.idxOf_lt_length_of_mem h
  have harc := List.getElem_idxOf hlt
  rw [List.getElem_map, List.getElem_finRange] at harc
  exact ⟨_, harc, by simp [placeIn]⟩

/-- An edge may be listed again, so that its arc has an earlier place. -/
theorem placeIn_arcAt_le (hc : g.Closed) (i : Fin g.edges.length) :
    placeIn (g.arcs keepAll) (g.arcAt hc i) ≤ i := by
  classical
  rw [arcs_keepAll hc, placeIn, List.idxOf]
  by_contra hlt
  have hother := List.not_of_lt_findIdx (Nat.lt_of_not_le hlt)
  simp at hother

theorem exists_places (hc : g.Closed) {p : List (Arc g.order)} (h : p ⊆ g.arcs keepAll) :
    ∃ code : List (Fin g.edges.length), code.map (g.arcAt hc) = p ∧
      code.map Fin.val = p.map (placeIn (g.arcs keepAll)) := by
  induction p with
  | nil => exact ⟨[], rfl, rfl⟩
  | cons arc rest ih =>
      obtain ⟨harc, hrest⟩ := List.cons_subset.mp h
      obtain ⟨i, rfl, hplace⟩ := exists_place hc harc
      obtain ⟨code, rfl, hplaces⟩ := ih hrest
      exact ⟨i :: code, rfl, by rw [List.map_cons, List.map_cons, hplace, hplaces]⟩

theorem map_le_map {α : Type} {f f' : α → Nat} (h : ∀ a, f a ≤ f' a) (l : List α) :
    l.map f ≤ l.map f' := by
  induction l with
  | nil => exact le_rfl
  | cons a rest ih =>
      rw [List.map_cons, List.map_cons]
      rcases Nat.lt_or_eq_of_le (h a) with hlt | heq
      · exact le_of_lt (List.cons_lt_cons_iff.mpr (.inl hlt))
      · rw [heq]
        exact List.cons_le_cons _ ih

/-- The first walk in edge order is the least one by places. -/
theorem leastWalk_of_first (hc : g.Closed) {p : List (Arc g.order)}
    (h : First (Index.ofArcs (g.arcs keepAll)) (placeIn (g.arcs keepAll)) s p t) :
    ∃ code, g.LeastWalk s code t ∧ code.map (g.arcAt hc) = p := by
  have hsub : p ⊆ g.arcs keepAll := fun arc harc => by
    obtain ⟨v, hv⟩ := h.walk.mem_out harc
    exact (Index.mem_out_ofArcs.mp hv).1
  obtain ⟨code, rfl, hplaces⟩ := exists_places hc hsub
  refine ⟨code, ⟨(walk_arcAt hc).mp h.walk, fun other hother => ?_, fun other hother hlen => ?_⟩,
    rfl⟩
  · simpa using h.length_le ((walk_arcAt hc).mpr hother)
  · -- A code before `code` would have numbers before those of the first walk: its own numbers are
    -- no greater than its places, and those of the first walk are its places.
    by_contra hlt
    refine h.least _ ((walk_arcAt hc).mpr hother) (before_iff.mpr (.inr ⟨by simpa using hlen, ?_⟩))
    calc (other.map (g.arcAt hc)).map (placeIn (g.arcs keepAll))
        ≤ other.map Fin.val := by
          rw [List.map_map]
          exact map_le_map (placeIn_arcAt_le hc) other
      _ < code.map Fin.val := List.map_lt (fun _ _ h => h) (not_le.mp hlt)
      _ = (code.map (g.arcAt hc)).map (placeIn (g.arcs keepAll)) := hplaces

/-! ## Names -/

/-- The names of the nodes that a walk passes, its ends as they were asked for. -/
def namesAlong (g : Graph) (source target : Value) (code : List (Fin g.edges.length)) :
    List Value :=
  source :: code.dropLast.map (fun i => (g.edges.get i).target) ++ [target]

/-- What is left of the names along a path: all of them, unless a node before the end is nameless.
Then the path begins after the last such node. -/
structure NamedPart (passed names : List Value) : Prop where
  last : names.getLast? = passed.getLast?
  cut : ∃ lost, passed = lost ++ names ∧ (∀ id ∈ names.dropLast, id.isNull = false) ∧
    ∀ id ∈ lost.getLast?, id.isNull = true
  whole : (∀ id ∈ passed.dropLast, id.isNull = false) → names = passed

theorem namedPart_rtakeWhile (names : List Value) (last : Value) :
    NamedPart (names ++ [last]) (names.rtakeWhile (fun id => !id.isNull) ++ [last]) where
  last := by simp
  cut := by
    refine ⟨names.rdropWhile fun id => !id.isNull, ?_, fun id hid => ?_, fun id hid => ?_⟩
    · rw [← List.append_assoc, List.rdropWhile_append_rtakeWhile]
    · rw [List.dropLast_concat] at hid
      simpa using List.mem_rtakeWhile_imp hid
    · obtain ⟨rest, hrest⟩ := List.getLast?_eq_some_iff.mp hid
      have hlast := List.rdropWhile_last_not (fun id : Value => !id.isNull) names (by simp [hrest])
      simpa [hrest] using hlast
  whole h := by
    rw [List.dropLast_concat] at h
    rw [List.rtakeWhile_eq_self_iff.mpr fun id hid => by rw [h id hid]; rfl]

theorem namedPart_hopNames (hc : g.Closed) (source target : Value)
    (code : List (Fin g.edges.length)) :
    NamedPart (g.namesAlong source target code)
      (hopNames source target (code.map (g.arcAt hc))) := by
  have htargets : (code.map (g.arcAt hc)).dropLast.map (fun arc => arc.edge.target)
      = code.dropLast.map fun i => (g.edges.get i).target := by
    rw [← List.map_dropLast]
    exact map_edge_arcAt hc Edge.target code.dropLast
  rw [hopNames, htargets]
  exact namedPart_rtakeWhile _ _

theorem vertex?_target_last {keep : Edge → Bool} {edges : List Edge} {e : Edge}
    (h : g.Walk keep s (edges ++ [e]) t) : g.vertex? e.target = some t := by
  induction edges generalizing s with
  | nil =>
      obtain ⟨-, w, hw, rfl⟩ := h
      exact hw
  | cons first rest ih =>
      obtain ⟨-, w, -, hrest⟩ := h
      exact ih hrest

theorem vertices_namesAlong (hs : g.vertex? source = some s) (ht : g.vertex? target = some t)
    (hne : s ≠ t) {code : List (Fin g.edges.length)}
    (hwalk : g.Walk keepAll s (code.map g.edges.get) t) :
    (g.namesAlong source target code).map g.vertex?
      = some s :: g.entered (code.map g.edges.get) := by
  rcases List.eq_nil_or_concat code with rfl | ⟨front, i, rfl⟩
  · exact absurd hwalk hne
  · rw [List.concat_eq_append, List.map_append] at hwalk
    have hlast : g.vertex? (g.edges.get i).target = some t := vertex?_target_last hwalk
    simp only [namesAlong, entered, List.concat_eq_append, List.dropLast_concat, List.map_append,
      List.map_cons, List.map_map, List.map_nil, hs, ht, hlast, List.cons_append]
    rfl

/-! ## The path -/

/-- If a vertex is near enough, the search by number of edges finds the least walk to it. -/
theorem outcome_shortestPath_of_near (hv : g.Valid) (hc : g.Closed)
    (hs : g.vertex? source = some s) (ht : g.vertex? target = some t) (hne : s ≠ t)
    (hnear : g.Near depth s t) (journal : Journal) :
    ∃ code, g.LeastWalk s code t ∧
      (g.shortestPath source target none (depthValue depth)).outcome journal
        = .ok (hopNames source target (code.map (g.arcAt hc))) := by
  have hspec := Path.byHops_spec (g.pathProblem (fun _ => (0 : Float)) depth s t) hne
  obtain ⟨p, c, hfound, -⟩ := hspec.found_of_within (within_pathProblem.mpr hnear)
  have hfound' : Path.byHops (Index.ofArcs (g.arcs keepAll)) s t depth = .found p c := hfound
  obtain ⟨code, hleast, rfl⟩ :=
    leastWalk_of_first hc (Path.byHops_first (ranks_placeIn (g.arcs keepAll)) hfound')
  refine ⟨code, hleast, ?_⟩
  have hanswer := shortestUnder_eq hv hc hs ht hne (none : Option (Edge → Except Failure Float))
    depth
  simp only [hfound', resolve] at hanswer
  exact outcome_shortestPathUnder hanswer journal

theorem LeastWalk.fits {code : List (Fin g.edges.length)} (h : g.LeastWalk s code t)
    (hnear : g.Near depth s t) : ∀ d ∈ depth, code.length ≤ d := by
  obtain ⟨walk, hwalk, hfits⟩ := hnear
  obtain ⟨other, rfl⟩ := exists_code hwalk.mem_edges
  intro d hd
  have hshort := h.shortest other hwalk
  have hbound := hfits d hd
  rw [List.length_map] at hbound
  omega

/-- By number of edges there is a path if the target is near enough, and it is the one along the
least walk, up to names that a nameless node cuts off. -/
theorem shortestPath_least_walk (hv : g.Valid) (hc : g.Closed) (hs : g.vertex? source = some s)
    (ht : g.vertex? target = some t) (hne : s ≠ t) (depth : Option Nat) (journal : Journal) :
    ((∃ names, (g.shortestPath source target none (depthValue depth)).outcome journal
        = .ok names) ↔ g.Near depth s t) ∧
    ∀ names, (g.shortestPath source target none (depthValue depth)).outcome journal = .ok names →
      ∃ code, (∀ other, g.LeastWalk s other t ↔ other = code) ∧
        (∀ d ∈ depth, code.length ≤ d) ∧
        (g.namesAlong source target code).map g.vertex?
          = some s :: g.entered (code.map g.edges.get) ∧
        NamedPart (g.namesAlong source target code) names := by
  have htold := toldApart_byHops hv hc hs ht hne depth journal
  refine ⟨htold.ok_iff, fun names hnames => ?_⟩
  have hnear := htold.ok_iff.mp ⟨names, hnames⟩
  obtain ⟨code, hleast, hfound⟩ := outcome_shortestPath_of_near hv hc hs ht hne hnear journal
  obtain rfl := Except.ok.inj (hnames.symm.trans hfound)
  refine ⟨code, fun other => ⟨hleast.unique, ?_⟩, hleast.fits hnear,
    vertices_namesAlong hs ht hne hleast.walk, namedPart_hopNames hc source target code⟩
  rintro rfl
  exact hleast

/-- In the specimen, where two parallel edges end the way and every node has a name. -/
theorem shortestPath_least_walk_specimen :
    specimen.Valid ∧ specimen.Closed ∧
    ∃ code, specimen.LeastWalk ⟨0, by decide⟩ code ⟨2, by decide⟩ ∧ code.length ≤ 2 ∧
      (specimen.shortestPath (.str "a") (.str "c") none (depthValue (some 2))).outcome .empty
        = .ok (specimen.namesAlong (.str "a") (.str "c") code) := by
  obtain ⟨hok, hpath⟩ := shortestPath_least_walk specimen_valid specimen_closed specimen_vertex.1
    specimen_vertex.2.2 (by decide) (some 2) .empty
  obtain ⟨names, hnames⟩ := hok.mpr specimen_near
  obtain ⟨code, hleast, hfits, -, hpart⟩ := hpath names hnames
  refine ⟨specimen_valid, specimen_closed, code, (hleast code).mpr rfl, hfits 2 rfl, ?_⟩
  have htargets : ∀ e ∈ specimen.edges, e.target.isNull = false := by
    simp [specimen, specimenEdge, Value.isNull]
  rw [hnames, hpart.whole fun id hid => ?_]
  rw [namesAlong, List.dropLast_concat] at hid
  rcases List.mem_cons.mp hid with rfl | hid
  · rfl
  · obtain ⟨i, -, rfl⟩ := List.mem_map.mp hid
    exact htargets _ (List.get_mem ..)

/-- The only walk passes a nameless node, and of its names only the last is left. -/
theorem unnamed_walk_cut :
    unnamed.Valid ∧ unnamed.Closed ∧
    ∃ code, unnamed.LeastWalk ⟨0, by decide⟩ code ⟨2, by decide⟩ ∧
      unnamed.namesAlong (.str "a") (.str "c") code = [.str "a", .null, .str "c"] ∧
      (unnamed.shortestPath (.str "a") (.str "c") none (depthValue none)).outcome .empty
        = .ok [.str "c"] := by
  obtain ⟨code, hleast, hfound⟩ := outcome_shortestPath_of_near unnamed_valid unnamed_closed
    unnamed_vertex.1 unnamed_vertex.2.2 (by decide) unnamed_near .empty
  have htargets := walk_unnamed ((walk_arcAt unnamed_closed).mpr hleast.walk)
  refine ⟨unnamed_valid, unnamed_closed, code, hleast, ?_, ?_⟩
  · rw [map_edge_arcAt unnamed_closed Edge.target] at htargets
    rw [namesAlong, List.map_dropLast, htargets]
    rfl
  · rw [hfound, hopNames, List.map_dropLast, htargets]
    simp [Value.isNull]

end CodeGraph.Graph
