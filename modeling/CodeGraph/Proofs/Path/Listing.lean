import Mathlib.Data.Fintype.Card
import Mathlib.Data.List.Lex
import CodeGraph.Path.Critical
import CodeGraph.Proofs.Snapshot

/-!
# The listing of simple paths

Parallel edges give different paths, also when nothing tells the edges apart. A
path is therefore written as the places of its arcs in some order (`Places`),
and `Places.codes` lists the simple paths in that writing, with neither a limit
nor a trail to carry along. Codes come in lexicographic order (`codes_sorted`)
and are those of the simple paths, no more and no less (`mem_codes`).

The listing proper is the first few codes, read back as arcs (`extend_paths`).
While it finds nothing, it notes that it was cut off exactly where a simple path
with no step left could have gone on (`extend_cut`).
-/

namespace CodeGraph.Critical

variable {n : Nat} {κ : Type}

/-- The arcs of an index under places, those that leave a vertex in increasing order. -/
structure Places (κ : Type) [LT κ] (index : Index n) where
  leaving : Fin n → List κ
  arc : κ → Arc n
  out_eq : ∀ v, index.out v = (leaving v).map arc
  mem_leaving : ∀ v i, i ∈ leaving v ↔ arc i ∈ index.out v
  sorted : ∀ v, (leaving v).Pairwise (· < ·)

namespace Places

variable [LT κ] {index : Index n} (P : Places κ index) (target : Fin n)

def entered (code : List κ) : List (Fin n) :=
  code.map fun i => (P.arc i).target

@[simp] theorem entered_cons (i : κ) (code : List κ) :
    P.entered (i :: code) = (P.arc i).target :: P.entered code := rfl

/-- The simple paths that go on from `v` to the target with at most so many more arcs, and enter
no visited vertex. -/
def codes : Nat → Fin n → List (Fin n) → List (List κ)
  | 0, _, _ => []
  | left + 1, v, visited =>
    (P.leaving v).flatMap fun i =>
      if (P.arc i).target ∈ visited then []
      else if (P.arc i).target = target then [[i]]
      else (codes left (P.arc i).target ((P.arc i).target :: visited)).map (i :: ·)

def codesVia (left : Nat) (visited : List (Fin n)) (i : κ) : List (List κ) :=
  if (P.arc i).target ∈ visited then []
  else if (P.arc i).target = target then [[i]]
  else (P.codes target left (P.arc i).target ((P.arc i).target :: visited)).map (i :: ·)

theorem codes_succ (left : Nat) (v : Fin n) (visited : List (Fin n)) :
    P.codes target (left + 1) v visited
      = (P.leaving v).flatMap (P.codesVia target left visited) := rfl

variable {P target} {left : Nat} {visited : List (Fin n)}

theorem mem_codesVia {i : κ} {code : List κ} (h : code ∈ P.codesVia target left visited i) :
    ∃ rest, code = i :: rest := by
  unfold codesVia at h
  split at h
  · cases h
  · split at h
    · exact ⟨[], List.mem_singleton.mp h⟩
    · obtain ⟨rest, -, rfl⟩ := List.mem_map.mp h
      exact ⟨rest, rfl⟩

/-! ## Order -/

/-- Codes come in lexicographic order, each of them once. -/
theorem codes_sorted (left : Nat) (v : Fin n) (visited : List (Fin n)) :
    (P.codes target left v visited).Pairwise (· < ·) := by
  induction left generalizing v visited with
  | zero => exact List.Pairwise.nil
  | succ left ih =>
      rw [codes_succ, List.pairwise_flatMap]
      constructor
      · intro i _
        unfold codesVia
        split
        · exact List.Pairwise.nil
        · split
          · exact List.pairwise_singleton ..
          · exact List.pairwise_map.mpr ((ih _ _).imp fun h => List.Lex.cons h)
      · refine (P.sorted v).imp fun hlt p hp q hq => ?_
        obtain ⟨_, rfl⟩ := mem_codesVia hp
        obtain ⟨_, rfl⟩ := mem_codesVia hq
        exact List.Lex.rel hlt

/-! ## Membership -/

/-- A walk to the target that enters every vertex at most once, and no visited one. -/
structure Fresh (P : Places κ index) (v target : Fin n) (visited : List (Fin n))
    (code : List κ) : Prop where
  walk : index.Walk v (code.map P.arc) target
  nodup : (P.entered code).Nodup
  avoids : ∀ w ∈ P.entered code, w ∉ visited

theorem Fresh.target_mem {v : Fin n} {code : List κ} (h : P.Fresh v target visited code)
    (hne : v ≠ target) : target ∈ P.entered code := by
  rcases List.eq_nil_or_concat code with rfl | ⟨front, i, rfl⟩
  · exact absurd h.walk hne
  · have hwalk := h.walk
    rw [List.concat_eq_append, List.map_append] at hwalk
    obtain ⟨_, -, -, hend⟩ := hwalk.split
    rw [List.concat_eq_append, entered, List.map_append]
    exact List.mem_append_right _ (List.mem_singleton.mpr (Eq.symm hend))

theorem fresh_cons {v : Fin n} {i : κ} {code : List κ} :
    P.Fresh v target visited (i :: code) ↔
      i ∈ P.leaving v ∧ (P.arc i).target ∉ visited ∧
        P.Fresh (P.arc i).target target ((P.arc i).target :: visited) code := by
  constructor
  · rintro ⟨⟨hout, hwalk⟩, hnodup, havoids⟩
    rw [entered_cons, List.nodup_cons] at hnodup
    refine ⟨(P.mem_leaving v i).mpr hout, havoids _ (List.mem_cons_self ..), hwalk, hnodup.2, ?_⟩
    intro w hw hmem
    rcases List.mem_cons.mp hmem with rfl | hmem
    · exact hnodup.1 hw
    · exact havoids w (List.mem_cons_of_mem _ hw) hmem
  · rintro ⟨hi, hnew, hwalk, hnodup, havoids⟩
    refine ⟨⟨(P.mem_leaving v i).mp hi, hwalk⟩, ?_, ?_⟩
    · rw [entered_cons, List.nodup_cons]
      exact ⟨fun hmem => havoids _ hmem (List.mem_cons_self ..), hnodup⟩
    · intro w hw
      rcases List.mem_cons.mp hw with rfl | hw
      · exact hnew
      · exact fun hmem => havoids w hw (List.mem_cons_of_mem _ hmem)

/-- What has reached the target stops there. -/
theorem fresh_target {code : List κ} :
    P.Fresh target target (target :: visited) code ↔ code = [] := by
  constructor
  · intro h
    cases code with
    | nil => rfl
    | cons i rest =>
        refine absurd (List.mem_cons_self ..) (h.avoids target ?_)
        obtain ⟨-, hnew, hrest⟩ := fresh_cons.mp h
        have hne : (P.arc i).target ≠ target := fun heq => hnew (by simp [heq])
        exact List.mem_cons_of_mem _ (hrest.target_mem hne)
  · rintro rfl
    exact ⟨rfl, List.nodup_nil, fun _ h => absurd h (List.not_mem_nil)⟩

theorem mem_codes {v : Fin n} (hne : v ≠ target) {code : List κ} :
    code ∈ P.codes target left v visited ↔
      P.Fresh v target visited code ∧ code.length ≤ left := by
  induction left generalizing v visited code with
  | zero =>
      simp only [codes, List.not_mem_nil, Nat.le_zero, List.length_eq_zero_iff, false_iff]
      rintro ⟨h, rfl⟩
      exact hne h.walk
  | succ left ih =>
      cases code with
      | nil =>
          constructor
          · intro h
            obtain ⟨i, -, hi⟩ := List.mem_flatMap.mp h
            obtain ⟨_, hcons⟩ := mem_codesVia hi
            cases hcons
          · exact fun h => absurd h.1.walk hne
      | cons i rest =>
          have hvia : i :: rest ∈ P.codesVia target left visited i ↔
              (P.arc i).target ∉ visited ∧
                P.Fresh (P.arc i).target target ((P.arc i).target :: visited) rest ∧
                rest.length ≤ left := by
            unfold codesVia
            by_cases hvisited : (P.arc i).target ∈ visited
            · simp [hvisited]
            · by_cases hend : (P.arc i).target = target
              · rw [if_neg hvisited, if_pos hend, hend, fresh_target]
                rw [hend] at hvisited
                constructor
                · intro h
                  obtain rfl : rest = [] := by simpa using h
                  exact ⟨hvisited, rfl, Nat.zero_le _⟩
                · rintro ⟨-, rfl, -⟩
                  exact List.mem_singleton_self _
              · simp [hvisited, hend, ih hend]
          rw [codes_succ, List.mem_flatMap, fresh_cons, List.length_cons, Nat.succ_le_succ_iff]
          constructor
          · rintro ⟨j, hj, hmem⟩
            obtain ⟨_, hcons⟩ := mem_codesVia hmem
            obtain ⟨rfl, rfl⟩ := List.cons.inj hcons
            obtain ⟨hnew, hrest, hlen⟩ := hvia.mp hmem
            exact ⟨⟨hj, hnew, hrest⟩, hlen⟩
          · rintro ⟨⟨hi, hnew, hrest⟩, hlen⟩
            exact ⟨i, hi, hvia.mpr ⟨hnew, hrest, hlen⟩⟩

end Places

/-! ## The listing and the codes -/

section Extend

variable [LT κ] {index : Index n} {P : Places κ index} {target : Fin n} {limit : Nat}

/-- What the listing does with one arc. -/
def tryArc (out : Fin n → List (Arc n)) (target : Fin n) (limit left : Nat)
    (visited : List (Fin n)) (trail : List (Arc n)) (listing : Listing n) (arc : Arc n) :
    Listing n :=
  if limit ≤ listing.paths.length || visited.contains arc.target then listing
  else if arc.target = target then { listing with paths := listing.paths ++ [trail ++ [arc]] }
  else extend out target limit left arc.target (arc.target :: visited) (trail ++ [arc]) listing

theorem extend_succ (out : Fin n → List (Arc n)) (left : Nat) (v : Fin n)
    (visited : List (Fin n)) (trail : List (Arc n)) (listing : Listing n) :
    extend out target limit (left + 1) v visited trail listing
      = (out v).foldl (tryArc out target limit left visited trail) listing := rfl

section TryArc

variable {out : Fin n → List (Arc n)} {left : Nat} {visited : List (Fin n)}
  {trail : List (Arc n)} {listing : Listing n} {arc : Arc n}

theorem tryArc_skip (h : limit ≤ listing.paths.length ∨ arc.target ∈ visited) :
    tryArc out target limit left visited trail listing arc = listing :=
  if_pos (by simpa using h)

theorem tryArc_end (hroom : listing.paths.length < limit) (hnew : arc.target ∉ visited)
    (hend : arc.target = target) :
    tryArc out target limit left visited trail listing arc
      = { listing with paths := listing.paths ++ [trail ++ [arc]] } := by
  rw [tryArc, if_neg (by simpa using ⟨hroom, hnew⟩), if_pos hend]

theorem tryArc_go (hroom : listing.paths.length < limit) (hnew : arc.target ∉ visited)
    (hend : arc.target ≠ target) :
    tryArc out target limit left visited trail listing arc
      = extend out target limit left arc.target (arc.target :: visited) (trail ++ [arc])
          listing := by
  rw [tryArc, if_neg (by simpa using ⟨hroom, hnew⟩), if_neg hend]

end TryArc

/-- Codes read back as arcs, after those of the trail. -/
def readBack (P : Places κ index) (trail : List (Arc n)) (codes : List (List κ)) :
    List (List (Arc n)) :=
  codes.map fun code => trail ++ code.map P.arc

/-- The listing takes up the first codes, as many as there is room for. -/
theorem extend_paths (left : Nat) (v : Fin n) (visited : List (Fin n)) (trail : List (Arc n))
    (listing : Listing n) :
    (extend index.out target limit left v visited trail listing).paths
      = listing.paths ++ readBack P trail
          ((P.codes target left v visited).take (limit - listing.paths.length)) := by
  induction left generalizing v visited trail listing with
  | zero =>
      unfold extend
      split <;> simp [Places.codes, readBack]
  | succ left ih =>
      have harc : ∀ (listing : Listing n) (i : κ),
          (tryArc index.out target limit left visited trail listing (P.arc i)).paths
            = listing.paths ++ readBack P trail
                ((P.codesVia target left visited i).take (limit - listing.paths.length)) := by
        intro listing i
        unfold Places.codesVia
        rcases Nat.lt_or_ge listing.paths.length limit with hroom | hfull
        · by_cases hvisited : (P.arc i).target ∈ visited
          · simp [tryArc_skip (.inr hvisited), hvisited, readBack]
          · by_cases hend : (P.arc i).target = target
            · rw [tryArc_end hroom hvisited hend, if_neg hvisited, if_pos hend,
                List.take_of_length_le (by rw [List.length_singleton]; omega)]
              rfl
            · rw [tryArc_go hroom hvisited hend, if_neg hvisited, if_neg hend, ih, ← List.map_take]
              simp [readBack, Function.comp_def]
        · simp [tryArc_skip (.inl hfull), hfull, readBack]
      rw [extend_succ, P.out_eq, Places.codes_succ]
      -- What an arc adds leaves less room for those after it.
      generalize P.leaving v = places
      induction places generalizing listing with
      | nil => simp [readBack]
      | cons i rest ihrest =>
          rw [List.map_cons, List.foldl_cons, ihrest, harc, List.flatMap_cons, List.take_append]
          simp only [readBack, List.length_append, List.length_map, List.length_take,
            List.map_append, List.append_assoc]
          congr 4
          omega

/-- Some path with no step left can go on to a new vertex, without passing through the target. -/
def opens (out : Fin n → List (Arc n)) (target : Fin n) : Nat → Fin n → List (Fin n) → Prop
  | 0, v, visited => ∃ arc ∈ out v, arc.target ∉ visited
  | left + 1, v, visited =>
    ∃ arc ∈ out v, arc.target ∉ visited ∧ arc.target ≠ target ∧
      opens out target left arc.target (arc.target :: visited)

/-- While nothing is found, the listing notes where a path could have gone on. -/
theorem extend_cut (hlimit : 0 < limit) {left : Nat} {v : Fin n} {visited : List (Fin n)}
    {trail : List (Arc n)} {listing : Listing n} (hempty : listing.paths = [])
    (hnone : P.codes target left v visited = []) :
    (extend index.out target limit left v visited trail listing).cut = true ↔
      listing.cut = true ∨ opens index.out target left v visited := by
  induction left generalizing v visited trail listing with
  | zero =>
      by_cases hopen : (index.out v).any (fun arc => !visited.contains arc.target) = true
      · have : ∃ arc ∈ index.out v, arc.target ∉ visited := by simpa using hopen
        simp [extend, hempty, hlimit, opens, this]
      · have : ¬∃ arc ∈ index.out v, arc.target ∉ visited := by simpa using hopen
        simp only [extend, hempty, hopen, opens, this]
        simp
  | succ left ih =>
      rw [Places.codes_succ, List.flatMap_eq_nil_iff] at hnone
      simp only [extend_succ, opens, P.out_eq, List.mem_map, exists_exists_and_eq_and]
      have harc : ∀ (listing : Listing n) (i : κ), i ∈ P.leaving v → listing.paths = [] →
          (tryArc index.out target limit left visited trail listing (P.arc i)).paths = [] ∧
          ((tryArc index.out target limit left visited trail listing (P.arc i)).cut = true ↔
            listing.cut = true ∨ (P.arc i).target ∉ visited ∧ (P.arc i).target ≠ target ∧
              opens index.out target left (P.arc i).target ((P.arc i).target :: visited)) := by
        intro listing i hi hpaths
        have hvia := hnone i hi
        have hroom : listing.paths.length < limit := by rw [hpaths]; exact hlimit
        unfold Places.codesVia at hvia
        by_cases hvisited : (P.arc i).target ∈ visited
        · rw [tryArc_skip (.inr hvisited)]
          simp [hvisited, hpaths]
        · by_cases hend : (P.arc i).target = target
          · rw [if_neg hvisited, if_pos hend] at hvia
            cases hvia
          · rw [if_neg hvisited, if_neg hend, List.map_eq_nil_iff] at hvia
            rw [tryArc_go hroom hvisited hend, extend_paths (P := P), hvia, ih hpaths hvia]
            simp [hpaths, hvisited, hend, readBack]
      generalize P.leaving v = places at harc
      induction places generalizing listing with
      | nil => simp
      | cons i rest ihrest =>
          obtain ⟨hpaths, hcut⟩ := harc listing i (List.mem_cons_self ..) hempty
          have hrest := ihrest hpaths fun l j hj => harc l j (List.mem_cons_of_mem _ hj)
          rw [List.map_cons, List.foldl_cons]
          refine hrest.trans ?_
          rw [hcut]
          simp [or_assoc]

theorem opens_iff {left : Nat} {v : Fin n} {visited : List (Fin n)} :
    opens index.out target left v visited ↔
      ∃ p w, index.Walk v p w ∧ p.length = left ∧ (p.map Arc.target).Nodup ∧
        (∀ x ∈ p.map Arc.target, x ∉ visited ∧ x ≠ target) ∧
        ∃ arc ∈ index.out w, arc.target ∉ visited ∧ arc.target ∉ p.map Arc.target := by
  induction left generalizing v visited with
  | zero =>
      constructor
      · rintro ⟨arc, harc, hnew⟩
        exact ⟨[], v, rfl, rfl, List.nodup_nil, by simp, arc, harc, hnew, by simp⟩
      · rintro ⟨p, w, hp, hlen, -, -, arc, harc, hnew, -⟩
        obtain rfl := List.length_eq_zero_iff.mp hlen
        obtain rfl : v = w := hp
        exact ⟨arc, harc, hnew⟩
  | succ left ih =>
      simp only [opens, ih]
      constructor
      · rintro ⟨first, hfirst, hnew, hne, p, w, hp, hlen, hnodup, havoids, arc, harc, hlast⟩
        refine ⟨first :: p, w, ⟨hfirst, hp⟩, by rw [List.length_cons, hlen], ?_, ?_, arc, harc, ?_⟩
        · exact List.nodup_cons.mpr
            ⟨fun hmem => (havoids _ hmem).1 (List.mem_cons_self ..), hnodup⟩
        · intro x hx
          rcases List.mem_cons.mp hx with rfl | hx
          · exact ⟨hnew, hne⟩
          · exact ⟨fun hmem => (havoids x hx).1 (List.mem_cons_of_mem _ hmem), (havoids x hx).2⟩
        · simp only [List.map_cons, List.mem_cons, not_or] at hlast ⊢
          exact ⟨hlast.1.2, hlast.1.1, hlast.2⟩
      · rintro ⟨p, w, hp, hlen, hnodup, havoids, arc, harc, hnew, hlast⟩
        obtain ⟨first, p, rfl⟩ := List.exists_cons_of_length_eq_add_one hlen
        rw [List.map_cons, List.nodup_cons] at hnodup
        obtain ⟨hfirst, hne⟩ := havoids first.target (List.mem_cons_self ..)
        refine ⟨first, hp.1, hfirst, hne, p, w, hp.2, Nat.succ.inj hlen, hnodup.2, ?_, arc, harc, ?_⟩
        · intro x hx
          obtain ⟨hx', hxne⟩ := havoids x (List.mem_cons_of_mem _ hx)
          refine ⟨fun hmem => ?_, hxne⟩
          rcases List.mem_cons.mp hmem with rfl | hmem
          · exact hnodup.1 hx
          · exact hx' hmem
        · simp only [List.map_cons, List.mem_cons, not_or] at hlast ⊢
          exact ⟨⟨hlast.1, hnew⟩, hlast.2⟩

end Extend

/-! ## The whole listing -/

section Whole

variable [LT κ] {index : Index n} (P : Places κ index) {source target : Fin n}
  {budget : Option Nat} {limit : Nat}

/-- A walk that enters no vertex twice, nor its source again. -/
def SimpleWalk (index : Index n) (u : Fin n) (p : List (Arc n)) (v : Fin n) : Prop :=
  index.Walk u p v ∧ (u :: p.map Arc.target).Nodup

theorem SimpleWalk.length_lt {u v : Fin n} {p : List (Arc n)} (h : SimpleWalk index u p v) :
    p.length < n := by
  simpa [Nat.succ_le_iff] using List.Nodup.length_le_card h.2

/-- Some simple walk that uses up the budget without meeting the target leads on to a vertex that
is not on it. -/
def CutOff (index : Index n) (source target : Fin n) (budget : Option Nat) : Prop :=
  ∃ d, budget = some d ∧ ∃ p w, SimpleWalk index source p w ∧ p.length = d ∧
    target ∉ p.map Arc.target ∧ ∃ arc ∈ index.out w, arc.target ∉ source :: p.map Arc.target

def Places.simplePaths (source target : Fin n) (budget : Option Nat) : List (List κ) :=
  P.codes target (budget.getD n) source [source]

theorem Places.mem_simplePaths (hne : source ≠ target) {code : List κ} :
    code ∈ P.simplePaths source target budget ↔
      SimpleWalk index source (code.map P.arc) target ∧ ∀ d ∈ budget, code.length ≤ d := by
  have hfresh : P.Fresh source target [source] code ↔
      SimpleWalk index source (code.map P.arc) target := by
    have hentered : (code.map P.arc).map Arc.target = P.entered code := by
      rw [List.map_map]
      rfl
    unfold SimpleWalk
    rw [List.nodup_cons, hentered]
    constructor
    · intro h
      exact ⟨h.walk, fun hmem => h.avoids _ hmem (List.mem_singleton_self _), h.nodup⟩
    · rintro ⟨hwalk, hnew, hnodup⟩
      refine ⟨hwalk, hnodup, fun w hw hmem => ?_⟩
      obtain rfl := List.mem_singleton.mp hmem
      exact hnew hw
  rw [simplePaths, mem_codes hne, hfresh]
  cases budget with
  | none =>
      refine and_congr_right fun h => ⟨fun _ => by simp, fun _ => ?_⟩
      have hlt := h.length_lt
      rw [List.length_map] at hlt
      exact Nat.le_of_lt hlt
  | some d => simp

theorem list_paths (source target : Fin n) (budget : Option Nat) (limit : Nat) :
    (list index source target budget limit).paths
      = ((P.simplePaths source target budget).take limit).map (List.map P.arc) := by
  unfold list Places.simplePaths
  rw [extend_paths (P := P)]
  simp [readBack]

/-- Without a path, the listing was cut off exactly if the budget may be the reason. -/
theorem list_cut (hlimit : 0 < limit) (hnone : P.simplePaths source target budget = []) :
    (list index source target budget limit).cut = true ↔ CutOff index source target budget := by
  unfold list
  rw [extend_cut (P := P) hlimit rfl hnone, opens_iff]
  simp only [Bool.false_eq_true, false_or]
  constructor
  · rintro ⟨p, w, hp, hlen, hnodup, havoids, arc, harc, hnew, hlast⟩
    have hsimple : SimpleWalk index source p w := by
      refine ⟨hp, List.nodup_cons.mpr ⟨fun hmem => ?_, hnodup⟩⟩
      exact (havoids _ hmem).1 (List.mem_singleton_self _)
    cases budget with
    | none => exact absurd hlen (Nat.ne_of_lt hsimple.length_lt)
    | some d =>
        refine ⟨d, rfl, p, w, hsimple, hlen, fun hmem => (havoids _ hmem).2 rfl, arc, harc, ?_⟩
        rw [List.mem_cons, not_or]
        exact ⟨fun heq => hnew (List.mem_singleton.mpr heq), hlast⟩
  · rintro ⟨d, rfl, p, w, ⟨hp, hnodup⟩, hlen, havoids, arc, harc, hnew⟩
    rw [List.nodup_cons] at hnodup
    rw [List.mem_cons, not_or] at hnew
    refine ⟨p, w, hp, hlen, hnodup.2, fun x hx => ⟨?_, ?_⟩, arc, harc, ?_, hnew.2⟩
    · rintro hmem
      obtain rfl := List.mem_singleton.mp hmem
      exact hnodup.1 hx
    · rintro rfl
      exact havoids hx
    · simpa using hnew.1

end Whole

end CodeGraph.Critical
