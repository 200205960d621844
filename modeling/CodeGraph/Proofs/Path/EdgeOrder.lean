import Mathlib.Data.List.Induction
import Mathlib.Data.List.Shortlex
import CodeGraph.Proofs.Snapshot

/-!
# Walks in edge order

Shorter walks come before longer ones, and walks of one length are compared arc
by arc from the start on, an arc listed earlier coming first (`Before`). Of all
walks to a vertex one is the first (`First`).

A search that settles walks in this order and goes on from each of them, arc by
arc, finds first walks only. `Lined` is what such a search keeps up: the walks
it has settled and those that wait form one list in this order, and every first
walk that prolongs a settled one is among them. Nothing here depends on how the
search recognises a vertex that it has met before, so a traversal by layers and
a search with a queue share this account.

A prefix of a first walk is a first walk (`First.of_snoc`). Following one from
its start, one leaves the settled walks at a walk that waits (`Lined.reach`), and
so the walk waiting in front is first unless its end was settled before.
-/

namespace CodeGraph

variable {n : Nat}

/-! ## The order -/

/-- Numbers for arcs by which, of the arcs leaving a vertex, those listed earlier come first. An
arc may be listed again later. -/
def Index.Ranks (index : Index n) (rank : Arc n → Nat) : Prop :=
  ∀ v pre arc post, index.out v = pre ++ arc :: post → arc ∉ pre →
    ∀ other ∈ pre, rank other < rank arc

/-- In a list of arcs each arc is numbered by its place. -/
noncomputable def placeIn (arcs : List (Arc n)) (arc : Arc n) : Nat :=
  open Classical in arcs.idxOf arc

theorem ranks_placeIn (arcs : List (Arc n)) : (Index.ofArcs arcs).Ranks (placeIn arcs) := by
  classical
  intro v pre arc post hout hnew other hother
  have hleaves : arc ∈ (Index.ofArcs arcs).out v := hout ▸ by simp
  rw [Index.out_ofArcs] at hout
  obtain ⟨left, right, rfl, hleft, -⟩ := List.filter_eq_append_iff.mp hout
  have harc : arc ∉ left := fun hmem =>
    hnew (hleft ▸ List.mem_filter.mpr ⟨hmem, decide_eq_true (Index.mem_out_ofArcs.mp hleaves).2⟩)
  have hmem : other ∈ left := (List.mem_filter.mp (hleft ▸ hother)).1
  have hlt : (left ++ right).idxOf other < left.length := by
    rw [List.idxOf_append_of_mem hmem]
    exact List.idxOf_lt_length_of_mem hmem
  have hge : left.length ≤ (left ++ right).idxOf arc := by
    rw [List.idxOf_append_of_notMem harc]
    omega
  exact Nat.lt_of_lt_of_le hlt hge

section Order

variable {index : Index n} {rank : Arc n → Nat} {source : Fin n}

def Before (rank : Arc n → Nat) (p q : List (Arc n)) : Prop :=
  List.Shortlex (· < ·) (p.map rank) (q.map rank)

theorem before_iff {p q : List (Arc n)} :
    Before rank p q ↔
      p.length < q.length ∨ p.length = q.length ∧ p.map rank < q.map rank := by
  rw [Before, List.shortlex_def, List.length_map, List.length_map]
  rfl

namespace Before

variable {p q r : List (Arc n)}

theorem of_length (h : p.length < q.length) : Before rank p q :=
  before_iff.mpr (Or.inl h)

theorem trans (hpq : Before rank p q) (hqr : Before rank q r) : Before rank p r := by
  rw [before_iff] at *
  rcases hpq with hpq | ⟨hpq, hlex⟩ <;> rcases hqr with hqr | ⟨hqr, hlex'⟩
  · exact Or.inl (hpq.trans hqr)
  · exact Or.inl (hqr ▸ hpq)
  · exact Or.inl (hpq ▸ hqr)
  · exact Or.inr ⟨hpq.trans hqr, lt_trans hlex hlex'⟩

end Before

/-- Lists of one length stay in order, however they go on. -/
theorem lt_append_of_length_eq {as bs : List Nat} (hlen : as.length = bs.length) (h : as < bs)
    (x y : List Nat) : as ++ x < bs ++ y := by
  induction as generalizing bs with
  | nil =>
      obtain rfl := List.length_eq_zero_iff.mp hlen.symm
      exact absurd h (lt_irrefl _)
  | cons a as ih =>
      cases bs with
      | nil => cases hlen
      | cons b bs =>
          rw [List.cons_append, List.cons_append, List.cons_lt_cons_iff]
          rcases List.cons_lt_cons_iff.mp h with hab | ⟨rfl, hrest⟩
          · exact Or.inl hab
          · exact Or.inr ⟨rfl, ih (Nat.succ.inj hlen) hrest⟩

namespace Before

variable {p q : List (Arc n)}

theorem snoc (h : Before rank p q) (a b : Arc n) : Before rank (p ++ [a]) (q ++ [b]) := by
  rw [before_iff] at *
  rcases h with h | ⟨hlen, hlex⟩
  · exact Or.inl (by simpa using h)
  · refine Or.inr ⟨by simp [hlen], ?_⟩
    rw [List.map_append, List.map_append]
    exact lt_append_of_length_eq (by simpa using hlen) hlex _ _

theorem snoc_rank {a b : Arc n} (h : rank a < rank b) (p : List (Arc n)) :
    Before rank (p ++ [a]) (p ++ [b]) := by
  refine List.Shortlex.of_lex (by simp) ?_
  rw [List.map_append, List.map_append]
  exact List.Lex.append_left _ (List.Lex.rel h) _

theorem of_prefix (rank : Arc n → Nat) (h : p <+: q) : p = q ∨ Before rank p q := by
  rcases Nat.lt_or_ge p.length q.length with hlt | hge
  · exact Or.inr (of_length hlt)
  · exact Or.inl (h.eq_of_length_le hge)

end Before

/-! ## First walks -/

theorem Index.Ranks.inj (hrank : index.Ranks rank) {v : Fin n} {a b : Arc n}
    (ha : a ∈ index.out v) (hb : b ∈ index.out v) (h : rank a = rank b) : a = b := by
  by_contra hne
  obtain ⟨pre, post, hout, hnew⟩ := List.eq_append_cons_of_mem ha
  rcases List.mem_append.mp (hout ▸ hb) with hmem | hmem
  · have := hrank v pre a post hout hnew b hmem
    omega
  · obtain ⟨pre', post', hpost, hnew'⟩ :=
      List.eq_append_cons_of_mem ((List.mem_cons.mp hmem).resolve_left (Ne.symm hne))
    by_cases hb' : b ∈ pre
    · have := hrank v pre a post hout hnew b hb'
      omega
    · have hout' : index.out v = (pre ++ a :: pre') ++ b :: post' := by
        rw [hout, hpost]
        simp
      have := hrank v _ b post' hout' (by simp [hb', hnew', Ne.symm hne]) a (by simp)
      omega

theorem Index.Ranks.walk_inj (hrank : index.Ranks rank) {u v w : Fin n} {p q : List (Arc n)}
    (hp : index.Walk u p v) (hq : index.Walk u q w) (h : p.map rank = q.map rank) : p = q := by
  induction p generalizing u q with
  | nil => exact (List.map_eq_nil_iff.mp h.symm).symm
  | cons a p ih =>
      cases q with
      | nil => cases h
      | cons b q =>
          obtain ⟨hab, hrest⟩ := List.cons.inj h
          obtain rfl := hrank.inj hp.1 hq.1 hab
          rw [ih hp.2 hq.2 hrest]

theorem before_total (hrank : index.Ranks rank) {u v w : Fin n} {p q : List (Arc n)}
    (hp : index.Walk u p v) (hq : index.Walk u q w) :
    Before rank p q ∨ p = q ∨ Before rank q p := by
  rcases Nat.lt_trichotomy p.length q.length with hlt | heq | hgt
  · exact Or.inl (.of_length hlt)
  · rcases lt_trichotomy (p.map rank) (q.map rank) with hlt | hmap | hgt
    · exact Or.inl (before_iff.mpr (Or.inr ⟨heq, hlt⟩))
    · exact Or.inr (Or.inl (hrank.walk_inj hp hq hmap))
    · exact Or.inr (Or.inr (before_iff.mpr (Or.inr ⟨heq.symm, hgt⟩)))
  · exact Or.inr (Or.inr (.of_length hgt))

/-- No walk to `v` comes before this one. -/
structure First (index : Index n) (rank : Arc n → Nat) (source : Fin n) (p : List (Arc n))
    (v : Fin n) : Prop where
  walk : index.Walk source p v
  least : ∀ q, index.Walk source q v → ¬Before rank q p

theorem exists_first (rank : Arc n → Nat) {p : List (Arc n)} {v : Fin n} (hp : index.Walk source p v) :
    ∃ q, First index rank source q v := by
  have hwf : WellFounded (Before rank) :=
    InvImage.wf (List.map rank) (List.Shortlex.wf Nat.lt_wfRel.wf)
  obtain ⟨q, hq, hleast⟩ := hwf.has_min {q | index.Walk source q v} ⟨p, hp⟩
  exact ⟨q, hq, hleast⟩

namespace First

variable {p q : List (Arc n)} {v w : Fin n}

theorem unique (hrank : index.Ranks rank) (hp : First index rank source p v)
    (hq : First index rank source q v) : p = q := by
  rcases before_total hrank hp.walk hq.walk with hlt | heq | hlt
  · exact absurd hlt (hq.least p hp.walk)
  · exact heq
  · exact absurd hlt (hp.least q hq.walk)

theorem length_le (hp : First index rank source p v) (hq : index.Walk source q v) :
    p.length ≤ q.length := by
  by_contra hlt
  exact hp.least q hq (.of_length (by omega))

theorem nil : First index rank source [] source :=
  ⟨rfl, fun q _ h => by simp [before_iff] at h⟩

theorem of_snoc {arc : Arc n} (h : First index rank source (p ++ [arc]) w) :
    ∃ v, arc ∈ index.out v ∧ First index rank source p v := by
  obtain ⟨v, hp, harc, hw⟩ := h.walk.split
  obtain rfl : arc.target = w := hw
  exact ⟨v, harc, hp, fun q hq hbefore => h.least _ (hq.snoc harc) (hbefore.snoc arc arc)⟩

end First

/-! ## Arcs to new vertices -/

/-- Of the arcs in a list, those that lead to a vertex not known before, by the list or otherwise. -/
def newArcs (known : Fin n → Bool) : List (Arc n) → List (Arc n)
  | [] => []
  | arc :: rest =>
    if known arc.target then newArcs known rest
    else arc :: newArcs (fun w => known w || decide (w = arc.target)) rest

theorem mem_newArcs {known : Fin n → Bool} {arcs : List (Arc n)} {arc : Arc n}
    (h : arc ∈ newArcs known arcs) : arc ∈ arcs ∧ known arc.target = false := by
  induction arcs generalizing known with
  | nil => cases h
  | cons first rest ih =>
      rw [newArcs] at h
      split at h
      · obtain ⟨hmem, hnew⟩ := ih h
        exact ⟨List.mem_cons_of_mem _ hmem, hnew⟩
      · next hfirst =>
        rcases List.mem_cons.mp h with rfl | h
        · exact ⟨List.mem_cons_self .., Bool.eq_false_iff.mpr hfirst⟩
        · obtain ⟨hmem, hnew⟩ := ih h
          exact ⟨List.mem_cons_of_mem _ hmem, (Bool.or_eq_false_iff.mp hnew).1⟩

theorem nodup_newArcs (known : Fin n → Bool) (arcs : List (Arc n)) :
    ((newArcs known arcs).map Arc.target).Nodup := by
  induction arcs generalizing known with
  | nil => exact List.nodup_nil
  | cons first rest ih =>
      rw [newArcs]
      split
      · exact ih known
      · refine List.nodup_cons.mpr ⟨fun hmem => ?_, ih _⟩
        obtain ⟨arc, harc, htarget⟩ := List.mem_map.mp hmem
        have := (mem_newArcs harc).2
        simp [htarget] at this

/-- Of the arcs to one new vertex, the one listed first is taken, so that the arcs taken are in
order and none to the same vertex comes before them. -/
theorem newArcs_spec (hrank : index.Ranks rank) {v : Fin n} {pre arcs : List (Arc n)}
    (hout : index.out v = pre ++ arcs) (known : Fin n → Bool)
    (hpre : ∀ arc ∈ pre, known arc.target = true) :
    (newArcs known arcs).Pairwise (fun a b => rank a < rank b) ∧
      ∀ arc ∈ arcs, known arc.target = false →
        ∃ other ∈ newArcs known arcs, other.target = arc.target ∧
          (other = arc ∨ rank other < rank arc) := by
  induction arcs generalizing pre known with
  | nil => exact ⟨List.Pairwise.nil, by simp⟩
  | cons first rest ih =>
      have hout' : index.out v = (pre ++ [first]) ++ rest := by simpa using hout
      rw [newArcs]
      split
      · next hfirst =>
        obtain ⟨hsorted, hleast⟩ := ih hout' known fun arc harc => by
          rcases List.mem_append.mp harc with harc | harc
          · exact hpre arc harc
          · rwa [List.mem_singleton.mp harc]
        refine ⟨hsorted, fun arc harc hnew => ?_⟩
        rcases List.mem_cons.mp harc with rfl | harc
        · rw [hfirst] at hnew
          cases hnew
        · exact hleast arc harc hnew
      · next hfirst =>
        have hfirst' : first ∉ pre := fun hmem => hfirst (hpre first hmem)
        -- a later arc to a new vertex is listed for the first time after `first`
        have hlater : ∀ arc ∈ rest, arc ≠ first → known arc.target = false →
            rank first < rank arc := by
          intro arc harc hne hnew
          obtain ⟨mid, post, rfl, hmid⟩ := List.eq_append_cons_of_mem harc
          refine hrank v (pre ++ first :: mid) arc post (by simpa using hout) ?_ first (by simp)
          have hpre' : arc ∉ pre := fun hmem => by
            rw [hpre arc hmem] at hnew
            cases hnew
          simp [hpre', hne, hmid]
        obtain ⟨hsorted, hleast⟩ := ih hout'
          (fun w => known w || decide (w = first.target)) fun arc harc => by
            rcases List.mem_append.mp harc with harc | harc
            · simp [hpre arc harc]
            · simp [List.mem_singleton.mp harc]
        refine ⟨List.pairwise_cons.mpr ⟨fun arc harc => ?_, hsorted⟩, fun arc harc hnew => ?_⟩
        · obtain ⟨hmem, hnew⟩ := mem_newArcs harc
          obtain ⟨hnew, hother⟩ := Bool.or_eq_false_iff.mp hnew
          refine hlater arc hmem (fun heq => ?_) hnew
          simp [heq] at hother
        · by_cases htarget : arc.target = first.target
          · refine ⟨first, List.mem_cons_self .., htarget.symm, ?_⟩
            by_cases heq : first = arc
            · exact Or.inl heq
            · exact Or.inr (hlater arc ((List.mem_cons.mp harc).resolve_left (Ne.symm heq))
                (Ne.symm heq) hnew)
          · have hmem : arc ∈ rest := (List.mem_cons.mp harc).resolve_left fun heq =>
              htarget (by rw [heq])
            obtain ⟨other, hother, hrest⟩ := hleast arc hmem (by simp [hnew, htarget])
            exact ⟨other, List.mem_cons_of_mem _ hother, hrest⟩

/-! ## Settling in order -/

/-- A number of steps within a limit, if there is one. -/
def Fits (limit : Option Nat) (k : Nat) : Prop :=
  ∀ l ∈ limit, k ≤ l

theorem Fits.mono {limit : Option Nat} {j k : Nat} (h : Fits limit k) (hle : j ≤ k) :
    Fits limit j :=
  fun l hl => Nat.le_trans hle (h l hl)

/-- Walks settled so far and walks that wait, in order. -/
structure Lined (index : Index n) (rank : Arc n → Nat) (source : Fin n) (limit : Option Nat)
    (done todo : List (List (Arc n))) : Prop where
  sorted : (done ++ todo).Pairwise (Before rank)
  /-- Every waiting walk but the empty one prolongs a settled one. -/
  parent : ∀ p ∈ todo, p = [] ∨ ∃ q ∈ done, ∃ arc, p = q ++ [arc]
  start : [] ∈ done ++ todo
  onward : ∀ q ∈ done, ∀ arc v, First index rank source (q ++ [arc]) v →
    Fits limit (q.length + 1) → q ++ [arc] ∈ done ++ todo

namespace Lined

variable {limit : Option Nat} {done todo : List (List (Arc n))} {p r : List (Arc n)}
  {v : Fin n}

theorem init : Lined index rank source limit [] [[]] where
  sorted := by simp
  parent := by simp
  start := by simp
  onward := by simp

/-- A first walk is settled, or some waiting walk is where it leaves the settled ones. -/
theorem reach (h : Lined index rank source limit done todo)
    (hp : First index rank source p v) (hfits : Fits limit p.length) :
    p ∈ done ∨ ∃ q ∈ todo, q <+: p := by
  induction p using List.reverseRecOn generalizing v with
  | nil =>
      rcases List.mem_append.mp h.start with hmem | hmem
      · exact Or.inl hmem
      · exact Or.inr ⟨[], hmem, List.prefix_rfl⟩
  | append_singleton p arc ih =>
      obtain ⟨u, -, hu⟩ := hp.of_snoc
      have hfits' : Fits limit (p.length + 1) := by simpa using hfits
      rcases ih hu (hfits'.mono (Nat.le_succ _)) with hdone | ⟨q, hq, hpre⟩
      · rcases List.mem_append.mp (h.onward p hdone arc v hp hfits') with hmem | hmem
        · exact Or.inl hmem
        · exact Or.inr ⟨_, hmem, List.prefix_rfl⟩
      · exact Or.inr ⟨q, hq, hpre.trans (List.prefix_append ..)⟩

theorem before_front (h : Lined index rank source limit done (r :: todo)) {q : List (Arc n)}
    (hq : q ∈ done) : Before rank q r :=
  (List.pairwise_append.mp h.sorted).2.2 q hq r (List.mem_cons_self ..)

theorem front_before (h : Lined index rank source limit done (r :: todo)) {q : List (Arc n)}
    (hq : q ∈ todo) : Before rank r q :=
  (List.pairwise_cons.mp (List.pairwise_append.mp h.sorted).2.1).1 q hq

/-- The walk in front is a first walk, unless its end was settled before. -/
theorem front_first (h : Lined index rank source limit done (r :: todo))
    (hr : index.Walk source r v)
    (hfits : Fits limit r.length) (hnew : ∀ q ∈ done, ¬index.Walk source q v) :
    First index rank source r v := by
  obtain ⟨p, hp⟩ := exists_first rank hr
  suffices r = p from this ▸ hp
  rcases h.reach hp (hfits.mono (hp.length_le hr)) with hdone | ⟨q, hq, hpre⟩
  · exact absurd hp.walk (hnew p hdone)
  · have hrq : r = q ∨ Before rank r q :=
      (List.mem_cons.mp hq).imp Eq.symm h.front_before
    by_contra hne
    refine hp.least r hr ?_
    rcases hrq with rfl | hrq <;> rcases Before.of_prefix rank hpre with rfl | hqp
    · exact absurd rfl hne
    · exact hqp
    · exact hrq
    · exact hrq.trans hqp

/-- Whatever was found comes before the walks that go on from the one in front. -/
theorem before_child (h : Lined index rank source limit done (r :: todo)) {q : List (Arc n)}
    (hq : q ∈ done ++ r :: todo) (arc : Arc n) : Before rank q (r ++ [arc]) := by
  have hgrow : Before rank r (r ++ [arc]) := .of_length (by simp)
  rcases List.mem_append.mp hq with hdone | hq
  · exact (h.before_front hdone).trans hgrow
  · rcases List.mem_cons.mp hq with rfl | htodo
    · exact hgrow
    · rcases h.parent q (List.mem_cons_of_mem _ htodo) with rfl | ⟨q', hq', arc', rfl⟩
      · exact .of_length (by simp)
      · exact (h.before_front hq').snoc arc' arc

theorem drop (h : Lined index rank source limit done (r :: todo)) (hr : index.Walk source r v)
    (hnot : ¬First index rank source r v) : Lined index rank source limit done todo := by
  have hkeep : ∀ p w, First index rank source p w → p ∈ done ++ r :: todo → p ∈ done ++ todo := by
    intro p w hp hmem
    have hne : p ≠ r := by
      rintro rfl
      rw [hp.walk.end_unique hr] at hp
      exact hnot hp
    simp only [List.mem_append, List.mem_cons] at hmem ⊢
    tauto
  exact {
    sorted := h.sorted.sublist ((List.sublist_cons_self ..).append_left _)
    parent := fun p hp => h.parent p (List.mem_cons_of_mem _ hp)
    start := hkeep [] source .nil h.start
    onward := fun q hq arc w hfirst hfits => hkeep _ w hfirst (h.onward q hq arc w hfirst hfits) }

/-- Settle the walk in front and go on from it along some arcs. -/
theorem settle (h : Lined index rank source limit done (r :: todo)) (arcs : List (Arc n))
    (hsorted : arcs.Pairwise fun a b => rank a < rank b)
    (hall : ∀ arc w, First index rank source (r ++ [arc]) w → Fits limit (r.length + 1) →
      arc ∈ arcs) :
    Lined index rank source limit (done ++ [r]) (todo ++ arcs.map fun arc => r ++ [arc]) := by
  have hassoc : (done ++ [r]) ++ (todo ++ arcs.map fun arc => r ++ [arc])
      = (done ++ r :: todo) ++ arcs.map fun arc => r ++ [arc] := by simp
  exact {
    sorted := by
      rw [hassoc]
      refine List.pairwise_append.mpr ⟨h.sorted, ?_, fun q hq p hp => ?_⟩
      · rw [List.pairwise_map]
        exact hsorted.imp fun hab => .snoc_rank hab r
      · obtain ⟨arc, -, rfl⟩ := List.mem_map.mp hp
        exact h.before_child hq arc
    parent := fun p hp => by
      rcases List.mem_append.mp hp with hp | hp
      · refine (h.parent p (List.mem_cons_of_mem _ hp)).imp_right ?_
        rintro ⟨q, hq, hrest⟩
        exact ⟨q, List.mem_append_left _ hq, hrest⟩
      · obtain ⟨arc, -, rfl⟩ := List.mem_map.mp hp
        exact Or.inr ⟨r, by simp, arc, rfl⟩
    start := hassoc ▸ List.mem_append_left _ h.start
    onward := fun q hq arc w hfirst hfits => by
      rw [hassoc]
      rcases List.mem_append.mp hq with hq | hq
      · exact List.mem_append_left _ (h.onward q hq arc w hfirst hfits)
      · obtain rfl := List.mem_singleton.mp hq
        exact List.mem_append_right _ (List.mem_map.mpr ⟨arc, hall arc w hfirst hfits, rfl⟩) }

/-- Going on from the walk in front to the vertices that are new, where the known ones are ends
of walks found before. -/
theorem expand (hrank : index.Ranks rank) (h : Lined index rank source limit done (r :: todo))
    (hr : index.Walk source r v) (known : Fin n → Bool)
    (hknown : ∀ w, known w = true → ∃ q ∈ done ++ r :: todo, index.Walk source q w) :
    Lined index rank source limit (done ++ [r])
      (todo ++ (newArcs known (index.out v)).map fun arc => r ++ [arc]) := by
  obtain ⟨hsorted, hleast⟩ := newArcs_spec hrank (List.nil_append (index.out v)).symm known
    (by simp)
  refine h.settle _ hsorted fun arc w hfirst _ => ?_
  obtain ⟨u, hu, harc, rfl⟩ := hfirst.walk.split
  obtain rfl := hu.end_unique hr
  have hnew : known arc.target = false := by
    refine Bool.eq_false_iff.mpr fun hold => ?_
    obtain ⟨q, hq, hwalk⟩ := hknown _ hold
    exact hfirst.least q hwalk (h.before_child hq arc)
  obtain ⟨other, hmem, htarget, heq | hlt⟩ := hleast arc harc hnew
  · exact heq ▸ hmem
  · have hwalk := hr.snoc (mem_newArcs hmem).1
    rw [htarget] at hwalk
    exact absurd (.snoc_rank hlt r) (hfirst.least _ hwalk)

end Lined

end Order

end CodeGraph
