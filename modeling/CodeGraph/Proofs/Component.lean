import Mathlib.Data.Fintype.Card
import Mathlib.Data.List.Perm.Basic
import Mathlib.Logic.Relation
import CodeGraph.Component
import CodeGraph.Proofs.Snapshot

/-!
# The component search finds the strongly connected components

`Inv` is what holds between any two steps of the search. It is indexed by the
*active* vertices, those whose visit has begun and not ended. On the stack,
older vertices reach newer ones (`descend`), and every vertex reaches an
active one (`ascend`). So when the visit of `v` ends and nothing from `v` up
leads below `v`, all from `v` up reach each other, and whatever else they
reach is in a component already: they are a component.

The low number decides that case. `LowLink` says what it stands for, relative
to the state in which the visit began: it is the number of an open vertex that
`v` reaches, or the own number of `v`, and no arc looked at so far leads to an
open vertex with a lower number. Comparing with the state at the beginning
keeps the statement free of the frames further out, so that one induction on
the depth (`visit_spec`) carries the whole proof.

Without active vertices nothing can be on the stack, which is why the stack is
empty at the end; and a visit only ever closes a vertex that is on the stack.
-/

namespace CodeGraph.Component

open Relation (ReflTransGen)

variable {n : Nat} {succ : Fin n → List (Fin n)}

/-- A path of successors leads from `u` to `v`. -/
abbrev Reach (succ : Fin n → List (Fin n)) : Fin n → Fin n → Prop :=
  ReflTransGen fun u v => v ∈ succ u

theorem Reach.stays {P : Fin n → Prop} (hP : ∀ u, P u → ∀ v ∈ succ u, P v) {u v : Fin n}
    (h : Reach succ u v) (hu : P u) : P v := by
  induction h with
  | refl => exact hu
  | tail _ hstep ih => exact hP _ ih _ hstep

def Search.Known (s : Search n) (v : Fin n) : Prop :=
  ∃ k, s.number.get v = some k

theorem Search.not_known {s : Search n} {v : Fin n} (h : s.number.get v = none) :
    ¬s.Known v := by
  rintro ⟨k, hk⟩
  rw [h] at hk; cases hk

@[simp] theorem Search.discover_number (s : Search n) (v w : Fin n) :
    (s.discover v).number.get w = if v = w then some s.count else s.number.get w :=
  Table.get_set ..

/-! ## The invariant -/

structure Inv (succ : Fin n → List (Fin n)) (active : List (Fin n)) (s : Search n) : Prop where
  number_lt : ∀ v k, s.number.get v = some k → k < s.count
  /-- A discovered vertex is on the stack or in a component. -/
  placed : ∀ v, s.Known v ↔ v ∈ s.stack ∨ v ∈ s.closed.flatten
  nodup : (s.stack ++ s.closed.flatten).Nodup
  active_open : ∀ v ∈ active, v ∈ s.stack
  descend : s.stack.Pairwise fun newer older => Reach succ older newer
  ascend : ∀ v ∈ s.stack, ∃ u ∈ active, Reach succ v u
  /-- A vertex that was left has only discovered successors. -/
  left : ∀ v, s.Known v → v ∉ active → ∀ w ∈ succ v, s.Known w
  closed_succ : ∀ v ∈ s.closed.flatten, ∀ w ∈ succ v, w ∈ s.closed.flatten
  /-- A component is a class of mutual reachability. -/
  strong : ∀ c ∈ s.closed,
    c ≠ [] ∧ ∀ u ∈ c, ∀ v, v ∈ c ↔ Reach succ u v ∧ Reach succ v u

theorem inv_start : Inv succ [] (Search.start : Search n) where
  number_lt v k h := by rw [Search.start, Table.get_replicate] at h; cases h
  placed v := iff_of_false (Search.not_known (Table.get_replicate ..)) (by simp [Search.start])
  nodup := by simp [Search.start]
  active_open := by simp
  descend := List.Pairwise.nil
  ascend := by simp [Search.start]
  left v h := absurd h (Search.not_known (Table.get_replicate ..))
  closed_succ := by simp [Search.start]
  strong := by simp [Search.start]

/-- Nothing is open when no visit is under way. -/
theorem Inv.stack_eq_nil {s : Search n} (h : Inv succ [] s) : s.stack = [] := by
  cases hs : s.stack with
  | nil => rfl
  | cons v rest =>
      obtain ⟨u, hu, -⟩ := h.ascend v (by rw [hs]; exact List.mem_cons_self ..)
      cases hu

theorem inv_discover {active : List (Fin n)} {s : Search n} {v : Fin n}
    (h : Inv succ active s) (hv : s.number.get v = none)
    (hactive : ∀ u ∈ active, Reach succ u v) : Inv succ (v :: active) (s.discover v) := by
  have hknown : ∀ w, (s.discover v).Known w ↔ w = v ∨ s.Known w := by
    intro w
    simp only [Search.Known, Search.discover_number]
    by_cases hw : v = w
    · simp [hw]
    · simp [hw, Ne.symm hw]
  have hfresh : v ∉ s.stack ++ s.closed.flatten := fun hmem =>
    Search.not_known hv ((h.placed v).mpr (List.mem_append.mp hmem))
  have hopen : ∀ u ∈ s.stack, Reach succ u v := fun u hu => by
    obtain ⟨a, ha, hua⟩ := h.ascend u hu
    exact hua.trans (hactive a ha)
  exact {
    number_lt := fun w k hk => by
      rw [Search.discover_number] at hk
      by_cases hw : v = w
      · rw [if_pos hw] at hk
        obtain rfl := Option.some.inj hk
        exact Nat.lt_succ_self _
      · rw [if_neg hw] at hk
        exact Nat.lt_succ_of_lt (h.number_lt w k hk)
    placed := fun w => by
      rw [hknown, h.placed]
      simp [Search.discover, or_assoc]
    nodup := List.nodup_cons.mpr ⟨hfresh, h.nodup⟩
    active_open := fun w hw => by
      rcases List.mem_cons.mp hw with rfl | hw
      · exact List.mem_cons_self ..
      · exact List.mem_cons_of_mem _ (h.active_open w hw)
    descend := List.pairwise_cons.mpr ⟨hopen, h.descend⟩
    ascend := fun w hw => by
      rcases List.mem_cons.mp hw with rfl | hw
      · exact ⟨w, List.mem_cons_self .., .refl⟩
      · obtain ⟨a, ha, hwa⟩ := h.ascend w hw
        exact ⟨a, List.mem_cons_of_mem _ ha, hwa⟩
    left := fun w hw hwa x hx => by
      have hne : w ≠ v := fun heq => hwa (heq ▸ List.mem_cons_self ..)
      have hold := ((hknown w).mp hw).resolve_left hne
      exact (hknown x).mpr
        (Or.inr (h.left w hold (fun hm => hwa (List.mem_cons_of_mem _ hm)) x hx))
    closed_succ := h.closed_succ
    strong := h.strong }

/-! ## From an earlier state to a later one -/

/-- Numbers stay, later ones are higher, and what was open lies below what was opened since. -/
structure Extends (s t : Search n) : Prop where
  count_le : s.count ≤ t.count
  number : ∀ v k, s.number.get v = some k → t.number.get v = some k
  fresh : ∀ v k, s.number.get v = none → t.number.get v = some k → s.count ≤ k
  closed : ∀ v ∈ s.closed.flatten, v ∈ t.closed.flatten
  suffix : s.stack <:+ t.stack

namespace Extends

variable {s t u : Search n}

theorem refl (s : Search n) : Extends s s where
  count_le := Nat.le_refl _
  number _ _ h := h
  fresh v k h h' := by rw [h] at h'; cases h'
  closed _ h := h
  suffix := List.suffix_refl _

theorem trans (hst : Extends s t) (htu : Extends t u) : Extends s u where
  count_le := Nat.le_trans hst.count_le htu.count_le
  number v k h := htu.number v k (hst.number v k h)
  fresh v k h h' := by
    cases ht : t.number.get v with
    | none => exact Nat.le_trans hst.count_le (htu.fresh v k ht h')
    | some l =>
        obtain rfl := Option.some.inj ((htu.number v l ht).symm.trans h')
        exact hst.fresh v l h ht
  closed v h := htu.closed v (hst.closed v h)
  suffix := hst.suffix.trans htu.suffix

theorem discover {v : Fin n} (hv : s.number.get v = none) : Extends s (s.discover v) where
  count_le := Nat.le_succ _
  number w k h := by
    have hne : v ≠ w := fun heq => by rw [← heq, hv] at h; cases h
    rw [Search.discover_number, if_neg hne, h]
  fresh w k h h' := by
    rw [Search.discover_number] at h'
    by_cases hw : v = w
    · rw [if_pos hw] at h'
      exact Nat.le_of_eq (Option.some.inj h')
    · rw [if_neg hw, h] at h'; cases h'
  closed _ h := h
  suffix := List.suffix_cons ..

theorem known (h : Extends s t) {v : Fin n} (hv : s.Known v) : t.Known v := by
  obtain ⟨k, hk⟩ := hv
  exact ⟨k, h.number v k hk⟩

theorem open_before {active active' : List (Fin n)} (h : Extends s t) (hs : Inv succ active s)
    (ht : Inv succ active' t) {y : Fin n} {k : Nat} (hy : y ∈ t.stack)
    (hk : t.number.get y = some k) (hlt : k < s.count) :
    y ∈ s.stack ∧ s.number.get y = some k := by
  cases hold : s.number.get y with
  | none => exact absurd (h.fresh y k hold hk) (Nat.not_le_of_lt hlt)
  | some l =>
      obtain rfl := Option.some.inj ((h.number y l hold).symm.trans hk)
      refine ⟨((hs.placed y).mp ⟨l, hold⟩).resolve_right fun hclosed => ?_, rfl⟩
      exact (List.nodup_append.mp ht.nodup).2.2 y hy y (h.closed y hclosed) rfl

end Extends

/-! ## What the low number stands for -/

/-- The low number of `v`, whose visit began in state `s` and has come to state `t`; of the
successors of `v` itself, those in `seen` were looked at. -/
structure LowLink (succ : Fin n → List (Fin n)) (v : Fin n) (seen : List (Fin n))
    (s t : Search n) (low : Nat) : Prop where
  le_own : low ≤ s.count
  attained : low < s.count → ∃ y ∈ s.stack, s.number.get y = some low ∧ Reach succ v y
  bound : ∀ x ∈ t.stack, x ∉ s.stack → ∀ y ∈ succ x, (x = v → y ∈ seen) →
    y ∈ s.stack → ∀ k, s.number.get y = some k → low ≤ k

/-- The visit of `v` after looking at the successors in `seen`. -/
structure Scanned (succ : Fin n → List (Fin n)) (active : List (Fin n)) (v : Fin n)
    (s : Search n) (seen : List (Fin n)) (low : Nat) (t : Search n) : Prop where
  inv : Inv succ (v :: active) t
  ext : Extends (s.discover v) t
  link : LowLink succ v seen s t low
  known : ∀ w ∈ seen, t.Known w

section Visit

variable {active : List (Fin n)} {v : Fin n} {s t : Search n} {seen : List (Fin n)} {low : Nat}

theorem scanned_start (hs : Inv succ active s) (hv : s.number.get v = none)
    (hactive : ∀ u ∈ active, Reach succ u v) :
    Scanned succ active v s [] s.count (s.discover v) where
  inv := inv_discover hs hv hactive
  ext := .refl _
  link := {
    le_own := Nat.le_refl _
    attained := fun h => absurd h (Nat.lt_irrefl _)
    bound := fun x hx hxs y _ hseen => by
      rcases List.mem_cons.mp hx with rfl | hx
      · cases hseen rfl
      · exact absurd hx hxs }
  known := by simp

namespace Scanned

theorem step_known (hs : Inv succ active s) (hv : s.number.get v = none)
    (h : Scanned succ active v s seen low t) {w : Fin n} {k : Nat} (hw : w ∈ succ v)
    (hk : t.number.get w = some k) :
    Scanned succ active v s (seen ++ [w])
      (if t.stack.contains w then min low k else low) t := by
  have hext : Extends s t := (Extends.discover hv).trans h.ext
  have hle : (if t.stack.contains w then min low k else low) ≤ low := by
    split
    · exact Nat.min_le_left ..
    · exact Nat.le_refl _
  refine ⟨h.inv, h.ext, ⟨Nat.le_trans hle h.link.le_own, ?_, ?_⟩, ?_⟩
  · by_cases hopen : w ∈ t.stack
    · rw [if_pos (List.contains_iff_mem.mpr hopen)]
      rcases Nat.le_total low k with hlow | hlow
      · rw [Nat.min_eq_left hlow]
        exact h.link.attained
      · rw [Nat.min_eq_right hlow]
        intro hlt
        obtain ⟨hold, hnum⟩ := hext.open_before hs h.inv hopen hk hlt
        exact ⟨w, hold, hnum, .single hw⟩
    · rw [if_neg (mt List.contains_iff_mem.mp hopen)]
      exact h.link.attained
  · intro x hx hxs y hy hseen hyopen l hl
    by_cases hxy : x = v ∧ y = w
    · obtain ⟨rfl, rfl⟩ := hxy
      have hopen : y ∈ t.stack := hext.suffix.subset hyopen
      obtain rfl := Option.some.inj ((hext.number y l hl).symm.trans hk)
      rw [if_pos (List.contains_iff_mem.mpr hopen)]
      exact Nat.min_le_right ..
    · refine Nat.le_trans hle (h.link.bound x hx hxs y hy (fun hxv => ?_) hyopen l hl)
      rcases List.mem_append.mp (hseen hxv) with hmem | hmem
      · exact hmem
      · exact absurd ⟨hxv, List.mem_singleton.mp hmem⟩ hxy
  · intro x hx
    rcases List.mem_append.mp hx with hx | hx
    · exact h.known x hx
    · rw [List.mem_singleton.mp hx]; exact ⟨k, hk⟩

theorem step_visited (hs : Inv succ active s) (hv : s.number.get v = none)
    (h : Scanned succ active v s seen low t) {w : Fin n} {lowW : Nat} {u : Search n}
    (hw : w ∈ succ v) (hwt : t.number.get w = none) (hu : Inv succ (v :: active) u)
    (htu : Extends t u) (hwu : u.Known w) (hlink : LowLink succ w (succ w) t u lowW) :
    Scanned succ active v s (seen ++ [w]) (min low lowW) u := by
  have hext : Extends s t := (Extends.discover hv).trans h.ext
  refine ⟨hu, h.ext.trans htu, ⟨?_, ?_, ?_⟩, ?_⟩
  · exact Nat.le_trans (Nat.min_le_left ..) h.link.le_own
  · intro hlt
    rcases Nat.le_total low lowW with hlow | hlow
    · rw [Nat.min_eq_left hlow] at *
      exact h.link.attained hlt
    · rw [Nat.min_eq_right hlow] at *
      obtain ⟨y, hy, hnum, hreach⟩ :=
        hlink.attained (Nat.lt_of_lt_of_le hlt hext.count_le)
      obtain ⟨hold, hnum⟩ := hext.open_before hs h.inv hy hnum hlt
      exact ⟨y, hold, hnum, .head hw hreach⟩
  · intro x hx hxs y hy hseen hyopen l hl
    by_cases hxt : x ∈ t.stack
    · by_cases hxy : x = v ∧ y = w
      · obtain ⟨-, rfl⟩ := hxy
        exact absurd ⟨l, hext.number y l hl⟩ (Search.not_known hwt)
      · refine Nat.le_trans (Nat.min_le_left ..)
          (h.link.bound x hxt hxs y hy (fun hxv => ?_) hyopen l hl)
        rcases List.mem_append.mp (hseen hxv) with hmem | hmem
        · exact hmem
        · exact absurd ⟨hxv, List.mem_singleton.mp hmem⟩ hxy
    · exact Nat.le_trans (Nat.min_le_right ..)
        (hlink.bound x hx hxt y hy (fun hxw => hxw ▸ hy) (hext.suffix.subset hyopen) l
          (hext.number y l hl))
  · intro x hx
    rcases List.mem_append.mp hx with hx | hx
    · exact htu.known (h.known x hx)
    · rw [List.mem_singleton.mp hx]; exact hwu

/-- All successors of a vertex from `v` up are discovered once those of `v` are. -/
theorem succ_known (h : Scanned succ active v s (succ v) low t)
    {x : Fin n} (hx : t.Known x) (hxa : x ∉ active) {y : Fin n} (hy : y ∈ succ x) :
    t.Known y := by
  by_cases hxv : x = v
  · exact h.known y (hxv ▸ hy)
  · exact h.inv.left x hx (fun hmem => (List.mem_cons.mp hmem).elim hxv hxa) y hy

/-- Leaving `v` open: it reaches a vertex further down, and with it an active one. -/
theorem leave (hs : Inv succ active s) (h : Scanned succ active v s (succ v) low t)
    (hlow : low < s.count) : Inv succ active t :=
  { h.inv with
    active_open := fun u hu => h.inv.active_open u (List.mem_cons_of_mem _ hu)
    ascend := fun x hx => by
      obtain ⟨u, hu, hxu⟩ := h.inv.ascend x hx
      rcases List.mem_cons.mp hu with rfl | hu
      · obtain ⟨y, hy, -, huy⟩ := h.link.attained hlow
        obtain ⟨a, ha, hya⟩ := hs.ascend y hy
        exact ⟨a, ha, hxu.trans (huy.trans hya)⟩
      · exact ⟨u, hu, hxu⟩
    left := fun x hx hxa y hy => h.succ_known hx hxa hy }

end Scanned

/-! ## Closing a component -/

theorem popThrough_append {above below : List (Fin n)} (hv : v ∉ above) :
    popThrough v (above ++ v :: below) = some (above ++ [v], below) := by
  induction above with
  | nil => simp [popThrough]
  | cons w rest ih =>
      have hne : w ≠ v := fun heq => hv (heq ▸ List.mem_cons_self ..)
      have hrest : v ∉ rest := fun hmem => hv (List.mem_cons_of_mem _ hmem)
      rw [List.cons_append, popThrough, if_neg hne, ih hrest]
      rfl

/-- What closing makes of a state: the vertices `top` leave the stack for a component. -/
def Search.closing (t : Search n) (top below : List (Fin n)) : Search n :=
  { t with stack := below, closed := t.closed ++ [top.reverse] }

theorem Search.mem_closing {top below : List (Fin n)} {x : Fin n} :
    x ∈ (t.closing top below).closed.flatten ↔ x ∈ t.closed.flatten ∨ x ∈ top := by
  simp [Search.closing]

namespace Scanned

variable {top : List (Fin n)}

/-- The stack is that of the beginning below `v` and the vertices found since. -/
theorem top_spec (h : Scanned succ active v s seen low t) :
    ∃ top, v ∈ top ∧ top ≠ [] ∧ t.stack = top ++ s.stack ∧
      (∀ x ∈ top, Reach succ v x) ∧ t.close v = some (t.closing top s.stack) := by
  obtain ⟨above, habove⟩ := h.ext.suffix
  have habove : t.stack = above ++ v :: s.stack := habove.symm
  have hpair := h.inv.descend
  have hnodup := (List.nodup_append.mp h.inv.nodup).1
  rw [habove] at hpair hnodup
  have hv : v ∉ above := fun hmem =>
    (List.nodup_append.mp hnodup).2.2 v hmem v (List.mem_cons_self ..) rfl
  refine ⟨above ++ [v], by simp, by simp, by simp [habove], fun x hx => ?_, ?_⟩
  · rcases List.mem_append.mp hx with hx | hx
    · exact (List.pairwise_append.mp hpair).2.2 x hx v (List.mem_cons_self ..)
    · rw [List.mem_singleton.mp hx]
  · rw [Search.close, habove, popThrough_append hv]
    rfl

theorem top_fresh (h : Scanned succ active v s seen low t)
    (hstack : t.stack = top ++ s.stack) {x : Fin n} (hx : x ∈ top) :
    x ∈ t.stack ∧ x ∉ s.stack ∧ x ∉ t.closed.flatten := by
  have hnodup := h.inv.nodup
  rw [hstack, List.append_assoc] at hnodup
  have hdisjoint := (List.nodup_append.mp hnodup).2.2 x hx
  refine ⟨hstack ▸ List.mem_append_left _ hx, fun hmem => ?_, fun hmem => ?_⟩
  · exact hdisjoint x (List.mem_append_left _ hmem) rfl
  · exact hdisjoint x (List.mem_append_right _ hmem) rfl

/-- When the low number of `v` is its own, no arc leads from `v` and what lies above it to
anything below. -/
theorem closed_off (hs : Inv succ active s) (h : Scanned succ active v s (succ v) s.count t)
    (hstack : t.stack = top ++ s.stack) {x y : Fin n} (hx : x ∈ top) (hy : y ∈ succ x) :
    y ∈ top ∨ y ∈ t.closed.flatten := by
  obtain ⟨hxt, hxs, -⟩ := h.top_fresh hstack hx
  have hky : t.Known y :=
    h.succ_known ((h.inv.placed x).mpr (Or.inl hxt)) (fun ha => hxs (hs.active_open x ha)) hy
  rcases (h.inv.placed y).mp hky with hopen | hclosed
  · refine Or.inl ((List.mem_append.mp (hstack ▸ hopen)).resolve_right fun hys => ?_)
    obtain ⟨k, hk⟩ := (hs.placed y).mpr (Or.inl hys)
    have hle := h.link.bound x hxt hxs y hy (fun hxv => hxv ▸ hy) hys k hk
    exact Nat.not_lt_of_le hle (hs.number_lt y k hk)
  · exact Or.inr hclosed

/-- What is open reaches `v`, by way of an active vertex. -/
theorem reach_root (hactive : ∀ u ∈ active, Reach succ u v)
    (h : Scanned succ active v s seen low t) {x : Fin n} (hx : x ∈ t.stack) :
    Reach succ x v := by
  obtain ⟨u, hu, hxu⟩ := h.inv.ascend x hx
  rcases List.mem_cons.mp hu with rfl | hu
  · exact hxu
  · exact hxu.trans (hactive u hu)

/-- The vertices from `v` up are a class of mutual reachability. -/
theorem strong (hs : Inv succ active s) (hactive : ∀ u ∈ active, Reach succ u v)
    (h : Scanned succ active v s (succ v) s.count t) (hstack : t.stack = top ++ s.stack)
    (hroot : ∀ x ∈ top, Reach succ v x) {u : Fin n} (hu : u ∈ top) (x : Fin n) :
    x ∈ top ↔ Reach succ u x ∧ Reach succ x u := by
  obtain ⟨hut, -, hunclosed⟩ := h.top_fresh hstack hu
  constructor
  · intro hx
    have huv := h.reach_root hactive hut
    have hxv := h.reach_root hactive (h.top_fresh hstack hx).1
    exact ⟨huv.trans (hroot x hx), hxv.trans (hroot u hu)⟩
  · rintro ⟨hux, hxu⟩
    have hstays : ∀ y, (y ∈ top ∨ y ∈ t.closed.flatten) →
        ∀ z ∈ succ y, z ∈ top ∨ z ∈ t.closed.flatten := by
      rintro y (hy | hy) z hz
      · exact h.closed_off hs hstack hy hz
      · exact Or.inr (h.inv.closed_succ y hy z hz)
    refine (hux.stays hstays (Or.inl hu)).resolve_right fun hclosed => ?_
    exact hunclosed (hxu.stays h.inv.closed_succ hclosed)

/-- Closing `v`: what lies from `v` up becomes a component. -/
theorem inv_closing (hs : Inv succ active s) (hactive : ∀ u ∈ active, Reach succ u v)
    (h : Scanned succ active v s (succ v) s.count t) (hstack : t.stack = top ++ s.stack)
    (hne : top ≠ []) (hroot : ∀ x ∈ top, Reach succ v x) :
    Inv succ active (t.closing top s.stack) where
  number_lt := h.inv.number_lt
  placed x := by
    rw [Search.mem_closing]
    refine (h.inv.placed x).trans ?_
    rw [hstack, List.mem_append]
    simp only [Search.closing]
    tauto
  nodup := by
    have hnodup := h.inv.nodup
    rw [hstack, List.append_assoc] at hnodup
    have hperm : (s.stack ++ (t.closing top s.stack).closed.flatten).Perm
        (top ++ (s.stack ++ t.closed.flatten)) := by
      simp only [Search.closing, List.flatten_append, List.flatten_singleton]
      rw [← List.append_assoc]
      exact List.perm_append_comm.trans (List.reverse_perm top |>.append_right _)
    exact hperm.nodup_iff.mpr hnodup
  active_open := hs.active_open
  descend := hs.descend
  ascend := hs.ascend
  left x hx hxa y hy := h.succ_known hx hxa hy
  closed_succ x hx y hy := by
    rw [Search.mem_closing] at hx ⊢
    rcases hx with hx | hx
    · exact Or.inl (h.inv.closed_succ x hx y hy)
    · exact (h.closed_off hs hstack hx hy).symm
  strong c hc := by
    rcases List.mem_append.mp hc with hc | hc
    · exact h.inv.strong c hc
    · rw [List.mem_singleton.mp hc]
      refine ⟨by simpa using hne, fun u hu x => ?_⟩
      rw [List.mem_reverse] at hu ⊢
      exact h.strong hs hactive hstack hroot hu x

end Scanned

/-! ## Whole visits -/

def Search.undiscovered (s : Search n) : Nat :=
  (Finset.univ.filter fun v => s.number.get v = none).card

theorem Extends.undiscovered_le (h : Extends s t) : t.undiscovered ≤ s.undiscovered := by
  refine Finset.card_le_card fun w hw => ?_
  simp only [Finset.mem_filter, Finset.mem_univ, true_and] at hw ⊢
  cases hs : s.number.get w with
  | none => rfl
  | some k => rw [h.number w k hs] at hw; cases hw

theorem Search.undiscovered_discover (hv : s.number.get v = none) :
    (s.discover v).undiscovered < s.undiscovered := by
  refine Finset.card_lt_card ⟨fun w hw => ?_, fun hsub => ?_⟩
  · simp only [Finset.mem_filter, Finset.mem_univ, true_and, discover_number] at hw ⊢
    split at hw
    · cases hw
    · exact hw
  · have hmem := hsub (Finset.mem_filter.mpr ⟨Finset.mem_univ v, hv⟩)
    simp at hmem

/-- What a visit of `v` leaves behind. -/
structure Visited (succ : Fin n → List (Fin n)) (active : List (Fin n)) (v : Fin n)
    (s : Search n) (low : Nat) (t : Search n) : Prop where
  inv : Inv succ active t
  ext : Extends s t
  known : t.Known v
  link : LowLink succ v (succ v) s t low

/-- The end of a visit: the vertex is closed or left open, by its low number. -/
theorem Scanned.finish (hs : Inv succ active s) (hv : s.number.get v = none)
    (hactive : ∀ u ∈ active, Reach succ u v) (h : Scanned succ active v s (succ v) low t) :
    ∃ u, (if low = s.count then (do return (low, ← t.close v)) else (return (low, t)) :
        Option (Nat × Search n)) = some (low, u) ∧ Visited succ active v s low u := by
  have hext : Extends s t := (Extends.discover hv).trans h.ext
  have hknown : t.Known v := ⟨s.count, h.ext.number v _ (by simp)⟩
  by_cases hlow : low = s.count
  · obtain ⟨top, hvtop, hne, hstack, hroot, hclose⟩ := h.top_spec
    subst hlow
    refine ⟨t.closing top s.stack, by rw [if_pos rfl, hclose]; rfl, ?_⟩
    exact {
      inv := h.inv_closing hs hactive hstack hne hroot
      ext := { hext with
        closed := fun x hx => Search.mem_closing.mpr (Or.inl (hext.closed x hx))
        suffix := List.suffix_refl _ }
      known := hknown
      link := { h.link with
        bound := fun x hx hxs => absurd hx hxs } }
  · have hlt := Nat.lt_of_le_of_ne h.link.le_own hlow
    exact ⟨t, by rw [if_neg hlow]; rfl, h.leave hs hlt, hext, hknown, h.link⟩

/-- Looking at the remaining successors, given what a visit one level deeper does. -/
theorem Scanned.scan_all (deeper : Fin n → Search n → Option (Nat × Search n)) {depth : Nat}
    (hdeeper : ∀ {w : Fin n} {s : Search n}, Inv succ (v :: active) s →
      s.number.get w = none → (∀ u ∈ v :: active, Reach succ u w) → s.undiscovered ≤ depth →
      ∃ low t, deeper w s = some (low, t) ∧ Visited succ (v :: active) w s low t)
    (hs : Inv succ active s) (hv : s.number.get v = none)
    (hactive : ∀ u ∈ active, Reach succ u v) (rest : List (Fin n))
    (hrest : seen ++ rest = succ v) (h : Scanned succ active v s seen low t)
    (hdepth : t.undiscovered ≤ depth) :
    ∃ low' t', rest.foldlM (scan deeper) (low, t) = some (low', t') ∧
      Scanned succ active v s (succ v) low' t' := by
  induction rest generalizing seen low t with
  | nil =>
      rw [List.append_nil] at hrest
      exact ⟨low, t, rfl, hrest ▸ h⟩
  | cons w rest ih =>
      have hw : w ∈ succ v := by rw [← hrest]; simp
      have hrest' : (seen ++ [w]) ++ rest = succ v := by rw [← hrest]; simp
      rw [List.foldlM_cons]
      cases hk : t.number.get w with
      | some k =>
          have hscan : scan deeper (low, t) w
              = some (if t.stack.contains w then min low k else low, t) := by simp [scan, hk]
          rw [hscan]
          exact ih hrest' (h.step_known hs hv hw hk) hdepth
      | none =>
          have hto : ∀ u ∈ v :: active, Reach succ u w := fun u hu => by
            rcases List.mem_cons.mp hu with rfl | hu
            · exact .single hw
            · exact (hactive u hu).tail hw
          obtain ⟨lowW, u, hvisit, hu⟩ := hdeeper h.inv hk hto hdepth
          have hscan : scan deeper (low, t) w = some (min low lowW, u) := by
            simp [scan, hk, hvisit]
          rw [hscan]
          exact ih hrest' (h.step_visited hs hv hw hk hu.inv hu.ext hu.known hu.link)
            (Nat.le_trans hu.ext.undiscovered_le hdepth)

end Visit

/-- A visit with enough depth succeeds and keeps the invariant. -/
theorem visit_spec (depth : Nat) {active : List (Fin n)} {v : Fin n} {s : Search n}
    (hs : Inv succ active s) (hv : s.number.get v = none)
    (hactive : ∀ u ∈ active, Reach succ u v) (hdepth : s.undiscovered ≤ depth) :
    ∃ low t, visit succ depth v s = some (low, t) ∧ Visited succ active v s low t := by
  induction depth generalizing active v s with
  | zero =>
      have := Search.undiscovered_discover hv
      omega
  | succ depth ih =>
      have hlt := Search.undiscovered_discover hv
      obtain ⟨low, t, hscan, hscanned⟩ := Scanned.scan_all (visit succ depth) ih hs hv
        hactive (succ v) (List.nil_append _) (scanned_start hs hv hactive) (by omega)
      obtain ⟨u, hu, hvisited⟩ := hscanned.finish hs hv hactive
      refine ⟨low, u, ?_, hvisited⟩
      rw [visit, hscan]
      exact hu

/-! ## The search -/

theorem root_spec {s : Search n} (hs : Inv succ [] s) (v : Fin n) :
    ∃ t, root succ s v = some t ∧ Inv succ [] t ∧ Extends s t ∧ t.Known v := by
  unfold root
  cases hv : s.number.get v with
  | some k => exact ⟨s, rfl, hs, .refl s, k, hv⟩
  | none =>
      have hdepth : s.undiscovered ≤ n := by
        simpa [Search.undiscovered] using Finset.card_le_univ
          (Finset.univ.filter fun v => s.number.get v = none)
      obtain ⟨low, t, hvisit, hvisited⟩ :=
        visit_spec n hs hv (by simp) hdepth
      exact ⟨t, by simp [hvisit], hvisited.inv, hvisited.ext, hvisited.known⟩

theorem roots_spec (vs : List (Fin n)) {s : Search n} (hs : Inv succ [] s) :
    ∃ t, vs.foldlM (root succ) s = some t ∧ Inv succ [] t ∧ Extends s t ∧
      ∀ v ∈ vs, t.Known v := by
  induction vs generalizing s with
  | nil => exact ⟨s, rfl, hs, .refl s, by simp⟩
  | cons v rest ih =>
      obtain ⟨t, hroot, ht, hst, hv⟩ := root_spec hs v
      obtain ⟨u, hrest, hu, htu, hall⟩ := ih ht
      refine ⟨u, by rw [List.foldlM_cons, hroot]; exact hrest, hu, hst.trans htu, ?_⟩
      intro w hw
      rcases List.mem_cons.mp hw with rfl | hw
      · exact htu.known hv
      · exact hall w hw

/-- The search succeeds with the classes of mutual reachability, every vertex in one. -/
theorem components_spec (succ : Fin n → List (Fin n)) :
    ∃ groups, components succ = .ok groups ∧ (∀ c ∈ groups, c ≠ []) ∧
      groups.flatten.Perm (List.finRange n) ∧
      ∀ u v, (∃ c ∈ groups, u ∈ c ∧ v ∈ c) ↔ Reach succ u v ∧ Reach succ v u := by
  have hstart : Inv succ [] Search.start := inv_start
  obtain ⟨t, hsearch, ht, -, hall⟩ := roots_spec (List.finRange n) hstart
  have hstack := ht.stack_eq_nil
  have hmem : ∀ v, v ∈ t.closed.flatten := fun v => by
    have hplaced := (ht.placed v).mp (hall v (List.mem_finRange v))
    rw [hstack] at hplaced
    exact hplaced.resolve_left List.not_mem_nil
  have hnodup := (List.nodup_append.mp ht.nodup).2.1
  refine ⟨t.closed, ?_, fun c hc => (ht.strong c hc).1, ?_, fun u v => ?_⟩
  · rw [components, search, hsearch]
    simp [hstack]
  · exact (List.perm_ext_iff_of_nodup hnodup (List.nodup_finRange n)).mpr
      fun v => ⟨fun _ => List.mem_finRange v, fun _ => hmem v⟩
  · constructor
    · rintro ⟨c, hc, hu, hv⟩
      exact ((ht.strong c hc).2 u hu v).mp hv
    · intro huv
      obtain ⟨c, hc, hu⟩ := List.mem_flatten.mp (hmem u)
      exact ⟨c, hc, hu, ((ht.strong c hc).2 u hu v).mpr huv⟩

end CodeGraph.Component

namespace CodeGraph.Graph

/-! ## The components of a snapshot -/

/-- An identifier stands for `v` if it is the node's own, or is looked up as `v`. -/
def Names (g : Graph) (v : Fin g.order) (id : Value) : Prop :=
  id = g.name v ∨ g.vertex? id = some v

/-- A node under a text has no other name. -/
theorem Names.eq_of_text {g : Graph} {v : Fin g.order} {id : Value} (h : g.Names v id)
    {text : String} (hv : g.name v = .str text) : id = .str text := by
  rcases h with rfl | hid
  · exact hv
  · have hsame : (g.name v).same id = true := (List.findFinIdx?_eq_some_iff.mp hid).1
    rw [hv] at hsame
    cases id <;> simp_all [Value.same, Value.relateNumbers?, Value.asInt?]

section Naming

variable {g : Graph} {out : Fin g.order → List (Arc g.order)}

def Naming (g : Graph) (named : Component.Named g.order) : Prop :=
  ∀ v id, named.get v = some id → g.Names v id

theorem naming_set {named : Component.Named g.order} (h : Naming g named) {v : Fin g.order}
    {id : Value} (hid : g.Names v id) : Naming g (named.set v (some id)) := by
  intro w id' hw
  rw [Table.get_set] at hw
  split at hw
  · next heq =>
    obtain rfl := Option.some.inj hw
    exact heq ▸ hid
  · exact h w id' hw

theorem naming_foldl {β : Type} {step : Component.Named g.order → β → Component.Named g.order}
    {bs : List β} (hstep : ∀ named, ∀ b ∈ bs, Naming g named → Naming g (step named b))
    {named : Component.Named g.order} (h : Naming g named) : Naming g (bs.foldl step named) := by
  induction bs generalizing named with
  | nil => exact h
  | cons b rest ih =>
      exact ih (fun named' b' hb' => hstep named' b' (List.mem_cons_of_mem _ hb'))
        (hstep named b (List.mem_cons_self ..) h)

theorem naming_nameFrom (hout : ∀ v, ∀ arc ∈ out v, g.vertex? arc.edge.target = some arc.target)
    (depth : Nat) (v : Fin g.order) {named : Component.Named g.order} (h : Naming g named) :
    Naming g (Component.nameFrom out depth v named) := by
  induction depth generalizing v named with
  | zero => exact h
  | succ depth ih =>
      refine naming_foldl (fun named' arc harc h' => ?_) h
      split
      · exact h'
      · exact ih arc.target (naming_set h' (Or.inr (hout v arc harc)))

/-- A search comes to every node by a name of it. -/
theorem names_searchName (keep : Edge → Bool) (v : Fin g.order) :
    g.Names v (g.searchName (Index.ofArcs (g.arcs keep)) v) := by
  have hout : ∀ v, ∀ arc ∈ (Index.ofArcs (g.arcs keep)).out v,
      g.vertex? arc.edge.target = some arc.target := fun v arc harc =>
    (mem_arcs.mp (Index.mem_out_ofArcs.mp harc).1).2.2.2
  have hall : Naming g (Component.nameAll (Index.ofArcs (g.arcs keep)).out g.name) := by
    refine naming_foldl (fun named w _ h => ?_) fun w id hw => ?_
    · split
      · exact h
      · exact naming_nameFrom hout _ w (naming_set h (Or.inl rfl))
    · rw [Table.get_replicate] at hw; cases hw
  unfold searchName
  cases hv : (Component.nameAll (Index.ofArcs (g.arcs keep)).out g.name).get v with
  | none => exact Or.inl rfl
  | some id => exact hall v id hv

end Naming

theorem mem_successors {g : Graph} {keep : Edge → Bool} {v w : Fin g.order} :
    w ∈ (Index.ofArcs (g.arcs keep)).successors v ↔ ∃ e ∈ g.edges, keep e = true ∧
      g.vertex? e.source = some v ∧ g.vertex? e.target = some w := by
  constructor
  · intro h
    obtain ⟨arc, harc, rfl⟩ := List.mem_map.mp h
    obtain ⟨hmem, rfl⟩ := Index.mem_out_ofArcs.mp harc
    exact ⟨arc.edge, mem_arcs.mp hmem⟩
  · rintro ⟨e, he, hkeep, hv, hw⟩
    exact List.mem_map.mpr ⟨⟨e, v, w⟩, Index.mem_out_ofArcs.mpr
      ⟨mem_arcs.mpr ⟨he, hkeep, hv, hw⟩, rfl⟩, rfl⟩

theorem reach_iff_walk {n : Nat} {index : Index n} {u v : Fin n} :
    Component.Reach index.successors u v ↔ ∃ p, index.Walk u p v := by
  constructor
  · intro h
    induction h with
    | refl => exact ⟨[], rfl⟩
    | tail _ hstep ih =>
        obtain ⟨p, hp⟩ := ih
        obtain ⟨arc, harc, rfl⟩ := List.mem_map.mp hstep
        exact ⟨p ++ [arc], hp.snoc harc⟩
  · rintro ⟨p, hp⟩
    induction p generalizing u with
    | nil =>
        obtain rfl : u = v := hp
        exact .refl
    | cons arc rest ih => exact .head (List.mem_map.mpr ⟨arc, hp.1, rfl⟩) (ih hp.2)

/-- The components of a closed snapshot over the edges of some kinds: none is empty, every node
is in exactly one of them, under a name of its own, and two nodes are in the same one just when
each is reached from the other along edges of those kinds. -/
theorem components_are_strong {g : Graph} (hv : g.Valid) (hc : g.Closed) {kinds : Value}
    {filter : KindFilter} (hkinds : KindFilter.read kinds = .ok filter) (journal : Journal) :
    ∃ (groups : List (List (Fin g.order))) (name : Fin g.order → Value),
      (g.components kinds).outcome journal = .ok (groups.map fun members => members.map name) ∧
      (∀ v, g.Names v (name v)) ∧
      (∀ v text, g.name v = .str text → name v = .str text) ∧
      (∀ members ∈ groups, members ≠ []) ∧
      groups.flatten.Perm g.vertices ∧
      ∀ u v, (∃ members ∈ groups, u ∈ members ∧ v ∈ members) ↔
        g.Reaches filter.keeps u v ∧ g.Reaches filter.keeps v u := by
  obtain ⟨groups, hfound, hne, hperm, hstrong⟩ :=
    Component.components_spec (Index.ofArcs (g.arcs filter.keeps)).successors
  have hnames := names_searchName (g := g) filter.keeps
  refine ⟨groups, g.searchName (Index.ofArcs (g.arcs filter.keeps)), ?_, hnames,
    fun v text ht => (hnames v).eq_of_text ht, hne, hperm, fun u v => ?_⟩
  · unfold components componentVertices
    rw [hkinds, Logged.lift_ok, pure_bind, index_eq_pure hv hc, pure_bind, hfound]
    rfl
  · rw [hstrong u v, reach_iff_walk, reach_iff_walk, reaches_iff, reaches_iff]

/-- In the specimen, over all kinds of edges. -/
theorem components_specimen :
    specimen.Valid ∧ specimen.Closed ∧ KindFilter.read .null = .ok none ∧
    ∃ (groups : List (List (Fin specimen.order))) (name : Fin specimen.order → Value),
      (specimen.components .null).outcome .empty
        = .ok (groups.map fun members => members.map name) ∧
      (∀ v, specimen.Names v (name v)) ∧
      (∀ v text, specimen.name v = .str text → name v = .str text) ∧
      (∀ members ∈ groups, members ≠ []) ∧
      groups.flatten.Perm specimen.vertices ∧
      ∀ u v, (∃ members ∈ groups, u ∈ members ∧ v ∈ members) ↔
        specimen.Reaches (KindFilter.keeps none) u v ∧
          specimen.Reaches (KindFilter.keeps none) v u :=
  ⟨specimen_valid, specimen_closed, rfl,
    components_are_strong specimen_valid specimen_closed rfl .empty⟩

end CodeGraph.Graph
