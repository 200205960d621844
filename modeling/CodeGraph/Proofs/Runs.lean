import Mathlib.Algebra.Order.Group.Multiset
import Mathlib.Tactic.Abel
import CodeGraph.Runs

/-!
# Sorting by runs rearranges

Whatever the comparison answers, the outcome of sorting by natural runs has the
items that were given, each as often as it was given; and sorting fails only as a
comparison among the items does (`sort_yields`). Nothing is asked of the
comparison: with a not-a-number among the keys it is no order.

Both halves are proved in one pass over the procedure. `Yields fails x P` says
that what `x` answers satisfies `P`, and that the failure of `x`, if it has none,
satisfies `fails`. Where items move from one list to another, the lists are
compared as multisets.
-/

namespace CodeGraph.Runs

/-- Whatever is answered is as stated, and so is the failure if there is no answer. -/
structure Yields {ε α : Type} (fails : ε → Prop) (x : Except ε α) (P : α → Prop) : Prop where
  spec : ∀ a, x = .ok a → P a
  failure : ∀ e, x = .error e → fails e

namespace Yields

variable {ε α β : Type} {fails : ε → Prop} {x : Except ε α} {P : α → Prop}

theorem of_ok {a : α} (h : P a) : Yields fails (.ok a : Except ε α) P where
  spec _ hb := Except.ok.inj hb ▸ h
  failure _ h := nomatch h

theorem imp {Q : α → Prop} (h : Yields fails x P) (hPQ : ∀ a, P a → Q a) : Yields fails x Q :=
  ⟨fun a ha => hPQ a (h.spec a ha), h.failure⟩

theorem bind {f : α → Except ε β} {Q : β → Prop} (h : Yields fails x P)
    (hf : ∀ a, P a → Yields fails (f a) Q) : Yields fails (x >>= f) Q := by
  cases x with
  | error e =>
    refine ⟨fun b hb => (by cases hb), fun other hother => ?_⟩
    obtain rfl : e = other := Except.error.inj hother
    exact h.failure e rfl
  | ok a => exact hf a (h.spec a rfl)

theorem answers (h : Yields fails x P) (hnone : ∀ e, ¬fails e) : ∃ a, x = .ok a := by
  cases x with
  | error e => exact absurd (h.failure e rfl) (hnone e)
  | ok a => exact ⟨a, rfl⟩

end Yields

/-! ## Searching -/

section Searching

variable {ε β : Type} {fails : ε → Prop} {goesOn : Nat → Except ε Bool}

theorem halve_yields (h : ∀ p, Yields fails (goesOn p) fun _ => True) (lo hi : Nat) :
    Yields fails (halve goesOn lo hi) fun _ => True := by
  fun_induction halve goesOn lo hi with
  | case1 lo hi hlt mid ih1 ih2 =>
    refine (h mid).bind fun go _ => ?_
    cases go
    · exact ih2
    · exact ih1
  | case2 lo hi hge => exact .of_ok trivial

theorem stride_yields (h : ∀ p, Yields fails (goesOn p) fun _ => True) (limit last step : Nat) :
    Yields fails (stride goesOn limit last step) fun _ => True := by
  fun_induction stride goesOn limit last step with
  | case1 last step hlt ih =>
    refine (h step).bind fun go _ => ?_
    cases go
    · exact .of_ok trivial
    · exact ih
  | case2 last step hge => exact .of_ok trivial

theorem ask_yields {items : Array β} {question : β → Except ε Bool}
    (h : ∀ b ∈ items, Yields fails (question b) fun _ => True) (position : Nat) :
    Yields fails (ask items position question) fun _ => True := by
  unfold ask
  split
  · next b hb => exact h b (Array.mem_of_getElem? hb)
  · exact .of_ok trivial

theorem not_yields {x : Except ε Bool} (h : Yields fails x fun _ => True) :
    Yields fails (do return !(← x)) fun _ => True :=
  h.bind fun _ _ => .of_ok trivial

end Searching

/-! ## Items, however often -/

section Items

variable {β : Type} {S : β → Prop} {items : List β}

theorem coe_append (xs ys : List β) : ((xs ++ ys : List β) : Multiset β) = xs + ys :=
  (Multiset.coe_add xs ys).symm

theorem coe_cons (a : β) (xs : List β) : ((a :: xs : List β) : Multiset β) = {a} + xs := by
  rw [← Multiset.cons_coe, Multiset.singleton_add]

theorem coe_eq_take_add_drop (items : List β) (k : Nat) :
    (items : Multiset β) = items.take k + items.drop k := by
  rw [Multiset.coe_add, List.take_append_drop]

theorem forall_mem_toArray (h : ∀ b ∈ items, S b) : ∀ b ∈ items.toArray, S b :=
  fun b hb => h b (List.mem_toArray.mp hb)

theorem forall_mem_of_drop {rest : List β} {k : Nat} (h : ∀ b ∈ items, S b)
    (hdrop : items.drop k = rest) : ∀ b ∈ rest, S b :=
  fun b hb => h b (List.mem_of_mem_drop (hdrop ▸ hb))

def content : List (Run β) → Multiset β
  | [] => 0
  | run :: rest => run.items + content rest

theorem forall_mem_content_cons {run : Run β} {rest : List (Run β)} :
    (∀ b ∈ content (run :: rest), S b) ↔ (∀ b ∈ run.items, S b) ∧ ∀ b ∈ content rest, S b := by
  simp only [content, Multiset.mem_add, Multiset.mem_coe, or_imp, forall_and]

end Items

/-! ## Runs -/

section Sorting

variable {ε β : Type} {fails : ε → Prop} {S : β → Prop} {less : β → β → Except ε Bool}

/-- Comparisons among the items of a set fail only as stated. -/
def Compares (fails : ε → Prop) (less : β → β → Except ε Bool) (S : β → Prop) : Prop :=
  ∀ a b, S a → S b → Yields fails (less a b) fun _ => True

variable (hless : Compares fails less S)

include hless

theorem follow_yields (falling : Bool) {last : β} (hlast : S last) {items : List β}
    (hitems : ∀ b ∈ items, S b) :
    Yields fails (follow less falling last items) fun r => r.1 ++ r.2 = items := by
  induction items generalizing last with
  | nil => exact .of_ok rfl
  | cons b rest ih =>
    obtain ⟨hb, hrest⟩ := List.forall_mem_cons.mp hitems
    rw [follow]
    refine (hless b last hb hlast).bind fun lt _ => ?_
    by_cases hgo : (lt == falling) = true
    · rw [if_pos hgo]
      exact (ih hb hrest).bind fun r hr => .of_ok (congrArg (b :: ·) hr)
    · rw [if_neg hgo]
      exact .of_ok rfl

/-- The opening run has at least one item. -/
theorem opening_yields {items : List β} (hitems : ∀ b ∈ items, S b) :
    Yields fails (opening less items) fun r =>
      (r.1 ++ r.2).Perm items ∧ (items ≠ [] → r.1 ≠ []) := by
  match items with
  | [] => exact .of_ok ⟨.nil, id⟩
  | [a] => exact .of_ok ⟨.refl _, fun _ => List.cons_ne_nil _ _⟩
  | a :: b :: rest =>
    obtain ⟨ha, hitems⟩ := List.forall_mem_cons.mp hitems
    obtain ⟨hb, hrest⟩ := List.forall_mem_cons.mp hitems
    rw [opening]
    refine (hless b a hb ha).bind fun falling _ => ?_
    refine (follow_yields hless falling hb hrest).bind fun r hr => .of_ok ?_
    subst hr
    cases falling
    · exact ⟨.refl _, fun _ => List.cons_ne_nil _ _⟩
    · exact ⟨(List.reverse_perm _).append_right _, fun _ => by simp⟩

/-- An item is put into a run and nothing else changes. -/
theorem place_yields {run : Array β} (hrun : ∀ b ∈ run, S b) {item : β} (hitem : S item) :
    Yields fails (place less run item) fun r => r.toList.Perm (item :: run.toList) := by
  unfold place
  refine (halve_yields (fun p => ask_yields (fun b hb =>
    not_yields (hless item b hitem (hrun b hb))) p) 0 run.size).bind fun position _ => .of_ok ?_
  have hparts : (run.extract 0 position ++ #[item] ++ run.extract position run.size).toList
      = run.toList.take position ++ item :: run.toList.drop position := by
    simp
  rw [hparts]
  exact List.perm_middle.trans (.cons _ (.of_eq (List.take_append_drop ..)))

theorem countBelow_yields {key : β} (hkey : S key) {items : Array β} (hitems : ∀ b ∈ items, S b)
    (hint : Nat) : Yields fails (countBelow less key items hint) fun _ => True := by
  have hbelow : ∀ p, Yields fails (ask items p fun b => less b key) fun _ => True :=
    ask_yields fun b hb => hless b key (hitems b hb) hkey
  unfold countBelow
  refine (hbelow hint).bind fun below _ => ?_
  cases below
  · exact (stride_yields (fun o => not_yields (hbelow _)) _ _ _).bind fun _ _ =>
      halve_yields hbelow _ _
  · exact (stride_yields (fun o => hbelow _) _ _ _).bind fun _ _ => halve_yields hbelow _ _

theorem countUpTo_yields {key : β} (hkey : S key) {items : Array β} (hitems : ∀ b ∈ items, S b)
    (hint : Nat) : Yields fails (countUpTo less key items hint) fun _ => True := by
  have habove : ∀ p, Yields fails (ask items p fun b => less key b) fun _ => True :=
    ask_yields fun b hb => hless key b hkey (hitems b hb)
  unfold countUpTo
  refine (habove hint).bind fun above _ => ?_
  cases above
  · exact (stride_yields (fun o => not_yields (habove _)) _ _ _).bind fun _ _ =>
      halve_yields (fun p => not_yields (habove p)) _ _
  · exact (stride_yields (fun o => habove _) _ _ _).bind fun _ _ =>
      halve_yields (fun p => not_yields (habove p)) _ _

/-! ## Merging -/

/-- What is in the answer was on one of the three lists. -/
theorem mergeFront_yields (fuel : Nat) (pace : Pace) (patience : Nat) {left right merged : List β}
    (hleft : ∀ b ∈ left, S b) (hright : ∀ b ∈ right, S b) :
    Yields fails (mergeFront less fuel pace patience left right merged) fun r =>
      (r.1 : Multiset β) = merged + left + right := by
  fun_induction mergeFront less fuel pace patience left right merged with
  | case1 => exact .of_ok (by simp only [coe_append, Multiset.coe_reverse])
  | case2 | case3 | case4 =>
    refine .of_ok ?_
    simp only [coe_append, coe_cons, Multiset.coe_reverse, Multiset.coe_nil]
    abel
  | case5 fuel l r patience a left b right merged _ ihRight ihLeft =>
    obtain ⟨ha, hrest⟩ := List.forall_mem_cons.mp hleft
    obtain ⟨hb, hothers⟩ := List.forall_mem_cons.mp hright
    refine (hless b a hb ha).bind fun lt _ => ?_
    cases lt
    · refine (ihLeft hrest hright).imp fun r hr => ?_
      rw [hr, coe_cons, coe_cons a left]
      abel
    · refine (ihRight hleft hothers).imp fun r hr => ?_
      rw [hr, coe_cons, coe_cons b right]
      abel
  | case6 fuel patience left b right merged _ _ ih =>
    obtain ⟨hb, hothers⟩ := List.forall_mem_cons.mp hright
    refine (countUpTo_yields hless hb (forall_mem_toArray hleft) 0).bind fun l _ => ?_
    have hl := coe_eq_take_add_drop left l
    generalize hdrop : left.drop l = rest at hl ⊢
    have hrest := forall_mem_of_drop hleft hdrop
    rcases rest with _ | ⟨a, _ | ⟨a', rest⟩⟩
    · refine .of_ok ?_
      simp only [coe_append, coe_cons, Multiset.coe_reverse, Multiset.coe_nil, hl]
      abel
    · refine .of_ok ?_
      simp only [coe_append, coe_cons, Multiset.coe_reverse, Multiset.coe_nil, hl]
      abel
    · cases right with
      | nil =>
        refine .of_ok ?_
        simp only [coe_append, coe_cons, Multiset.coe_reverse, Multiset.coe_nil, hl]
        abel
      | cons c right =>
        obtain ⟨ha, hrest⟩ := List.forall_mem_cons.mp hrest
        refine (countBelow_yields hless ha (forall_mem_toArray hothers) 0).bind fun r _ => ?_
        have hr := coe_eq_take_add_drop (c :: right) r
        generalize hdrop' : (c :: right).drop r = others at hr ⊢
        have hothers := forall_mem_of_drop hothers hdrop'
        rcases others with _ | ⟨d, others⟩
        · refine .of_ok ?_
          simp only [coe_append, coe_cons, Multiset.coe_reverse, Multiset.coe_nil, hl, hr]
          abel
        · rcases rest with _ | ⟨a'', rest⟩
          · refine .of_ok ?_
            simp only [coe_append, coe_cons, Multiset.coe_reverse, Multiset.coe_nil, hl, hr]
            abel
          · refine (ih l a (c :: right) r _ _ _ _ hrest hothers).imp fun merged' hmerged => ?_
            rw [hmerged, hl]
            simp only [coe_append, coe_cons, Multiset.coe_reverse, hr]
            abel

theorem mergeBack_yields (fuel : Nat) (pace : Pace) (patience : Nat) {left right merged : List β}
    (hleft : ∀ b ∈ left, S b) (hright : ∀ b ∈ right, S b) :
    Yields fails (mergeBack less fuel pace patience left right merged) fun r =>
      (r.1 : Multiset β) = merged + left + right := by
  fun_induction mergeBack less fuel pace patience left right merged with
  | case1 | case2 | case3 | case4 =>
    refine .of_ok ?_
    simp only [coe_append, coe_cons, Multiset.coe_reverse, Multiset.coe_nil]
    abel
  | case5 fuel l r patience a left b right merged _ ihLeft ihRight =>
    obtain ⟨ha, hrest⟩ := List.forall_mem_cons.mp hleft
    obtain ⟨hb, hothers⟩ := List.forall_mem_cons.mp hright
    refine (hless b a hb ha).bind fun lt _ => ?_
    cases lt
    · refine (ihRight hleft hothers).imp fun r hr => ?_
      rw [hr, coe_cons, coe_cons b right]
      abel
    · refine (ihLeft hrest hright).imp fun r hr => ?_
      rw [hr, coe_cons, coe_cons a left]
      abel
  | case6 fuel patience left b right merged _ _ ih =>
    obtain ⟨hb, hothers⟩ := List.forall_mem_cons.mp hright
    have hreverse : ∀ c ∈ left.reverse, S c := fun c hc => hleft c (List.mem_reverse.mp hc)
    refine (countUpTo_yields hless hb (forall_mem_toArray hreverse) _).bind fun count _ => ?_
    have ih := ih count
    dsimp only at ih ⊢
    generalize left.length - count = l at ih ⊢
    have hl := coe_eq_take_add_drop left l
    generalize hdrop : left.drop l = rest at hl ⊢
    have hrest := forall_mem_of_drop hleft hdrop
    rcases rest with _ | ⟨a, rest⟩
    · refine .of_ok ?_
      simp only [coe_append, coe_cons, Multiset.coe_reverse, Multiset.coe_nil, hl]
      abel
    rcases right with _ | ⟨c, _ | ⟨c', right⟩⟩
    · refine .of_ok ?_
      simp only [coe_append, coe_cons, Multiset.coe_reverse, Multiset.coe_nil, hl]
      abel
    · refine .of_ok ?_
      simp only [coe_append, coe_cons, Multiset.coe_reverse, Multiset.coe_nil, hl]
      abel
    obtain ⟨ha, hrest⟩ := List.forall_mem_cons.mp hrest
    have hreverse : ∀ d ∈ (c :: c' :: right).reverse, S d :=
      fun d hd => hothers d (List.mem_reverse.mp hd)
    refine (countBelow_yields hless ha (forall_mem_toArray hreverse) _).bind fun count' _ => ?_
    have ih := ih a (c :: c' :: right) count'
    generalize (c :: c' :: right).length - count' = r at ih ⊢
    have hr := coe_eq_take_add_drop (c :: c' :: right) r
    generalize hdrop' : (c :: c' :: right).drop r = others at hr ⊢
    have hothers := forall_mem_of_drop hothers hdrop'
    rcases others with _ | ⟨d, _ | ⟨d', others⟩⟩
    · refine .of_ok ?_
      simp only [coe_append, coe_cons, Multiset.coe_reverse, Multiset.coe_nil, hl, hr]
      abel
    · refine .of_ok ?_
      simp only [coe_append, coe_cons, Multiset.coe_reverse, Multiset.coe_nil, hl, hr]
      abel
    rcases rest with _ | ⟨a', rest⟩
    · refine .of_ok ?_
      simp only [coe_append, coe_cons, Multiset.coe_reverse, Multiset.coe_nil, hl, hr]
      abel
    · refine (ih _ _ _ _ hrest hothers).imp fun merged' hmerged => ?_
      rw [hmerged, hl]
      simp only [coe_append, coe_cons, Multiset.coe_reverse, hr]
      abel

theorem merge_yields (patience : Nat) {left right : List β} (hleft : ∀ b ∈ left, S b)
    (hright : ∀ b ∈ right, S b) :
    Yields fails (merge less patience left right) fun r =>
      (r.1 : Multiset β) = left + right := by
  unfold merge
  cases right with
  | nil => exact .of_ok (by rw [Multiset.coe_nil, add_zero])
  | cons b others =>
    refine (countUpTo_yields hless (hright b (List.mem_cons_self ..))
      (forall_mem_toArray hleft) 0).bind fun kept _ => ?_
    have hkept := coe_eq_take_add_drop left kept
    rw [← Multiset.coe_reverse (left.drop kept)] at hkept
    have hrest : ∀ c ∈ (left.drop kept).reverse, S c :=
      fun c hc => hleft c (List.mem_of_mem_drop (List.mem_reverse.mp hc))
    generalize (left.drop kept).reverse = rest at hkept hrest ⊢
    rcases rest with _ | ⟨a, overlap⟩
    · exact .of_ok (coe_append ..)
    obtain ⟨ha, hoverlap⟩ := List.forall_mem_cons.mp hrest
    refine (countBelow_yields hless ha (forall_mem_toArray hright) _).bind fun count _ => ?_
    have hcount := coe_eq_take_add_drop (b :: others) count
    have htaken : ∀ c ∈ (b :: others).take count, S c :=
      fun c hc => hright c (List.mem_of_mem_take hc)
    generalize (b :: others).take count = taken at hcount htaken ⊢
    rw [hkept, hcount]
    rcases taken with _ | ⟨first, rest⟩
    · refine .of_ok ?_
      simp only [coe_append, Multiset.coe_reverse, Multiset.coe_nil]
      abel
    have hback : ∀ c ∈ (first :: rest).reverse, S c := fun c hc => htaken c (List.mem_reverse.mp hc)
    have hsame : ((first :: rest : List β) : Multiset β) = (first :: rest).reverse :=
      (Multiset.coe_reverse _).symm
    generalize (first :: rest).reverse = turned at hback hsame ⊢
    rcases turned with _ | ⟨last, turned⟩
    · exact absurd hsame (by simp)
    dsimp only
    split
    · refine (mergeFront_yields hless _ _ _ (fun c hc => hrest c (List.mem_reverse.mp hc))
        (List.forall_mem_cons.mp htaken).2).bind fun r hr => .of_ok ?_
      simp only [coe_append, coe_cons, Multiset.coe_reverse, Multiset.coe_nil, hr]
      abel
    · refine (mergeBack_yields hless _ _ _ hoverlap hback).bind fun r hr => .of_ok ?_
      rw [hsame]
      simp only [coe_append, coe_cons, Multiset.coe_nil, hr]
      abel

/-! ## The whole list -/

theorem settle_yields (newLevel : Nat) {runs : List (Run β)} (patience : Nat)
    (hruns : ∀ b ∈ content runs, S b) :
    Yields fails (settle less newLevel runs patience) fun pending =>
      content pending.runs = content runs := by
  fun_induction settle less newLevel runs patience with
  | case1 z y rest patience _ ih =>
    obtain ⟨hz, hyrest⟩ := forall_mem_content_cons.mp hruns
    obtain ⟨hy, -⟩ := forall_mem_content_cons.mp hyrest
    refine (merge_yields hless patience hy hz).bind fun r hr => ?_
    have hcontent : content ({ y with items := r.1 } :: rest) = content (z :: y :: rest) := by
      simp only [content, hr]
      abel
    exact (ih r.1 r.2 (hcontent ▸ hruns)).imp fun pending hpending => hpending.trans hcontent
  | case2 z y rest patience _ => exact .of_ok rfl
  | case3 z patience => exact .of_ok rfl
  | case4 patience => exact .of_ok rfl

theorem collapse_yields {runs : List (Run β)} (patience : Nat) (hruns : ∀ b ∈ content runs, S b) :
    Yields fails (collapse less runs patience) fun items =>
      (items : Multiset β) = content runs := by
  fun_induction collapse less runs patience with
  | case1 z y x rest patience hlength ih =>
    obtain ⟨-, hyx⟩ := forall_mem_content_cons.mp hruns
    obtain ⟨hy, hxrest⟩ := forall_mem_content_cons.mp hyx
    obtain ⟨hx, -⟩ := forall_mem_content_cons.mp hxrest
    refine (merge_yields hless patience hx hy).bind fun r hr => ?_
    have hcontent : content (z :: { x with items := r.1 } :: rest)
        = content (z :: y :: x :: rest) := by
      simp only [content, hr]
      abel
    exact (ih r.1 r.2 (hcontent ▸ hruns)).imp fun items hitems => hitems.trans hcontent
  | case2 z y x rest patience hlength ih =>
    obtain ⟨hz, hyx⟩ := forall_mem_content_cons.mp hruns
    obtain ⟨hy, -⟩ := forall_mem_content_cons.mp hyx
    refine (merge_yields hless patience hy hz).bind fun r hr => ?_
    have hcontent : content ({ y with items := r.1 } :: x :: rest)
        = content (z :: y :: x :: rest) := by
      simp only [content, hr]
      abel
    exact (ih r.1 r.2 (hcontent ▸ hruns)).imp fun items hitems => hitems.trans hcontent
  | case3 z y patience =>
    obtain ⟨hz, hyrest⟩ := forall_mem_content_cons.mp hruns
    obtain ⟨hy, -⟩ := forall_mem_content_cons.mp hyrest
    refine (merge_yields hless patience hy hz).bind fun r hr => .of_ok ?_
    simp only [content, hr]
    abel
  | case4 z patience => exact .of_ok (add_zero _).symm
  | case5 patience => exact .of_ok rfl

theorem foldlM_place_yields {items : List β} (hitems : ∀ b ∈ items, S b) {run : Array β}
    (hrun : ∀ b ∈ run, S b) :
    Yields fails (items.foldlM (place less) run) fun r =>
      (r.toList : Multiset β) = run.toList + items := by
  induction items generalizing run with
  | nil => exact .of_ok (add_zero _).symm
  | cons item rest ih =>
    obtain ⟨hitem, hrest⟩ := List.forall_mem_cons.mp hitems
    rw [List.foldlM_cons]
    refine (place_yields hless hrun hitem).bind fun placed hplaced => ?_
    have hin : ∀ b ∈ placed, S b := by
      intro b hb
      rcases List.mem_cons.mp (hplaced.mem_iff.mp hb.val) with rfl | hold
      · exact hitem
      · exact hrun b ⟨hold⟩
    refine (ih hrest hin).imp fun r hr => ?_
    rw [hr, Multiset.coe_eq_coe.mpr hplaced, coe_cons, coe_cons]
    abel

/-- Each round takes a run of at least one item, so there is fuel for all of them. -/
theorem gather_yields (n least fuel start : Nat) {items : List β} {pending : Pending β}
    (hfuel : items.length ≤ fuel) (hitems : ∀ b ∈ items, S b)
    (hpending : ∀ b ∈ content pending.runs, S b) :
    Yields fails (gather less n least fuel start items pending) fun r =>
      content r.runs = content pending.runs + items := by
  fun_induction gather less n least fuel start items pending with
  | case1 start items pending =>
    obtain rfl := List.length_eq_zero_iff.mp (Nat.le_zero.mp hfuel)
    exact .of_ok (add_zero _).symm
  | case2 => exact .of_ok (add_zero _).symm
  | case3 fuel start items pending hne ih =>
    refine (opening_yields hless hitems).bind fun opened hopened => ?_
    obtain ⟨run, others⟩ := opened
    obtain ⟨hperm, hrun⟩ := hopened
    have hsplit : ∀ b ∈ run ++ others, S b := fun b hb => hitems b (hperm.mem_iff.mp hb)
    obtain ⟨hin, hothers⟩ := List.forall_mem_append.mp hsplit
    have ih := ih run others
    dsimp only at ih hperm hrun ⊢
    generalize least - run.length = missing at ih ⊢
    refine (foldlM_place_yields hless (fun b hb => hothers b (List.mem_of_mem_take hb))
      (forall_mem_toArray hin)).bind fun filled hfilled => ?_
    -- The next round sees fewer items and all the others in pending runs.
    have hnext : ∀ settled : Pending β, content settled.runs = content pending.runs →
        Yields fails (gather less n least fuel (start + filled.toList.length)
          (others.drop missing) { settled with
            runs := ⟨start, filled.toList, 0⟩ :: settled.runs }) fun r =>
          content r.runs = content pending.runs + items := by
      intro settled hsettled
      have hlength : (others.drop missing).length ≤ fuel := by
        have hsum := hperm.length_eq
        have hpos := List.length_pos_iff.mpr (hrun hne)
        rw [List.length_append] at hsum
        rw [List.length_drop]
        omega
      have hcontent : content (⟨start, filled.toList, 0⟩ :: settled.runs) + others.drop missing
          = content pending.runs + items := by
        rw [← Multiset.coe_eq_coe.mpr hperm, coe_append, coe_eq_take_add_drop others missing]
        simp only [content, hfilled, hsettled]
        abel
      have hall : ∀ b ∈ content (⟨start, filled.toList, 0⟩ :: settled.runs) + others.drop missing,
          S b := by
        rw [hcontent]
        exact fun b hb => (Multiset.mem_add.mp hb).elim (hpending b) (hitems b)
      refine (ih filled settled hlength
        (fun b hb => hothers b (List.mem_of_mem_drop hb))
        (fun b hb => hall b (Multiset.mem_add.mpr (.inl hb)))).imp fun r hr => ?_
      exact hr.trans hcontent
    split
    · exact hnext pending rfl
    · exact (settle_yields hless _ _ hpending).bind hnext

/-- Sorting by runs is a rearrangement, and it fails only as a comparison does. -/
theorem sort_yields {items : List β} (hitems : ∀ b ∈ items, S b) :
    Yields fails (sort less items) fun sorted => sorted.Perm items := by
  have hnone : ∀ b ∈ content ([] : List (Run β)), S b := fun b hb => absurd hb (Multiset.notMem_zero b)
  unfold sort
  refine (gather_yields hless _ _ _ _ (Nat.le_refl _) hitems hnone).bind fun pending hpending => ?_
  have hcontent : content pending.runs = items := hpending.trans (zero_add _)
  refine (collapse_yields hless _ ?_).imp fun sorted hsorted => ?_
  · rw [hcontent]
    exact hitems
  · exact Multiset.coe_eq_coe.mp (hsorted.trans hcontent)

end Sorting

theorem sort_of_length_le_one {ε β : Type} (less : β → β → Except ε Bool) {items : List β}
    (h : items.length ≤ 1) : sort less items = .ok items := by
  match items, h with
  | [], _ =>
    change collapse less [] longStretch = _
    rw [collapse]
  | [a], _ =>
    change collapse less [⟨0, [a], 0⟩] longStretch = _
    rw [collapse]

end CodeGraph.Runs
