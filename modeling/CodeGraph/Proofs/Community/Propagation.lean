import Mathlib.Data.Prod.Lex
import Mathlib.Order.WellFounded
import Mathlib.Data.Fintype.Pi
import CodeGraph.Community.Propagation
import CodeGraph.Proofs.Community.Louvain

/-!
# Label propagation comes to rest

Within a round the visits feed on each other, and a label may be changed without
any gain. Still no labelling comes twice: a visit that changes a label either
adds to the edges inside communities, or keeps their number and takes a lower
label (`visit_spec`). There are finitely many labellings, so some round changes
nothing, and from then on every position has the label it would choose
(`rounds_end`).

What is asked of `below` is to be an order of the positions (`Regular`).
-/

namespace CodeGraph.Propagation

variable {n : Nat} {links : Links n} {below : Fin n → Fin n → Bool} {labels : Labelling n}
  {i : Fin n}

/-! ## Support -/

def between (links : Links n) (i j : Fin n) : Nat :=
  (links.get i).get j

/-- A position has an edge to another. -/
def Connected (links : Links n) (i : Fin n) : Prop :=
  ∃ j, between links i j ≠ 0

theorem support_eq (links : Links n) (labels : Labelling n) (i c : Fin n) :
    support links labels i c = ∑ j with labels.get j = c, between links i j := by
  unfold support
  rw [addAll_eq_sum, ← List.sum_toFinset _ ((List.nodup_finRange n).filter _),
    List.toFinset_filter, List.toFinset_finRange]
  simp only [decide_eq_true_eq]
  rfl

theorem support_pos_iff {c : Fin n} :
    0 < support links labels i c ↔ ∃ j, between links i j ≠ 0 ∧ labels.get j = c := by
  rw [support_eq, Finset.sum_pos_iff]
  simp [Nat.pos_iff_ne_zero, and_comm]

theorem mem_options {c : Fin n} : c ∈ options links labels i ↔ 0 < support links labels i c := by
  rw [support_pos_iff]
  simp [options, between]

/-- Edges are seen from both ends, none leads from a position to itself, and `below` is an order
of the positions. -/
structure Regular (links : Links n) (below : Fin n → Fin n → Bool) : Prop where
  symm : ∀ i j, between links i j = between links j i
  diag : ∀ i, between links i i = 0
  irrefl : ∀ a, below a a = false
  trans : ∀ {a b c}, below a b = true → below b c = true → below a c = true
  total : ∀ {a b}, a ≠ b → below a b = true ∨ below b a = true

/-! ## The choice of a label -/

/-- The least of the labels with the most support. -/
structure Best (links : Links n) (below : Fin n → Fin n → Bool) (labels : Labelling n)
    (i c : Fin n) : Prop where
  most : ∀ d, support links labels i d ≤ support links labels i c
  least : ∀ d, support links labels i d = support links labels i c → d = c ∨ below c d = true

/-- The standing choice is the best of the labels seen so far. -/
structure Stands (links : Links n) (below : Fin n → Fin n → Bool) (labels : Labelling n)
    (i : Fin n) (seen : List (Fin n)) (standing : Fin n × Nat) : Prop where
  mem : standing.1 ∈ seen
  count : standing.2 = support links labels i standing.1
  most : ∀ d ∈ seen, support links labels i d ≤ standing.2
  least : ∀ d ∈ seen, support links labels i d = standing.2 →
    d = standing.1 ∨ below standing.1 d = true

theorem Stands.consider (hr : Regular links below) {seen : List (Fin n)} {standing : Fin n × Nat}
    (h : Stands links below labels i seen standing) (c : Fin n) :
    Stands links below labels i (c :: seen) (consider links below labels i standing c) := by
  unfold Propagation.consider
  dsimp only
  split
  · next hbetter =>
    simp only [Bool.or_eq_true, Bool.and_eq_true, decide_eq_true_eq] at hbetter
    have hle : standing.2 ≤ support links labels i c := by omega
    refine ⟨List.mem_cons_self .., rfl, ?_, ?_⟩
    · exact List.forall_mem_cons.mpr ⟨le_refl _, fun d hd => (h.most d hd).trans hle⟩
    · refine List.forall_mem_cons.mpr ⟨fun _ => .inl rfl, fun d hd heq => .inr ?_⟩
      -- A label with as much support was standing or above the standing one.
      have hmost := h.most d hd
      rcases hbetter with hmore | ⟨-, hbelow⟩
      · omega
      · rcases h.least d hd (by omega) with rfl | hd
        · exact hbelow
        · exact hr.trans hbelow hd
  · next hnot =>
    simp only [Bool.or_eq_true, Bool.and_eq_true, decide_eq_true_eq, not_or, not_and] at hnot
    obtain ⟨hmost, hbelow⟩ := hnot
    refine ⟨List.mem_cons_of_mem _ h.mem, h.count, ?_, ?_⟩
    · exact List.forall_mem_cons.mpr ⟨not_lt.mp hmost, h.most⟩
    · refine List.forall_mem_cons.mpr ⟨fun heq => ?_, h.least⟩
      by_cases hne : c = standing.1
      · exact .inl hne
      · exact .inr ((hr.total hne).resolve_left (hbelow heq.symm))

theorem Stands.foldl_consider (hr : Regular links below) (cs : List (Fin n))
    {seen : List (Fin n)} {standing : Fin n × Nat}
    (h : Stands links below labels i seen standing) :
    Stands links below labels i (cs.reverse ++ seen)
      (cs.foldl (Propagation.consider links below labels i) standing) := by
  induction cs generalizing seen standing with
  | nil => exact h
  | cons c rest ih =>
    rw [List.foldl_cons, List.reverse_cons, List.append_assoc]
    exact ih (h.consider hr c)

theorem choose_of_isolated (h : ¬ Connected links i) :
    choose links below labels i = labels.get i := by
  have hoptions : options links labels i = [] := by
    refine List.eq_nil_iff_forall_not_mem.mpr fun c hc => h ?_
    obtain ⟨j, hj, -⟩ := support_pos_iff.mp (mem_options.mp hc)
    exact ⟨j, hj⟩
  rw [choose, hoptions]
  rfl

theorem best_choose (hr : Regular links below) (h : Connected links i) :
    Best links below labels i (choose links below labels i) := by
  have hall : ∀ d, d ∈ options links labels i ∨ support links labels i d = 0 := by
    intro d
    rw [mem_options]
    omega
  -- The first option has support and replaces the label that the position has.
  obtain ⟨j, hj⟩ := h
  have hmem : labels.get j ∈ options links labels i :=
    mem_options.mpr (support_pos_iff.mpr ⟨j, hj, rfl⟩)
  obtain ⟨c, rest, hoptions⟩ := List.exists_cons_of_ne_nil (List.ne_nil_of_mem hmem)
  have hpos : 0 < support links labels i c :=
    mem_options.mp (hoptions ▸ List.mem_cons_self ..)
  have hfirst : consider links below labels i (labels.get i, 0) c
      = (c, support links labels i c) := by
    simp [consider, hpos]
  have hstart : Stands links below labels i [c] (c, support links labels i c) :=
    ⟨List.mem_singleton_self c, rfl, by simp, by simp⟩
  have hseen : ∀ d, d ∈ rest.reverse ++ [c] ↔ d ∈ options links labels i := by
    intro d
    rw [hoptions]
    simp [or_comm]
  have hstands := hstart.foldl_consider hr rest
  rw [choose, hoptions, List.foldl_cons, hfirst]
  refine ⟨fun d => ?_, fun d heq => ?_⟩
  · rw [← hstands.count]
    rcases hall d with hd | hzero
    · exact hstands.most d ((hseen d).mpr hd)
    · omega
  · rw [← hstands.count] at heq
    have hmost := hstands.most c ((hseen c).mpr (hoptions ▸ List.mem_cons_self ..))
    exact hstands.least d ((hseen d).mpr ((hall d).resolve_right (by omega))) heq

/-! ## Progress

A visit that changes a label either adds to the edges inside communities, or keeps their number and
takes a lower label. -/

/-- Edges inside communities, counted from both ends. -/
def inside (links : Links n) (labels : Labelling n) : ℤ :=
  sumInside (fun i j => (between links i j : ℤ)) labels.get

def rank (below : Fin n → Fin n → Bool) (c : Fin n) : Nat :=
  (Finset.univ.filter fun d => below d c = true).card

theorem rank_lt (hr : Regular links below) {a b : Fin n} (h : below a b = true) :
    rank below a < rank below b := by
  refine Finset.card_lt_card (Finset.ssubset_iff_of_subset ?_ |>.mpr ⟨a, ?_, ?_⟩)
  · intro d hd
    simp only [Finset.mem_filter, Finset.mem_univ, true_and] at hd ⊢
    exact hr.trans hd h
  · simpa using h
  · simp [hr.irrefl a]

/-- What falls from round to round. -/
def potential (links : Links n) (below : Fin n → Fin n → Bool) (labels : Labelling n) : ℤ ×ₗ ℕ :=
  toLex (-inside links labels, ∑ i, rank below (labels.get i))

theorem inside_set (hr : Regular links below) (labels : Labelling n) (i c : Fin n) :
    inside links (labels.set i c) = inside links labels
      + 2 * ((support links labels i c : ℤ) - support links labels i (labels.get i)) := by
  have htoward : ∀ d, sumToward (fun i j => (between links i j : ℤ)) labels.get i d
      = support links labels i d := by
    intro d
    rw [support_eq, sumToward, Finset.sum_filter]
    push_cast
    rw [← Finset.add_sum_erase _ _ (Finset.mem_univ i), hr.diag i]
    simp
  have hsymm : ∀ i j, (between links i j : ℤ) = between links j i := fun i j => by rw [hr.symm]
  unfold inside
  rw [Louvain.get_set_eq_update, sumInside_update hsymm, htoward, htoward]

theorem ranks_set (below : Fin n → Fin n → Bool) (labels : Labelling n) (i : Fin n) {c : Fin n}
    (h : rank below c < rank below (labels.get i)) :
    ∑ j, rank below ((Table.set labels i c).get j) < ∑ j, rank below (labels.get j) := by
  rw [Louvain.get_set_eq_update]
  refine Finset.sum_lt_sum (fun j _ => ?_) ⟨i, Finset.mem_univ i, ?_⟩
  · by_cases hj : j = i
    · subst hj
      rw [Function.update_self]
      exact h.le
    · rw [Function.update_of_ne hj]
  · rwa [Function.update_self]

/-- A position with edges has the label that it would choose. -/
def Settled (links : Links n) (below : Fin n → Fin n → Bool) (labels : Labelling n) (i : Fin n) :
    Prop :=
  Connected links i → Best links below labels i (labels.get i)

theorem visit_eq_self (h : choose links below labels i = labels.get i) :
    visit links below labels i = labels :=
  Louvain.eq_of_get_eq (by rw [visit, Louvain.get_set_eq_update, h, Function.update_eq_self])

theorem visit_spec (hr : Regular links below) (labels : Labelling n) (i : Fin n) :
    (visit links below labels i = labels ∧ Settled links below labels i) ∨
      potential links below (visit links below labels i) < potential links below labels := by
  by_cases hconnected : Connected links i
  · have hbest : Best links below labels i _ := best_choose hr hconnected
    by_cases hsame : choose links below labels i = labels.get i
    · exact .inl ⟨visit_eq_self hsame, fun _ => hsame ▸ hbest⟩
    · right
      unfold visit potential
      rw [inside_set hr, Prod.Lex.toLex_lt_toLex]
      rcases (hbest.most (labels.get i)).lt_or_eq with hmore | heq
      · left
        omega
      · right
        refine ⟨by omega, ranks_set below labels i (rank_lt hr ?_)⟩
        exact (hbest.least _ heq).resolve_left fun h => hsame h.symm
  · rw [visit_eq_self (choose_of_isolated hconnected)]
    exact .inl ⟨rfl, fun h => absurd h hconnected⟩

/-! ## Rounds -/

theorem foldl_visit_spec (hr : Regular links below) (labels : Labelling n) (is : List (Fin n)) :
    (is.foldl (visit links below) labels = labels ∧ ∀ i ∈ is, Settled links below labels i) ∨
      potential links below (is.foldl (visit links below) labels)
        < potential links below labels := by
  induction is generalizing labels with
  | nil => exact .inl ⟨rfl, fun i hi => absurd hi List.not_mem_nil⟩
  | cons i rest ih =>
    have hrest := ih (visit links below labels i)
    rw [List.foldl_cons]
    rcases visit_spec hr labels i with ⟨hsame, hsettled⟩ | hfalls
    · rw [hsame] at hrest ⊢
      exact hrest.imp_left fun h => ⟨h.1, List.forall_mem_cons.mpr ⟨hsettled, h.2⟩⟩
    · right
      rcases hrest with ⟨hsame, -⟩ | hfalls'
      · rwa [hsame]
      · exact hfalls'.trans hfalls

theorem potential_wellFounded (links : Links n) (below : Fin n → Fin n → Bool) :
    WellFounded fun a b => potential links below a < potential links below b := by
  have : Finite (Labelling n) :=
    Finite.of_injective (fun labels : Labelling n => labels.get) fun _ _ => Louvain.eq_of_get_eq
  have : IsTrans (Labelling n) fun a b => potential links below a < potential links below b :=
    ⟨fun _ _ _ => lt_trans⟩
  have : Std.Irrefl fun a b : Labelling n => potential links below a < potential links below b :=
    ⟨fun _ => lt_irrefl _⟩
  exact Finite.wellFounded_of_trans_of_irrefl _

/-- Rounds go on until one of them changes nothing, and more rounds would change nothing either. -/
theorem rounds_end (hr : Regular links below) (labels : Labelling n) :
    ∃ count final, (∀ limit, count ≤ limit → rounds links below limit labels = (count, final)) ∧
      0 < count ∧ (round links below)^[count - 1] labels = final ∧
      round links below final = final ∧ ∀ i, Settled links below final i := by
  induction labels using (potential_wellFounded links below).induction with
  | _ labels ih =>
  rcases foldl_visit_spec hr labels (List.finRange n) with ⟨hsame, hsettled⟩ | hfalls
  · refine ⟨1, labels, fun limit hlimit => ?_, Nat.one_pos, rfl, hsame, fun i =>
      hsettled i (List.mem_finRange i)⟩
    obtain ⟨left, rfl⟩ := Nat.exists_eq_add_of_le' hlimit
    have hround : round links below labels = labels := hsame
    rw [rounds]
    simp only [hround, if_true]
  · obtain ⟨count, final, hrounds, hpos, hiterate, hfinal⟩ := ih _ hfalls
    have hne : round links below labels ≠ labels := fun h => hfalls.ne (congrArg _ h)
    refine ⟨count + 1, final, fun limit hlimit => ?_, Nat.succ_pos _, ?_, hfinal⟩
    · obtain ⟨left, rfl⟩ := Nat.exists_eq_add_of_le' (Nat.le_of_add_left_le hlimit)
      have hleft : rounds links below left (round links below labels) = (count, final) :=
        hrounds left (by omega)
      rw [rounds]
      simp only [if_neg hne, hleft]
    · obtain ⟨k, rfl⟩ := Nat.exists_eq_add_of_le' hpos
      exact hiterate

end CodeGraph.Propagation
