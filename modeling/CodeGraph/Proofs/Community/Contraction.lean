import CodeGraph.Proofs.Community.Excess

/-!
# What a contraction conserves

Contracting a labelling makes every community a position. Weight inside a
community becomes its loop, half of it from each end, and a loop counts twice in
a degree, so that nothing is lost: degrees add up, the total stays the same, and
every partition of the communities has the modularity of the partition it makes
of the positions (`contract_conserves`). The labels may be anything, and the
weights may be negative; only the symmetry of the contraction asks for symmetry.

`Network.modularity` is stated as it is for graphs, community by community. It
is the surplus as a share of the total (`modularity_eq`), and on the network of
a graph it is the modularity that is computed there. So a contracted graph has
the modularity of the groups of its nodes (`modularity_contract_ofIndex`).
-/

namespace CodeGraph

/-! ## Modularity of a labelling -/

namespace Network

variable {n : Nat} {β : Type} [DecidableEq β]

/-- The weight inside a community, seen from both ends. -/
def inside (net : Network n ℚ) (label : Fin n → β) (c : β) : ℚ :=
  ∑ i with label i = c, ∑ j with label j = c, net.entry i j

def degreeOf (net : Network n ℚ) (label : Fin n → β) (c : β) : ℚ :=
  ∑ i with label i = c, net.degree i

/-- The share of the weight inside communities, less the share that their degrees lead one to
expect. -/
def modularity (net : Network n ℚ) (label : Fin n → β) : ℚ :=
  ∑ c ∈ Finset.univ.image label,
    (net.inside label c / net.total - (net.degreeOf label c / net.total) ^ 2)

theorem sum_excess_inside (net : Network n ℚ) (label : Fin n → β) (c : β) :
    ∑ i with label i = c, ∑ j with label j = c, net.excess i j
      = net.inside label c - net.degreeOf label c ^ 2 / net.total := by
  unfold excess inside degreeOf
  simp only [Finset.sum_sub_distrib, ← Finset.sum_div, ← Finset.mul_sum, ← Finset.sum_mul, sq]

theorem surplus_eq_sum (net : Network n ℚ) (label : Fin n → β) :
    net.surplus label = ∑ c ∈ Finset.univ.image label,
      ∑ i with label i = c, ∑ j with label j = c, net.excess i j := by
  have hrow : ∀ c, ∀ i ∈ Finset.univ.filter (fun i => label i = c),
      (∑ j, if label i = label j then net.excess i j else 0)
        = ∑ j with label j = c, net.excess i j := by
    intro c i hi
    rw [Finset.sum_filter, (Finset.mem_filter.mp hi).2]
    simp only [eq_comm (a := c)]
  rw [surplus, pairs,
    ← Finset.sum_fiberwise_of_maps_to fun i _ => Finset.mem_image_of_mem label (Finset.mem_univ i)]
  exact Finset.sum_congr rfl fun c _ => Finset.sum_congr rfl (hrow c)

theorem modularity_eq (net : Network n ℚ) (label : Fin n → β) :
    net.modularity label = net.surplus label / net.total := by
  rw [surplus_eq_sum, Finset.sum_div, modularity]
  refine Finset.sum_congr rfl fun c _ => ?_
  rw [sum_excess_inside, sub_div, div_pow, sq net.total, div_div]

/-- On the network of a graph it is the modularity of the groups of nodes. -/
theorem modularity_ofIndex (index : Index n) {vs : List (Fin n)} (hvs : vs.Perm (List.finRange n))
    (label : Fin vs.length → β) :
    (ofIndex index vs : Network vs.length ℚ).modularity label
      = index.modularity ℚ ((groupsOf label).map (List.map vs.get)) := by
  have hnodup : ∀ group ∈ (groupsOf label).map (List.map vs.get), group.Nodup := by
    refine List.forall_mem_map.mpr fun group hgroup => ?_
    obtain ⟨i, rfl⟩ := (mem_groupsOf label).mp hgroup
    exact ((List.nodup_finRange _).filter _).map (get_bijective hvs).1
  rw [modularity_eq, total_ofIndex index hvs]
  by_cases ht : index.totalTies = 0
  · rw [Index.modularity, ht, Nat.cast_zero, div_zero]
    rfl
  · rw [Index.modularity_eq index hnodup ht, ← sum_across_groupsOf index hvs, List.map_map]
    rfl

end Network

/-! ## Numbers in order of first occurrence -/

section FirstOccurrences

variable {β : Type} [DecidableEq β]

theorem prefix_foldl_seeItem (seen xs : List β) : seen <+: xs.foldl seeItem seen := by
  induction xs generalizing seen with
  | nil => exact List.prefix_rfl
  | cons x rest ih =>
    refine List.IsPrefix.trans ?_ (ih (seeItem seen x))
    unfold seeItem
    split
    · exact List.prefix_rfl
    · exact List.prefix_append _ _

/-- What occurs for the first time comes right after what occurred before. -/
theorem idxOf_firstOccurrences {xs ys : List β} {x : β} (hx : x ∉ xs) :
    (firstOccurrences (xs ++ x :: ys)).idxOf x = xs.toFinset.card := by
  have hnew : x ∉ firstOccurrences xs := mt mem_firstOccurrences.mp hx
  have hsee : seeItem (firstOccurrences xs) x = firstOccurrences xs ++ [x] :=
    if_neg (mt List.contains_iff_mem.mp hnew)
  have hfold : firstOccurrences (xs ++ x :: ys)
      = ys.foldl seeItem (seeItem (firstOccurrences xs) x) := List.foldl_append
  obtain ⟨later, hlater⟩ : firstOccurrences xs ++ [x] <+: firstOccurrences (xs ++ x :: ys) := by
    rw [hfold, ← hsee]
    exact prefix_foldl_seeItem _ ys
  have hsame : (firstOccurrences xs).toFinset = xs.toFinset := by
    ext y
    rw [List.mem_toFinset, List.mem_toFinset, mem_firstOccurrences]
  rw [← hlater, List.append_assoc, List.idxOf_append_of_notMem hnew, List.singleton_append,
    List.idxOf_cons_self, Nat.add_zero, ← hsame,
    List.toFinset_card_of_nodup (nodup_firstOccurrences xs)]

end FirstOccurrences

theorem mem_of_finRange_eq {n : Nat} {before after : List (Fin n)} {i : Fin n}
    (h : List.finRange n = before ++ i :: after) {j : Fin n} : j ∈ before ↔ j < i := by
  have hsorted : (before ++ i :: after).Pairwise (· < ·) := h ▸ List.pairwise_lt_finRange n
  obtain ⟨-, hafter, hbefore⟩ := List.pairwise_append.mp hsorted
  constructor
  · exact fun hj => hbefore j hj i List.mem_cons_self
  · intro hj
    have hmem : j ∈ before ++ i :: after := h ▸ List.mem_finRange j
    rcases List.mem_append.mp hmem with hj' | hj'
    · exact hj'
    · rcases List.mem_cons.mp hj' with rfl | hj'
      · exact absurd hj (lt_irrefl j)
      · exact absurd hj (List.rel_of_pairwise_cons hafter hj').asymm

namespace Labels

variable {n : Nat} {β : Type} [DecidableEq β]

/-- Numbers follow the labels in order of first occurrence. Positions have the same number when they
have the same label, no number is left out, and a label that occurs for the first time gets the
number of labels that occurred before. -/
structure InOrder (labels : Labels n β) {size : Nat} (number : Fin n → Fin size) : Prop where
  same : ∀ i j, number i = number j ↔ labels.get i = labels.get j
  onto : Function.Surjective number
  first : ∀ i, (∀ j < i, labels.get j ≠ labels.get i) →
    (number i).val = ((Finset.Iio i).image labels.get).card

theorem inOrder_number (labels : Labels n β) : labels.InOrder labels.number where
  same i j := number_eq_number_iff
  onto := labels.number_surjective
  first i hfirst := by
    obtain ⟨before, after, hsplit⟩ := List.append_of_mem (List.mem_finRange i)
    have hnew : labels.get i ∉ before.map labels.get := by
      intro hmem
      obtain ⟨j, hj, hsame⟩ := List.mem_map.mp hmem
      exact hfirst j ((mem_of_finRange_eq hsplit).mp hj) hsame
    have hbefore : (before.map labels.get).toFinset = (Finset.Iio i).image labels.get := by
      ext c
      simp only [List.mem_toFinset, List.mem_map, Finset.mem_image, Finset.mem_Iio,
        mem_of_finRange_eq hsplit]
    change (firstOccurrences ((List.finRange n).map labels.get)).idxOf (labels.get i) = _
    rw [hsplit, List.map_append, List.map_cons, idxOf_firstOccurrences hnew, hbefore]

end Labels

/-! ## Contraction -/

namespace Network

variable {n : Nat} {net : Network n ℚ} {β : Type} [DecidableEq β]

theorem modularity_contract (labels : Labels n β) {γ : Type} [DecidableEq γ]
    (part : Fin labels.used.length → γ) :
    (net.contract labels).modularity part = net.modularity (part ∘ labels.number) := by
  rw [modularity_eq, modularity_eq, total_contract, surplus, pairs_contract]
  rfl

/-- Communities of communities of a graph have the modularity of the groups that their nodes make. -/
theorem modularity_contract_ofIndex (index : Index n) {vs : List (Fin n)}
    (hvs : vs.Perm (List.finRange n)) (labels : Labels vs.length β) {γ : Type} [DecidableEq γ]
    (part : Fin labels.used.length → γ) :
    ((ofIndex index vs : Network vs.length ℚ).contract labels).modularity part
      = index.modularity ℚ ((groupsOf (part ∘ labels.number)).map (List.map vs.get)) := by
  rw [modularity_contract, modularity_ofIndex index hvs]

/-- The contraction of a labelling has weights that are the same seen from both ends, none of a
position with itself, and its positions are numbered in order of first occurrence. The degree of
each is the sum of the degrees of its members, the total is the same, and any partition of the
communities has the modularity of the partition it makes of the positions. -/
theorem contract_conserves (net : Network n ℚ)
    (hsymm : ∀ i j, net.between i j = net.between j i) (labels : Labels n β) :
    labels.InOrder labels.number ∧
    (∀ a b, (net.contract labels).between a b = (net.contract labels).between b a) ∧
    (∀ a, (net.contract labels).between a a = 0) ∧
    (∀ a, (net.contract labels).degree a = ∑ i with labels.number i = a, net.degree i) ∧
    (net.contract labels).total = net.total ∧
    ∀ (γ : Type) [DecidableEq γ] (part : Fin labels.used.length → γ),
      (net.contract labels).modularity part = net.modularity (part ∘ labels.number) := by
  refine ⟨labels.inOrder_number, between_contract_comm hsymm labels, between_contract_self labels,
    degree_contract labels, total_contract labels, fun γ _ part => modularity_contract labels part⟩

def triangle : Network 3 ℚ where
  weight := #v[#v[0, 2, 3], #v[2, 0, 5], #v[3, 5, 0]]
  loop := #v[1, 0, 0]

/-- The first and the last position in one community. -/
theorem contract_conserves_triangle :
    (∀ i j, triangle.between i j = triangle.between j i) ∧
    (Labels.number #v["x", "y", "x"] 2).val = 0 ∧
    (triangle.contract #v["x", "y", "x"]).degree (Labels.number #v["x", "y", "x"] 0) = 15 ∧
    (triangle.contract #v["x", "y", "x"]).total = 22 ∧
    (triangle.contract #v["x", "y", "x"]).modularity id
      = triangle.modularity (Labels.number #v["x", "y", "x"]) := by
  have hsymm : ∀ i j, triangle.between i j = triangle.between j i := by decide +kernel
  obtain ⟨hnumber, -, -, hdegree, htotal, hmodularity⟩ :=
    contract_conserves triangle hsymm #v["x", "y", "x"]
  refine ⟨hsymm, ?_, ?_, ?_, hmodularity _ id⟩
  · rw [(hnumber.same 2 0).mpr (by decide), hnumber.first 0 (by decide)]
    decide
  · rw [hdegree]
    decide +kernel
  · rw [htotal]
    decide +kernel

end Network

end CodeGraph
