import Mathlib.Algebra.Order.BigOperators.Group.List
import CodeGraph.Proofs.Fields
import CodeGraph.Proofs.Order
import CodeGraph.Proofs.Path.Candidates
import CodeGraph.Proofs.Sums

/-!
# Costs in doubles

Costs are numbers of any sort. Integers are added exactly until a double comes
in, so that a sum of integers may have no double, while sums of doubles do not
fail. A model whose integers together stay within the doubles is `Moderate`, and
it has a cost for every edge whose refinement and categories can be looked up
(`Moderate.prices`). A model as read is moderate, since it holds doubles only
(`moderate_of_read`).
-/

namespace CodeGraph

/-! ## Numbers that can be added -/

namespace Value

/-- What a number adds to a sum of integers. -/
def magnitude (v : Value) : Nat :=
  (v.asInt?.map Int.natAbs).getD 0

def Within (bound : Nat) (v : Value) : Prop :=
  (∃ x, v = .float x) ∨ ∃ k, v.asInt? = some k ∧ k.natAbs ≤ bound

variable {u v : Value} {a b : Nat}

theorem within_of_isNumber (h : v.isNumber = true) : v.Within v.magnitude := by
  by_cases hfloat : ∃ x, v = .float x
  · exact .inl hfloat
  · right
    have hwhole : v.asInt?.isSome = true := by
      cases v with
      | float x => exact absurd ⟨x, rfl⟩ hfloat
      | _ => exact h
    obtain ⟨k, hk⟩ := Option.isSome_iff_exists.mp hwhole
    exact ⟨k, hk, by rw [magnitude, hk]; exact le_refl _⟩

theorem Within.mono (h : v.Within a) (hle : a ≤ b) : v.Within b :=
  h.imp_right fun ⟨k, hk, hbound⟩ => ⟨k, hk, hbound.trans hle⟩

theorem Within.addend (h : v.Within a) (ha : a < beyondDoubles) : ∃ x, v.addend = .ok x := by
  rcases h with ⟨x, rfl⟩ | ⟨k, hk, hle⟩
  · exact ⟨x, rfl⟩
  · cases v with
    | bool t => exact ⟨_, rfl⟩
    | int n =>
        obtain rfl := Option.some.inj hk
        refine ⟨Decimal.ofInt n, ?_⟩
        rw [Value.addend, doubleOfInt, if_neg (by omega)]
    | _ => cases hk

theorem plus_of_addends (hnone : u.asInt? = none ∨ v.asInt? = none) {x y : Float}
    (hu : u.addend = .ok x) (hv : v.addend = .ok y) : u.plus v = .ok (.float (x + y)) := by
  unfold plus
  rw [hu, hv]
  rcases hnone with hnone | hnone
  · rw [hnone]
  · rw [hnone]
    cases u.asInt? <;> rfl

/-- Numbers have a sum, whose integers are no more than those of both. -/
theorem Within.plus (hu : u.Within a) (hv : v.Within b) (hab : a + b < beyondDoubles) :
    Gives (u.plus v) (Within (a + b)) := by
  obtain ⟨x, hx⟩ := hu.addend (Nat.lt_of_le_of_lt (Nat.le_add_right a b) hab)
  obtain ⟨y, hy⟩ := hv.addend (Nat.lt_of_le_of_lt (Nat.le_add_left b a) hab)
  by_cases hnone : u.asInt? = none ∨ v.asInt? = none
  · exact ⟨_, plus_of_addends hnone hx hy, .inl ⟨_, rfl⟩⟩
  · rcases hu with ⟨_, rfl⟩ | ⟨k, hk, hka⟩
    · exact absurd (.inl rfl) hnone
    · rcases hv with ⟨_, rfl⟩ | ⟨l, hl, hlb⟩
      · exact absurd (.inr rfl) hnone
      · refine ⟨.int (k + l), by rw [Value.plus, hk, hl], .inr ⟨k + l, rfl, ?_⟩⟩
        exact (Int.natAbs_add_le k l).trans (Nat.add_le_add hka hlb)

end Value

/-- The integers among some numbers, as they may add up. -/
def Fields.magnitude (fields : Fields) : Nat :=
  addAll (fields.map fun entry => entry.2.magnitude)

theorem Fields.magnitude_le_of_mem {fields : Fields} {entry : String × Value}
    (h : entry ∈ fields) : entry.2.magnitude ≤ fields.magnitude := by
  rw [magnitude, addAll_eq_sum]
  exact List.single_le_sum (fun _ _ => Nat.zero_le _) _ (List.mem_map_of_mem h)

theorem Fields.magnitude_le_of_subset {found fields : Fields} (hnodup : found.keys.Nodup)
    (h : found ⊆ fields) : found.magnitude ≤ fields.magnitude := by
  obtain ⟨others, hperm, hsub⟩ := List.subperm_of_subset (List.Nodup.of_map _ hnodup) h
  rw [magnitude, magnitude, addAll_eq_sum, addAll_eq_sum, ← (hperm.map _).sum_eq]
  exact (hsub.map _).sum_le_sum fun _ _ => Nat.zero_le _

theorem foldlM_plus_gives {entries : Fields}
    (hnumber : ∀ entry ∈ entries, entry.2.isNumber = true) {start : Value} {bound : Nat}
    (hstart : start.Within bound) (hbound : bound + entries.magnitude < Value.beyondDoubles) :
    Gives (entries.foldlM (fun sum entry => sum.plus entry.2) start)
      (Value.Within (bound + entries.magnitude)) := by
  induction entries generalizing start bound with
  | nil => exact Gives.of_ok hstart
  | cons entry rest ih =>
      obtain ⟨hentry, hrest⟩ := List.forall_mem_cons.mp hnumber
      have hsplit : bound + Fields.magnitude (entry :: rest)
          = bound + entry.2.magnitude + Fields.magnitude rest := (Nat.add_assoc ..).symm
      rw [hsplit] at hbound ⊢
      rw [List.foldlM_cons]
      refine (hstart.plus (Value.within_of_isNumber hentry) (by omega)).bind fun sum hsum => ?_
      exact ih hrest hsum hbound

/-! ## Models and what they price -/

/-- What costs are looked up by can be looked up. -/
structure Graph.Hashable (g : Graph) : Prop where
  categories : ∀ node ∈ g.nodes, ∀ c ∈ node.metadata.categories, c.isScalar = true
  subkind : ∀ e ∈ g.edges, e.subkind.isScalar = true

namespace CostModel

/-- The edge has a cost in doubles. -/
def Prices (m : CostModel) (g : Graph) (e : Edge) : Prop :=
  ∃ x : Float, Critical.Costs m g e x

/-- All costs and penalties are numbers, and the integers among them stay within the doubles however
they are added up. -/
structure Moderate (m : CostModel) : Prop where
  number : ∀ entry ∈ m.costs ++ m.penalties, entry.2.isNumber = true
  bounded : m.costs.magnitude + m.penalties.magnitude < Value.beyondDoubles

variable {m : CostModel} {g : Graph} {e : Edge}

theorem match?_gives (hm : m.Moderate) (he : e.subkind.isScalar = true) :
    Gives (m.match? e) fun matched =>
      ∀ entry ∈ matched, entry.2.isNumber = true ∧ entry.2.magnitude ≤ m.costs.magnitude := by
  have hkey : e.subkind.hashable = .ok () := Value.hashable_eq_ok.mpr he
  unfold match?
  rw [hkey]
  simp only [bind, Except.bind]
  split
  · refine Gives.of_ok fun entry hentry => ?_
    obtain ⟨cost, hcost, rfl⟩ := Option.map_eq_some_iff.mp hentry
    have hmem := Fields.mem_of_get? hcost
    exact ⟨hm.number _ (List.mem_append_left _ hmem), Fields.magnitude_le_of_mem hmem⟩
  · exact Gives.of_ok (by simp)

/-- The penalties found are penalties of the model, each under its own name. -/
theorem penaltiesOf_gives {categories : List Value}
    (hcategories : ∀ c ∈ categories, c.isScalar = true) {found : Fields}
    (hnodup : found.keys.Nodup) (hfound : found ⊆ m.penalties) :
    Gives (m.penaltiesOf categories found) fun penalties =>
      penalties.keys.Nodup ∧ penalties ⊆ m.penalties := by
  induction categories generalizing found with
  | nil => exact Gives.of_ok ⟨hnodup, hfound⟩
  | cons category rest ih =>
      have hkey : category.hashable = .ok () :=
        Value.hashable_eq_ok.mpr (hcategories category (List.mem_cons_self ..))
      have hrest : ∀ c ∈ rest, c.isScalar = true := fun c hc =>
        hcategories c (List.mem_cons_of_mem _ hc)
      unfold penaltiesOf
      simp only [hkey, bind, Except.bind]
      split
      · split
        · next penalty hpenalty =>
          refine ih hrest (Fields.nodup_put hnodup penalty) fun entry hentry => ?_
          rcases Fields.mem_put hentry with hold | rfl
          · exact hfound hold
          · exact Fields.mem_of_get? hpenalty
        · exact ih hrest hnodup hfound
      · exact ih hrest hnodup hfound

theorem breakdown_gives (hm : m.Moderate) (hg : g.Hashable) (hv : g.Valid) (hc : g.Closed)
    (he : e ∈ g.edges) :
    Gives (m.breakdown g e) fun b =>
      b.base.Within m.costs.magnitude ∧ b.penalties.keys.Nodup ∧ b.penalties ⊆ m.penalties := by
  obtain ⟨_, v, -, hv'⟩ := Graph.closed_iff.mp hc e he
  have hkey : e.target.hashable = .ok () := Value.hashable_eq_ok.mpr (hv.scalar_of_vertex? hv')
  unfold breakdown
  simp only [hkey, hv']
  refine (match?_gives hm (hg.subkind e he)).bind fun matched hmatched => ?_
  have hcategories := hg.categories (g.nodeAt v) (List.get_mem ..)
  have hnil : (Fields.keys []).Nodup := List.nodup_nil
  refine (penaltiesOf_gives hcategories hnil (List.nil_subset _)).bind fun penalties hpenalties => ?_
  refine Gives.of_ok ⟨?_, hpenalties⟩
  cases matched with
  | none => exact .inl ⟨_, rfl⟩
  | some entry =>
      obtain ⟨hnumber, hle⟩ := hmatched entry rfl
      exact (Value.within_of_isNumber hnumber).mono hle

theorem Moderate.prices (hm : m.Moderate) (hg : g.Hashable) (hv : g.Valid) (hc : g.Closed)
    {e : Edge} (he : e ∈ g.edges) : m.Prices g e := by
  obtain ⟨b, hb, hbase, hnodup, hsubset⟩ := breakdown_gives hm hg hv hc he
  have hnumber : ∀ entry ∈ b.penalties, entry.2.isNumber = true := fun entry hentry =>
    hm.number entry (List.mem_append_right _ (hsubset hentry))
  have hle := Fields.magnitude_le_of_subset hnodup hsubset
  have hbounded := hm.bounded
  have hzero : (Value.int 0).Within 0 := .inr ⟨0, rfl, le_refl 0⟩
  obtain ⟨sum, hsum, hwithin⟩ := foldlM_plus_gives hnumber hzero (by omega)
  obtain ⟨total, htotal, hwhole⟩ := hbase.plus hwithin (by omega)
  obtain ⟨x, hx⟩ := hwhole.addend (by omega)
  refine ⟨x, b, hb, ?_, ?_⟩
  · change ((b.penalties.foldlM (fun sum entry => sum.plus entry.2) (.int 0) >>= b.base.plus) >>=
      Value.addend) = .ok x
    rw [hsum]
    change (b.base.plus sum >>= Value.addend) = .ok x
    rw [htotal]
    exact hx
  · rintro v (rfl | hv)
    · exact hbase.addend (by omega)
    · obtain ⟨entry, hentry, rfl⟩ := List.mem_map.mp hv
      have hpart := Fields.magnitude_le_of_mem hentry
      exact (Value.within_of_isNumber (hnumber entry hentry)).addend (by omega)

/-! ## Models as read -/

theorem readTable_doubles {v : Value} {fields : Fields} (h : readTable v = .ok fields) :
    ∀ entry ∈ fields, ∃ x, entry.2 = .float x := by
  unfold readTable at h
  split at h
  · obtain ⟨items, -, h⟩ := bind_eq_ok.mp h
    refine Gives.forall_of_mapM h ?_
    rintro ⟨key, v⟩ entry hentry
    obtain ⟨x, -, hx⟩ := bind_eq_ok.mp hentry
    obtain rfl := Except.ok.inj hx
    exact ⟨x, rfl⟩
  · obtain rfl := Except.ok.inj h
    exact fun entry hentry => absurd hentry List.not_mem_nil

theorem moderate_of_doubles (h : ∀ entry ∈ m.costs ++ m.penalties, ∃ x, entry.2 = .float x) :
    m.Moderate := by
  have hnone : ∀ fields : Fields, (∀ entry ∈ fields, ∃ x, entry.2 = .float x) →
      fields.magnitude = 0 := by
    intro fields hfields
    rw [Fields.magnitude, addAll_eq_sum, List.sum_eq_zero_iff_forall_eq_nat]
    refine List.forall_mem_map.mpr fun entry hentry => ?_
    obtain ⟨x, hx⟩ := hfields entry hentry
    rw [hx]
    rfl
  obtain ⟨hcosts, hpenalties⟩ := List.forall_mem_append.mp h
  constructor
  · intro entry hentry
    obtain ⟨x, hx⟩ := h entry hentry
    rw [hx]
    rfl
  · rw [hnone _ hcosts, hnone _ hpenalties]
    decide +kernel

theorem readTables_moderate {fields : Fields} (h : readTables fields = .ok m) : m.Moderate := by
  obtain ⟨penalties, hpenalties, h⟩ := bind_eq_ok.mp h
  obtain ⟨costs, hcosts, h⟩ := bind_eq_ok.mp h
  obtain rfl := Except.ok.inj h
  exact moderate_of_doubles
    (List.forall_mem_append.mpr ⟨readTable_doubles hcosts, readTable_doubles hpenalties⟩)

mutual

/-- Whatever is read as a model is moderate, however deeply it is wrapped. -/
theorem moderate_of_read : ∀ {v : Value} {m : CostModel}, read v = .ok m → m.Moderate
  | .null, m, h => by
      obtain rfl := Except.ok.inj h
      exact moderate_of_doubles fun entry hentry => absurd hentry List.not_mem_nil
  | .record fields, m, h => by
      rw [read] at h
      cases hwrapped : readWrapped fields with
      | none =>
          rw [hwrapped] at h
          exact readTables_moderate h
      | some result =>
          rw [hwrapped] at h
          exact moderate_of_readWrapped (hwrapped.trans (congrArg some h))
  | .list items, m, h => by
      rw [read] at h
      split at h <;> cases h
  | .str s, m, h => by
      rw [read] at h
      split at h <;> cases h
  | .bool _, m, h => nomatch h
  | .int _, m, h => nomatch h
  | .float _, m, h => nomatch h
  | .table _, m, h => nomatch h

theorem moderate_of_readWrapped : ∀ {fields : List (String × Value)} {m : CostModel},
    readWrapped fields = some (.ok m) → m.Moderate
  | [], m, h => nomatch h
  | (key, v) :: rest, m, h => by
      rw [readWrapped] at h
      split at h
      · exact moderate_of_read (Option.some.inj h)
      · exact moderate_of_readWrapped h

end

end CostModel

end CodeGraph
