import Mathlib.Data.List.Sort
import Mathlib.Data.Prod.Lex
import Mathlib.Data.String.Basic
import CodeGraph.Proofs.Answers
import CodeGraph.Proofs.Decimal
import CodeGraph.Proofs.Runs

/-!
# Scalars in order

Numbers of all sorts are compared as their places among the rationals are, and a
not-a-number stands in no relation to anything (`relateNumbers?_eq`). So on
scalars `precedes` is a strict order, and of two that can be compared, and are
themselves, it decides which comes first unless they are the same
(`precedes_or_precedes`).

Sorting by values rearranges, and it answers whenever any two keys can be
compared (`sortOn_perm`, `sortOn_gives_of_comparable`). Texts, and numbers with a
text each, are sorted as ranks in a linear order are (`sortOn_map`).
-/

namespace CodeGraph.Value

open Decimal (Place place placeOfRat)

/-! ## Numbers -/

/-- How two places stand; there may be none. -/
def standing (p q : Option Place) : Relation :=
  ((Option.map₂ cmp p q).map Relation.ofOrdering).getD .unordered

theorem standing_flip (p q : Option Place) : (standing p q).flip = standing q p := by
  cases p with
  | none => cases q <;> rfl
  | some p =>
    cases q with
    | none => rfl
    | some q =>
      change (Relation.ofOrdering (cmp p q)).flip = Relation.ofOrdering (cmp q p)
      rw [← cmp_swap p q]
      cases cmp p q <;> rfl

theorem map₂_cmp_swap (p q : Option Place) :
    Option.map₂ cmp q p = (Option.map₂ cmp p q).map Ordering.swap := by
  cases p with
  | none => cases q <;> rfl
  | some p =>
    cases q with
    | none => rfl
    | some q => exact congrArg some (cmp_swap p q).symm

theorem relateFloats_eq (x y : Float) : relateFloats x y = standing (place x) (place y) := by
  have hless := Decimal.lt_iff_cmp (x := x) (y := y)
  have hgreater := Decimal.lt_iff_cmp (x := y) (y := x)
  have hequal := Decimal.beq_iff_cmp (x := x) (y := y)
  rw [map₂_cmp_swap (place x) (place y)] at hgreater
  unfold relateFloats standing
  generalize Option.map₂ cmp (place x) (place y) = o at hless hgreater hequal ⊢
  cases o with
  | none => simp [hless, hgreater, hequal]
  | some o => cases o <;> simp [hless, hgreater, hequal, Relation.ofOrdering]

theorem relateIntFloat_eq (n : Int) (x : Float) :
    relateIntFloat n x = standing (some (placeOfRat n)) (place x) := by
  unfold relateIntFloat place
  cases Decimal.Binary.ofFloat x with
  | nan => rfl
  | infinite negative =>
    cases negative
    · exact congrArg Relation.ofOrdering
        ((cmp_eq_lt_iff _ _).mpr (Decimal.placeOfRat_lt_top n)).symm
    · exact congrArg Relation.ofOrdering
        ((cmp_eq_gt_iff _ _).mpr (Decimal.bot_lt_placeOfRat n)).symm
  | finite d =>
    change _ = Relation.ofOrdering (cmp (placeOfRat n) (placeOfRat d.toRat))
    rw [Decimal.placeOfRat_strictMono.cmp_map_eq]
    dsimp only [cmp, cmpUsing]
    split
    · rfl
    · split <;> rfl

def place? : Value → Option Place
  | .float x => place x
  | v => v.asInt?.map fun n => placeOfRat n

def isNumber : Value → Bool
  | .float _ => true
  | v => v.asInt?.isSome

/-- A number that counts something. -/
def isWhole (v : Value) : Bool :=
  v.asInt?.isSome

theorem relate_ints (m n : Int) :
    Relation.ofOrdering (compare m n) = standing (some (placeOfRat m)) (some (placeOfRat n)) := by
  have hmono : StrictMono fun k : Int => placeOfRat k :=
    Decimal.placeOfRat_strictMono.comp Int.cast_strictMono
  change _ = Relation.ofOrdering (cmp (placeOfRat m) (placeOfRat n))
  rw [hmono.cmp_map_eq, cmp_eq_compare]

/-- Numbers of all sorts stand as their places do. -/
theorem relateNumbers?_eq (a b : Value) :
    relateNumbers? a b
      = if a.isNumber && b.isNumber then some (standing a.place? b.place?) else none := by
  have hflip : ∀ (n : Int) (x : Float),
      (relateIntFloat n x).flip = standing (place x) (some (placeOfRat n)) := by
    intro n x
    rw [relateIntFloat_eq, standing_flip]
  cases a with
  | float x =>
    cases b with
    | float y => exact congrArg some (relateFloats_eq x y)
    | int n => exact congrArg some (hflip n x)
    | bool c => exact congrArg some (hflip _ x)
    | _ => rfl
  | int m =>
    cases b with
    | float y => exact congrArg some (relateIntFloat_eq m y)
    | int n => exact congrArg some (relate_ints m n)
    | bool c => exact congrArg some (relate_ints m _)
    | _ => rfl
  | bool c =>
    cases b with
    | float y => exact congrArg some (relateIntFloat_eq _ y)
    | int n => exact congrArg some (relate_ints _ n)
    | bool c' => exact congrArg some (relate_ints _ _)
    | _ => rfl
  | _ => cases b <;> rfl

@[simp] theorem standing_none_left (q : Option Place) : standing none q = .unordered := rfl

@[simp] theorem standing_none_right (p : Option Place) : standing p none = .unordered := by
  cases p <;> rfl

theorem standing_some (p q : Place) : standing (some p) (some q) = Relation.ofOrdering (cmp p q) :=
  rfl

theorem standing_eq_less {p q : Option Place} :
    standing p q = .less ↔ ∃ a ∈ p, ∃ b ∈ q, a < b := by
  cases p with
  | none => simp
  | some p =>
    cases q with
    | none => simp
    | some q =>
      have hmem : (∃ a ∈ some p, ∃ b ∈ some q, a < b) ↔ cmp p q = .lt := by
        rw [cmp_eq_lt_iff]
        constructor
        · rintro ⟨a, ha, b, hb, hab⟩
          obtain rfl := Option.some.inj ha
          obtain rfl := Option.some.inj hb
          exact hab
        · exact fun h => ⟨p, rfl, q, rfl, h⟩
      rw [standing_some, hmem]
      cases cmp p q <;> simp [Relation.ofOrdering]

theorem standing_eq_equal {p q : Option Place} :
    standing p q = .equal ↔ ∃ a ∈ p, a ∈ q := by
  cases p with
  | none => simp
  | some p =>
    cases q with
    | none => simp
    | some q =>
      have hmem : (∃ a ∈ some p, a ∈ some q) ↔ cmp p q = .eq := by
        rw [cmp_eq_eq_iff]
        constructor
        · rintro ⟨a, hp, hq⟩
          exact (Option.some.inj hp).trans (Option.some.inj hq).symm
        · rintro rfl
          exact ⟨p, rfl, rfl⟩
      rw [standing_some, hmem]
      cases cmp p q <;> simp [Relation.ofOrdering]

/-! ## Scalars -/

theorem isText_iff {a : Value} : a.isText = true ↔ ∃ s, a = .str s := by
  cases a <;> simp [isText]

theorem isNumber_of_mem_place? {a : Value} {p : Place} (h : p ∈ a.place?) : a.isNumber = true := by
  cases a <;> simp_all [place?, isNumber, asInt?]

theorem relate?_eq_numbers {a b : Value} (ha : a.isScalar = true)
    (h : a.isText = true → b.isText = false) : relate? a b = relateNumbers? a b := by
  cases a <;> cases b <;> simp_all [relate?, isText, isScalar]

theorem same_eq_numbers {a b : Value} (ha : a.isScalar = true) (hnull : a ≠ .null)
    (h : a.isText = true → b.isText = false) :
    a.same b = (relateNumbers? a b == some .equal) := by
  cases a <;> cases b <;> simp_all [same, isText, isScalar]

theorem relateNumbers?_eq_some {a b : Value} {r : Relation} :
    relateNumbers? a b = some r ↔
      a.isNumber = true ∧ b.isNumber = true ∧ standing a.place? b.place? = r := by
  rw [relateNumbers?_eq]
  by_cases h : (a.isNumber && b.isNumber) = true
  · rw [if_pos h, Option.some.injEq, ← and_assoc, ← Bool.and_eq_true]
    exact (and_iff_right h).symm
  · rw [if_neg h, ← and_assoc, ← Bool.and_eq_true]
    simp [h]

/-- Texts by code point, numbers by value, and nothing else. -/
theorem precedes_iff {a b : Value} (ha : a.isScalar = true) :
    a.precedes b = true ↔ (∃ s t, a = .str s ∧ b = .str t ∧ s < t) ∨
      ∃ p ∈ a.place?, ∃ q ∈ b.place?, p < q := by
  rw [precedes, beq_iff_eq]
  by_cases htexts : a.isText = true ∧ b.isText = true
  · obtain ⟨⟨s, rfl⟩, t, rfl⟩ := htexts.imp isText_iff.mp isText_iff.mp
    have hcompare : compare s t = compareOfLessAndEq s t := rfl
    rw [relate?, hcompare]
    simp [place?, asInt?, ← compareOfLessAndEq_eq_lt]
    cases compareOfLessAndEq s t <;> simp [Relation.ofOrdering]
  · rw [relate?_eq_numbers ha (by simpa using htexts), relateNumbers?_eq_some, standing_eq_less]
    constructor
    · rintro ⟨-, -, hlt⟩
      exact .inr hlt
    · rintro (⟨s, t, rfl, rfl, -⟩ | ⟨p, hp, q, hq, hlt⟩)
      · exact absurd ⟨rfl, rfl⟩ htexts
      · exact ⟨isNumber_of_mem_place? hp, isNumber_of_mem_place? hq, p, hp, q, hq, hlt⟩

theorem same_iff {a b : Value} (ha : a.isScalar = true) :
    a.same b = true ↔ (a = .null ∧ b = .null) ∨ (∃ s, a = .str s ∧ b = .str s) ∨
      ∃ p ∈ a.place?, p ∈ b.place? := by
  by_cases hnull : a = .null
  · subst hnull
    cases b <;> simp [same, place?, asInt?, relateNumbers?]
  by_cases htexts : a.isText = true ∧ b.isText = true
  · obtain ⟨⟨s, rfl⟩, t, rfl⟩ := htexts.imp isText_iff.mp isText_iff.mp
    have hsame : (Value.str s).same (.str t) = true ↔ s = t := by simp [same]
    rw [hsame]
    constructor
    · rintro rfl
      exact .inr (.inl ⟨s, rfl, rfl⟩)
    · rintro (⟨h, -⟩ | ⟨u, hs, ht⟩ | ⟨p, hp, -⟩)
      · cases h
      · exact Value.str.inj (hs.trans ht.symm)
      · cases hp
  · rw [same_eq_numbers ha hnull (by simpa using htexts), beq_iff_eq, relateNumbers?_eq_some,
      standing_eq_equal]
    constructor
    · rintro ⟨-, -, heq⟩
      exact .inr (.inr heq)
    · rintro (⟨rfl, -⟩ | ⟨s, rfl, rfl⟩ | ⟨p, hp, hq⟩)
      · exact absurd rfl hnull
      · exact absurd ⟨rfl, rfl⟩ htexts
      · exact ⟨isNumber_of_mem_place? hp, isNumber_of_mem_place? hq, p, hp, hq⟩

theorem same_symm {a b : Value} (ha : a.isScalar = true) (h : a.same b = true) :
    b.same a = true := by
  have hb := isScalar_of_same ha h
  rw [same_iff ha] at h
  rw [same_iff hb]
  rcases h with ⟨rfl, rfl⟩ | ⟨s, rfl, rfl⟩ | ⟨p, ha, hb⟩
  · exact .inl ⟨rfl, rfl⟩
  · exact .inr (.inl ⟨s, rfl, rfl⟩)
  · exact .inr (.inr ⟨p, hb, ha⟩)

theorem same_trans {a b c : Value} (ha : a.isScalar = true) (hab : a.same b = true)
    (hbc : b.same c = true) : a.same c = true := by
  have hb := isScalar_of_same ha hab
  rw [same_iff ha] at hab ⊢
  rw [same_iff hb] at hbc
  rcases hab with ⟨rfl, rfl⟩ | ⟨s, rfl, rfl⟩ | ⟨p, hpa, hpb⟩
  · rcases hbc with ⟨-, rfl⟩ | ⟨_, hnull, -⟩ | ⟨_, hnone, -⟩
    · exact .inl ⟨rfl, rfl⟩
    · cases hnull
    · cases hnone
  · rcases hbc with ⟨hnull, -⟩ | ⟨t, ht, rfl⟩ | ⟨_, hnone, -⟩
    · cases hnull
    · exact .inr (.inl ⟨s, rfl, ht ▸ rfl⟩)
    · cases hnone
  · rcases hbc with ⟨rfl, -⟩ | ⟨_, rfl, -⟩ | ⟨q, hqb, hqc⟩
    · cases hpb
    · cases hpb
    · exact .inr (.inr ⟨p, hpa, Option.mem_unique hqb hpb ▸ hqc⟩)

theorem not_precedes_self {a : Value} (ha : a.isScalar = true) : a.precedes a = false := by
  rw [Bool.eq_false_iff, ne_eq, precedes_iff ha]
  rintro (⟨s, t, rfl, heq, hlt⟩ | ⟨p, hp, q, hq, hlt⟩)
  · obtain rfl := Value.str.inj heq
    exact String.lt_irrefl s hlt
  · obtain rfl := Option.mem_unique hp hq
    exact lt_irrefl p hlt

theorem precedes_trans {a b c : Value} (ha : a.isScalar = true) (hb : b.isScalar = true)
    (hab : a.precedes b = true) (hbc : b.precedes c = true) : a.precedes c = true := by
  rw [precedes_iff ha] at hab ⊢
  rw [precedes_iff hb] at hbc
  rcases hab with ⟨s, t, rfl, rfl, hst⟩ | ⟨p, hp, q, hq, hpq⟩
  · rcases hbc with ⟨t', u, heq, rfl, htu⟩ | ⟨q, hq, -⟩
    · obtain rfl := Value.str.inj heq
      exact .inl ⟨s, u, rfl, rfl, String.lt_trans hst htu⟩
    · cases hq
  · rcases hbc with ⟨t, u, rfl, -⟩ | ⟨q', hq', r, hr, hqr⟩
    · cases hq
    · obtain rfl := Option.mem_unique hq hq'
      exact .inr ⟨p, hp, r, hr, hpq.trans hqr⟩

/-- Of two values that are themselves and can be compared, one precedes the other unless they are
the same. -/
theorem precedes_or_precedes {a b : Value} (ha : a.isScalar = true) (hb : b.isScalar = true)
    (haa : a.same a = true) (hbb : b.same b = true) (hab : (relate? a b).isSome = true)
    (hne : a.same b = false) : a.precedes b = true ∨ b.precedes a = true := by
  rw [Bool.eq_false_iff, ne_eq, same_iff ha] at hne
  rw [precedes_iff ha, precedes_iff hb]
  by_cases htexts : a.isText = true ∧ b.isText = true
  · obtain ⟨⟨s, rfl⟩, t, rfl⟩ := htexts.imp isText_iff.mp isText_iff.mp
    have hst : s ≠ t := fun heq => hne (.inr (.inl ⟨s, rfl, by rw [heq]⟩))
    rcases String.le_total s t with hle | hle
    · exact .inl (.inl ⟨s, t, rfl, rfl,
        String.not_le.mp fun hge => hst (String.le_antisymm hle hge)⟩)
    · exact .inr (.inl ⟨t, s, rfl, rfl,
        String.not_le.mp fun hge => hst (String.le_antisymm hge hle)⟩)
  · rw [relate?_eq_numbers ha (by simpa using htexts)] at hab
    obtain ⟨r, hr⟩ := Option.isSome_iff_exists.mp hab
    obtain ⟨hna, hnb, -⟩ := relateNumbers?_eq_some.mp hr
    have hplace : ∀ c : Value, c.isNumber = true → c.isScalar = true → c.same c = true →
        ∃ p, p ∈ c.place? := by
      intro c hnc hc hcc
      rcases (same_iff hc).mp hcc with ⟨rfl, -⟩ | ⟨s, rfl, -⟩ | ⟨p, hp, -⟩
      · cases hnc
      · cases hnc
      · exact ⟨p, hp⟩
    obtain ⟨p, hp⟩ := hplace a hna ha haa
    obtain ⟨q, hq⟩ := hplace b hnb hb hbb
    rcases lt_trichotomy p q with hlt | rfl | hlt
    · exact .inl (.inr ⟨p, hp, q, hq, hlt⟩)
    · exact absurd (.inr (.inr ⟨p, hp, hq⟩)) hne
    · exact .inr (.inr ⟨q, hq, p, hp, hlt⟩)

theorem relate?_self {a b : Value} (ha : a.isScalar = true) (h : (relate? a b).isSome = true) :
    (relate? a a).isSome = true := by
  by_cases htext : a.isText = true
  · obtain ⟨s, rfl⟩ := isText_iff.mp htext
    rfl
  · have hnot : ∀ c : Value, a.isText = true → c.isText = false := fun _ h => absurd h htext
    rw [relate?_eq_numbers ha (hnot b)] at h
    obtain ⟨r, hr⟩ := Option.isSome_iff_exists.mp h
    have hnumber := (relateNumbers?_eq_some.mp hr).1
    rw [relate?_eq_numbers ha (hnot a), relateNumbers?_eq_some.mpr ⟨hnumber, hnumber, rfl⟩]
    rfl

theorem lt_of_precedes {a b : Value} (h : a.precedes b = true) : a.lt b = .ok true := by
  have hless : relate? a b = some .less := beq_iff_eq.mp h
  simp only [lt, relation, hless]
  rfl

/-! ## Comparisons that answer -/

theorem relate?_of_isNumber {a : Value} (ha : a.isNumber = true) (b : Value) :
    relate? a b = relateNumbers? a b := by
  cases a with
  | bool _ | int _ | float _ => rfl
  | _ => cases ha

theorem relation_gives {a b : Value} (ha : a.isNumber = true) (hb : b.isNumber = true)
    (symbol : String) : Gives (relation symbol a b) fun _ => True := by
  unfold relation
  rw [relate?_of_isNumber ha, relateNumbers?_eq_some.mpr ⟨ha, hb, rfl⟩]
  exact Gives.of_ok trivial

theorem gt_gives {a b : Value} (ha : a.isNumber = true) (hb : b.isNumber = true) :
    Gives (a.gt b) fun _ => True := by
  obtain ⟨r, hr, -⟩ := relation_gives ha hb ">"
  exact ⟨r == .greater, by rw [gt, hr]; rfl, trivial⟩

theorem le_gives {a b : Value} (ha : a.isNumber = true) (hb : b.isNumber = true) :
    Gives (a.le b) fun _ => True := by
  obtain ⟨r, hr, -⟩ := relation_gives ha hb "<="
  exact ⟨r == .less || r == .equal, by rw [le, hr]; rfl, trivial⟩

theorem le_int (a b : Int) : Value.le (.int a) (.int b) = .ok (decide (a ≤ b)) := by
  rw [le, relation_int]
  rcases lt_trichotomy a b with hlt | rfl | hgt
  · rw [compare_lt_iff_lt.mpr hlt, decide_eq_true hlt.le]
    rfl
  · rw [compare_eq_iff_eq.mpr rfl, decide_eq_true le_rfl]
    rfl
  · rw [compare_gt_iff_gt.mpr hgt, decide_eq_false (not_le.mpr hgt)]
    rfl

theorem gt_int (a b : Int) : Value.gt (.int a) (.int b) = .ok (decide (b < a)) := by
  rw [gt, relation_int]
  rcases lt_trichotomy a b with hlt | rfl | hgt
  · rw [compare_lt_iff_lt.mpr hlt, decide_eq_false hlt.asymm]
    rfl
  · rw [compare_eq_iff_eq.mpr rfl, decide_eq_false (lt_irrefl a)]
    rfl
  · rw [compare_gt_iff_gt.mpr hgt, decide_eq_true hgt]
    rfl

theorem relate?_texts {a b : Value} (ha : a.isText = true) (hb : b.isText = true) :
    (relate? a b).isSome = true := by
  obtain ⟨s, rfl⟩ := isText_iff.mp ha
  obtain ⟨t, rfl⟩ := isText_iff.mp hb
  rfl

theorem relate?_pairs {a b s t : Value} (ha : a.isNumber = true) (hb : b.isNumber = true)
    (hs : s.isText = true) (ht : t.isText = true) :
    (relate? (.list [a, s]) (.list [b, t])).isSome = true := by
  have hnumbers : (relate? a b).isSome = true := by
    rw [relate?_of_isNumber ha, relateNumbers?_eq_some.mpr ⟨ha, hb, rfl⟩]
    rfl
  rw [relate?, relateItems?, relateItems?, relateItems?]
  split
  · split
    · rfl
    · exact relate?_texts hs ht
  · exact hnumbers

theorem isNumber_of_relate? {a b : Value} (h : (relate? a b).isSome = true) :
    a.isNumber = true ↔ b.isNumber = true := by
  obtain ⟨r, hr⟩ := Option.isSome_iff_exists.mp h
  constructor
  · intro ha
    rw [relate?_of_isNumber ha] at hr
    exact (relateNumbers?_eq_some.mp hr).2.1
  · intro hb
    have hnumbers : relate? a b = relateNumbers? a b := by
      cases b with
      | bool _ | int _ | float _ => cases a <;> rfl
      | _ => cases hb
    rw [hnumbers] at hr
    exact (relateNumbers?_eq_some.mp hr).1

theorem relate?_isSome_of_map {γ : Type} {symbol : String} {a b : Value} {f : Relation → γ} {c : γ}
    (h : (relation symbol a b).map f = .ok c) : (relate? a b).isSome = true := by
  unfold relation at h
  cases hr : relate? a b with
  | some r => rfl
  | none =>
    rw [hr] at h
    cases h

theorem lt_of_asInt? {a : Value} {k : Int} (h : a.asInt? = some k) (n : Int) :
    a.lt (.int n) = .ok (decide (k < n)) := by
  rw [← lt_int]
  cases a with
  | int m =>
    obtain rfl := Option.some.inj h
    rfl
  | bool b =>
    obtain rfl := Option.some.inj h
    rfl
  | _ => cases h

/-- A number that is not whole is a double. -/
theorem typeName_of_asInt?_eq_none {a : Value} (ha : a.isNumber = true) (h : a.asInt? = none) :
    a.typeName = "float" := by
  cases a with
  | float x => rfl
  | int n => cases h
  | bool b => cases h
  | _ => cases ha

/-! ## Exact values -/

/-- The exact value of a number, unless it is infinite. -/
def rational? : Value → Option ℚ
  | .float x => Decimal.rational? x
  | v => v.asInt?.map fun n => (n : ℚ)

theorem place?_of_rational? {a : Value} {p : ℚ} (h : a.rational? = some p) :
    a.place? = some (placeOfRat p) := by
  cases a with
  | float x =>
    change Decimal.rational? x = some p at h
    change place x = some (placeOfRat p)
    unfold Decimal.rational? at h
    unfold place
    cases hx : Decimal.Binary.ofFloat x with
    | finite d =>
      rw [hx] at h
      exact congrArg (fun q => some (placeOfRat q)) (Option.some.inj h)
    | _ =>
      rw [hx] at h
      cases h
  | int n =>
    obtain rfl := Option.some.inj h
    rfl
  | bool b =>
    obtain rfl := Option.some.inj h
    rfl
  | _ => cases h

theorem relate?_of_rational? {a b : Value} {p q : ℚ} (ha : a.rational? = some p)
    (hb : b.rational? = some q) : relate? a b = some (Relation.ofOrdering (cmp p q)) := by
  have hp := place?_of_rational? ha
  have hq := place?_of_rational? hb
  have hnumber := isNumber_of_mem_place? hp
  rw [relate?_of_isNumber hnumber]
  refine relateNumbers?_eq_some.mpr ⟨hnumber, isNumber_of_mem_place? hq, ?_⟩
  rw [hp, hq, standing_some, Decimal.placeOfRat_strictMono.cmp_map_eq]

theorem le_of_rational? {a b : Value} {p q : ℚ} (ha : a.rational? = some p)
    (hb : b.rational? = some q) (h : p ≤ q) : a.le b = .ok true := by
  unfold le relation
  rw [relate?_of_rational? ha hb]
  rcases lt_or_eq_of_le h with hlt | heq
  · rw [(cmp_eq_lt_iff p q).mpr hlt]
    rfl
  · rw [(cmp_eq_eq_iff p q).mpr heq]
    rfl

/-- Conversely, doubles and integers that compare as such do so in value. -/
theorem le_of_le_ok {a b : Value} {p q : ℚ} (ha : a.rational? = some p) (hb : b.rational? = some q)
    (h : a.le b = .ok true) : p ≤ q := by
  unfold le relation at h
  rw [relate?_of_rational? ha hb] at h
  by_contra hlt
  rw [(cmp_eq_gt_iff p q).mpr (not_le.mp hlt)] at h
  cases h

theorem not_lt_of_rational? {a b : Value} {p q : ℚ} (ha : a.rational? = some p)
    (hb : b.rational? = some q) (h : q ≤ p) : a.lt b = .ok false := by
  unfold lt relation
  rw [relate?_of_rational? ha hb]
  rcases lt_or_eq_of_le h with hlt | heq
  · rw [(cmp_eq_gt_iff p q).mpr hlt]
    rfl
  · rw [(cmp_eq_eq_iff p q).mpr heq.symm]
    rfl

/-- A comparison fails on values that have no order, and reports their shapes. -/
theorem lt_eq_error {a b : Value} {failure : Failure} (h : a.lt b = .error failure) :
    relate? a b = none ∧ ∃ problem, failure = .wrongType problem := by
  unfold lt relation at h
  cases hrelate : relate? a b with
  | some r =>
    rw [hrelate] at h
    cases h
  | none =>
    rw [hrelate] at h
    exact ⟨rfl, _, (Except.error.inj h).symm⟩

/-! ## Sorting -/

section Sorting

variable {β : Type} {key : β → Value} {items : List β}

/-- Sorting fails only on two keys that have no order, and reports their shapes. -/
theorem sortOn_yields :
    Runs.Yields
      (fun failure => (∃ a ∈ items, ∃ b ∈ items, relate? (key a) (key b) = none) ∧
        ∃ problem, failure = .wrongType problem)
      (sortOn key items) fun sorted => sorted.Perm items := by
  have hless : Runs.Compares
      (fun failure => (∃ a ∈ items, ∃ b ∈ items, relate? (key a) (key b) = none) ∧
        ∃ problem, failure = .wrongType problem)
      (fun a b => (key a).lt (key b)) (· ∈ items) := by
    refine fun a b ha hb => ⟨fun _ _ => trivial, fun failure hfails => ?_⟩
    obtain ⟨hrelate, hproblem⟩ := lt_eq_error hfails
    exact ⟨⟨a, ha, b, hb, hrelate⟩, hproblem⟩
  unfold sortOn
  split
  · exact .of_ok (List.mergeSort_perm ..)
  · exact Runs.sort_yields hless fun _ h => h

theorem sortOn_perm {sorted : List β} (h : sortOn key items = .ok sorted) : sorted.Perm items :=
  sortOn_yields.spec sorted h

theorem sortOn_gives_of_comparable (h : items.length ≤ 1 ∨
    ∀ a ∈ items, ∀ b ∈ items, (relate? (key a) (key b)).isSome = true) :
    Gives (sortOn key items) fun sorted => sorted.Perm items := by
  have hanswers : ∃ sorted, sortOn key items = .ok sorted := by
    rcases h with hlength | hall
    · unfold sortOn
      split
      · exact ⟨_, rfl⟩
      · exact ⟨items, Runs.sort_of_length_le_one _ hlength⟩
    · refine sortOn_yields.answers fun failure hfails => ?_
      obtain ⟨⟨a, ha, b, hb, hnone⟩, -⟩ := hfails
      have hsome := hall a ha b hb
      rw [hnone] at hsome
      cases hsome
  obtain ⟨sorted, hsorted⟩ := hanswers
  exact ⟨sorted, hsorted, sortOn_perm hsorted⟩

end Sorting

/-! ## Sorting by rank -/

theorem pairwise_mergeSort_rank {γ δ : Type} [LinearOrder δ] (rank : γ → δ) (items : List γ) :
    (items.mergeSort fun a b => decide (rank a ≤ rank b)).Pairwise fun a b => rank a ≤ rank b := by
  have htrans : ∀ a b c, decide (rank a ≤ rank b) = true → decide (rank b ≤ rank c) = true →
      decide (rank a ≤ rank c) = true := by
    intro a b c hab hbc
    exact decide_eq_true ((of_decide_eq_true hab).trans (of_decide_eq_true hbc))
  have htotal : ∀ a b, (decide (rank a ≤ rank b) || decide (rank b ≤ rank a)) = true := by
    intro a b
    simpa using le_total (rank a) (rank b)
  exact (List.pairwise_mergeSort htrans htotal items).imp of_decide_eq_true

/-- Items whose keys stand as ranks do are sorted by rank. -/
theorem sortOn_map {γ β δ : Type} [LinearOrder δ] {key : β → Value} {make : γ → β}
    {items : List γ} (rank : γ → δ) (horderly : orderly (items.map fun a => key (make a)) = true)
    (hbefore : ∀ a ∈ items, ∀ b ∈ items,
      (key (make a)).before (key (make b)) = decide (rank a ≤ rank b)) :
    sortOn key (items.map make)
      = .ok ((items.mergeSort fun a b => decide (rank a ≤ rank b)).map make) := by
  have hsorted : (items.mergeSort fun a b => decide (rank a ≤ rank b)).map make
      = (items.map make).mergeSort fun a b => (key a).before (key b) :=
    List.map_mergeSort fun a ha b hb => (hbefore a ha b hb).symm
  have hkeys : orderly ((items.map make).map key) = true := by
    rw [List.map_map]
    exact horderly
  rw [sortOn, if_pos hkeys, hsorted]

theorem before_str (s t : String) : before (.str s) (.str t) = decide (s ≤ t) := by
  have hcompare : compare s t = compareOfLessAndEq s t := rfl
  simp only [before, relate?, hcompare, compareOfLessAndEq]
  by_cases hlt : s < t
  · have hle : s ≤ t := String.not_lt.mp (String.lt_asymm hlt)
    rw [if_pos hlt, decide_eq_true hle]
    rfl
  · by_cases heq : s = t
    · rw [if_neg hlt, if_pos heq, heq, decide_eq_true (String.le_refl t)]
      rfl
    · have hle : ¬s ≤ t := fun hle => heq (String.le_antisymm hle (String.not_lt.mp hlt))
      rw [if_neg hlt, if_neg heq, decide_eq_false hle]
      rfl

theorem sorted_texts (texts : List String) :
    sorted (texts.map str) = .ok (texts.mergeSort.map str) := by
  have horderly : orderly (texts.map str) = true := by simp [orderly, alike, isText]
  exact sortOn_map id horderly fun s _ t _ => before_str s t

theorem orderly_pairs {γ : Type} (number : γ → Int) (text : γ → String) (items : List γ) :
    orderly (items.map fun a => .list [.int (number a), .str (text a)]) = true := by
  have hrows : (items.map fun a => Value.list [.int (number a), .str (text a)]).mapM items?
      = some (items.map fun a => [.int (number a), .str (text a)]) := by
    rw [List.mapM_map]
    induction items with
    | nil => rfl
    | cons a rest ih =>
      rw [List.mapM_cons, ih]
      rfl
  cases items with
  | nil => rfl
  | cons a rest =>
    rw [orderly, hrows, Bool.or_eq_true]
    right
    simp [alikeRows, alike, isText, isOrderedNumber]

/-- A number and a text stand as the number does, and among equals as the text does. -/
theorem before_pairs (m n : Int) (s t : String) :
    before (.list [.int m, .str s]) (.list [.int n, .str t])
      = decide (toLex (m, s) ≤ toLex (n, t)) := by
  have hnumbers : relate? (.int m) (.int n) = some (.ofOrdering (compare m n)) := rfl
  have hsame : (Value.int m).same (.int n)
      = (some (Relation.ofOrdering (compare m n)) == some .equal) :=
    same_eq_numbers rfl (by simp) (by simp [isText])
  have hlex : toLex (m, s) ≤ toLex (n, t) ↔ m < n ∨ m = n ∧ s ≤ t := Prod.Lex.toLex_le_toLex
  rw [before, relate?, relateItems?, hsame, hnumbers]
  rcases lt_trichotomy m n with hlt | rfl | hgt
  · rw [compare_lt_iff_lt.mpr hlt, decide_eq_true (hlex.mpr (.inl hlt))]
    rfl
  · have hle : toLex (m, s) ≤ toLex (m, t) ↔ s ≤ t := by simp [hlex]
    rw [compare_eq_iff_eq.mpr rfl, decide_eq_decide.mpr hle, ← before_str]
    change (relateItems? [.str s] [.str t] != some .greater) = _
    rw [relateItems?, relateItems?, same]
    by_cases heq : s = t
    · simp [heq, before_str]
    · simp [heq, before]
  · rw [compare_gt_iff_gt.mpr hgt, decide_eq_false fun hle => ?_]
    · rfl
    · have := hlex.mp hle
      omega

theorem lt_str (s t : String) : Value.lt (.str s) (.str t) = .ok (decide (s < t)) := by
  have hrelation : relation "<" (.str s) (.str t)
    = .ok (Relation.ofOrdering (compareOfLessAndEq s t)) := rfl
  rw [lt, hrelation, compareOfLessAndEq]
  by_cases hlt : s < t
  · rw [if_pos hlt, decide_eq_true hlt]
    rfl
  · rw [if_neg hlt, decide_eq_false hlt]
    split <;> rfl

theorem least_texts (s : String) (rest : List String) :
    least ((s :: rest).map str) = .ok (.str (rest.foldl min s)) := by
  induction rest generalizing s with
  | nil => rfl
  | cons t rest ih =>
    rw [List.foldl_cons, ← ih (min s t), min_def]
    simp only [List.map_cons, least, List.foldlM_cons, lt_str]
    by_cases hlt : t < s
    · rw [decide_eq_true hlt, if_neg (not_le.mpr hlt)]
      rfl
    · rw [decide_eq_false hlt, if_pos (not_lt.mp hlt)]
      rfl

end CodeGraph.Value
