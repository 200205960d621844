import Mathlib.Algebra.Order.Field.Power
import Mathlib.Algebra.Order.Field.Rat
import Mathlib.Data.Option.NAry
import Mathlib.Order.Compare
import Mathlib.Order.WithBot
import Mathlib.Tactic.Linarith
import Mathlib.Tactic.NormNum
import Mathlib.Tactic.Ring
import CodeGraph.Decimal.Binary

/-!
# Doubles stand where their values do

A double that is a number has a place among the rationals, with the infinities
at the ends (`place`). Comparing two doubles compares their places
(`lt_iff_cmp`, `beq_iff_cmp`). What makes this work is that the bits are in
normal form: a mantissa has all its digits unless the exponent is the least one,
so that the greater exponent always wins (`magnitude_lt`).
-/

namespace CodeGraph.Decimal

open Float.Model (Format UnpackedFloat)
open Float.Model.UnpackedFloat

/-! ## Places -/

/-- Rationals with an infinity at either end. -/
abbrev Place := WithBot (WithTop ℚ)

def placeOfRat (q : ℚ) : Place :=
  ((q : WithTop ℚ) : Place)

/-- Where a double stands; a not-a-number stands nowhere. -/
def place (x : Float) : Option Place :=
  match Binary.ofFloat x with
  | .nan => none
  | .infinite negative => some (if negative then ⊥ else ⊤)
  | .finite d => some (placeOfRat d.toRat)

theorem placeOfRat_strictMono : StrictMono placeOfRat := fun _ _ h =>
  WithBot.coe_lt_coe.mpr (WithTop.coe_lt_coe.mpr h)

theorem bot_lt_placeOfRat (q : ℚ) : ⊥ < placeOfRat q :=
  WithBot.bot_lt_coe _

theorem placeOfRat_lt_top (q : ℚ) : placeOfRat q < ⊤ :=
  WithBot.coe_lt_coe.mpr (WithTop.coe_lt_top q)

/-! ## The parts of a double -/

def magnitude (mantissa : Nat) (exponent : Int) : ℚ :=
  (mantissa : ℚ) * 2 ^ exponent

theorem toRat_eq (d : Dyadic) :
    d.toRat = if d.negative then -magnitude d.mantissa d.exponent
      else magnitude d.mantissa d.exponent := by
  obtain ⟨negative, mantissa, exponent⟩ := d
  have hfraction : ((Dyadic.fraction ⟨negative, mantissa, exponent⟩).1 : ℚ)
      / (Dyadic.fraction ⟨negative, mantissa, exponent⟩).2 = magnitude mantissa exponent := by
    cases exponent with
    | ofNat e => simp [Dyadic.fraction, magnitude]
    | negSucc e => simp [Dyadic.fraction, magnitude, zpow_negSucc, div_eq_mul_inv]
  rw [← hfraction]
  rfl

/-- The place of a double that has been taken apart. -/
def placeOf : UnpackedFloat → Option Place
  | .notANumber => none
  | .infinity .positive => some ⊤
  | .infinity .negative => some ⊥
  | .zero _ => some (placeOfRat 0)
  | .finite .positive m e _ => some (placeOfRat (magnitude m e))
  | .finite .negative m e _ => some (placeOfRat (-magnitude m e))

/-- Mantissas have 53 digits, and fewer only with the least exponent. -/
def Canonical : UnpackedFloat → Prop
  | .finite _ m e _ => m < 2 ^ 53 ∧ leastExponent ≤ e ∧ (e = leastExponent ∨ 2 ^ 52 ≤ m)
  | _ => True

theorem toNat_unpackMantissa (b : BitVec Format.binary64.numBits) :
    (unpackMantissa b).toNat = b.toNat % 2 ^ 52 := by
  simp [unpackMantissa]

theorem toNat_unpackExponent (b : BitVec Format.binary64.numBits) :
    (unpackExponent b).toNat = b.toNat / 2 ^ 52 % 2 ^ 11 := by
  simp [unpackExponent, Nat.shiftRight_eq_div_pow]

theorem toNat_unpackSign (b : BitVec Format.binary64.numBits) :
    (unpackSign b).toNat = b.toNat / 2 ^ 63 := by
  have hlt : b.toNat < 2 ^ 64 := b.isLt
  have hshift : (unpackSign b).toNat = b.toNat / 2 ^ 63 % 2 := by
    change (BitVec.cast _ (BitVec.extractLsb (52 + 11) (52 + 11) b)).toNat = _
    simp [Nat.shiftRight_eq_div_pow]
  omega

theorem ofBitVec_eq (b : BitVec 1) :
    Sign.ofBitVec b = if b.toNat == 1 then .negative else .positive := by
  have hlt := b.isLt
  have hcases : b = 0#1 ∨ b = 1#1 := by
    rw [← BitVec.toNat_inj, ← BitVec.toNat_inj, BitVec.toNat_ofNat, BitVec.toNat_ofNat]
    omega
  rcases hcases with rfl | rfl <;> rfl

theorem toNat_implicit (b : BitVec 52) : (1#1 ++ b).toNat = normalMantissa + b.toNat := by
  rw [BitVec.toNat_append, ← Nat.shiftLeft_add_eq_or_of_lt b.isLt]
  rfl

theorem placeOf_finite (negative : Bool) {m : Nat} {e : Int} (hpos : 0 < m) {d : Dyadic}
    (hd : d = ⟨negative, m, e⟩) :
    placeOf (.finite (if negative then .negative else .positive) m e hpos)
      = some (placeOfRat d.toRat) := by
  subst hd
  rw [toRat_eq]
  cases negative <;> rfl

theorem placeOf_zero (s : Sign) (d : Dyadic) (hd : d.mantissa = 0) :
    placeOf (.zero s) = some (placeOfRat d.toRat) := by
  rw [toRat_eq, hd, magnitude, Nat.cast_zero, zero_mul, neg_zero, ite_self]
  rfl

/-- Taking a double apart keeps its place, and the parts are in normal form. -/
theorem unpack_spec (x : Float) :
    placeOf x.toModel.unpack = place x ∧ Canonical x.toModel.unpack := by
  let word : BitVec Format.binary64.numBits := x.toModel.toBits.toBitVec
  have hmantissa : (unpackMantissa word).toNat = x.toBits.toNat % Nat.pow 2 52 :=
    toNat_unpackMantissa word
  have hexponent : (unpackExponent word).toNat = x.toBits.toNat / Nat.pow 2 52 % Nat.pow 2 11 :=
    toNat_unpackExponent word
  have hsign : Sign.ofBitVec (unpackSign word)
      = if x.toBits.toNat / Nat.pow 2 63 == 1 then .negative else .positive := by
    rw [ofBitVec_eq, toNat_unpackSign]
    rfl
  have hunpack : x.toModel.unpack = UnpackedFloat.unpack Format.binary64 word := rfl
  have hbound : x.toBits.toNat % Nat.pow 2 52 < 2 ^ 52 := Nat.mod_lt _ (by decide)
  rw [hunpack]
  unfold place Binary.ofFloat UnpackedFloat.unpack
  dsimp only
  rw [hsign]
  by_cases htop : x.toBits.toNat / Nat.pow 2 52 % Nat.pow 2 11 = 2047
  · -- The greatest exponent is that of the infinities and of not-a-number.
    have hexp : unpackExponent word = -1#_ := BitVec.eq_of_toNat_eq (hexponent.trans htop)
    rw [if_pos hexp, if_pos (beq_iff_eq.mpr htop)]
    by_cases hzero : x.toBits.toNat % Nat.pow 2 52 = 0
    · have hman : unpackMantissa word = 0#_ := BitVec.eq_of_toNat_eq (hmantissa.trans hzero)
      rw [if_pos hman, if_pos (beq_iff_eq.mpr hzero)]
      cases (x.toBits.toNat / Nat.pow 2 63 == 1) <;> exact ⟨rfl, trivial⟩
    · have hman : unpackMantissa word ≠ 0#_ := fun h => hzero (hmantissa ▸ congrArg BitVec.toNat h)
      rw [if_neg hman, if_neg (mt beq_iff_eq.mp hzero)]
      exact ⟨rfl, trivial⟩
  · have hexp : unpackExponent word ≠ -1#_ := fun h => htop (hexponent ▸ congrArg BitVec.toNat h)
    rw [if_neg hexp, if_neg (mt beq_iff_eq.mp htop)]
    by_cases hlow : x.toBits.toNat / Nat.pow 2 52 % Nat.pow 2 11 = 0
    · have hexp : unpackExponent word = 0#_ := BitVec.eq_of_toNat_eq (hexponent.trans hlow)
      rw [if_pos hexp, if_pos (beq_iff_eq.mpr hlow)]
      by_cases hzero : x.toBits.toNat % Nat.pow 2 52 = 0
      · have hman : unpackMantissa word = 0#_ := BitVec.eq_of_toNat_eq (hmantissa.trans hzero)
        rw [dif_pos hman]
        exact ⟨placeOf_zero _ _ hzero, trivial⟩
      · have hman : unpackMantissa word ≠ 0#_ :=
          fun h => hzero (hmantissa ▸ congrArg BitVec.toNat h)
        have hleast : ((unpackExponent word).toNat : Int) - (1023 + 52) + 1 = leastExponent := by
          rw [hexponent, hlow]
          rfl
        rw [dif_neg hman]
        refine ⟨placeOf_finite _ _ ?_, by omega, hleast.ge, .inl hleast⟩
        rw [hmantissa]
        exact congrArg _ hleast.symm
    · have hexp : unpackExponent word ≠ 0#_ := fun h => hlow (hexponent ▸ congrArg BitVec.toNat h)
      have hdigits : (1#1 ++ unpackMantissa word).toNat
          = normalMantissa + x.toBits.toNat % Nat.pow 2 52 := by
        rw [← hmantissa]
        exact toNat_implicit _
      have hnormal : normalMantissa = 2 ^ 52 := rfl
      have hplace : ((unpackExponent word).toNat : Int) - (1023 + 52)
          = leastExponent + (x.toBits.toNat / Nat.pow 2 52 % Nat.pow 2 11 : Nat) - 1 := by
        rw [hexponent, leastExponent]
        ring
      rw [if_neg hexp, if_neg (mt beq_iff_eq.mp hlow)]
      refine ⟨placeOf_finite _ _ ?_, by omega, ?_, .inr (by omega)⟩
      · rw [hdigits]
        exact congrArg _ hplace.symm
      · exact hplace.ge.trans' (by omega)

/-! ## Comparison -/

theorem magnitude_pos {m : Nat} (hpos : 0 < m) (e : Int) : 0 < magnitude m e :=
  mul_pos (Nat.cast_pos.mpr hpos) (zpow_pos two_pos e)

/-- The greater exponent decides, for a mantissa with all its digits is more than half of any
other. -/
theorem magnitude_lt {m m' : Nat} {e e' : Int} (hm : m < 2 ^ 53) (hm' : 2 ^ 52 ≤ m')
    (he : e < e') : magnitude m e < magnitude m' e' :=
  calc (m : ℚ) * 2 ^ e < 2 ^ 53 * 2 ^ e :=
        mul_lt_mul_of_pos_right (by exact_mod_cast hm) (zpow_pos two_pos e)
    _ = 2 ^ 52 * 2 ^ (e + 1) := by rw [zpow_add_one₀ two_ne_zero]; ring
    _ ≤ 2 ^ 52 * 2 ^ e' :=
        mul_le_mul_of_nonneg_left (zpow_le_zpow_right₀ one_le_two he) (by positivity)
    _ ≤ m' * 2 ^ e' :=
        mul_le_mul_of_nonneg_right (by exact_mod_cast hm') (zpow_pos two_pos e').le

theorem compare_magnitude {s s' : Sign} {m m' : Nat} {e e' : Int} {hpos : 0 < m} {hpos' : 0 < m'}
    (h : Canonical (.finite s m e hpos)) (h' : Canonical (.finite s' m' e' hpos')) :
    (compare e e').then (compare m m') = cmp (magnitude m e) (magnitude m' e') := by
  obtain ⟨hm, hleast, hnormal⟩ := h
  obtain ⟨hm', hleast', hnormal'⟩ := h'
  rcases lt_trichotomy e e' with he | rfl | he
  · rw [compare_lt_iff_lt.mpr he, (cmp_eq_lt_iff _ _).mpr
      (magnitude_lt hm (hnormal'.resolve_left (by omega)) he)]
    rfl
  · have hmono : StrictMono fun k : Nat => magnitude k e := fun a b hab =>
      mul_lt_mul_of_pos_right (Nat.cast_lt.mpr hab) (zpow_pos two_pos e)
    rw [compare_eq_iff_eq.mpr rfl, hmono.cmp_map_eq, cmp_eq_compare]
    rfl
  · rw [compare_gt_iff_gt.mpr he, (cmp_eq_gt_iff _ _).mpr
      (magnitude_lt hm' (hnormal.resolve_left (by omega)) he)]
    rfl

section Cmp

variable {p q : Place}

theorem eq_map₂_cmp_of_lt (h : p < q) : some Ordering.lt = Option.map₂ cmp (some p) (some q) :=
  congrArg some ((cmp_eq_lt_iff p q).mpr h).symm

theorem eq_map₂_cmp_of_gt (h : q < p) : some Ordering.gt = Option.map₂ cmp (some p) (some q) :=
  congrArg some ((cmp_eq_gt_iff p q).mpr h).symm

theorem eq_map₂_cmp_self (p : Place) : some Ordering.eq = Option.map₂ cmp (some p) (some p) :=
  congrArg some (cmp_self_eq_eq p).symm

end Cmp

/-- One case for each two shapes; only two finite numbers of one sign compare by their parts. -/
theorem compare_eq_cmp {u v : UnpackedFloat} (hu : Canonical u) (hv : Canonical v) :
    u.compare v = Option.map₂ cmp (placeOf u) (placeOf v) := by
  cases u with
  | notANumber => rfl
  | infinity s =>
    cases v with
    | notANumber => cases s <;> rfl
    | infinity s' =>
      cases s <;> cases s'
      · exact eq_map₂_cmp_self ⊥
      · exact eq_map₂_cmp_of_lt bot_lt_top
      · exact eq_map₂_cmp_of_gt bot_lt_top
      · exact eq_map₂_cmp_self ⊤
    | zero s' =>
      cases s
      · exact eq_map₂_cmp_of_lt (bot_lt_placeOfRat _)
      · exact eq_map₂_cmp_of_gt (placeOfRat_lt_top _)
    | finite s' m' e' hpos' =>
      cases s <;> cases s'
      · exact eq_map₂_cmp_of_lt (bot_lt_placeOfRat _)
      · exact eq_map₂_cmp_of_lt (bot_lt_placeOfRat _)
      · exact eq_map₂_cmp_of_gt (placeOfRat_lt_top _)
      · exact eq_map₂_cmp_of_gt (placeOfRat_lt_top _)
  | zero s =>
    cases v with
    | notANumber => rfl
    | infinity s' =>
      cases s'
      · exact eq_map₂_cmp_of_gt (bot_lt_placeOfRat _)
      · exact eq_map₂_cmp_of_lt (placeOfRat_lt_top _)
    | zero s' => exact eq_map₂_cmp_self _
    | finite s' m' e' hpos' =>
      have hlt := magnitude_pos hpos' e'
      cases s'
      · exact eq_map₂_cmp_of_gt (placeOfRat_strictMono (neg_neg_of_pos hlt))
      · exact eq_map₂_cmp_of_lt (placeOfRat_strictMono hlt)
  | finite s m e hpos =>
    have hlt := magnitude_pos hpos e
    cases v with
    | notANumber => cases s <;> rfl
    | infinity s' =>
      cases s <;> cases s'
      · exact eq_map₂_cmp_of_gt (bot_lt_placeOfRat _)
      · exact eq_map₂_cmp_of_lt (placeOfRat_lt_top _)
      · exact eq_map₂_cmp_of_gt (bot_lt_placeOfRat _)
      · exact eq_map₂_cmp_of_lt (placeOfRat_lt_top _)
    | zero s' =>
      cases s
      · exact eq_map₂_cmp_of_lt (placeOfRat_strictMono (neg_neg_of_pos hlt))
      · exact eq_map₂_cmp_of_gt (placeOfRat_strictMono hlt)
    | finite s' m' e' hpos' =>
      have hlt' := magnitude_pos hpos' e'
      have hcompare := compare_magnitude hu hv
      cases s <;> cases s'
      · have hanti : StrictAnti fun a : ℚ => -a := fun _ _ => neg_lt_neg
        have hneg : cmp (placeOfRat (-magnitude m e)) (placeOfRat (-magnitude m' e'))
            = (cmp (magnitude m e) (magnitude m' e')).swap := by
          rw [placeOfRat_strictMono.cmp_map_eq, cmp_swap]
          exact hanti.cmp_map_eq _ _
        exact congrArg some ((congrArg Ordering.swap hcompare).trans hneg.symm)
      · exact eq_map₂_cmp_of_lt (placeOfRat_strictMono ((neg_neg_of_pos hlt).trans hlt'))
      · exact eq_map₂_cmp_of_gt (placeOfRat_strictMono ((neg_neg_of_pos hlt').trans hlt))
      · exact congrArg some (hcompare.trans (placeOfRat_strictMono.cmp_map_eq _ _).symm)

theorem compare_unpack (x y : Float) :
    x.toModel.unpack.compare y.toModel.unpack = Option.map₂ cmp (place x) (place y) := by
  obtain ⟨hx, hcx⟩ := unpack_spec x
  obtain ⟨hy, hcy⟩ := unpack_spec y
  rw [compare_eq_cmp hcx hcy, hx, hy]

theorem lt_iff_cmp {x y : Float} :
    x < y ↔ Option.map₂ cmp (place x) (place y) = some .lt := by
  rw [← compare_unpack, ← beq_iff_eq]
  exact decide_eq_true_iff

theorem beq_iff_cmp {x y : Float} :
    (x == y) = true ↔ Option.map₂ cmp (place x) (place y) = some .eq := by
  rw [← compare_unpack]
  exact beq_iff_eq (α := Option Ordering)

end CodeGraph.Decimal
