import Mathlib.Data.List.Lex
import CodeGraph.Text.Point

/-!
# The spelling of texts

A spelling can be read back (`points_spelling`), and it keeps the order of code
points (`spelling_lt_iff`). So texts are the same, and come in the same order, as
their spellings. Both rest on where the announcing character stands: behind all
characters before the surrogates, and before all characters behind them.
-/

namespace CodeGraph.Text

/-! ## Reading back -/

theorem toNat_ofNat {n : Nat} (h : n.isValidChar) : (Char.ofNat n).toNat = n := by
  rw [Char.ofNat, dif_pos h]
  rfl

theorem toNat_announcer : announcer.toNat = 0xD7FF := by
  decide

theorem toNat_standIn {place : Nat} (h : place ≤ 0x800) : (standIn place).toNat = 0xF0000 + place :=
  toNat_ofNat (.inr ⟨by omega, by omega⟩)

namespace Point

theorem announced?_standIn (place : Fin 0x800) :
    announced? (standIn (place + 1)) = some (surrogate place) := by
  have hplace : (standIn (place + 1)).toNat = 0xF0000 + (place + 1) := toNat_standIn (by omega)
  simp only [announced?, hplace]
  rw [if_neg (by omega), if_neg (by omega), dif_pos (by omega)]
  simp

theorem points_spelling_append (p : Point) (cs : List Char) :
    points (p.spelling ++ cs) = p :: points cs := by
  cases p with
  | surrogate place =>
    rw [spelling, List.cons_append, List.cons_append, points, if_pos rfl, announced?_standIn]
    rfl
  | char c =>
    rw [spelling]
    split
    · rename_i hc
      have hzero : announced? (standIn 0) = some (char announcer) := by decide
      rw [hc, List.cons_append, List.cons_append, points, if_pos rfl, hzero]
      rfl
    · rename_i hc
      cases cs with
      | nil => rfl
      | cons d rest =>
        rw [List.cons_append, List.nil_append, points, if_neg hc]

theorem length_spelling_le (p : Point) : p.spelling.length ≤ 2 := by
  cases p with
  | surrogate place => exact le_rfl
  | char c =>
    rw [spelling]
    split
    · exact le_rfl
    · exact Nat.le_succ 1

theorem spelling_ne_nil (p : Point) : p.spelling ≠ [] := by
  cases p with
  | surrogate place => exact List.cons_ne_nil _ _
  | char c =>
    rw [spelling]
    split <;> exact List.cons_ne_nil _ _

end Point

theorem points_spelling (ps : List Point) : points (spelling ps) = ps := by
  induction ps with
  | nil => rfl
  | cons p rest ih =>
    rw [spelling, List.flatMap_cons, Point.points_spelling_append]
    exact congrArg (p :: ·) ih

theorem points_ne_nil {cs : List Char} (h : cs ≠ []) : points cs ≠ [] := by
  rcases cs with _ | ⟨c, _ | ⟨d, rest⟩⟩
  · exact absurd rfl h
  · exact List.cons_ne_nil _ _
  · rw [points]
    split <;> exact List.cons_ne_nil _ _

/-! ## Order -/

theorem char_lt_iff {c d : Char} : c < d ↔ c.toNat < d.toNat := by
  rw [Char.lt_def, UInt32.lt_iff_toNat_lt]
  rfl

theorem eq_of_toNat_eq {c d : Char} (h : c.toNat = d.toNat) : c = d := by
  rw [← Char.ofNat_toNat c, h, Char.ofNat_toNat]

theorem toNat_lt_or_le (c : Char) : c.toNat < 0xD800 ∨ 0xE000 ≤ c.toNat :=
  c.valid.imp id fun h => h.1

namespace Point

theorem code_injective {p q : Point} (h : p.code = q.code) : p = q := by
  cases p with
  | char c =>
    cases q with
    | char d => rw [eq_of_toNat_eq h]
    | surrogate place =>
      have hsurrogate : c.toNat = 0xD800 + place := h
      rcases toNat_lt_or_le c with hc | hc <;> omega
  | surrogate place =>
    cases q with
    | char d =>
      have hsurrogate : 0xD800 + place = d.toNat := h
      rcases toNat_lt_or_le d with hd | hd <;> omega
    | surrogate other => rw [Fin.ext (Nat.add_left_cancel h)]

/-- A character comes first in its own spelling. -/
theorem exists_spelling_char (c : Char) : ∃ rest, (char c).spelling = c :: rest := by
  rw [spelling]
  split
  · rename_i hc
    exact ⟨_, by rw [hc]⟩
  · exact ⟨_, rfl⟩

theorem standIn_lt {place other : Nat} (h : place < other) (hother : other ≤ 0x800) :
    standIn place < standIn other := by
  rw [char_lt_iff, toNat_standIn (by omega), toNat_standIn hother]
  omega

/-- Which of two spellings comes first is settled before either ends. -/
theorem spelling_append_lt {p q : Point} (h : p.code < q.code) (cs ds : List Char) :
    p.spelling ++ cs < q.spelling ++ ds := by
  cases p with
  | char c =>
    obtain ⟨rest, hspelling⟩ := exists_spelling_char c
    cases q with
    | char d =>
      obtain ⟨others, hothers⟩ := exists_spelling_char d
      rw [hspelling, hothers]
      exact List.cons_lt_cons_iff.mpr (.inl (char_lt_iff.mpr h))
    | surrogate place =>
      have hlt : c.toNat < 0xD800 + place := h
      by_cases hc : c = announcer
      · rw [hc, spelling, if_pos rfl]
        exact List.cons_lt_cons_iff.mpr (.inr ⟨rfl, List.cons_lt_cons_iff.mpr
          (.inl (standIn_lt (Nat.succ_pos _) (by omega)))⟩)
      · have hne : c.toNat ≠ 0xD7FF := fun heq => hc (eq_of_toNat_eq (heq.trans toNat_announcer.symm))
        rw [hspelling]
        refine List.cons_lt_cons_iff.mpr (.inl (char_lt_iff.mpr ?_))
        rw [toNat_announcer]
        rcases toNat_lt_or_le c with hc | hc <;> omega
  | surrogate place =>
    cases q with
    | char d =>
      have hlt : 0xD800 + place < d.toNat := h
      obtain ⟨others, hothers⟩ := exists_spelling_char d
      rw [hothers]
      refine List.cons_lt_cons_iff.mpr (.inl (char_lt_iff.mpr ?_))
      rw [toNat_announcer]
      omega
    | surrogate other =>
      have hlt : 0xD800 + place.val < 0xD800 + other.val := h
      exact List.cons_lt_cons_iff.mpr (.inr ⟨rfl, List.cons_lt_cons_iff.mpr
        (.inl (standIn_lt (by omega) (by omega)))⟩)

end Point

theorem append_lt_append_iff {cs ds es : List Char} : cs ++ ds < cs ++ es ↔ ds < es := by
  induction cs with
  | nil => exact Iff.rfl
  | cons c rest ih =>
    rw [List.cons_append, List.cons_append, List.cons_lt_cons_iff, or_iff_right (Char.lt_irrefl c),
      and_iff_right rfl, ih]

/-- Texts come in the order of their code points. -/
theorem spelling_lt_iff {ps qs : List Point} :
    spelling ps < spelling qs ↔ ps.map Point.code < qs.map Point.code := by
  induction ps generalizing qs with
  | nil =>
    cases qs with
    | nil => exact iff_of_false (List.not_lt_nil _) (List.not_lt_nil _)
    | cons q rest =>
      obtain ⟨c, others, hspelling⟩ := List.exists_cons_of_ne_nil q.spelling_ne_nil
      rw [spelling, spelling, List.flatMap_cons, hspelling]
      exact iff_of_true (List.nil_lt_cons _ _) (List.nil_lt_cons _ _)
  | cons p rest ih =>
    cases qs with
    | nil => exact iff_of_false (List.not_lt_nil _) (List.not_lt_nil _)
    | cons q others =>
      rw [List.map_cons, List.map_cons, List.cons_lt_cons_iff, spelling, spelling,
        List.flatMap_cons, List.flatMap_cons]
      rcases Nat.lt_trichotomy p.code q.code with hlt | heq | hgt
      · exact iff_of_true (Point.spelling_append_lt hlt _ _) (.inl hlt)
      · obtain rfl := Point.code_injective heq
        rw [append_lt_append_iff, or_iff_right (Nat.lt_irrefl _), and_iff_right rfl]
        exact ih
      · refine iff_of_false (List.lt_asymm (Point.spelling_append_lt hgt _ _)) ?_
        rintro (hlt | ⟨heq, -⟩) <;> omega

end CodeGraph.Text
