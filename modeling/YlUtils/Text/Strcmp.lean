import Mathlib.Data.List.Lex
import YlUtils.Text.CString

/-! # Comparing texts

`strcmp` orders texts by their first different bytes, taken as unsigned numbers,
so it is the lexicographic order of the byte values.
-/

namespace YlUtils

/-- The comparison of two texts, which a C string ends with a zero. -/
def strcmp : Bytes → Bytes → ℤ
  | [], [] => 0
  | [], b :: _ => -b.toNat
  | a :: _, [] => a.toNat
  | a :: as, b :: bs => if a = b then strcmp as bs else a.toNat - b.toNat

def codes (s : Bytes) : List ℕ := s.map UInt8.toNat

theorem codes_injective : Function.Injective codes :=
  List.map_injective_iff.mpr fun _ _ h => UInt8.toNat_inj.mp h

theorem codes_append (a b : Bytes) : codes (a ++ b) = codes a ++ codes b := List.map_append

variable {a b : Bytes}

theorem strcmp_antisymm (a b : Bytes) : strcmp b a = -strcmp a b := by
  induction a generalizing b with
  | nil => cases b <;> simp [strcmp]
  | cons x a ih =>
    cases b with
    | nil => simp [strcmp]
    | cons y b =>
      unfold strcmp
      by_cases h : x = y
      · rw [if_pos h, if_pos h.symm, ih]
      · rw [if_neg h, if_neg (Ne.symm h)]
        omega

theorem toNat_pos_of_ne_zero {x : UInt8} (h : x ≠ 0) : 0 < x.toNat :=
  Nat.pos_of_ne_zero fun h' => h (UInt8.toNat_inj.mp h')

theorem strcmp_neg_iff (ha : 0 ∉ a) (hb : 0 ∉ b) : strcmp a b < 0 ↔ codes a < codes b := by
  induction a generalizing b with
  | nil =>
    cases b with
    | nil => simp [strcmp, codes]
    | cons y b =>
      have hy := toNat_pos_of_ne_zero fun h => hb (h ▸ List.mem_cons_self)
      simp only [strcmp, codes, List.map_nil, List.map_cons, List.nil_lt_cons, iff_true]
      omega
  | cons x a ih =>
    cases b with
    | nil => simp [strcmp, codes]
    | cons y b =>
      have htail := ih (fun h => ha (List.mem_cons_of_mem _ h))
        (fun h => hb (List.mem_cons_of_mem _ h))
      simp only [codes, List.map_cons, List.cons_lt_cons_iff, strcmp] at htail ⊢
      by_cases h : x = y
      · subst h
        simp [htail]
      · have hne : x.toNat ≠ y.toNat := fun h' => h (UInt8.toNat_inj.mp h')
        rw [if_neg h]
        simp only [hne, false_and, or_false]
        omega

theorem strcmp_pos_iff (ha : 0 ∉ a) (hb : 0 ∉ b) : 0 < strcmp a b ↔ codes b < codes a := by
  rw [← strcmp_neg_iff hb ha, strcmp_antisymm a b]
  omega

theorem strcmp_nonpos_iff (ha : 0 ∉ a) (hb : 0 ∉ b) : strcmp a b ≤ 0 ↔ codes a ≤ codes b := by
  rw [← Int.not_lt, strcmp_pos_iff ha hb, not_lt]

theorem strcmp_eq_zero_iff (ha : 0 ∉ a) (hb : 0 ∉ b) : strcmp a b = 0 ↔ a = b := by
  rw [← codes_injective.eq_iff, le_antisymm_iff (a := codes a), ← strcmp_nonpos_iff ha hb,
    ← strcmp_nonpos_iff hb ha, strcmp_antisymm a b]
  omega

theorem prefix_of_between {p s t l : List ℕ} (h : p ++ s ≤ l) (h' : l ≤ p ++ t) : p <+: l := by
  induction p generalizing l with
  | nil => exact List.nil_prefix
  | cons x p ih =>
    cases l with
    | nil => exact absurd (List.nil_lt_cons _ _) (not_lt.mpr h)
    | cons y l =>
      rw [List.cons_append, ← not_lt, List.cons_lt_cons_iff, not_or, not_and] at h h'
      obtain rfl : x = y := by omega
      exact List.cons_prefix_cons.mpr ⟨rfl, ih (not_lt.mp (h.2 rfl)) (not_lt.mp (h'.2 rfl))⟩

/-- A text between two texts with the same first bytes has these first bytes as well. -/
theorem prefix_of_codes_between {p a b c : Bytes} (ha : p <+: a) (hc : p <+: c)
    (hab : codes a ≤ codes b) (hbc : codes b ≤ codes c) : p <+: b := by
  obtain ⟨s, rfl⟩ := ha
  obtain ⟨t, rfl⟩ := hc
  rw [codes_append] at hab hbc
  obtain ⟨u, hu⟩ := prefix_of_between hab hbc
  obtain ⟨p', u', rfl, hp', -⟩ := List.map_eq_append_iff.mp hu.symm
  exact ⟨u', by rw [codes_injective hp']⟩

end YlUtils
