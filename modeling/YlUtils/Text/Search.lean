import Mathlib.Data.List.Basic
import Mathlib.Data.List.Infix

/-! # Searching in a text

The first place at which a pattern stands in a text, and what it says of the text
in front of that place. What is found stays where it is when the text goes on.
-/

namespace YlUtils.Search

variable {α : Type*} [DecidableEq α]

def find (p : List α) : List α → Option ℕ
  | [] => if p = [] then some 0 else none
  | c :: s => if p <+: c :: s then some 0 else (find p s).map (· + 1)

def rfind (p : List α) : List α → Option ℕ
  | [] => if p = [] then some 0 else none
  | c :: s =>
    match rfind p s with
    | some i => some (i + 1)
    | none => if p <+: c :: s then some 0 else none

section Pattern

variable {p s t : List α} {i j : ℕ}

theorem find_eq_some_iff :
    find p s = some i ↔ i ≤ s.length ∧ p <+: s.drop i ∧ ∀ j < i, ¬ p <+: s.drop j := by
  induction s generalizing i with
  | nil =>
    rw [find]
    by_cases hp : p = []
    · rw [if_pos hp, hp, Option.some.injEq]
      constructor
      · rintro rfl
        simp
      · rintro ⟨hi, -, -⟩
        exact (Nat.le_zero.mp hi).symm
    · rw [if_neg hp]
      simp [hp]
  | cons c s ih =>
    rw [find]
    by_cases hp : p <+: c :: s
    · rw [if_pos hp, Option.some.injEq]
      constructor
      · rintro rfl
        simp [hp]
      · rintro ⟨-, -, hbefore⟩
        by_contra hi
        exact hbefore 0 (Nat.pos_of_ne_zero (Ne.symm hi)) hp
    · rw [if_neg hp, Option.map_eq_some_iff]
      constructor
      · rintro ⟨k, hk, rfl⟩
        obtain ⟨hlen, hat, hbefore⟩ := ih.mp hk
        refine ⟨by simpa using hlen, hat, fun j hj => ?_⟩
        cases j with
        | zero => exact hp
        | succ j => exact hbefore j (by omega)
      · rintro ⟨hlen, hat, hbefore⟩
        cases i with
        | zero => exact absurd hat hp
        | succ k =>
          exact ⟨k, ih.mpr ⟨by simpa using hlen, hat, fun j hj => hbefore (j + 1) (by omega)⟩, rfl⟩

theorem find_eq_none_iff : find p s = none ↔ ¬ p <:+: s := by
  induction s with
  | nil =>
    rw [find]
    by_cases hp : p = []
    · simp [hp]
    · simp [hp]
  | cons c s ih =>
    rw [find, List.infix_cons_iff]
    by_cases hp : p <+: c :: s
    · simp [hp]
    · rw [if_neg hp, Option.map_eq_none_iff, ih]
      simp [hp]

theorem rfind_eq_none_iff : rfind p s = none ↔ ¬ p <:+: s := by
  induction s with
  | nil =>
    rw [rfind]
    by_cases hp : p = []
    · simp [hp]
    · simp [hp]
  | cons c s ih =>
    rw [rfind, List.infix_cons_iff]
    cases h : rfind p s with
    | some i =>
      have hpiece : p <:+: s := by
        by_contra hno
        rw [ih.mpr hno] at h
        cases h
      simp [hpiece]
    | none =>
      have hno := ih.mp h
      by_cases hp : p <+: c :: s
      · simp [hp]
      · simp [hp, hno]

theorem rfind_eq_some_iff :
    rfind p s = some i ↔
      i ≤ s.length ∧ p <+: s.drop i ∧ ∀ j, i < j → j ≤ s.length → ¬ p <+: s.drop j := by
  induction s generalizing i with
  | nil =>
    rw [rfind]
    by_cases hp : p = []
    · rw [if_pos hp, hp, Option.some.injEq]
      constructor
      · rintro rfl
        exact ⟨le_rfl, List.nil_prefix, fun j hj hle => absurd (hj.trans_le hle) (by simp)⟩
      · rintro ⟨hi, -, -⟩
        exact (Nat.le_zero.mp hi).symm
    · rw [if_neg hp]
      simp [hp]
  | cons c s ih =>
    rw [rfind]
    cases h : rfind p s with
    | some k =>
      obtain ⟨hk, hat, hbehind⟩ := ih.mp h
      rw [Option.some.injEq]
      constructor
      · rintro rfl
        refine ⟨Nat.succ_le_succ hk, hat, fun j hj hle => ?_⟩
        obtain ⟨j, rfl⟩ := Nat.exists_eq_add_of_le' (show 1 ≤ j by omega)
        exact hbehind j (by omega) (Nat.le_of_succ_le_succ hle)
      · rintro ⟨hi, hat', hbehind'⟩
        rcases Nat.lt_trichotomy (k + 1) i with hlt | heq | hgt
        · obtain ⟨i, rfl⟩ := Nat.exists_eq_add_of_le' (show 1 ≤ i by omega)
          exact absurd hat' (hbehind i (by omega) (Nat.le_of_succ_le_succ hi))
        · exact heq
        · exact absurd hat (hbehind' (k + 1) hgt (Nat.succ_le_succ hk))
    | none =>
      have hno := rfind_eq_none_iff.mp h
      have hnot : ∀ j, ¬ p <+: s.drop j := fun j hpre =>
        hno (hpre.isInfix.trans (List.drop_suffix j s).isInfix)
      by_cases hp : p <+: c :: s
      · rw [if_pos hp, Option.some.injEq]
        constructor
        · rintro rfl
          refine ⟨Nat.zero_le _, hp, fun j hj _ => ?_⟩
          obtain ⟨j, rfl⟩ := Nat.exists_eq_add_of_le' (show 1 ≤ j by omega)
          exact hnot j
        · rintro ⟨-, hat, -⟩
          cases i with
          | zero => rfl
          | succ i => exact absurd hat (hnot i)
      · rw [if_neg hp]
        refine iff_of_false (by simp) ?_
        rintro ⟨-, hat, -⟩
        cases i with
        | zero => exact hp hat
        | succ i => exact hnot i hat

theorem eq_of_find (h : find p s = some i) : s = s.take i ++ (p ++ s.drop (i + p.length)) := by
  obtain ⟨-, ⟨t, ht⟩, -⟩ := find_eq_some_iff.mp h
  have hdrop : s.drop (i + p.length) = t := by
    rw [← List.drop_drop, ← ht, List.drop_left]
  rw [hdrop, ht, List.take_append_drop]

theorem find_add_le (h : find p s = some i) : i + p.length ≤ s.length := by
  obtain ⟨hi, hat, -⟩ := find_eq_some_iff.mp h
  have hle := hat.length_le
  rw [List.length_drop] at hle
  omega

theorem not_infix_take (hp : p ≠ []) (h : find p s = some i) : ¬ p <:+: s.take i := by
  rintro ⟨a, b, hab⟩
  obtain ⟨hi, -, hbefore⟩ := find_eq_some_iff.mp h
  have hlen := congrArg List.length hab
  simp only [List.length_append, List.length_take] at hlen
  have hpos := List.length_pos_iff.mpr hp
  refine hbefore a.length (by omega) ⟨b ++ s.drop i, ?_⟩
  have hs : s = a ++ (p ++ (b ++ s.drop i)) := by
    rw [← List.append_assoc, ← List.append_assoc, hab, List.take_append_drop]
  rw [hs, List.drop_left, ← hs]

theorem find_append (h : find p s = some i) (t : List α) : find p (s ++ t) = some i := by
  have hle := find_add_le h
  obtain ⟨hi, hat, hbefore⟩ := find_eq_some_iff.mp h
  apply find_eq_some_iff.mpr
  refine ⟨by rw [List.length_append]; omega, ?_, fun j hj hpre => hbefore j hj ?_⟩
  · rw [List.drop_append_of_le_length hi]
    exact hat.trans (List.prefix_append _ _)
  · rw [List.drop_append_of_le_length (by omega)] at hpre
    exact List.prefix_of_prefix_length_le hpre (List.prefix_append _ _)
      (by rw [List.length_drop]; omega)

theorem find_of_append (h : find p (s ++ t) = some i) (hle : i + p.length ≤ s.length) :
    find p s = some i := by
  obtain ⟨-, hat, hbefore⟩ := find_eq_some_iff.mp h
  apply find_eq_some_iff.mpr
  refine ⟨by omega, ?_, fun j hj hpre => hbefore j hj ?_⟩
  · rw [List.drop_append_of_le_length (by omega)] at hat
    exact List.prefix_of_prefix_length_le hat (List.prefix_append _ _)
      (by rw [List.length_drop]; omega)
  · rw [List.drop_append_of_le_length (by omega)]
    exact hpre.trans (List.prefix_append _ _)

end Pattern

section Char

variable {c : α} {s a b : List α} {i : ℕ}

theorem find_char (ha : c ∉ a) : find [c] (a ++ c :: b) = some a.length := by
  induction a with
  | nil => simp [find]
  | cons x a ih =>
    have hx : c ≠ x := fun h => ha (h ▸ List.mem_cons_self)
    rw [List.cons_append, find, if_neg (by simp [hx]), ih fun h => ha (List.mem_cons_of_mem x h)]
    rfl

theorem find_char_eq_none_iff : find [c] s = none ↔ c ∉ s := by
  rw [find_eq_none_iff, List.singleton_infix_iff]

theorem exists_of_find_char (h : find [c] s = some i) :
    ∃ a b, s = a ++ c :: b ∧ c ∉ a ∧ a.length = i := by
  refine ⟨s.take i, s.drop (i + 1), eq_of_find h, ?_, ?_⟩
  · rw [← List.singleton_infix_iff]
    exact not_infix_take (List.cons_ne_nil _ _) h
  · exact List.length_take_of_le (find_eq_some_iff.mp h).1

end Char

end YlUtils.Search
