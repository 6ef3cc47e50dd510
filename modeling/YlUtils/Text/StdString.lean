import Mathlib.Algebra.Group.Nat.Defs
import Mathlib.Data.List.TakeWhile
import YlUtils.Text.Search

/-! # Member functions of strings

`find` and `substr` of `std::string`, with positions from the start of the string.
`npos` is `none`.
-/

namespace YlUtils.StdString

variable {α : Type*} [DecidableEq α]

def find (s p : List α) (pos : ℕ) : Option ℕ :=
  if pos ≤ s.length then (Search.find p (s.drop pos)).map (pos + ·) else none

def rfind (s p : List α) : Option ℕ := Search.rfind p s

/-- The difference of two positions, which wraps around below zero. -/
def sizeDiff (a b : ℕ) : ℕ := if b ≤ a then a - b else 2 ^ 64 - (b - a)

omit [DecidableEq α] in
/-- At most `n` characters from `pos` on; a position behind the string throws. -/
def substr (s : List α) (pos : ℕ) (n : Option ℕ) : Option (List α) :=
  if pos ≤ s.length then some ((s.drop pos).take (n.getD s.length)) else none

omit [DecidableEq α] in
def replace (s : List α) (pos n : ℕ) (r : List α) : Option (List α) :=
  if pos ≤ s.length then some (s.take pos ++ r ++ s.drop (pos + n)) else none

variable {s p : List α} {c : α} {pos i : ℕ}

theorem find_eq_some_iff (hpos : pos ≤ s.length) :
    find s p pos = some i ↔ ∃ k, Search.find p (s.drop pos) = some k ∧ pos + k = i := by
  rw [find, if_pos hpos, Option.map_eq_some_iff]

theorem find_eq_none_iff (hpos : pos ≤ s.length) :
    find s p pos = none ↔ Search.find p (s.drop pos) = none := by
  rw [find, if_pos hpos, Option.map_eq_none_iff]

@[simp] theorem find_zero : find s p 0 = Search.find p s := by
  simp [find]

theorem find_bounds (h : find s p pos = some i) : pos ≤ i ∧ i + p.length ≤ s.length := by
  by_cases hpos : pos ≤ s.length
  · obtain ⟨k, hk, rfl⟩ := (find_eq_some_iff hpos).mp h
    have hle := Search.find_add_le hk
    rw [List.length_drop] at hle
    omega
  · rw [find, if_neg hpos] at h
    cases h

omit [DecidableEq α] in
theorem substr_none (hpos : pos ≤ s.length) : substr s pos none = some (s.drop pos) := by
  rw [substr, if_pos hpos, Option.getD_none, List.take_of_length_le]
  rw [List.length_drop]
  omega

omit [DecidableEq α] in
theorem substr_some (hpos : pos ≤ s.length) (n : ℕ) :
    substr s pos (some n) = some ((s.drop pos).take n) := by
  rw [substr, if_pos hpos, Option.getD_some]

theorem substr_find_char (s : List α) (c : α) :
    substr s 0 (find s [c] 0) = some (s.takeWhile (· ≠ c)) := by
  rw [find_zero]
  cases h : Search.find [c] s with
  | none =>
    have hc := Search.find_char_eq_none_iff.mp h
    rw [substr_none (Nat.zero_le _), List.drop_zero,
      List.takeWhile_eq_self_iff.mpr fun x hx => by simpa using fun he : x = c => hc (he ▸ hx)]
  | some i =>
    obtain ⟨a, b, rfl, ha, rfl⟩ := Search.exists_of_find_char h
    have hwhile : (a ++ c :: b).takeWhile (· ≠ c) = a := by
      rw [List.takeWhile_append_of_pos fun x hx => by
        simpa using fun he : x = c => ha (he ▸ hx)]
      simp
    rw [substr_some (Nat.zero_le _), List.drop_zero, List.take_left, hwhile]

end YlUtils.StdString
