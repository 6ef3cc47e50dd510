import Mathlib.Data.List.Basic
import Mathlib.Data.List.DropRight

/-! # Lines

A text is read line by line. What it comes to is said of the pieces between the
separators, of which the last one may be no line.
-/

namespace YlUtils.Lines

variable {α β : Type*}

/-- The elements from the first to the last one that does not satisfy `p`. -/
def strip (p : α → Bool) (s : List α) : List α := (s.dropWhile p).rdropWhile p

section Read

variable [DecidableEq α] {sep : α} {s line rest : List α}

def getline (sep : α) : List α → Option (List α × List α)
  | [] => none
  | c :: s =>
    if c = sep then some ([], s)
    else match getline sep s with
      | none => some ([c], [])
      | some (line, rest) => some (c :: line, rest)

theorem getline_eq_none_iff : getline sep s = none ↔ s = [] := by
  cases s with
  | nil => simp [getline]
  | cons c s =>
    rw [getline]
    split
    · simp
    · split <;> simp

theorem splitOn_of_getline (h : getline sep s = some (line, rest)) :
    s.splitOn sep = line :: rest.splitOn sep ∨ rest = [] ∧ s.splitOn sep = [line] := by
  induction s generalizing line with
  | nil => simp [getline] at h
  | cons c s ih =>
    rw [getline] at h
    rw [List.splitOn, List.splitOnP_cons_eq_if_modifyHead]
    split at h
    · next hc =>
      cases h
      exact .inl (by simp [hc, List.splitOn])
    · next hc =>
      rw [if_neg (by simpa using hc)]
      split at h
      · next hs =>
        cases h
        rw [getline_eq_none_iff.mp hs]
        exact .inr ⟨rfl, rfl⟩
      · next line' rest' hs =>
        cases h
        rcases ih hs with hsplit | ⟨hrest, hsplit⟩
        · exact .inl (by rw [← List.splitOn, hsplit]; rfl)
        · exact .inr ⟨hrest, by rw [← List.splitOn, hsplit]; rfl⟩

theorem getline_length (h : getline sep s = some (line, rest)) :
    line.length + rest.length ≤ s.length ∧ rest.length < s.length := by
  induction s generalizing line with
  | nil => simp [getline] at h
  | cons c s ih =>
    rw [getline] at h
    split at h
    · cases h
      simp
    · split at h
      · cases h
        simp
      · next line' rest' hs =>
        cases h
        have := ih hs
        simp only [List.length_cons]
        omega

theorem findSome?_of_getline {f : List α → Option β} (hf : f [] = none)
    (h : getline sep s = some (line, rest)) :
    (s.splitOn sep).findSome? f = (f line).or ((rest.splitOn sep).findSome? f) := by
  rcases splitOn_of_getline h with hsplit | ⟨rfl, hsplit⟩
  · rw [hsplit, List.findSome?_cons]
    cases f line <;> rfl
  · rw [hsplit]
    cases hline : f line <;> simp [hline, hf]

end Read

end YlUtils.Lines
