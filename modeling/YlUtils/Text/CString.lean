import Mathlib.Data.List.TakeWhile

/-! # C strings

A buffer is a list of bytes and a C string is read from it up to the first
zero byte. Texts handed around by the library are the bytes before that zero.
-/

namespace YlUtils

abbrev Bytes := List UInt8

/-- The text a C string denotes: the bytes of its buffer before the first zero. -/
def cstr (buf : Bytes) : Bytes := buf.takeWhile (· ≠ 0)

def strlen (buf : Bytes) : ℕ := (cstr buf).length

/-- `strncpy`: at most `n` bytes of the text of `src`, and zeros up to `n` bytes. -/
def strncpy (dst src : Bytes) (n : ℕ) : Bytes :=
  (cstr src).take n ++ List.replicate (n - strlen src) 0 ++ dst.drop n

theorem cstr_eq_self {s : Bytes} (h : 0 ∉ s) : cstr s = s :=
  List.takeWhile_eq_self_iff.mpr fun b hb => by
    simpa using fun he : b = 0 => h (he ▸ hb)

theorem cstr_append_zero {s : Bytes} (h : 0 ∉ s) (t : Bytes) : cstr (s ++ 0 :: t) = s := by
  rw [cstr, List.takeWhile_append_of_pos fun b hb => by
    simpa using fun he : b = 0 => h (he ▸ hb)]
  simp

theorem strlen_append_zero {s : Bytes} (h : 0 ∉ s) (t : Bytes) :
    strlen (s ++ 0 :: t) = s.length := by
  rw [strlen, cstr_append_zero h]

/-- `strlen` of a memory, which has to contain a zero. -/
def strlenIn (mem : Bytes) : Option ℕ := if 0 ∈ mem then some (strlen mem) else none

theorem strlenIn_eq {s : Bytes} (hz : 0 ∉ s) (rest : Bytes) :
    strlenIn (s ++ 0 :: rest) = some s.length := by
  rw [strlenIn, if_pos (by simp), strlen_append_zero hz]

theorem take_strlen (buf : Bytes) : buf.take (strlen buf) = cstr buf :=
  (List.prefix_iff_eq_take.mp (List.takeWhile_prefix _)).symm

theorem strlen_le (buf : Bytes) : strlen buf ≤ buf.length :=
  (List.takeWhile_prefix _).length_le

theorem strlen_append_zero_le (s : Bytes) : strlen (s ++ [0]) ≤ s.length := by
  induction s with
  | nil => simp [strlen, cstr]
  | cons a s ih =>
    unfold strlen cstr at ih ⊢
    rw [List.cons_append, List.takeWhile_cons]
    split
    · simpa using ih
    · simp

theorem zero_notMem_cstr (buf : Bytes) : 0 ∉ cstr buf := fun h => by
  simpa using List.mem_takeWhile_imp h

theorem exists_append_zero (s : Bytes) : ∃ rest, s ++ [0] = cstr s ++ 0 :: rest := by
  induction s with
  | nil => exact ⟨[], rfl⟩
  | cons a s ih =>
    obtain ⟨rest, hrest⟩ := ih
    unfold cstr at hrest ⊢
    rw [List.takeWhile_cons]
    by_cases ha : a = 0
    · subst ha
      exact ⟨s ++ [0], rfl⟩
    · rw [if_pos (by simpa using ha), List.cons_append, hrest]
      exact ⟨rest, rfl⟩

theorem cstr_append_singleton (s : Bytes) : cstr (s ++ [0]) = cstr s := by
  obtain ⟨rest, hrest⟩ := exists_append_zero s
  rw [hrest, cstr_append_zero (zero_notMem_cstr s)]

theorem drop_strlen (buf : Bytes) : ∃ rest, buf.drop (strlen buf) ++ [0] = 0 :: rest := by
  obtain ⟨rest, hrest⟩ := exists_append_zero buf
  refine ⟨rest, ?_⟩
  rw [← List.drop_append_of_le_length (strlen_le buf), hrest, strlen, List.drop_left]

end YlUtils
