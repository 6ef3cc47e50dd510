import Mathlib.Data.List.Induction
import YlUtils.Text.CString
import YlUtils.Text.Literal

/-! # Escaping field values

A value is escaped by a backslash before each quote. Backslashes of the value
are not escaped, so it is denoted only where each of them stands for itself.
-/

namespace YlUtils.MysqlDB

def escapeLoop : Bytes → Bytes
  | [] => []
  | c :: s => if c = 39 then 92 :: c :: escapeLoop s else c :: escapeLoop s

def escape (fieldValue : Bytes) : Bytes := escapeLoop (cstr fieldValue)

/-- What a backslash and a character denote by default: the control characters
have letters, and the pattern characters keep the backslash. -/
def backslashed (c : UInt8) : Bytes :=
  if c = 48 then [0]
  else if c = 98 then [8]
  else if c = 110 then [10]
  else if c = 114 then [13]
  else if c = 116 then [9]
  else if c = 90 then [26]
  else if c = 37 ∨ c = 95 then [92, c]
  else [c]

/-- A text is one string literal that denotes a value. -/
abbrev Denotes (text value : Bytes) : Prop := Literal.Denotes 39 92 backslashed text value

/-- Each backslash stands before a pattern character. -/
def BackslashesKept (v : Bytes) : Prop :=
  ∀ p s, v = p ++ 92 :: s → ∃ c t, s = c :: t ∧ (c = 37 ∨ c = 95)

section Kept

variable {c d : UInt8} {s v : Bytes}

theorem backslashesKept_cons (hc : c ≠ 92) : BackslashesKept (c :: v) ↔ BackslashesKept v := by
  constructor
  · intro h p s hv
    exact h (c :: p) s (by rw [hv]; rfl)
  · intro h p s hv
    cases p with
    | nil => exact absurd (List.cons.inj hv).1 hc
    | cons e p => exact h p s (List.cons.inj hv).2

theorem backslashesKept_backslash :
    BackslashesKept (92 :: d :: s) ↔ (d = 37 ∨ d = 95) ∧ BackslashesKept s := by
  constructor
  · intro h
    obtain ⟨c, t, ht, hc⟩ := h [] (d :: s) rfl
    obtain ⟨rfl, rfl⟩ := List.cons.inj ht
    refine ⟨hc, fun p t hs => h (92 :: d :: p) t (by rw [hs]; rfl)⟩
  · rintro ⟨hd, h⟩ p t hv
    cases p with
    | nil => exact ⟨d, s, (List.cons.inj hv).2.symm, hd⟩
    | cons e p =>
      have hd92 : d ≠ 92 := by rcases hd with rfl | rfl <;> decide
      exact (backslashesKept_cons hd92).mpr h p t (List.cons.inj hv).2

theorem not_backslashesKept_singleton : ¬ BackslashesKept [92] := fun h => by
  obtain ⟨c, t, ht, -⟩ := h [] [] rfl
  simp at ht

end Kept

section Reading

variable {c d : UInt8} {s v w : Bytes}

/-- Read the escaped value and the closing quote. -/
def readEscaped (v : Bytes) : Option (Bytes × Bytes) :=
  Literal.read 39 92 backslashed (escapeLoop v ++ [39])

theorem readEscaped_nil : readEscaped [] = some ([], []) :=
  Literal.read_quote (by decide)

theorem readEscaped_cons (hc : c ≠ 92) :
    readEscaped (c :: s) = (readEscaped s).map (Literal.prepend [c]) := by
  unfold readEscaped
  rw [escapeLoop]
  by_cases hq : c = 39
  · rw [if_pos hq, hq]
    exact Literal.read_escape
  · rw [if_neg hq]
    exact Literal.read_cons hc hq

/-- A backslash takes the next character with it. -/
theorem readEscaped_backslash (hd : d ≠ 39) :
    readEscaped (92 :: d :: s) = (readEscaped s).map (Literal.prepend (backslashed d)) := by
  unfold readEscaped
  rw [escapeLoop, if_neg (by decide), escapeLoop, if_neg hd]
  exact Literal.read_escape

theorem readEscaped_backslash_nil : readEscaped [92] = none := by decide

theorem escapeLoop_append_quote (hs : s ≠ []) :
    ∃ d t, escapeLoop s ++ [39] = d :: t ∧ d ≠ 39 := by
  cases s with
  | nil => exact absurd rfl hs
  | cons c s =>
    rw [escapeLoop]
    by_cases hc : c = 39
    · rw [if_pos hc]
      exact ⟨92, _, rfl, by decide⟩
    · rw [if_neg hc]
      exact ⟨c, _, rfl, hc⟩

/-- A backslash before a quote takes the backslash of the quote, and the quote
ends the literal before its end or not at all. -/
theorem readEscaped_backslash_quote : readEscaped (92 :: 39 :: s) ≠ some (w, []) := by
  unfold readEscaped
  rw [escapeLoop, if_neg (by decide), escapeLoop, if_pos rfl]
  simp only [List.cons_append]
  rw [Literal.read_escape]
  by_cases hs : s = []
  · subst hs
    rw [escapeLoop, List.nil_append, Literal.read_quote_quote (by decide)]
    simp [Literal.read]
  · obtain ⟨d, t, ht, hd⟩ := escapeLoop_append_quote hs
    rw [ht, Literal.read_quote_cons (by decide) hd]
    simp [Literal.prepend]

theorem backslashed_length_le (d : UInt8) : (backslashed d).length ≤ 2 := by
  unfold backslashed
  repeat' split
  all_goals simp

theorem backslashed_length (hd : ¬ (d = 37 ∨ d = 95)) : (backslashed d).length = 1 := by
  unfold backslashed
  rw [if_neg hd]
  repeat' split
  all_goals rfl

theorem backslashed_kept (hd : d = 37 ∨ d = 95) : backslashed d = [92, d] := by
  rcases hd with rfl | rfl <;> rfl

theorem readInduction {motive : Bytes → Prop} (nil : motive []) (last : motive [92])
    (backslash : ∀ d s, motive s → motive (92 :: d :: s))
    (cons : ∀ c s, c ≠ 92 → motive s → motive (c :: s)) (v : Bytes) : motive v := by
  induction v using List.twoStepInduction with
  | nil => exact nil
  | singleton c =>
    by_cases hc : c = 92
    · exact hc ▸ last
    · exact cons c [] hc nil
  | cons_cons c d s ih₁ ih₂ =>
    by_cases hc : c = 92
    · exact hc ▸ backslash d s ih₁
    · exact cons c (d :: s) hc (ih₂ d)

theorem length_le_of_readEscaped (h : readEscaped v = some (w, [])) : w.length ≤ v.length := by
  induction v using readInduction generalizing w with
  | nil =>
    rw [readEscaped_nil] at h
    simp_all
  | last => exact absurd h (by rw [readEscaped_backslash_nil]; simp)
  | backslash d s ih =>
    by_cases hd : d = 39
    · exact absurd h (hd ▸ readEscaped_backslash_quote)
    · rw [readEscaped_backslash hd, Literal.map_prepend_eq_some] at h
      obtain ⟨u, hu, rfl⟩ := h
      have hle := backslashed_length_le d
      have hu := ih hu
      simp only [List.length_append, List.length_cons]
      omega
  | cons c s hc ih =>
    rw [readEscaped_cons hc, Literal.map_prepend_eq_some] at h
    obtain ⟨u, hu, rfl⟩ := h
    simpa using ih hu

theorem readEscaped_eq_iff : readEscaped v = some (v, []) ↔ BackslashesKept v := by
  induction v using readInduction with
  | nil =>
    refine ⟨fun _ p s hs => ?_, fun _ => readEscaped_nil⟩
    simp at hs
  | last => simp [readEscaped_backslash_nil, not_backslashesKept_singleton]
  | backslash d s ih =>
    rw [backslashesKept_backslash]
    by_cases hd : d = 37 ∨ d = 95
    · have hq : d ≠ 39 := by rcases hd with rfl | rfl <;> decide
      rw [readEscaped_backslash hq, Literal.map_prepend_eq_some, backslashed_kept hd, ← ih]
      simp [hd]
    · simp only [hd, false_and, iff_false]
      intro h
      by_cases hq : d = 39
      · exact readEscaped_backslash_quote (hq ▸ h)
      · rw [readEscaped_backslash hq, Literal.map_prepend_eq_some] at h
        obtain ⟨u, hu, he⟩ := h
        -- the backslash is lost, and the rest does not make up for it
        have hle := length_le_of_readEscaped hu
        have hlen := congrArg List.length he
        rw [List.length_append, backslashed_length hd] at hlen
        simp only [List.length_cons] at hlen
        omega
  | cons c s hc ih =>
    rw [backslashesKept_cons hc, ← ih, readEscaped_cons hc, Literal.map_prepend_eq_some]
    simp

end Reading

/-- An escaped value in quotes is one literal that denotes the value exactly when
each backslash of the value stands before a pattern character. -/
theorem escape_denotes_iff (v : Bytes) (hv : 0 ∉ v) :
    Denotes (39 :: (escape v ++ [39])) v ↔ BackslashesKept v := by
  rw [Denotes, Literal.denotes_cons, escape, cstr_eq_self hv]
  exact readEscaped_eq_iff

theorem escape_denotes_iff_pattern :
    Denotes (39 :: (escape [92, 37, 39] ++ [39])) [92, 37, 39] ↔ BackslashesKept [92, 37, 39] :=
  escape_denotes_iff [92, 37, 39] (by decide)

/-- A backslash before a quote lets the quote out of the literal. -/
theorem escape_backslash_quote_not_denotes :
    ¬ ∀ v : Bytes, 0 ∉ v → Denotes (39 :: (escape v ++ [39])) v := by
  intro h
  have h := Literal.denotes_cons.mp (h [92, 39] (by decide))
  exact absurd h (by decide)

end YlUtils.MysqlDB
