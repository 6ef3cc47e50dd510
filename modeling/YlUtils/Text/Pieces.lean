import YlUtils.Text.Search

/-! # The pieces of a text

A text is cut at the occurrences of a pattern, each found behind the one before. The
pieces with the pattern in between are the text, and the pattern stands in none of
them.
-/

namespace YlUtils

variable {α : Type*} [DecidableEq α]

/-- The pieces between the occurrences of the pattern, from the left. -/
inductive Pieces (p : List α) : List α → List (List α) → Prop
  | last {s : List α} (h : Search.find p s = none) : Pieces p s [s]
  | piece {s : List α} {i : ℕ} {ts : List (List α)} (h : Search.find p s = some i)
    (rest : Pieces p (s.drop (i + p.length)) ts) : Pieces p s (s.take i :: ts)

namespace Pieces

variable {p s t : List α} {ts : List (List α)}

theorem ne_nil (h : Pieces p s ts) : ts ≠ [] := by
  cases h <;> exact List.cons_ne_nil _ _

omit [DecidableEq α] in
theorem intercalate_cons (sep t : List α) (hts : ts ≠ []) :
    sep.intercalate (t :: ts) = t ++ (sep ++ sep.intercalate ts) := by
  obtain ⟨u, ts, rfl⟩ := List.exists_cons_of_ne_nil hts
  rw [List.intercalate_cons_cons, List.append_assoc]

theorem intercalate (h : Pieces p s ts) : p.intercalate ts = s := by
  induction h with
  | last h => exact List.intercalate_singleton
  | piece h rest ih => rw [intercalate_cons _ _ rest.ne_nil, ih, ← Search.eq_of_find h]

theorem not_infix (hp : p ≠ []) (h : Pieces p s ts) (ht : t ∈ ts) : ¬ p <:+: t := by
  induction h with
  | last h =>
    rw [List.mem_singleton.mp ht]
    exact Search.find_eq_none_iff.mp h
  | piece h rest ih =>
    rcases List.mem_cons.mp ht with rfl | ht
    · exact Search.not_infix_take hp h
    · exact ih ht

theorem length_intercalate_nil (h : Pieces p s ts) :
    (([] : List α).intercalate ts).length + (ts.length - 1) * p.length = s.length := by
  induction h with
  | last h => simp
  | @piece s i ts h rest ih =>
    have hle := Search.find_add_le h
    obtain ⟨n, hn⟩ := Nat.exists_eq_add_of_le' (List.length_pos_iff.mpr rest.ne_nil)
    rw [List.length_drop, hn, Nat.add_sub_cancel] at ih
    rw [intercalate_cons _ _ rest.ne_nil, List.nil_append, List.length_append,
      List.length_take_of_le (by omega), List.length_cons, hn, Nat.add_sub_cancel, Nat.succ_mul]
    omega

theorem one_lt_length (h : Pieces p s ts) (hpiece : p <:+: s) : 1 < ts.length := by
  cases h with
  | last h => exact absurd hpiece (Search.find_eq_none_iff.mp h)
  | piece h rest => simpa using List.length_pos_iff.mpr rest.ne_nil

theorem exists_of_ne_nil (hp : p ≠ []) (s : List α) :
    ∃ ts, Pieces p s ts ∧ ts.length ≤ s.length + 1 := by
  induction hn : s.length using Nat.strong_induction_on generalizing s with
  | h n ih =>
  cases h : Search.find p s with
  | none => exact ⟨_, .last h, by simp⟩
  | some i =>
    have hle := Search.find_add_le h
    have hpos := List.length_pos_iff.mpr hp
    have hlen : (s.drop (i + p.length)).length = n - (i + p.length) := by
      rw [List.length_drop, hn]
    obtain ⟨ts, hts, hcount⟩ := ih _ (by omega) _ hlen
    refine ⟨_, .piece h hts, ?_⟩
    rw [List.length_cons]
    omega

end Pieces

end YlUtils
