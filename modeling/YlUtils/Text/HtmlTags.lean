import YlUtils.Runs.Loop
import YlUtils.Text.CString
import YlUtils.Text.StdString

/-! # HTML tags

`RemoveHtmlTags` deletes in the string that it searches, and goes on where it has
deleted. What lies in front of that place does not change any more, so that the loop
is one pass over the string.
-/

namespace YlUtils.YeeString

open StdString

def tagBody : Bytes × Option ℕ → Round (Bytes × Option ℕ) (Option Bytes)
  | (strText, none) => .leave (some strText)
  | (strText, some pos) =>
    match find strText [62] pos with
    | none => .leave (some strText)
    | some endPos =>
      if endPos - pos + 1 < 1024 then
        match replace strText pos (endPos - pos + 1) [] with
        | none => .leave none
        | some strText => .again (strText, find strText [60] pos)
      else .again (strText, find strText [60] (endPos + 1))

/-- `strText` behind `RemoveHtmlTags`, if the loop is left within the rounds and nothing throws. -/
def RemoveHtmlTags (rounds : ℕ) (strText : Bytes) : Option Bytes :=
  (loop tagBody rounds (strText, find strText [60] 0)).join

theorem length_drop_lt (c : UInt8) (s : Bytes) (k : ℕ) : (s.drop k).length < (c :: s).length := by
  rw [List.length_drop, List.length_cons]
  omega

/-- The pass from left to right: what begins with `<` and ends with the next `>` is deleted if it
has fewer than 1024 characters, and kept otherwise. -/
def withoutTags : Bytes → Bytes
  | [] => []
  | c :: s =>
    if c = 60 then
      match Search.find [62] s with
      | none => c :: s
      | some k =>
        if k + 2 < 1024 then withoutTags (s.drop (k + 1))
        else c :: s.take (k + 1) ++ withoutTags (s.drop (k + 1))
    else c :: withoutTags s
termination_by s => s.length
decreasing_by
  · exact length_drop_lt c s (k + 1)
  · exact length_drop_lt c s (k + 1)
  · exact Nat.lt_succ_self s.length

variable {done s : Bytes} {c : UInt8} {k : ℕ}

theorem withoutTags_unclosed (h : Search.find [62] s = none) : withoutTags (60 :: s) = 60 :: s := by
  rw [withoutTags, if_pos rfl, h]

theorem withoutTags_short (h : Search.find [62] s = some k) (hk : k + 2 < 1024) :
    withoutTags (60 :: s) = withoutTags (s.drop (k + 1)) := by
  rw [withoutTags, if_pos rfl, h]
  exact if_pos hk

theorem withoutTags_long (h : Search.find [62] s = some k) (hk : ¬ k + 2 < 1024) :
    withoutTags (60 :: s) = 60 :: s.take (k + 1) ++ withoutTags (s.drop (k + 1)) := by
  rw [withoutTags, if_pos rfl, h]
  exact if_neg hk

theorem withoutTags_cons (hc : c ≠ 60) (s : Bytes) :
    withoutTags (c :: s) = c :: withoutTags s := by
  rw [withoutTags, if_neg hc]

theorem tagInduction {P : Bytes → Prop} (nil : P [])
    (unclosed : ∀ s, Search.find [62] s = none → P (60 :: s))
    (short : ∀ s k, Search.find [62] s = some k → k + 2 < 1024 → P (s.drop (k + 1)) → P (60 :: s))
    (long : ∀ s k, Search.find [62] s = some k → ¬ k + 2 < 1024 → P (s.drop (k + 1)) → P (60 :: s))
    (cons : ∀ c s, c ≠ 60 → P s → P (c :: s)) (s : Bytes) : P s := by
  induction hn : s.length using Nat.strong_induction_on generalizing s with
  | h n ih =>
    cases s with
    | nil => exact nil
    | cons c s =>
      subst hn
      by_cases hc : c = 60
      · subst hc
        cases h : Search.find [62] s with
        | none => exact unclosed s h
        | some k =>
          have hrest : P (s.drop (k + 1)) := ih _ (length_drop_lt 60 s (k + 1)) _ rfl
          by_cases hk : k + 2 < 1024
          · exact short s k h hk hrest
          · exact long s k h hk hrest
      · exact cons c s hc (ih _ (Nat.lt_succ_self s.length) _ rfl)

/-- A second pass finds what the first one has kept, and no more. -/
theorem withoutTags_idempotent (s : Bytes) : withoutTags (withoutTags s) = withoutTags s := by
  induction s using tagInduction with
  | nil => rw [withoutTags, withoutTags]
  | unclosed s h => rw [withoutTags_unclosed h, withoutTags_unclosed h]
  | short s k h hk ih => rw [withoutTags_short h hk, ih]
  | long s k h hk ih =>
    have hle : k + 1 ≤ s.length := Search.find_add_le h
    have hlen : (s.take (k + 1)).length = k + 1 := List.length_take_of_le hle
    have htake : Search.find [62] (s.take (k + 1)) = some k := by
      rw [← List.take_append_drop (k + 1) s] at h
      exact Search.find_of_append h hlen.ge
    have hkept := Search.find_append htake (withoutTags (s.drop (k + 1)))
    rw [withoutTags_long h hk, List.cons_append, withoutTags_long hkept hk,
      List.take_left' hlen, List.drop_left' hlen, ih, List.cons_append]
  | cons c s hc ih => rw [withoutTags_cons hc, withoutTags_cons hc, ih]

section Loop

theorem find_left (done s p : Bytes) :
    find (done ++ s) p done.length = (Search.find p s).map (done.length + ·) := by
  rw [find, if_pos (by rw [List.length_append]; omega), List.drop_left]

theorem find_skip (done s : Bytes) (hc : c ≠ 60) :
    find (done ++ c :: s) [60] done.length = find (done ++ [c] ++ s) [60] (done ++ [c]).length := by
  rw [find_left, find_left, Search.find, if_neg (by simpa using Ne.symm hc), Option.map_map,
    List.length_append, List.length_singleton]
  congr 1
  funext i
  simp only [Function.comp_apply]
  omega

theorem find_tag (done s : Bytes) :
    find (done ++ 60 :: s) [60] done.length = some done.length := by
  rw [find_left, Search.find, if_pos (by simp)]
  rfl

theorem find_tag_end (done s : Bytes) :
    find (done ++ 60 :: s) [62] done.length =
      (Search.find [62] s).map (done.length + 1 + ·) := by
  rw [find_left, Search.find, if_neg (by simp), Option.map_map]
  congr 1
  funext i
  simp only [Function.comp_apply]
  omega

theorem tagBody_unclosed (done : Bytes) (h : Search.find [62] s = none) :
    tagBody (done ++ 60 :: s, some done.length) = .leave (some (done ++ 60 :: s)) := by
  rw [tagBody, find_tag_end, h]
  rfl

theorem tagBody_short (done : Bytes) (h : Search.find [62] s = some k) (hk : k + 2 < 1024) :
    tagBody (done ++ 60 :: s, some done.length) =
      .again (done ++ s.drop (k + 1), find (done ++ s.drop (k + 1)) [60] done.length) := by
  have hspan : done.length + 1 + k - done.length + 1 = k + 2 := by omega
  have hreplace : replace (done ++ 60 :: s) done.length (k + 2) [] =
      some (done ++ s.drop (k + 1)) := by
    rw [replace, if_pos (by rw [List.length_append]; omega), List.take_left, ← List.drop_drop,
      List.drop_left, List.append_nil]
    rfl
  rw [tagBody, find_tag_end, h]
  dsimp only [Option.map_some]
  rw [hspan, if_pos hk, hreplace]

theorem tagBody_long (done : Bytes) (h : Search.find [62] s = some k) (hk : ¬ k + 2 < 1024) :
    tagBody (done ++ 60 :: s, some done.length) =
      .again (done ++ 60 :: s,
        find (done ++ 60 :: s) [60] (done ++ 60 :: s.take (k + 1)).length) := by
  have hle : k + 1 ≤ s.length := Search.find_add_le h
  have hspan : done.length + 1 + k - done.length + 1 = k + 2 := by omega
  have hkept : done.length + 1 + k + 1 = (done ++ 60 :: s.take (k + 1)).length := by
    rw [List.length_append, List.length_cons, List.length_take_of_le hle]
    omega
  rw [tagBody, find_tag_end, h]
  dsimp only [Option.map_some]
  rw [hspan, if_neg hk, hkept]

theorem tagBody_loop (done s : Bytes) {rounds : ℕ} (hrounds : s.length < rounds) :
    loop tagBody rounds (done ++ s, find (done ++ s) [60] done.length) =
      some (some (done ++ withoutTags s)) := by
  induction s using tagInduction generalizing done rounds with
  | nil =>
    obtain ⟨rounds, rfl⟩ := Nat.exists_eq_add_of_lt hrounds
    rw [find_left, withoutTags]
    rfl
  | unclosed s h =>
    obtain ⟨rounds, rfl⟩ := Nat.exists_eq_add_of_lt hrounds
    rw [find_tag, loop_leave (tagBody_unclosed done h), withoutTags_unclosed h]
  | short s k h hk ih =>
    obtain ⟨rounds, rfl⟩ := Nat.exists_eq_add_of_lt hrounds
    rw [find_tag, loop_again (tagBody_short done h hk), withoutTags_short h hk]
    exact ih done ((length_drop_lt 60 s (k + 1)).trans_le (Nat.le_add_right _ _))
  | long s k h hk ih =>
    obtain ⟨rounds, rfl⟩ := Nat.exists_eq_add_of_lt hrounds
    have hsplit : done ++ 60 :: s = done ++ 60 :: s.take (k + 1) ++ s.drop (k + 1) := by simp
    rw [find_tag, loop_again (tagBody_long done h hk), withoutTags_long h hk, hsplit,
      ← List.append_assoc]
    exact ih _ ((length_drop_lt 60 s (k + 1)).trans_le (Nat.le_add_right _ _))
  | cons c s hc ih =>
    have hrest := ih (done ++ [c]) (Nat.lt_of_succ_lt hrounds)
    rw [find_skip done s hc, withoutTags_cons hc]
    simpa using hrest

end Loop

/-- The call ends, makes the pass, and changes nothing where it has been made. -/
theorem removeHtmlTags_pass (s : Bytes) :
    (∀ rounds, s.length < rounds → RemoveHtmlTags rounds s = some (withoutTags s)) ∧
      ∀ rounds, (withoutTags s).length < rounds →
        RemoveHtmlTags rounds (withoutTags s) = some (withoutTags s) := by
  have hcall : ∀ (s : Bytes) (rounds : ℕ), s.length < rounds →
      RemoveHtmlTags rounds s = some (withoutTags s) := by
    intro s rounds hrounds
    have hloop := tagBody_loop [] s hrounds
    rw [RemoveHtmlTags]
    exact congrArg Option.join hloop
  refine ⟨hcall s, fun rounds hrounds => ?_⟩
  rw [hcall _ rounds hrounds, withoutTags_idempotent]

end YlUtils.YeeString
