import YlUtils.Text.Termination

/-! # Cutting between two marks

`RemoveSubstr` searches for the first mark from the left and for the second one from
the right. What lies between them is taken out by `ReplaceAll`, which finds it just
there if the marks stand in this order.
-/

namespace YlUtils.YeeString

open StdString

/-- `songname` behind `RemoveSubstr`, if the loop of `ReplaceAll` ends within the rounds and nothing
throws. -/
def RemoveSubstr (rounds : ℕ) (songname sBegin sEnd : Bytes) : Option Bytes :=
  match find songname sBegin 0 with
  | none => some songname
  | some p0 =>
    match rfind songname sEnd with
    | none => some songname
    | some p1 => do
      let p1 := p1 + sEnd.length
      let s ← substr songname p0 (some (sizeDiff p1 p0))
      ReplaceAll rounds songname s []

structure Marked (s sBegin sEnd : Bytes) (p q : ℕ) : Prop where
  first : Search.find sBegin s = some p
  last : Search.rfind sEnd s = some q
  order : p + sBegin.length ≤ q

/-- The call ends, and what it removes is the text from mark to mark, or nothing. -/
def Removes (s sBegin sEnd : Bytes) : Prop :=
  ∃ rounds out, RemoveSubstr rounds s sBegin sEnd = some out ∧
    (∀ p q, Marked s sBegin sEnd p q → out = s.take p ++ s.drop (q + sEnd.length)) ∧
    ((¬ ∃ p q, Marked s sBegin sEnd p q) → out = s)

variable {s b e : Bytes} {p q : ℕ}

section Ordered

theorem Marked.le_length (h : Marked s b e p q) : q + e.length ≤ s.length := by
  obtain ⟨hq, hat, -⟩ := Search.rfind_eq_some_iff.mp h.last
  have hle := hat.length_le
  rw [List.length_drop] at hle
  omega

def between (s e : Bytes) (p q : ℕ) : Bytes := (s.drop p).take (q + e.length - p)

theorem Marked.length_between (h : Marked s b e p q) :
    (between s e p q).length = q + e.length - p := by
  have hle := h.le_length
  rw [between, List.length_take, List.length_drop]
  omega

theorem Marked.first_prefix (h : Marked s b e p q) : b <+: between s e p q := by
  obtain ⟨-, hat, -⟩ := Search.find_eq_some_iff.mp h.first
  have horder := h.order
  have hlen := h.length_between
  have hle : b.length ≤ (between s e p q).length := by omega
  exact List.prefix_of_prefix_length_le hat (List.take_prefix _ _) hle

theorem Marked.last_suffix (h : Marked s b e p q) : e <:+ between s e p q := by
  obtain ⟨-, hat, -⟩ := Search.rfind_eq_some_iff.mp h.last
  have horder := h.order
  have hsplit : q + e.length - p = (q - p) + e.length := by omega
  have hdrop : (s.drop p).drop (q - p) = s.drop q := by
    rw [List.drop_drop]
    congr 1
    omega
  refine ⟨(s.drop p).take (q - p), ?_⟩
  rw [between, hsplit, List.take_add, hdrop, ← List.prefix_iff_eq_take.mp hat]

/-- A second place would end with the other mark behind its last place. -/
theorem Marked.not_infix (he : e ≠ []) (h : Marked s b e p q) :
    ¬ between s e p q <:+: s.drop (q + e.length) := by
  rintro ⟨u, v, huv⟩
  obtain ⟨-, -, hbehind⟩ := Search.rfind_eq_some_iff.mp h.last
  obtain ⟨x, hx⟩ := h.last_suffix
  have hat : e <+: s.drop (q + e.length + (u ++ x).length) := by
    refine ⟨v, ?_⟩
    rw [← List.drop_drop, ← huv, ← hx]
    simp
  have hlen := congrArg List.length huv
  rw [← hx] at hlen
  simp only [List.length_append, List.length_drop] at hlen
  have hpos := List.length_pos_iff.mpr he
  refine hbehind _ ?_ ?_ hat
  · omega
  · rw [List.length_append]
    omega

theorem Marked.pieces (he : e ≠ []) (h : Marked s b e p q) :
    Pieces (between s e p q) s [s.take p, s.drop (q + e.length)] := by
  obtain ⟨hp, -, hbefore⟩ := Search.find_eq_some_iff.mp h.first
  have horder := h.order
  have hfind : Search.find (between s e p q) s = some p :=
    Search.find_eq_some_iff.mpr ⟨hp, List.take_prefix _ _,
      fun j hj hat => hbefore j hj (h.first_prefix.trans hat)⟩
  have hdrop : s.drop (p + (between s e p q).length) = s.drop (q + e.length) := by
    rw [h.length_between]
    congr 1
    omega
  exact .piece hfind (hdrop.symm ▸ .last (Search.find_eq_none_iff.mpr (h.not_infix he)))

end Ordered

section Calls

theorem removeSubstr_eq (hp : Search.find b s = some p) (hq : Search.rfind e s = some q)
    (rounds : ℕ) : RemoveSubstr rounds s b e =
      ReplaceAll rounds s ((s.drop p).take (sizeDiff (q + e.length) p)) [] := by
  rw [RemoveSubstr, find_zero, hp]
  dsimp only
  rw [rfind, hq]
  dsimp only
  rw [substr_some (Search.find_eq_some_iff.mp hp).1]
  rfl

theorem Marked.removeSubstr (he : e ≠ []) (h : Marked s b e p q) :
    RemoveSubstr 1 s b e = some (s.take p ++ s.drop (q + e.length)) := by
  have horder := h.order
  rw [removeSubstr_eq h.first h.last, sizeDiff, if_pos (by omega)]
  exact (replaceAll_eq (h.pieces he) le_rfl []).trans (by simp [List.intercalate])

theorem replaceAll_nil_ne {piece : Bytes} (hne : piece ≠ []) (hpart : piece <:+: s) (rounds : ℕ) :
    ReplaceAll rounds s piece [] ≠ some s := by
  intro hsame
  obtain ⟨ts, hts, hcount⟩ := Pieces.exists_of_ne_nil hne s
  have hmax := replaceAll_mono hsame (Nat.le_max_left rounds s.length)
  rw [replaceAll_eq hts (hcount.trans (Nat.succ_le_succ (Nat.le_max_right _ _)))] at hmax
  -- the string has one piece more than the text that is left, and the text in between
  have hlen := hts.length_intercalate_nil
  have hmany := hts.one_lt_length hpart
  have hpos := List.length_pos_iff.mpr hne
  rw [Option.some.inj hmax] at hlen
  have hmul := Nat.mul_pos (show 0 < ts.length - 1 by omega) hpos
  omega

theorem removeSubstr_ne (hp : Search.find b s = some p) (hq : Search.rfind e s = some q)
    (rounds : ℕ) : RemoveSubstr rounds s b e ≠ some s := by
  rw [removeSubstr_eq hp hq]
  set piece := (s.drop p).take (sizeDiff (q + e.length) p)
  by_cases hnil : piece = []
  · rw [hnil, replaceAll_nil]
    exact Option.some_ne_none s |>.symm
  · have hpart : piece <:+: s :=
      (List.take_prefix _ _).isInfix.trans (List.drop_suffix _ _).isInfix
    exact replaceAll_nil_ne hnil hpart rounds

end Calls

/-- The call removes just the text from mark to mark exactly if the marks do not stand in the wrong
order: if both stand, the last one of the second kind lies behind the first one of the first
kind. -/
theorem removes_iff (he : e ≠ []) :
    Removes s b e ↔
      ∀ p q, Search.find b s = some p → Search.rfind e s = some q → p + b.length ≤ q := by
  constructor
  · rintro ⟨rounds, out, hrun, -, hsame⟩ p q hp hq
    by_contra horder
    refine removeSubstr_ne hp hq rounds (hrun.trans (congrArg some (hsame ?_)))
    rintro ⟨p', q', hp', hq', horder'⟩
    obtain rfl := Option.some.inj (hp.symm.trans hp')
    obtain rfl := Option.some.inj (hq.symm.trans hq')
    exact horder horder'
  · intro horder
    by_cases hmarked : ∃ p q, Marked s b e p q
    · obtain ⟨p, q, h⟩ := hmarked
      refine ⟨1, _, h.removeSubstr he, fun p' q' h' => ?_, fun hno => absurd ⟨p, q, h⟩ hno⟩
      obtain rfl := Option.some.inj (h.first.symm.trans h'.first)
      obtain rfl := Option.some.inj (h.last.symm.trans h'.last)
      rfl
    · refine ⟨0, s, ?_, fun p q h => absurd ⟨p, q, h⟩ hmarked, fun _ => rfl⟩
      rw [RemoveSubstr, find_zero]
      cases hp : Search.find b s with
      | none => rfl
      | some p =>
        dsimp only
        rw [rfind]
        cases hq : Search.rfind e s with
        | none => rfl
        | some q => exact absurd ⟨p, q, hp, hq, horder p q hp hq⟩ hmarked

/-- Two marks in the right order. -/
theorem removes_iff_brackets :
    Removes [97, 40, 98, 41, 99] [40] [41] ↔
      ∀ p q, Search.find [40] [97, 40, 98, 41, 99] = some p →
        Search.rfind [41] ([97, 40, 98, 41, 99] : Bytes) = some q → p + 1 ≤ q :=
  removes_iff (by decide)

/-- Where the second mark ends as the first one begins, the text between them is empty, and the call
does not end. -/
theorem not_removes : ¬ Removes [98, 97] [97] [98] := by
  rintro ⟨rounds, out, hrun, -⟩
  have hcall : RemoveSubstr rounds [98, 97] [97] [98] = ReplaceAll rounds [98, 97] [] [] := rfl
  rw [hcall, replaceAll_nil] at hrun
  cases hrun

end YlUtils.YeeString
