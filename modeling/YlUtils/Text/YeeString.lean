import YlUtils.Text.CString
import YlUtils.Text.Pieces
import YlUtils.Text.StdString

/-! # Cutting and replacing

`SimpleTokenize` and `ReplaceAll` search for a text from left to right, each with a
loop of its own. Both cut at the same occurrences.
-/

namespace YlUtils.YeeString

open StdString

def replaceLoop (str strToReplaced strReplaced : Bytes) :
    ℕ → Bytes → ℕ → Bool → Option ℕ → Option (Bytes × ℕ × Bool)
  | _, strTemp, tpos, bHasReplaced, none => some (strTemp, tpos, bHasReplaced)
  | 0, _, _, _, some _ => none
  | rounds + 1, strTemp, tpos, _, some pos => do
    let piece ← substr str tpos (some (pos - tpos))
    let tpos := pos + strToReplaced.length
    replaceLoop str strToReplaced strReplaced rounds (strTemp ++ (piece ++ strReplaced)) tpos true
      (find str strToReplaced tpos)

/-- `str` behind `ReplaceAll`, if its loop ends within the rounds and nothing throws. -/
def ReplaceAll (rounds : ℕ) (str strToReplaced strReplaced : Bytes) : Option Bytes := do
  let (strTemp, tpos, bHasReplaced) ←
    replaceLoop str strToReplaced strReplaced rounds [] 0 false (find str strToReplaced 0)
  if bHasReplaced then
    let rest ← substr str tpos none
    return strTemp ++ rest
  return str

def tokenizeLoop (str delims : Bytes) : ℕ → List Bytes → ℕ → Option (List Bytes)
  | 0, _, _ => none
  | rounds + 1, tokens, p0 =>
    match find str delims p0 with
    | none => do
      let piece ← substr str p0 none
      return tokens ++ [piece]
    | some p1 => do
      let piece ← substr str p0 (some (p1 - p0))
      tokenizeLoop str delims rounds (tokens ++ [piece]) (p1 + delims.length)

def SimpleTokenize (rounds : ℕ) (str delims : Bytes) : Option (List Bytes) :=
  tokenizeLoop str delims rounds [] 0

section Loops

variable {str s p r : Bytes} {ts : List Bytes} {pos rounds i : ℕ}

theorem find_piece (hs : str.drop pos = s) (hpos : pos ≤ str.length)
    (h : Search.find p s = some i) :
    find str p pos = some (pos + i) ∧ substr str pos (some (pos + i - pos)) = some (s.take i) ∧
      pos + i + p.length ≤ str.length ∧ str.drop (pos + i + p.length) = s.drop (i + p.length) := by
  subst hs
  have hle := Search.find_add_le h
  rw [List.length_drop] at hle
  refine ⟨(find_eq_some_iff hpos).mpr ⟨i, h, rfl⟩, ?_, by omega, ?_⟩
  · rw [substr_some hpos, Nat.add_sub_cancel_left]
  · rw [List.drop_drop, Nat.add_assoc]

theorem tokenizeLoop_eq (h : Pieces p s ts) (hs : str.drop pos = s) (hpos : pos ≤ str.length)
    (hrounds : ts.length ≤ rounds) (tokens : List Bytes) :
    tokenizeLoop str p rounds tokens pos = some (tokens ++ ts) := by
  induction h generalizing pos rounds tokens with
  | last hnone =>
    cases rounds with
    | zero => exact absurd hrounds (by simp)
    | succ rounds =>
      rw [tokenizeLoop, (find_eq_none_iff hpos).mpr (hs ▸ hnone)]
      dsimp only
      rw [substr_none hpos, hs]
      rfl
  | piece hfound rest ih =>
    cases rounds with
    | zero => exact absurd hrounds (by simp)
    | succ rounds =>
      obtain ⟨hfind, hpiece, hpos', hdrop⟩ := find_piece hs hpos hfound
      rw [tokenizeLoop, hfind]
      dsimp only
      rw [hpiece]
      exact (ih hdrop hpos' (Nat.le_of_succ_le_succ hrounds) _).trans (by simp)

/-- The loop of `ReplaceAll` joins the pieces of what is left but the last one. -/
theorem replaceLoop_eq (h : Pieces p s ts) (hs : str.drop pos = s) (hpos : pos ≤ str.length)
    (hrounds : ts.length ≤ rounds + 1) (r temp : Bytes) (has : Bool) :
    ∃ temp' pos', replaceLoop str p r rounds temp pos has (find str p pos) =
      some (temp', pos', has || 1 < ts.length) ∧ pos' ≤ str.length ∧
        temp' ++ str.drop pos' = temp ++ r.intercalate ts := by
  induction h generalizing pos rounds temp has with
  | last hnone =>
    rw [(find_eq_none_iff hpos).mpr (hs ▸ hnone)]
    refine ⟨temp, pos, ?_, hpos, ?_⟩
    · cases rounds <;> simp [replaceLoop]
    · rw [List.intercalate_singleton, hs]
  | piece hfound rest ih =>
    have hmany := List.length_pos_iff.mpr rest.ne_nil
    cases rounds with
    | zero =>
      rw [List.length_cons] at hrounds
      omega
    | succ rounds =>
      obtain ⟨hfind, hpiece, hpos', hdrop⟩ := find_piece hs hpos hfound
      obtain ⟨temp', pos', hloop, hle, hjoin⟩ :=
        ih hdrop hpos' (Nat.le_of_succ_le_succ hrounds) (temp ++ (_ ++ r)) true
      refine ⟨temp', pos', ?_, hle, ?_⟩
      · rw [hfind, replaceLoop, hpiece]
        simpa [hmany] using hloop
      · rw [hjoin, Pieces.intercalate_cons _ _ rest.ne_nil]
        simp only [List.append_assoc]

theorem replaceAll_eq (h : Pieces p s ts) (hrounds : ts.length ≤ rounds + 1) (r : Bytes) :
    ReplaceAll rounds s p r = some (r.intercalate ts) := by
  obtain ⟨temp, tpos, hloop, htpos, hjoin⟩ :=
    replaceLoop_eq h List.drop_zero (Nat.zero_le _) hrounds r [] false
  rw [ReplaceAll, hloop]
  by_cases hmany : 1 < ts.length
  · simpa [hmany, substr_none htpos] using hjoin
  · -- nothing was replaced, and the only piece is the string
    have hpos := List.length_pos_iff.mpr h.ne_nil
    obtain ⟨t, rfl⟩ := List.length_eq_one_iff.mp (by omega : ts.length = 1)
    have ht := h.intercalate
    rw [List.intercalate_singleton] at ht
    simp [ht]

end Loops

/-- For a text that is not empty, joining the pieces of `SimpleTokenize` with it gives the string
back, it stands in none of them, and `ReplaceAll` joins the same pieces with the other text. -/
theorem tokens_join {p : Bytes} (hp : p ≠ []) (s : Bytes) :
    ∃ tokens : List Bytes,
      (∀ rounds, s.length < rounds → SimpleTokenize rounds s p = some tokens) ∧
      p.intercalate tokens = s ∧ (∀ t ∈ tokens, ¬ p <:+: t) ∧
      ∀ r rounds, s.length < rounds → ReplaceAll rounds s p r = some (r.intercalate tokens) := by
  obtain ⟨tokens, hpieces, hcount⟩ := Pieces.exists_of_ne_nil hp s
  refine ⟨tokens, fun rounds hrounds => ?_, hpieces.intercalate,
    fun t ht => hpieces.not_infix hp ht, fun r rounds hrounds => ?_⟩
  · exact tokenizeLoop_eq hpieces List.drop_zero (Nat.zero_le _) (by omega) []
  · exact replaceAll_eq hpieces (by omega) r

theorem tokens_join_overlapping :
    ∃ tokens : List Bytes,
      (∀ rounds, 3 < rounds → SimpleTokenize rounds [97, 97, 97] [97, 97] = some tokens) ∧
      [97, 97].intercalate tokens = [97, 97, 97] ∧ (∀ t ∈ tokens, ¬ [97, 97] <:+: t) ∧
      ∀ r rounds, 3 < rounds →
        ReplaceAll rounds [97, 97, 97] [97, 97] r = some (r.intercalate tokens) :=
  tokens_join (by decide) [97, 97, 97]

end YlUtils.YeeString
