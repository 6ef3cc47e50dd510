import Mathlib.Data.List.Range
import Mathlib.Logic.Function.Basic
import YlUtils.Concurrency.Schedule
import YlUtils.Segment.HBasDict

/-! # The word list of a sentence

The segmented words and their categories stand in two arrays of fixed size.
Words are added at the end, and neighbours are combined into one word, whose
text is cut to the size of a row.
-/

namespace YlUtils

def MAX_NumOfWordsPerSentence : ℕ := 500

def MAX_WordLen : ℕ := 30

/-- The arrays `words` and `cates`, whose rows are read up to the first zero byte, and the number
`wid` of words. The rows behind them hold what was written there before. -/
structure WordList where
  words : ℕ → Bytes
  cates : ℕ → Bytes
  wid : ℕ

namespace WordList

def init : WordList := ⟨fun _ => [], fun _ => [], 0⟩

/-- The list after the word, and whether it was full. -/
def AddWordCateInfo (u : WordList) (word cate : Bytes) : WordList × Bool :=
  if u.wid = MAX_NumOfWordsPerSentence then (u, true)
  else
    ({ words := Function.update u.words u.wid ((cstr word).take MAX_WordLen)
       cates := Function.update u.cates u.wid ((cstr cate).take MAX_WordCatesLen)
       wid := u.wid + 1 }, false)

def GetWord (u : WordList) (wpos : ℤ) : Bytes := if wpos < 0 then [] else u.words wpos.toNat

def GetCate (u : WordList) (wpos : ℤ) : Bytes := if wpos < 0 then [] else u.cates wpos.toNat

def forwardMove (MWNum : ℕ) : ℕ → ℕ → (ℕ → Bytes) → ℕ → Bytes
  | 0, _, rows => rows
  | rounds + 1, i, rows =>
    forwardMove MWNum rounds (i + 1) (Function.update rows i (rows (i + MWNum)))

/-- Not defined for a list that would have fewer than no words. -/
def ForwardMoveWords (u : WordList) (StPos MWNum : ℕ) : Option WordList :=
  if MWNum ≤ u.wid then
    some
      { words := forwardMove MWNum (u.wid - MWNum - StPos) StPos u.words
        cates := forwardMove MWNum (u.wid - MWNum - StPos) StPos u.cates
        wid := u.wid - MWNum }
  else none

def textFrom (words : ℕ → Bytes) (stpos num : ℕ) : Bytes := (List.range' stpos num).flatMap words

/-- Not defined for rows outside of the arrays, or for a text or a result that does not fit its
buffer of 100 bytes. -/
def CombWord (u : WordList) (stpos num : ℕ) (cate : Bytes) : Option (WordList × Bytes) :=
  let buf := textFrom u.words stpos num
  let wcbuf := buf ++ 47 :: cate
  if 1 ≤ num ∧ stpos + num ≤ MAX_NumOfWordsPerSentence ∧ buf.length < 100 ∧ wcbuf.length < 100 then
    let u' : WordList :=
      { words := Function.update u.words stpos (buf.take MAX_WordLen)
        cates := Function.update u.cates stpos (cate.take MAX_WordCatesLen)
        wid := u.wid }
    (u'.ForwardMoveWords (stpos + 1) (num - 1)).map fun u' => (u', wcbuf)
  else none

def text (u : WordList) : Bytes := textFrom u.words 0 u.wid

section Text

variable {words words' : ℕ → Bytes} {u u' : WordList} {stpos num : ℕ} {cate r : Bytes}

theorem textFrom_add (words : ℕ → Bytes) (s m n : ℕ) :
    textFrom words s (m + n) = textFrom words s m ++ textFrom words (s + m) n := by
  rw [textFrom, textFrom, textFrom, ← List.flatMap_append, List.range'_append_1]

theorem textFrom_one (words : ℕ → Bytes) (s : ℕ) : textFrom words s 1 = words s := by
  simp [textFrom]

theorem textFrom_congr {s s' n : ℕ} (h : ∀ i < n, words (s + i) = words' (s' + i)) :
    textFrom words s n = textFrom words' s' n := by
  induction n with
  | zero => rfl
  | succ n ih =>
    rw [textFrom_add, textFrom_add, ih fun i hi => h i (by omega), textFrom_one, textFrom_one,
      h n (by omega)]

theorem forwardMove_eq (MWNum rounds i : ℕ) (rows : ℕ → Bytes) (j : ℕ) :
    forwardMove MWNum rounds i rows j =
      if i ≤ j ∧ j < i + rounds then rows (j + MWNum) else rows j := by
  induction rounds generalizing i rows with
  | zero => rw [forwardMove, if_neg (by omega)]
  | succ rounds ih =>
    rw [forwardMove, ih]
    by_cases hj : j = i
    · subst hj
      rw [if_neg (by omega), if_pos (by omega), Function.update_self]
    · rw [Function.update_of_ne hj]
      by_cases hlt : i ≤ j ∧ j < i + (rounds + 1)
      · -- the row that is copied has not been overwritten yet
        rw [if_pos (by omega), if_pos hlt, Function.update_of_ne (by omega)]
      · rw [if_neg (by omega), if_neg hlt]

theorem combWord_spec (h : u.CombWord stpos num cate = some (u', r)) :
    1 ≤ num ∧ num - 1 ≤ u.wid ∧ u'.wid = u.wid - (num - 1) ∧
      (∀ j < stpos, u'.words j = u.words j) ∧
      u'.words stpos = (textFrom u.words stpos num).take MAX_WordLen ∧
      ∀ j, stpos < j → j < u'.wid → u'.words j = u.words (j + (num - 1)) := by
  unfold CombWord at h
  dsimp only at h
  split at h
  · rename_i hcond
    unfold ForwardMoveWords at h
    split at h
    · rename_i hle
      obtain ⟨rfl, rfl⟩ := Prod.mk.inj (Option.some.inj h)
      refine ⟨hcond.1, hle, rfl, fun j hj => ?_, ?_, fun j hj hj' => ?_⟩
      · dsimp only
        rw [forwardMove_eq, if_neg (by omega), Function.update_of_ne (by omega)]
      · dsimp only
        rw [forwardMove_eq, if_neg (by omega), Function.update_self]
      · dsimp only at hj' ⊢
        rw [forwardMove_eq, if_pos (by omega), Function.update_of_ne (by omega)]
    · cases h
  · cases h

theorem text_combWord_iff (h : u.CombWord stpos num cate = some (u', r))
    (hin : stpos + num ≤ u.wid) :
    u'.text = u.text ↔ (textFrom u.words stpos num).length ≤ MAX_WordLen := by
  obtain ⟨hnum, -, hwid, hbefore, hat, hafter⟩ := combWord_spec h
  obtain ⟨rest, hrest⟩ : ∃ rest, u.wid = stpos + num + rest := ⟨u.wid - stpos - num, by omega⟩
  have hwid' : u'.wid = stpos + 1 + rest := by omega
  have htext : u.text = textFrom u.words 0 stpos ++ textFrom u.words stpos num ++
      textFrom u.words (stpos + num) rest := by
    rw [text, hrest, textFrom_add, textFrom_add, Nat.zero_add, Nat.zero_add]
  have htext' : u'.text = textFrom u.words 0 stpos ++
      (textFrom u.words stpos num).take MAX_WordLen ++ textFrom u.words (stpos + num) rest := by
    rw [text, hwid', textFrom_add, textFrom_add, textFrom_one, Nat.zero_add, Nat.zero_add, hat]
    congr 1
    · congr 1
      exact textFrom_congr fun i hi => hbefore _ (by omega)
    · refine textFrom_congr fun i hi => ?_
      rw [hafter _ (by omega) (by omega)]
      congr 1
      omega
  rw [htext, htext', List.append_left_inj, List.append_right_inj]
  exact ⟨fun h => h ▸ List.length_take_le _ _, List.take_of_length_le⟩

theorem text_combWord_behind (h : u.CombWord stpos num cate = some (u', r))
    (hout : u.wid - (num - 1) ≤ stpos) :
    u'.text = textFrom u.words 0 (u.wid - (num - 1)) := by
  obtain ⟨-, -, hwid, hbefore, -⟩ := combWord_spec h
  rw [text, hwid]
  exact textFrom_congr fun i hi => hbefore _ (by omega)

end Text

section Combinations

structure Combination where
  stpos : ℕ
  num : ℕ
  cate : Bytes
  two_le_num : 2 ≤ num
  cate_length : cate.length ≤ MAX_WordCatesLen

def combStep (u : WordList) (c : Combination) : Outcome (WordList × List Empty) :=
  match u.CombWord c.stpos c.num c.cate with
  | none => .undefined
  | some (u', _) => .ok (u', [])

/-- The combination is one of words of the list, and the new word fits its row. -/
def Combines (u : WordList) (c : Combination) : Prop :=
  c.stpos + c.num ≤ u.wid ∧ (textFrom u.words c.stpos c.num).length ≤ MAX_WordLen

/-- The list stands for the text `t` by non-empty words. -/
structure Spells (t : Bytes) (u : WordList) : Prop where
  text : u.text = t
  words : ∀ j < u.wid, u.words j ≠ []
  wid : u.wid ≤ MAX_NumOfWordsPerSentence

variable {u u' : WordList} {c : Combination} {t r : Bytes}

theorem textFrom_ne_nil {words : ℕ → Bytes} {s n : ℕ} (hn : 0 < n)
    (h : ∀ i < n, words (s + i) ≠ []) : textFrom words s n ≠ [] := by
  obtain ⟨n, rfl⟩ := Nat.exists_eq_add_of_lt hn
  rw [textFrom_add]
  intro hnil
  refine h (0 + n) (by omega) ?_
  rw [← textFrom_one words]
  exact (List.append_eq_nil_iff.mp hnil).2

theorem isSome_combWord (h : Spells t u) (hc : Combines u c) :
    ∃ u' r, u.CombWord c.stpos c.num c.cate = some (u', r) := by
  have hnum := c.two_le_num
  have hcate := c.cate_length
  have hwid := h.wid
  obtain ⟨hin, hfits⟩ := hc
  simp only [MAX_WordCatesLen, MAX_WordLen] at hcate hfits
  unfold CombWord
  dsimp only
  rw [if_pos ⟨by omega, by omega, by omega, by
    rw [List.length_append, List.length_cons]; omega⟩, ForwardMoveWords,
    if_pos (by dsimp only; omega)]
  exact ⟨_, _, rfl⟩

/-- One combination keeps what the list stands for, exactly if it is one of its words that fits. -/
theorem combWord_spells_iff (h : Spells t u)
    (hcomb : u.CombWord c.stpos c.num c.cate = some (u', r)) : Spells t u' ↔ Combines u c := by
  have hnum := c.two_le_num
  obtain ⟨-, hle, hwid, hbefore, hat, hafter⟩ := combWord_spec hcomb
  by_cases hin : c.stpos + c.num ≤ u.wid
  · have hiff := text_combWord_iff hcomb hin
    constructor
    · exact fun h' => ⟨hin, hiff.mp (h'.text.trans h.text.symm)⟩
    · rintro ⟨-, hfits⟩
      refine ⟨(hiff.mpr hfits).trans h.text, fun j hj => ?_, by have := h.wid; omega⟩
      rcases Nat.lt_trichotomy j c.stpos with hlt | rfl | hlt
      · rw [hbefore j hlt]
        exact h.words j (by omega)
      · rw [hat, List.take_of_length_le hfits]
        exact textFrom_ne_nil (by omega) fun i hi => h.words _ (by omega)
      · rw [hafter j hlt hj]
        exact h.words _ (by omega)
  · -- the last words are dropped, and they are not empty
    refine iff_of_false (fun h' => ?_) fun hc => hin hc.1
    obtain ⟨kept, hkept⟩ : ∃ kept, u.wid = kept + (c.num - 1) := ⟨u.wid - (c.num - 1), by omega⟩
    have htext := h'.text.trans h.text.symm
    rw [text_combWord_behind hcomb (by omega), text, hkept, textFrom_add, Nat.add_sub_cancel,
      Nat.zero_add, List.self_eq_append_right] at htext
    exact textFrom_ne_nil (by omega) (fun i hi => h.words _ (by omega)) htext

/-- Over every sequence of combinations, the list keeps standing for its text, exactly if each of
them combines words of the list to a word that fits. -/
theorem combinations_keep_text_iff (h : Spells t u) (cs : List Combination) :
    (∀ bs, bs <+: cs → (Schedule.run combStep u bs).Holds fun s => Spells t s.1) ↔
      Schedule.Meets combStep Combines u cs := by
  refine Schedule.forall_prefix_holds_iff (P := fun u _ => Spells t u) ?_ h cs
  intro u _ c h
  unfold combStep
  cases hcomb : u.CombWord c.stpos c.num c.cate with
  | none =>
    refine iff_of_false (fun hc => ?_) Outcome.not_holds_undefined
    obtain ⟨_, _, hsome⟩ := isSome_combWord h hc
    rw [hcomb] at hsome
    cases hsome
  | some s =>
    obtain ⟨u', r⟩ := s
    exact (combWord_spells_iff h hcomb).symm

theorem combination_keeps_text_of_three :
    (∀ bs, bs <+: [⟨1, 2, [118], by decide, by decide⟩] →
      (Schedule.run combStep ⟨fun j => [65 + UInt8.ofNat j], fun _ => [110], 3⟩ bs).Holds
        fun s => Spells [65, 66, 67] s.1) ↔
      Schedule.Meets combStep Combines ⟨fun j => [65 + UInt8.ofNat j], fun _ => [110], 3⟩
        [⟨1, 2, [118], by decide, by decide⟩] :=
  combinations_keep_text_iff ⟨by decide, fun _ _ => List.cons_ne_nil _ _, by decide⟩ _

end Combinations

end WordList

end YlUtils
