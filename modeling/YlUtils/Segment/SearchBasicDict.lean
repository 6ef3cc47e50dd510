import Mathlib.Data.Finset.Card
import Mathlib.Data.Finset.Range
import YlUtils.Segment.LookupBasicDict

/-! # The words at a place of the sentence

`SearchBasicDict` tries the even lengths up to that of the longest word with the
same first character, and marks those at which the sentence goes on with a word
of the dictionary that has a single entry and a category other than `***`. No
longer word of an even length is missed.
-/

namespace YlUtils

/-- The lengths at which a word ends, their categories, the longest of them and their number. -/
structure SegInfo where
  segflag : ℕ → Bool
  segcate : ℕ → Bytes
  maxposit : ℕ
  segpossible : ℕ

def SegInfo.cleared : SegInfo := ⟨fun _ => false, fun _ => [], 0, 0⟩

def SegInfo.mark (info : SegInfo) (i : ℕ) (Cate : Bytes) : SegInfo where
  segflag := Function.update info.segflag i true
  segcate := Function.update info.segcate i Cate
  segpossible := info.segpossible + 1
  maxposit := i

theorem SegInfo.segflag_mark_of_ne {info : SegInfo} {i j : ℕ} {Cate : Bytes} (h : j ≠ i) :
    (info.mark i Cate).segflag j = info.segflag j :=
  Function.update_of_ne h _ _

theorem SegInfo.segcate_mark_of_ne {info : SegInfo} {i j : ℕ} {Cate : Bytes} (h : j ≠ i) :
    (info.mark i Cate).segcate j = info.segcate j :=
  Function.update_of_ne h _ _

/-- The `num` bytes of the sentence from `base` on, if there are as many. -/
def GetWUnit (sentence : Bytes) (base num : ℕ) : Option Bytes :=
  if sentence.length - base < num then none else some ((sentence.drop base).take num)

def searchLength (d : BasicDictionary) (sentence : Bytes) (basept : ℕ)
    (record : DictFirstCharRecord) (info : SegInfo) (i : ℕ) : SegInfo :=
  match GetWUnit sentence basept i with
  | none => info
  | some wbuf =>
    let Cate := (LookupBasicDict d wbuf record.StartPos record.FCWordSum).2
    if Cate ≠ noCate then info.mark i Cate else info

def SearchBasicDict (d : BasicDictionary) (sentence : Bytes) (basept : ℕ) (fchar : Bytes)
    (info : SegInfo) : SegInfo :=
  match SearchFCListOfBasicDict d fchar with
  | none => info
  | some record =>
    ((List.range (record.MaxWordLen / 2)).map fun n => 2 * n + 2).foldl
      (searchLength d sentence basept record) info

/-- The category of the word of length `i` at the front of the text. Words of odd length are not
tried, and words with several entries or with the category `***` are skipped. -/
def wordCandidate (units : List BasDictUnit) (rest : Bytes) (i : ℕ) : Option Bytes :=
  if 2 ≤ i ∧ i % 2 = 0 ∧ i ≤ rest.length ∧ firstCharCell rest ≠ none then
    (basicCate units (rest.take i)).filter (· ≠ noCate)
  else none

/-- The candidates up to length `n` are marked, and no other lengths. -/
structure Marks (candidate : ℕ → Option Bytes) (n : ℕ) (info : SegInfo) : Prop where
  segflag : ∀ i, info.segflag i = true ↔ i ≤ n ∧ candidate i ≠ none
  segcate : ∀ i cate, i ≤ n → candidate i = some cate → info.segcate i = cate
  le_maxposit : ∀ i, info.segflag i = true → i ≤ info.maxposit
  maxposit : info.maxposit = 0 ∨ info.segflag info.maxposit = true
  segpossible : info.segpossible = ((Finset.range (n + 1)).filter (candidate · ≠ none)).card

section Marks

variable {candidate : ℕ → Option Bytes} {n m : ℕ} {info : SegInfo}

theorem marks_cleared (h : candidate 0 = none) : Marks candidate 0 .cleared where
  segflag i := by
    simp only [SegInfo.cleared, Bool.false_eq_true, false_iff, not_and]
    rintro hi hne
    obtain rfl : i = 0 := by omega
    exact hne h
  segcate i cate hi hc := by
    obtain rfl : i = 0 := by omega
    simp [h] at hc
  le_maxposit i hi := by simp [SegInfo.cleared] at hi
  maxposit := Or.inl rfl
  segpossible := by simp [SegInfo.cleared, h, Finset.filter_singleton]

theorem marks_iff_of_none (hnm : n ≤ m) (hnone : ∀ i, n < i → i ≤ m → candidate i = none) :
    Marks candidate n info ↔ Marks candidate m info := by
  have hle : ∀ i, candidate i ≠ none → (i ≤ n ↔ i ≤ m) := fun i hc =>
    ⟨fun hi => by omega, fun hi => Nat.not_lt.mp fun hlt => hc (hnone i hlt hi)⟩
  have hfilter : (Finset.range (n + 1)).filter (candidate · ≠ none) =
      (Finset.range (m + 1)).filter (candidate · ≠ none) := by
    ext i
    simp only [Finset.mem_filter, Finset.mem_range, Nat.lt_succ_iff]
    exact and_congr_left fun hc => hle i hc
  constructor
  · intro h
    exact ⟨fun i => (h.segflag i).trans (and_congr_left fun hc => hle i hc),
      fun i cate hi hc => h.segcate i cate ((hle i (by simp [hc])).mpr hi) hc,
      h.le_maxposit, h.maxposit, h.segpossible.trans (congrArg _ hfilter)⟩
  · intro h
    exact ⟨fun i => (h.segflag i).trans (and_congr_left fun hc => (hle i hc).symm),
      fun i cate hi hc => h.segcate i cate ((hle i (by simp [hc])).mp hi) hc,
      h.le_maxposit, h.maxposit, h.segpossible.trans (congrArg _ hfilter.symm)⟩

theorem Marks.mark (h : Marks candidate n info) {cate : Bytes}
    (hc : candidate (n + 1) = some cate) : Marks candidate (n + 1) (info.mark (n + 1) cate) where
  segflag i := by
    by_cases hi : i = n + 1
    · subst hi
      simp [SegInfo.mark, hc]
    · rw [SegInfo.segflag_mark_of_ne hi, h.segflag]
      exact and_congr_left fun _ => by omega
  segcate i cate' hi hc' := by
    by_cases he : i = n + 1
    · subst he
      rw [hc] at hc'
      simpa [SegInfo.mark] using Option.some.inj hc'
    · rw [SegInfo.segcate_mark_of_ne he]
      exact h.segcate i cate' (by omega) hc'
  le_maxposit i hi := by
    change i ≤ n + 1
    by_cases he : i = n + 1
    · omega
    · rw [SegInfo.segflag_mark_of_ne he, h.segflag] at hi
      omega
  maxposit := Or.inr (by simp [SegInfo.mark])
  segpossible := by
    rw [SegInfo.mark, h.segpossible, Finset.range_add_one (n := n + 1), Finset.filter_insert,
      if_pos (by simp [hc]), Finset.card_insert_of_notMem (by simp)]

end Marks

section Search

variable {units : List BasDictUnit} {d : BasicDictionary} {sentence rest : Bytes} {basept i : ℕ}
  {cell : ℕ × ℕ} {record : DictFirstCharRecord} {before block after : List BasDictUnit}

theorem firstCharCell_take (h : firstCharCell rest = some cell) (hi : 2 ≤ i) :
    firstCharCell (rest.take i) = some cell :=
  (firstCharCell_eq_iff h).mpr (List.take_prefix_take_left hi)

theorem searchLength_eq (hd : readBasDic units = some d) (hsentence : 0 ∉ sentence)
    (hcell : firstCharCell (sentence.drop basept) = some cell)
    (h : IsBlock (fun u => firstCharCell u.word = some cell) d.BasicDict before block after)
    (hstart : record.StartPos = before.length) (hsum : record.FCWordSum = block.length)
    (hi : 2 ≤ i) (heven : i % 2 = 0) (info : SegInfo) :
    searchLength d sentence basept record info i =
      match wordCandidate units (sentence.drop basept) i with
      | some cate => info.mark i cate
      | none => info := by
  obtain ⟨hs, hperm, -⟩ := readBasDic_sorted hd
  unfold searchLength GetWUnit wordCandidate
  rw [List.length_drop, hcell]
  by_cases hlen : sentence.length - basept < i
  · rw [if_pos hlen, if_neg (by omega)]
  · have hword : 0 ∉ (sentence.drop basept).take i := fun h =>
      hsentence (List.mem_of_mem_drop (List.mem_of_mem_take h))
    rw [if_neg hlen, if_pos ⟨hi, heven, by omega, by simp⟩]
    dsimp only
    rw [hstart, hsum, lookupBasicDict_eq hs hperm hword (firstCharCell_take hcell hi) h]
    cases basicCate units ((sentence.drop basept).take i) with
    | none => rfl
    | some cate =>
      by_cases hc : cate = noCate
      · simp [lookupAnswer, hc, Option.filter]
      · simp [lookupAnswer, hc, Option.filter]

/-- A word that begins like the block is no longer than the longest word of the block. -/
theorem wordCandidate_eq_none (hperm : d.BasicDict.Perm units)
    (hcell : firstCharCell rest = some cell)
    (h : IsBlock (fun u => firstCharCell u.word = some cell) d.BasicDict before block after)
    (hblock : ∀ u ∈ block, u.word.length < i) : wordCandidate units rest i = none := by
  unfold wordCandidate
  split
  · rename_i hi
    rw [basicCate_eq_none fun unit hunit hw => ?_]
    · rfl
    · have hmem := mem_cellBlock hperm (firstCharCell_take hcell hi.1) h hunit hw
      have := hblock unit hmem
      rw [hw, List.length_take] at this
      omega
  · rfl

theorem foldl_searchLength_marks (hd : readBasDic units = some d) (hsentence : 0 ∉ sentence)
    (hcell : firstCharCell (sentence.drop basept) = some cell)
    (h : IsBlock (fun u => firstCharCell u.word = some cell) d.BasicDict before block after)
    (hstart : record.StartPos = before.length) (hsum : record.FCWordSum = block.length) (n : ℕ) :
    Marks (wordCandidate units (sentence.drop basept)) (2 * n)
      (((List.range n).map fun n => 2 * n + 2).foldl (searchLength d sentence basept record)
        .cleared) := by
  induction n with
  | zero => exact marks_cleared (by simp [wordCandidate])
  | succ n ih =>
    rw [List.range_succ, List.map_append, List.foldl_append, List.map_singleton, List.foldl_cons,
      List.foldl_nil, searchLength_eq hd hsentence hcell h hstart hsum (by omega) (by omega)]
    have hodd : wordCandidate units (sentence.drop basept) (2 * n + 1) = none :=
      if_neg (by omega)
    have hnext := (marks_iff_of_none (m := 2 * n + 1) (by omega) fun i hi hi' => by
      obtain rfl : i = 2 * n + 1 := by omega
      exact hodd).mp ih
    cases hc : wordCandidate units (sentence.drop basept) (2 * n + 2) with
    | none =>
      exact (marks_iff_of_none (m := 2 * (n + 1)) (by omega) fun i hi hi' => by
        obtain rfl : i = 2 * n + 2 := by omega
        exact hc).mp hnext
    | some cate => exact hnext.mark hc

/-- `SearchBasicDict` marks exactly the even lengths at which a word with a single entry and a
category other than `***` ends, as if every even length up to the end of the sentence had been
tried. -/
theorem searchBasicDict_marks (hd : readBasDic units = some d) (hsentence : 0 ∉ sentence)
    {fchar : Bytes} (hfchar : GetWUnit sentence basept 2 = some fchar) :
    Marks (wordCandidate units (sentence.drop basept)) (sentence.length - basept)
      (SearchBasicDict d sentence basept fchar .cleared) := by
  obtain ⟨-, hperm, -⟩ := readBasDic_sorted hd
  unfold GetWUnit at hfchar
  split at hfchar
  · cases hfchar
  obtain rfl := Option.some.inj hfchar
  have hcell : firstCharCell ((sentence.drop basept).take 2) =
      firstCharCell (sentence.drop basept) := by
    rcases sentence.drop basept with _ | ⟨x, _ | ⟨y, t⟩⟩ <;> rfl
  unfold SearchBasicDict
  cases hc : firstCharCell (sentence.drop basept) with
  | none =>
    have hnone : ∀ i, wordCandidate units (sentence.drop basept) i = none := fun i =>
      if_neg (by simp [hc])
    rw [SearchFCListOfBasicDict, hcell, hc]
    exact (marks_iff_of_none (Nat.zero_le _) fun i _ _ => hnone i).mp (marks_cleared (hnone 0))
  | some cell =>
    obtain ⟨before, block, after, h⟩ := exists_cellBlock hd cell
    have hrecord := searchFCList_block hd (hcell.trans hc) h
    cases hsearch : SearchFCListOfBasicDict d ((sentence.drop basept).take 2) with
    | none =>
      rw [hsearch] at hrecord
      have hnone : ∀ i, wordCandidate units (sentence.drop basept) i = none := fun i =>
        wordCandidate_eq_none hperm hc h (by simp [hrecord])
      exact (marks_iff_of_none (Nat.zero_le _) fun i _ _ => hnone i).mp (marks_cleared (hnone 0))
    | some record =>
      rw [hsearch] at hrecord
      obtain ⟨hstart, hsum, hmax⟩ := hrecord
      have hmarks := foldl_searchLength_marks hd hsentence hc h hstart hsum (record.MaxWordLen / 2)
      have hlong : ∀ i, 2 * (record.MaxWordLen / 2) < i →
          wordCandidate units (sentence.drop basept) i = none := by
        intro i hi
        by_cases heven : i % 2 = 0
        · refine wordCandidate_eq_none hperm hc h fun u hu => ?_
          have := hmax u hu
          omega
        · exact if_neg (by simp [heven])
      have hbehind : ∀ i, sentence.length - basept < i →
          wordCandidate units (sentence.drop basept) i = none := fun i hi =>
        if_neg (by rw [List.length_drop]; omega)
      dsimp only
      rcases Nat.le_total (2 * (record.MaxWordLen / 2)) (sentence.length - basept) with hle | hle
      · exact (marks_iff_of_none hle fun i hi _ => hlong i hi).mp hmarks
      · exact (marks_iff_of_none hle fun i hi _ => hbehind i hi).mpr hmarks

end Search

theorem searchBasicDict_twoEntries : ∃ d, readBasDic twoEntries = some d ∧
    Marks (wordCandidate twoEntries [176, 161, 176, 162, 97]) 5
      (SearchBasicDict d [176, 161, 176, 162, 97] 0 [176, 161] .cleared) := by
  have hd : readBasDic twoEntries = some _ := rfl
  have hfchar : GetWUnit [176, 161, 176, 162, 97] 0 2 = some [176, 161] := rfl
  exact ⟨_, hd, searchBasicDict_marks hd (by decide) hfchar⟩

end YlUtils
