import YlUtils.Segment.HBasDict

/-! # Looking words up in the basic dictionary

The sorted array, the table of first characters and the bisection together
behave like a map that holds the words with exactly one entry.
-/

namespace YlUtils

section Lookup

variable {BasicDict before block after : List BasDictUnit} {word : Bytes} {k : ℕ}

theorem basDictWord_of_get {unit : BasDictUnit} (h : BasicDict[k]? = some unit) :
    basDictWord BasicDict k = unit.word := by
  rw [basDictWord, h]

theorem exists_get (h : k < BasicDict.length) : ∃ unit, BasicDict[k]? = some unit :=
  ⟨BasicDict[k], List.getElem?_eq_getElem h⟩

theorem strcmp_basDictWord_iff (hword : 0 ∉ word)
    (h : IsBlock (fun u => u.word = word) BasicDict before block after)
    (hk : k < BasicDict.length) : strcmp word (basDictWord BasicDict k) = 0 ↔
      before.length ≤ k ∧ k < before.length + block.length := by
  obtain ⟨unit, hunit⟩ := exists_get hk
  rw [← h.get_iff hunit, basDictWord_of_get hunit, strcmp_eq_zero_iff hword unit.word_text]
  simp [eq_comm]

theorem frontWord_eq (hword : 0 ∉ word)
    (h : IsBlock (fun u => u.word = word) BasicDict before block after) {j : ℕ}
    (hj : j < before.length + block.length) (hj' : before.length ≤ j + 1) :
    frontWord BasicDict word j = before.length - 1 := by
  have hlen := h.length_le
  induction j with
  | zero =>
    have hiff := strcmp_basDictWord_iff hword h (k := 0) (by omega)
    unfold frontWord
    split <;> omega
  | succ j ih =>
    have hiff := strcmp_basDictWord_iff hword h (k := j + 1) (by omega)
    unfold frontWord
    split
    · exact ih (by omega) (by omega)
    · omega

theorem nextWord_eq (hword : 0 ∉ word)
    (h : IsBlock (fun u => u.word = word) BasicDict before block after) {rounds : ℕ}
    (hk : before.length ≤ k) (hk' : k ≤ before.length + block.length)
    (hrounds : before.length + block.length - k ≤ rounds) :
    nextWord BasicDict word rounds k = before.length + block.length := by
  have hlen := h.length_le
  induction rounds generalizing k with
  | zero =>
    rw [nextWord]
    omega
  | succ rounds ih =>
    rw [nextWord]
    split
    · rename_i hcond
      have hiff := strcmp_basDictWord_iff hword h hcond.1
      exact ih (by omega) (by omega) (by omega)
    · rename_i hcond
      by_contra hne
      have hiff := strcmp_basDictWord_iff hword h (k := k) (by omega)
      exact hcond ⟨by omega, hiff.mpr ⟨hk, by omega⟩⟩

theorem sorted_strcmp (hs : BasicDict.Pairwise fun a b => codes a.word ≤ codes b.word)
    (hword : 0 ∉ word) {low high : ℤ} (hhigh : high < BasicDict.length) :
    Sorted (fun mid => strcmp word (basDictWord BasicDict mid)) low high := by
  have hle : ∀ i j : ℕ, i ≤ j → j ≤ high → ∃ u v : BasDictUnit, basDictWord BasicDict i = u.word ∧
      basDictWord BasicDict j = v.word ∧ codes u.word ≤ codes v.word := by
    intro i j hij hj
    have hi' : i < BasicDict.length := by omega
    have hj' : j < BasicDict.length := by omega
    refine ⟨BasicDict[i], BasicDict[j], basDictWord_of_get (List.getElem?_eq_getElem hi'),
      basDictWord_of_get (List.getElem?_eq_getElem hj'), ?_⟩
    rcases Nat.lt_or_eq_of_le hij with hlt | rfl
    · exact List.pairwise_iff_getElem.mp hs i j hi' hj' hlt
    · exact le_refl _
  constructor
  · intro i j _ hij hj
    obtain ⟨u, v, hu, hv, huv⟩ := hle i j hij hj
    rw [hu, hv, strcmp_neg_iff hword u.word_text, strcmp_neg_iff hword v.word_text]
    exact fun h => lt_of_lt_of_le h huv
  · intro i j _ hij hj
    obtain ⟨u, v, hu, hv, huv⟩ := hle i j hij hj
    rw [hu, hv, strcmp_pos_iff hword u.word_text, strcmp_pos_iff hword v.word_text]
    exact fun h => lt_of_le_of_lt huv h

theorem onlyCate_perm {units units' : List BasDictUnit} (h : units.Perm units') :
    onlyCate units = onlyCate units' := by
  match units, h with
  | [], h => rw [List.nil_perm.mp h]
  | [unit], h => rw [List.singleton_perm.mp h]
  | _ :: _ :: _, h =>
    match units', h.length_eq with
    | _ :: _ :: _, _ => rfl

theorem basicCate_of_block {units : List BasDictUnit} (hperm : BasicDict.Perm units)
    (h : IsBlock (fun u => u.word = word) BasicDict before block after) :
    basicCate units word = onlyCate block :=
  onlyCate_perm (h.filter ▸ (hperm.filter _).symm)

/-- How `LookupBasicDict` reports a category. -/
def lookupAnswer : Option Bytes → ℕ × Bytes
  | some cate => (1, cate)
  | none => (0, noCate)

theorem lookupBasicDict_eq {d : BasicDictionary}
    {units cellBefore cellBlock cellAfter : List BasDictUnit} {cell : ℕ × ℕ}
    (hs : d.BasicDict.Pairwise fun a b => codes a.word ≤ codes b.word)
    (hperm : d.BasicDict.Perm units) (hword : 0 ∉ word) (hcell : firstCharCell word = some cell)
    (hblock : IsBlock (fun u => firstCharCell u.word = some cell) d.BasicDict
      cellBefore cellBlock cellAfter) :
    LookupBasicDict d word cellBefore.length cellBlock.length =
      lookupAnswer (basicCate units word) := by
  obtain ⟨before, block, after, h⟩ := exists_block (p := fun u : BasDictUnit => u.word = word)
    (r := fun a b : BasDictUnit => codes a.word ≤ codes b.word) (by
      intro a b c hab hbc ha hc
      rw [decide_eq_true_eq] at ha hc ⊢
      exact codes_injective (le_antisymm (hc ▸ hbc) (ha ▸ hab))) hs
  have hlen := h.length_le
  have hclen := hblock.length_le
  have hsorted : Sorted (fun mid => strcmp word (basDictWord d.BasicDict mid)) cellBefore.length
      (cellBefore.length + cellBlock.length - 1) := sorted_strcmp hs hword (by omega)
  rw [basicCate_of_block hperm h, LookupBasicDict]
  cases hbisect : bisect (fun mid => strcmp word (basDictWord d.BasicDict mid)) cellBefore.length
      (cellBefore.length + cellBlock.length - 1) with
  | none =>
    have hnone := (bisect_eq_none_iff hsorted (by omega)).mp hbisect
    match block, h with
    | [], h => rfl
    | unit :: block, h =>
      -- an entry of the word stands in the block of the cell, so it is found
      exfalso
      have hget : d.BasicDict[before.length]? = some unit := by simp [h.eq]
      have hunit : unit.word = word := by simpa using h.block unit List.mem_cons_self
      obtain ⟨hge, hlt⟩ := (hblock.get_iff hget).mp (by simp [hunit, hcell])
      refine hnone before.length (by omega) (by omega) ?_
      rw [strcmp_basDictWord_iff hword h (by simp at hlen; omega)]
      simp
  | some mid =>
    obtain ⟨hge, hle, hzero⟩ := bisect_sound (by omega) hbisect
    obtain ⟨hge', hlt'⟩ := (strcmp_basDictWord_iff hword h (by omega)).mp hzero
    dsimp only
    rw [frontWord_eq hword h hlt' (by omega),
      nextWord_eq hword h hge' (by omega) (by omega)]
    match block, h with
    | [], h => simp at hlt'; omega
    | [unit], h =>
      obtain rfl : mid = before.length := by simp at hlt'; omega
      have hget : d.BasicDict[before.length]? = some unit := by simp [h.eq]
      simp [hget, onlyCate, lookupAnswer]
    | _ :: _ :: block, h =>
      rw [if_neg (by simp only [List.length_cons]; omega)]
      rfl

end Lookup

/-- The search for a word as the callers make it: among the words with its first bytes. -/
def searchBasicWord (d : BasicDictionary) (word : Bytes) : ℕ × Bytes :=
  match SearchFCListOfBasicDict d word with
  | none => (0, noCate)
  | some record => LookupBasicDict d word record.StartPos record.FCWordSum

section Dictionary

variable {units : List BasDictUnit} {d : BasicDictionary} {word : Bytes} {cell : ℕ × ℕ}

theorem readBasDic_sorted (hd : readBasDic units = some d) :
    d.BasicDict.Pairwise (fun a b => codes a.word ≤ codes b.word) ∧ d.BasicDict.Perm units ∧
      d.BasicDictFirstCharTable = GenBasDictFirstCharList d.BasicDict := by
  unfold readBasDic at hd
  split at hd
  · obtain rfl := Option.some.inj hd
    exact ⟨sorted_mergeSort units, List.mergeSort_perm _ _, rfl⟩
  · cases hd

theorem exists_cellBlock (hd : readBasDic units = some d) (cell : ℕ × ℕ) :
    ∃ before block after,
      IsBlock (fun u => firstCharCell u.word = some cell) d.BasicDict before block after :=
  exists_block (p := fun u : BasDictUnit => firstCharCell u.word = some cell)
    (r := fun a b : BasDictUnit => codes a.word ≤ codes b.word)
    (fun a b c hab hbc ha hc => by
      rw [decide_eq_true_eq] at ha hc ⊢
      exact firstCharCell_between ha hc hab hbc) (readBasDic_sorted hd).1

theorem searchFCList_block {FirstChar : Bytes} (hd : readBasDic units = some d)
    (hcell : firstCharCell FirstChar = some cell) {before block after : List BasDictUnit}
    (h : IsBlock (fun u => firstCharCell u.word = some cell) d.BasicDict before block after) :
    match SearchFCListOfBasicDict d FirstChar with
    | none => block = []
    | some record => record.StartPos = before.length ∧ record.FCWordSum = block.length ∧
        ∀ u ∈ block, u.word.length ≤ record.MaxWordLen := by
  obtain ⟨-, -, htable⟩ := readBasDic_sorted hd
  obtain ⟨hsum, hstart, hmax⟩ := genBasDictFirstCharList_block h
  rw [SearchFCListOfBasicDict, hcell, htable]
  dsimp only
  by_cases hblock : block = []
  · rw [if_pos (by rw [hsum, hblock]; rfl)]
    exact hblock
  · have hpos := List.length_pos_iff.mpr hblock
    rw [if_neg (by omega)]
    exact ⟨hstart hblock, hsum, hmax⟩

theorem mem_cellBlock (hperm : d.BasicDict.Perm units) (hcell : firstCharCell word = some cell)
    {before block after : List BasDictUnit}
    (h : IsBlock (fun u => firstCharCell u.word = some cell) d.BasicDict before block after)
    {unit : BasDictUnit} (hunit : unit ∈ units) (hword : unit.word = word) : unit ∈ block := by
  rw [← h.filter, List.mem_filter]
  exact ⟨hperm.mem_iff.mpr hunit, by simp [hword, hcell]⟩

theorem basicCate_eq_none (h : ∀ unit ∈ units, unit.word ≠ word) : basicCate units word = none := by
  rw [basicCate, List.filter_eq_nil_iff.mpr (by simpa using h)]
  rfl

/-- Sorting, indexing by the first bytes and bisecting find exactly the words that have one
entry. -/
theorem searchBasicWord_eq (hd : readBasDic units = some d) (hword : 0 ∉ word)
    (hcell : firstCharCell word ≠ none) :
    searchBasicWord d word = lookupAnswer (basicCate units word) := by
  obtain ⟨cell, hcell⟩ := Option.ne_none_iff_exists'.mp hcell
  obtain ⟨hs, hperm, -⟩ := readBasDic_sorted hd
  obtain ⟨before, block, after, h⟩ := exists_cellBlock hd cell
  have hrecord := searchFCList_block hd hcell h
  unfold searchBasicWord
  cases hsearch : SearchFCListOfBasicDict d word with
  | none =>
    rw [hsearch] at hrecord
    rw [basicCate_eq_none fun unit hunit hw => by
      have := mem_cellBlock hperm hcell h hunit hw
      rw [hrecord] at this
      cases this]
    rfl
  | some record =>
    rw [hsearch] at hrecord
    obtain ⟨hstart, hsum, -⟩ := hrecord
    dsimp only
    rw [hstart, hsum]
    exact lookupBasicDict_eq hs hperm hword hcell h

end Dictionary

def twoEntries : List BasDictUnit :=
  [⟨[176, 161, 176, 162], [118], by decide, by decide, by decide, by decide⟩,
    ⟨[176, 161], [110], by decide, by decide, by decide, by decide⟩]

theorem searchBasicWord_twoEntries : ∃ d, readBasDic twoEntries = some d ∧
    searchBasicWord d [176, 161] = (1, [110]) := by
  have hd : readBasDic twoEntries = some _ := rfl
  exact ⟨_, hd, (searchBasicWord_eq hd (by decide) (by decide)).trans (by decide)⟩

end YlUtils
