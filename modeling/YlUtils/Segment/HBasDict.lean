import Mathlib.Data.List.Sort
import YlUtils.Lists.Bisection
import YlUtils.Lists.Blocks
import YlUtils.Text.Strcmp

/-! # The basic dictionary

The entries are sorted by word and category. A table, which the first two bytes
of a word index, says where the words with these bytes begin, how many there are
and how long the longest is; a word is then searched by bisection among them. A
word with several entries counts as not found.
-/

namespace YlUtils

def MAX_BasWordLen : ℕ := 20

def MAX_WordCatesLen : ℕ := 16

def MAX_NumOfBasicDictWords : ℕ := 80000

structure BasDictUnit where
  word : Bytes
  cate : Bytes
  word_length : word.length ≤ MAX_BasWordLen
  word_text : 0 ∉ word
  cate_length : cate.length ≤ MAX_WordCatesLen
  cate_text : 0 ∉ cate

structure DictFirstCharRecord where
  StartPos : ℕ
  FCWordSum : ℕ
  MaxWordLen : ℕ
  deriving DecidableEq

structure BasicDictionary where
  BasicDict : List BasDictUnit
  BasicDictFirstCharTable : ℕ × ℕ → DictFirstCharRecord

def CmpBasDictStem (Stem1 Stem2 : BasDictUnit) : ℤ :=
  let temp1 := strcmp Stem1.word Stem2.word
  let temp2 := strcmp Stem1.cate Stem2.cate
  if temp1 = 0 then temp2 else temp1

/-- The cell of the table that belongs to the first two bytes, if there is one. -/
def firstCharCell (FirstChar : Bytes) : Option (ℕ × ℕ) :=
  let c0 := (FirstChar.getD 0 0).toNat
  let c1 := (FirstChar.getD 1 0).toNat
  if c0 ≤ 0xFE ∧ c1 ≤ 0xFE ∧ 0x81 ≤ c0 ∧ 0x40 ≤ c1 then some (c0 - 0x81, c1 - 0x40) else none

def addFirstChar (table : ℕ × ℕ → DictFirstCharRecord) (unit : BasDictUnit × ℕ) :
    ℕ × ℕ → DictFirstCharRecord :=
  match firstCharCell unit.1.word with
  | none => table
  | some cell =>
    let old := table cell
    let WordLen := unit.1.word.length
    Function.update table cell
      (if old.FCWordSum = 0 then ⟨unit.2, 1, WordLen⟩
      else ⟨old.StartPos, old.FCWordSum + 1,
        if old.MaxWordLen < WordLen then WordLen else old.MaxWordLen⟩)

def GenBasDictFirstCharList (BasicDict : List BasDictUnit) : ℕ × ℕ → DictFirstCharRecord :=
  BasicDict.zipIdx.foldl addFirstChar fun _ => ⟨0, 0, 0⟩

/-- The dictionary of the entries in the order of the file, if they fit the array. -/
def readBasDic (units : List BasDictUnit) : Option BasicDictionary :=
  if units.length ≤ MAX_NumOfBasicDictWords then
    let BasicDict := units.mergeSort fun a b => CmpBasDictStem a b ≤ 0
    some ⟨BasicDict, GenBasDictFirstCharList BasicDict⟩
  else none

/-- What the table says about the first two bytes, if some word begins with them. -/
def SearchFCListOfBasicDict (d : BasicDictionary) (FirstChar : Bytes) :
    Option DictFirstCharRecord :=
  match firstCharCell FirstChar with
  | none => none
  | some cell =>
    if (d.BasicDictFirstCharTable cell).FCWordSum = 0 then none
    else some (d.BasicDictFirstCharTable cell)

def basDictWord (BasicDict : List BasDictUnit) (k : ℕ) : Bytes :=
  match BasicDict[k]? with
  | some unit => unit.word
  | none => []

def frontWord (BasicDict : List BasDictUnit) (word : Bytes) : ℕ → ℤ
  | 0 => if strcmp word (basDictWord BasicDict 0) = 0 then -1 else 0
  | j + 1 =>
    if strcmp word (basDictWord BasicDict (j + 1)) = 0 then frontWord BasicDict word j else j + 1

/-- The loop that looks for the end of the entries of a word. -/
def nextWord (BasicDict : List BasDictUnit) (word : Bytes) : ℕ → ℕ → ℕ
  | 0, k => k
  | rounds + 1, k =>
    if k < BasicDict.length ∧ strcmp word (basDictWord BasicDict k) = 0 then
      nextWord BasicDict word rounds (k + 1)
    else k

/-- The text `***`, which stands for a category that was not found. -/
def noCate : Bytes := [42, 42, 42]

def LookupBasicDict (d : BasicDictionary) (word : Bytes) (StPos FCWordSum : ℕ) : ℕ × Bytes :=
  match bisect (fun mid => strcmp word (basDictWord d.BasicDict mid)) StPos
    (StPos + FCWordSum - 1) with
  | none => (0, noCate)
  | some mid =>
    let j := frontWord d.BasicDict word mid
    let k := nextWord d.BasicDict word (d.BasicDict.length - mid) mid
    if j + 1 = (k : ℤ) - 1 then (1, match d.BasicDict[mid]? with
      | some unit => unit.cate
      | none => [])
    else (0, noCate)

/-- The category of the only entry. -/
def onlyCate : List BasDictUnit → Option Bytes
  | [unit] => some unit.cate
  | _ => none

/-- What the dictionary is for: the category of a word that has exactly one entry. -/
def basicCate (units : List BasDictUnit) (word : Bytes) : Option Bytes :=
  onlyCate (units.filter (·.word = word))

section Order

theorem cmpBasDictStem_nonpos_iff (a b : BasDictUnit) :
    CmpBasDictStem a b ≤ 0 ↔
      codes a.word < codes b.word ∨ a.word = b.word ∧ codes a.cate ≤ codes b.cate := by
  rw [← strcmp_neg_iff a.word_text b.word_text, ← strcmp_eq_zero_iff a.word_text b.word_text,
    ← strcmp_nonpos_iff a.cate_text b.cate_text, CmpBasDictStem]
  split <;> omega

theorem sorted_mergeSort (units : List BasDictUnit) :
    (units.mergeSort fun a b => CmpBasDictStem a b ≤ 0).Pairwise
      fun a b => codes a.word ≤ codes b.word := by
  have hsorted : (units.mergeSort fun a b => CmpBasDictStem a b ≤ 0).Pairwise
      fun a b => decide (CmpBasDictStem a b ≤ 0) := List.pairwise_mergeSort
    (by
      intro a b c
      simp only [decide_eq_true_eq, cmpBasDictStem_nonpos_iff]
      rintro (hab | ⟨hab, hab'⟩) (hbc | ⟨hbc, hbc'⟩)
      · exact Or.inl (hab.trans hbc)
      · exact Or.inl (hbc ▸ hab)
      · exact Or.inl (hab ▸ hbc)
      · exact Or.inr ⟨hab.trans hbc, hab'.trans hbc'⟩)
    (by
      intro a b
      simp only [Bool.or_eq_true, decide_eq_true_eq, cmpBasDictStem_nonpos_iff]
      rcases lt_trichotomy (codes a.word) (codes b.word) with h | h | h
      · exact Or.inl (Or.inl h)
      · have hw := codes_injective h
        rcases le_total (codes a.cate) (codes b.cate) with h' | h'
        · exact Or.inl (Or.inr ⟨hw, h'⟩)
        · exact Or.inr (Or.inr ⟨hw.symm, h'⟩)
      · exact Or.inr (Or.inl h)) units
  refine hsorted.imp fun {a b} h => ?_
  rw [decide_eq_true_eq, cmpBasDictStem_nonpos_iff] at h
  rcases h with h | ⟨h, -⟩
  · exact h.le
  · exact (congrArg codes h).le

end Order

section Cells

variable {w w' : Bytes} {cell : ℕ × ℕ}

theorem firstCharCell_eq_some_iff :
    firstCharCell w = some cell ↔ ∃ x y t, w = x :: y :: t ∧ x.toNat ≤ 0xFE ∧ y.toNat ≤ 0xFE ∧
      x.toNat = 0x81 + cell.1 ∧ y.toNat = 0x40 + cell.2 := by
  obtain ⟨i, j⟩ := cell
  rcases w with _ | ⟨x, _ | ⟨y, t⟩⟩
  · simp [firstCharCell]
  · simp [firstCharCell]
  · simp only [firstCharCell, List.getD_cons_zero, List.getD_cons_succ,
      Option.ite_none_right_eq_some, Option.some.injEq, Prod.mk.injEq, List.cons.injEq]
    constructor
    · rintro ⟨h, h'⟩
      exact ⟨x, y, t, ⟨rfl, rfl, rfl⟩, by omega, by omega, by omega, by omega⟩
    · rintro ⟨_, _, _, ⟨rfl, rfl, rfl⟩, h⟩
      exact ⟨by omega, by omega, by omega⟩

theorem firstCharCell_eq_iff (h : firstCharCell w = some cell) :
    firstCharCell w' = some cell ↔ w.take 2 <+: w' := by
  rw [firstCharCell_eq_some_iff] at h ⊢
  obtain ⟨x, y, t, rfl, hx, hy, hi, hj⟩ := h
  constructor
  · rintro ⟨x', y', t', rfl, -, -, hi', hj'⟩
    obtain rfl : x = x' := UInt8.toNat_inj.mp (by omega)
    obtain rfl : y = y' := UInt8.toNat_inj.mp (by omega)
    exact ⟨t', rfl⟩
  · rintro ⟨t', rfl⟩
    exact ⟨x, y, t', rfl, hx, hy, hi, hj⟩

theorem firstCharCell_between {a b c : Bytes} (ha : firstCharCell a = some cell)
    (hc : firstCharCell c = some cell) (hab : codes a ≤ codes b) (hbc : codes b ≤ codes c) :
    firstCharCell b = some cell :=
  (firstCharCell_eq_iff ha).mpr
    (prefix_of_codes_between (List.take_prefix 2 a) ((firstCharCell_eq_iff ha).mp hc) hab hbc)

end Cells

section Table

variable {table : ℕ × ℕ → DictFirstCharRecord} {cell : ℕ × ℕ}

theorem addFirstChar_of_ne {unit : BasDictUnit × ℕ} (h : firstCharCell unit.1.word ≠ some cell) :
    addFirstChar table unit cell = table cell := by
  unfold addFirstChar
  cases hc : firstCharCell unit.1.word with
  | none => rfl
  | some cell' =>
    refine Function.update_of_ne (fun he => h ?_) _ _
    rw [hc, he]

theorem foldl_addFirstChar_of_ne {units : List (BasDictUnit × ℕ)}
    (h : ∀ u ∈ units, firstCharCell u.1.word ≠ some cell) :
    units.foldl addFirstChar table cell = table cell := by
  induction units generalizing table with
  | nil => rfl
  | cons u units ih =>
    rw [List.foldl_cons, ih fun v hv => h v (List.mem_cons_of_mem u hv),
      addFirstChar_of_ne (h u List.mem_cons_self)]

theorem foldl_addFirstChar_of_eq {units : List (BasDictUnit × ℕ)}
    (h : ∀ u ∈ units, firstCharCell u.1.word = some cell) (hpos : (table cell).FCWordSum ≠ 0) :
    let record := units.foldl addFirstChar table cell
    record.StartPos = (table cell).StartPos ∧
      record.FCWordSum = (table cell).FCWordSum + units.length ∧
      (table cell).MaxWordLen ≤ record.MaxWordLen ∧
      ∀ u ∈ units, u.1.word.length ≤ record.MaxWordLen := by
  induction units generalizing table with
  | nil => simp
  | cons u units ih =>
    have hu := h u List.mem_cons_self
    have hrecord : addFirstChar table u cell = ⟨(table cell).StartPos, (table cell).FCWordSum + 1,
        if (table cell).MaxWordLen < u.1.word.length then u.1.word.length
        else (table cell).MaxWordLen⟩ := by
      simp [addFirstChar, hu, hpos]
    have hrest := ih (fun v hv => h v (List.mem_cons_of_mem u hv))
      (show (addFirstChar table u cell).FCWordSum ≠ 0 by simp [hrecord])
    rw [hrecord] at hrest
    dsimp only at hrest
    obtain ⟨hstart, hsum, hmax, hlen⟩ := hrest
    refine ⟨hstart, ?_, ?_, ?_⟩
    · rw [List.foldl_cons, hsum, List.length_cons]
      omega
    · refine Nat.le_trans ?_ hmax
      split <;> omega
    · intro v hv
      rcases List.mem_cons.mp hv with rfl | hv
      · refine Nat.le_trans ?_ hmax
        split <;> omega
      · exact hlen v hv

variable {BasicDict before block after : List BasDictUnit}

/-- The table says where the block of a cell stands and bounds the length of its words. -/
theorem genBasDictFirstCharList_block
    (h : IsBlock (fun u => firstCharCell u.word = some cell) BasicDict before block after) :
    let record := GenBasDictFirstCharList BasicDict cell
    record.FCWordSum = block.length ∧ (block ≠ [] → record.StartPos = before.length) ∧
      ∀ u ∈ block, u.word.length ≤ record.MaxWordLen := by
  have hcell : ∀ u ∈ block, firstCharCell u.word = some cell := by simpa using h.block
  unfold GenBasDictFirstCharList
  rw [h.eq, List.zipIdx_append, List.zipIdx_append, List.foldl_append, List.foldl_append]
  dsimp only
  rw [foldl_addFirstChar_of_ne fun u hu => by
    simpa using h.after u.1 (List.fst_mem_of_mem_zipIdx hu)]
  have hbefore : (before.zipIdx.foldl addFirstChar fun _ => ⟨0, 0, 0⟩) cell = ⟨0, 0, 0⟩ :=
    foldl_addFirstChar_of_ne fun u hu => by simpa using h.before u.1 (List.fst_mem_of_mem_zipIdx hu)
  cases block with
  | nil => simp [hbefore]
  | cons u block =>
    have hu := hcell u List.mem_cons_self
    have hfirst : addFirstChar (before.zipIdx.foldl addFirstChar fun _ => ⟨0, 0, 0⟩)
        (u, before.length) cell = ⟨before.length, 1, u.word.length⟩ := by
      simp [addFirstChar, hu, hbefore]
    have hpos : (addFirstChar (before.zipIdx.foldl addFirstChar fun _ => ⟨0, 0, 0⟩)
        (u, before.length) cell).FCWordSum ≠ 0 := by simp [hfirst]
    have hblock : ∀ v ∈ block.zipIdx (before.length + 1), firstCharCell v.1.word = some cell :=
      fun v hv => hcell v.1 (List.mem_cons_of_mem u (List.fst_mem_of_mem_zipIdx hv))
    obtain ⟨hstart, hsum, hmax, hlen⟩ := foldl_addFirstChar_of_eq hblock hpos
    rw [hfirst] at hstart hsum hmax
    dsimp only at hstart hsum hmax
    simp only [Nat.zero_add, List.zipIdx_cons, List.foldl_cons]
    refine ⟨?_, fun _ => hstart, ?_⟩
    · rw [hsum, List.length_zipIdx, List.length_cons]
      omega
    · intro v hv
      rcases List.mem_cons.mp hv with rfl | hv
      · exact hmax
      · obtain ⟨i, hi⟩ := List.mem_iff_getElem?.mp hv
        exact hlen _ (List.mk_add_mem_zipIdx_iff_getElem?.mpr hi)

end Table

end YlUtils
