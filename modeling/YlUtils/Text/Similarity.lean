import Mathlib.Algebra.Order.Field.Basic
import Mathlib.Algebra.Order.Field.Rat
import YlUtils.Machine.Int
import YlUtils.Maps.Counts
import YlUtils.Text.CString
import YlUtils.Text.Search

/-! # Similarity of strings

`CalStringSim` counts the parts of `n` characters that two strings have in common. A
string that is shorter than `n` is searched for in the other one.
-/

namespace YlUtils.YeeString

open UniqueMap (increment takeOut)

structure Fraction where
  num : ℤ
  den : ℤ
  deriving DecidableEq, Repr

def Fraction.value (q : Fraction) : ℚ := q.num / q.den

def common (haystack needle : Bytes) : ℤ :=
  if Search.find (cstr needle) (cstr haystack) = none then 0 else 1

/-- The strings of `n` characters from which the loops run to `len - n + 1`. -/
def ngrams (s : Bytes) (len n : ℤ) : List Bytes :=
  (List.range (wrapInt (len - n + 1)).toNat).map fun i => (s.drop i).take n.toNat

/-- `CalStringSim` of two C strings, which may be null pointers. -/
def CalStringSim (s1 s2 : Option Bytes) (n : ℤ) : Fraction :=
  match s1, s2 with
  | some s1, some s2 =>
    if s1.head? = some 0 ∨ s2.head? = some 0 then ⟨0, 1⟩
    else
      let len1 := wrapInt (strlen s1)
      let len2 := wrapInt (strlen s2)
      if len1 < n ∧ len1 ≤ len2 then ⟨common s2 s1, wrapInt (len2 - len1 + 1)⟩
      else if len2 < n ∧ len2 ≤ len1 then ⟨common s1 s2, wrapInt (len1 - len2 + 1)⟩
      else
        let imap := (ngrams s2 len2 n).foldl increment UniqueMap.empty
        let common := ((ngrams s1 len1 n).foldl takeOut (imap, 0)).2
        ⟨wrapInt (2 * common), wrapInt (len1 + len2 - 2 * n + 2)⟩
  | _, _ => ⟨0, 1⟩

def textSim (s1 s2 : Bytes) (n : ℕ) : Fraction :=
  CalStringSim (some (s1 ++ [0])) (some (s2 ++ [0])) n

def parts (n : ℕ) (s : Bytes) : Multiset Bytes :=
  ((List.range (s.length - n + 1)).map fun i => (s.drop i).take n : List Bytes)

/-- The similarity, by the parts that two texts have in common. -/
def similarity (s1 s2 : Bytes) (n : ℕ) : Fraction :=
  if s1.length < n ∧ s1.length ≤ s2.length then
    ⟨if s1 <:+: s2 then 1 else 0, s2.length - s1.length + 1⟩
  else if s2.length < n ∧ s2.length ≤ s1.length then
    ⟨if s2 <:+: s1 then 1 else 0, s1.length - s2.length + 1⟩
  else ⟨2 * (parts n s1 ∩ parts n s2).card, s1.length + s2.length - 2 * n + 2⟩

variable {s s1 s2 : Bytes} {n : ℕ}

section Abstract

theorem card_parts (n : ℕ) (s : Bytes) : (parts n s).card = s.length - n + 1 := by
  simp [parts]

theorem card_inter_le : (parts n s1 ∩ parts n s2).card ≤ s1.length - n + 1 := by
  rw [← card_parts]
  exact Multiset.card_le_card Multiset.inter_le_left

theorem similarity_comm (s1 s2 : Bytes) (n : ℕ) :
    (similarity s1 s2 n).value = (similarity s2 s1 n).value := by
  unfold similarity
  by_cases h1 : s1.length < n ∧ s1.length ≤ s2.length
  · rw [if_pos h1]
    by_cases h2 : s2.length < n ∧ s2.length ≤ s1.length
    · -- of the same length they contain each other if they are equal
      have hlen : s1.length = s2.length := by omega
      have hpiece : s1 <:+: s2 ↔ s2 <:+: s1 :=
        ⟨fun h => (h.eq_of_length hlen).symm ▸ List.infix_rfl,
          fun h => (h.eq_of_length hlen.symm).symm ▸ List.infix_rfl⟩
      rw [if_pos h2]
      simp only [hpiece, hlen]
    · rw [if_neg h2, if_pos h1]
  · rw [if_neg h1]
    by_cases h2 : s2.length < n ∧ s2.length ≤ s1.length
    · rw [if_pos h2, if_pos h2]
    · rw [if_neg h2, if_neg h2, if_neg h1, Multiset.inter_comm, Int.add_comm (s1.length : ℤ)]

theorem similarity_den_pos (s1 s2 : Bytes) (n : ℕ) : 0 < (similarity s1 s2 n).den := by
  unfold similarity
  by_cases h1 : s1.length < n ∧ s1.length ≤ s2.length
  · rw [if_pos h1]
    dsimp only
    omega
  · rw [if_neg h1]
    by_cases h2 : s2.length < n ∧ s2.length ≤ s1.length
    · rw [if_pos h2]
      dsimp only
      omega
    · rw [if_neg h2]
      dsimp only
      omega

theorem similarity_num (s1 s2 : Bytes) (n : ℕ) :
    0 ≤ (similarity s1 s2 n).num ∧ (similarity s1 s2 n).num ≤ (similarity s1 s2 n).den := by
  unfold similarity
  split_ifs with h1 hin h2 hin
  · dsimp only
    omega
  · dsimp only
    omega
  · dsimp only
    omega
  · dsimp only
    omega
  · have hle1 := @card_inter_le s1 s2 n
    have hle2 := @card_inter_le s2 s1 n
    rw [Multiset.inter_comm] at hle2
    dsimp only
    omega

theorem similarity_self (s : Bytes) (n : ℕ) :
    (similarity s s n).num = (similarity s s n).den := by
  unfold similarity
  by_cases h : s.length < n ∧ s.length ≤ s.length
  · rw [if_pos h, if_pos List.infix_rfl]
    dsimp only
    omega
  · have hself : parts n s ∩ parts n s = parts n s :=
      le_antisymm Multiset.inter_le_left (Multiset.le_inter le_rfl le_rfl)
    have hcard := card_parts n s
    rw [if_neg h, if_neg h, hself]
    dsimp only
    omega

end Abstract

section Refinement

theorem common_eq (h1 : 0 ∉ s1) (h2 : 0 ∉ s2) :
    common (s2 ++ [0]) (s1 ++ [0]) = if s1 <:+: s2 then 1 else 0 := by
  rw [common, cstr_append_zero h1, cstr_append_zero h2]
  by_cases h : s1 <:+: s2
  · rw [if_pos h, if_neg (mt Search.find_eq_none_iff.mp (not_not.mpr h))]
  · rw [if_neg h, if_pos (Search.find_eq_none_iff.mpr h)]

theorem ngrams_eq (hn : n ≤ s.length) (hlen : s.length < 2 ^ 31) (h1 : 1 ≤ n) :
    (ngrams (s ++ [0]) s.length n : Multiset Bytes) = parts n s := by
  have hcount : (wrapInt ((s.length : ℤ) - n + 1)).toNat = s.length - n + 1 := by
    rw [wrapInt_of_lt (by omega) (by omega)]
    omega
  rw [ngrams, parts, hcount]
  refine congrArg _ (List.map_congr_left fun i hi => ?_)
  rw [List.mem_range] at hi
  rw [Int.toNat_natCast, List.drop_append_of_le_length (by omega),
    List.take_append_of_le_length (by rw [List.length_drop]; omega)]

theorem head?_ne_zero (h : 0 ∉ s) (hne : s ≠ []) : (s ++ [0]).head? ≠ some 0 := by
  obtain ⟨c, s, rfl⟩ := List.exists_cons_of_ne_nil hne
  simpa using fun hc : c = 0 => h (hc ▸ List.mem_cons_self)

theorem calStringSim_eq (h1 : 0 ∉ s1) (h2 : 0 ∉ s2) (hne1 : s1 ≠ []) (hne2 : s2 ≠ []) (hn : 1 ≤ n)
    (hlen : s1.length + s2.length < 2 ^ 31) :
    textSim s1 s2 n = similarity s1 s2 n := by
  have hpos1 := List.length_pos_iff.mpr hne1
  have hpos2 := List.length_pos_iff.mpr hne2
  unfold textSim CalStringSim similarity
  dsimp only
  rw [if_neg (not_or.mpr ⟨head?_ne_zero h1 hne1, head?_ne_zero h2 hne2⟩), strlen_append_zero h1,
    strlen_append_zero h2, wrapInt_of_lt (by omega) (by omega), wrapInt_of_lt (by omega) (by omega)]
  simp only [Nat.cast_lt, Nat.cast_le]
  by_cases hfirst : s1.length < n ∧ s1.length ≤ s2.length
  · rw [if_pos hfirst, if_pos hfirst, common_eq h1 h2, wrapInt_of_lt (by omega) (by omega)]
  · rw [if_neg hfirst, if_neg hfirst]
    by_cases hsecond : s2.length < n ∧ s2.length ≤ s1.length
    · rw [if_pos hsecond, if_pos hsecond, common_eq h2 h1, wrapInt_of_lt (by omega) (by omega)]
    · have hcounts := UniqueMap.counts_foldl UniqueMap.counts_empty (ngrams (s2 ++ [0]) s2.length n)
      have hle1 := @card_inter_le s1 s2 n
      have hle2 := @card_inter_le s2 s1 n
      rw [Multiset.inter_comm] at hle2
      rw [if_neg hsecond, if_neg hsecond, UniqueMap.takeOut_foldl hcounts,
        Multiset.add_zero, zero_add, ngrams_eq (by omega) (by omega) hn,
        ngrams_eq (by omega) (by omega) hn, wrapInt_of_lt (by omega) (by omega),
        wrapInt_of_lt (by omega) (by omega)]

end Refinement

/-- On texts that are not empty the denominator is positive, the value lies between zero and one and
does not depend on the order of the texts, and that of a text with itself is one. -/
theorem calStringSim_value (h1 : 0 ∉ s1) (h2 : 0 ∉ s2) (hne1 : s1 ≠ []) (hne2 : s2 ≠ [])
    (hn : 1 ≤ n) (hlen : s1.length + s2.length < 2 ^ 31) :
    0 < (textSim s1 s2 n).den ∧ 0 ≤ (textSim s1 s2 n).value ∧ (textSim s1 s2 n).value ≤ 1 ∧
      (textSim s1 s2 n).value = (textSim s2 s1 n).value ∧
      (s1.length + s1.length < 2 ^ 31 → (textSim s1 s1 n).value = 1) := by
  have heq : textSim s1 s2 n = similarity s1 s2 n := calStringSim_eq h1 h2 hne1 hne2 hn hlen
  have hswap : textSim s2 s1 n = similarity s2 s1 n :=
    calStringSim_eq h2 h1 hne2 hne1 hn (by omega)
  have hpos := similarity_den_pos s1 s2 n
  have hden : (0 : ℚ) < (similarity s1 s2 n).den := by exact_mod_cast hpos
  obtain ⟨hnum, hle⟩ := similarity_num s1 s2 n
  rw [heq, hswap]
  refine ⟨hpos, ?_, ?_, similarity_comm s1 s2 n, fun hself => ?_⟩
  · exact div_nonneg (by exact_mod_cast hnum) hden.le
  · exact (div_le_one hden).mpr (by exact_mod_cast hle)
  · have hone := similarity_den_pos s1 s1 n
    rw [calStringSim_eq h1 h1 hne1 hne1 hn hself, Fraction.value, similarity_self]
    exact div_self (by exact_mod_cast hone.ne')

/-- Two texts with a part of two characters in common. -/
theorem calStringSim_value_overlapping :
    0 < (textSim [97, 98] [98, 97, 98] 2).den ∧ 0 ≤ (textSim [97, 98] [98, 97, 98] 2).value ∧
      (textSim [97, 98] [98, 97, 98] 2).value ≤ 1 ∧
      (textSim [97, 98] [98, 97, 98] 2).value = (textSim [98, 97, 98] [97, 98] 2).value ∧
      (2 + 2 < 2 ^ 31 → (textSim [97, 98] [97, 98] 2).value = 1) :=
  calStringSim_value (by decide) (by decide) (by decide) (by decide) (by decide) (by decide)

end YlUtils.YeeString
