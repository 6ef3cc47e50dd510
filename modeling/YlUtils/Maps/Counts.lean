import Mathlib.Data.Multiset.UnionInter
import YlUtils.Maps.UniqueMap

/-! # Counting maps

A map that holds how often each key has been counted stands for a multiset. Keys that
are taken out of it one by one, as long as it has them, are counted by the
intersection.
-/

namespace YlUtils.UniqueMap

variable {κ : Type} [DecidableEq κ]

def increment (m : UniqueMap κ ℤ) (k : κ) : UniqueMap κ ℤ := (m.insert k 0).modify k (· + 1)

/-- Count a key once less; the entry goes with the last one. -/
def decrement (m : UniqueMap κ ℤ) (k : κ) (v : ℤ) : UniqueMap κ ℤ :=
  let m := m.modify k (· - 1)
  if v - 1 = 0 then m.erase k else m

/-- The map holds the counts of the keys of the multiset, and no others. -/
def Counts (m : UniqueMap κ ℤ) (M : Multiset κ) : Prop :=
  ∀ k, m.find k = if k ∈ M then some (M.count k : ℤ) else none

variable {m : UniqueMap κ ℤ} {M : Multiset κ}

theorem counts_empty : Counts (empty : UniqueMap κ ℤ) 0 := by
  intro k
  rw [if_neg (Multiset.notMem_zero k)]
  rfl

theorem Counts.increment (h : Counts m M) (k : κ) : Counts (m.increment k) (k ::ₘ M) := by
  intro j
  rw [UniqueMap.increment, find_modify, find_insert_or, h j]
  by_cases hj : j = k
  · subst hj
    rw [if_pos rfl, if_pos (Multiset.mem_cons_self j M), Multiset.count_cons_self, if_pos rfl]
    by_cases hmem : j ∈ M
    · simp [hmem]
    · simp [hmem]
  · rw [if_neg hj, if_neg (Ne.symm hj), Option.or_none, Multiset.count_cons_of_ne hj]
    simp [hj]

theorem Counts.decrement (h : Counts m M) {k : κ} (hk : k ∈ M) :
    Counts (m.decrement k (M.count k)) (M.erase k) := by
  have hpos := Multiset.count_pos.mpr hk
  intro j
  unfold UniqueMap.decrement
  by_cases hj : j = k
  · subst hj
    have hmem : j ∈ M.erase j ↔ ¬ ((M.count j : ℤ) - 1 = 0) := by
      rw [← Multiset.count_pos, Multiset.count_erase_self]
      omega
    by_cases hlast : (M.count j : ℤ) - 1 = 0
    · rw [if_pos hlast, find_erase, if_pos rfl, if_neg fun hj => hmem.mp hj hlast]
    · rw [if_neg hlast, find_modify, if_pos rfl, h j, if_pos hk, if_pos (hmem.mpr hlast),
        Multiset.count_erase_self, Option.map_some]
      congr 1
      omega
  · have hsame : (m.modify k (· - 1)).find j = m.find j := by rw [find_modify, if_neg hj]
    have herase : (if (M.count k : ℤ) - 1 = 0 then (m.modify k (· - 1)).erase k
        else m.modify k (· - 1)).find j = m.find j := by
      split
      · rw [find_erase, if_neg hj, hsame]
      · exact hsame
    rw [herase, h j, Multiset.count_erase_of_ne hj]
    simp [Multiset.mem_erase_of_ne hj]

theorem counts_foldl (h : Counts m M) (l : List κ) :
    Counts (l.foldl UniqueMap.increment m) (l + M) := by
  induction l generalizing m M with
  | nil => simpa using h
  | cons k l ih =>
    have hrest := ih (h.increment k)
    rwa [Multiset.add_cons, ← Multiset.cons_add, Multiset.cons_coe] at hrest

def takeOut (s : UniqueMap κ ℤ × ℤ) (k : κ) : UniqueMap κ ℤ × ℤ :=
  match s.1.find k with
  | some v => (s.1.decrement k v, s.2 + 1)
  | none => s

theorem takeOut_foldl (h : Counts m M) (l : List κ) (c : ℤ) :
    (l.foldl takeOut (m, c)).2 = c + ((l : Multiset κ) ∩ M).card := by
  induction l generalizing m M c with
  | nil => simp
  | cons k l ih =>
    rw [List.foldl_cons, ← Multiset.cons_coe]
    by_cases hk : k ∈ M
    · have htake : takeOut (m, c) k = (m.decrement k (M.count k), c + 1) := by
        rw [takeOut, h k, if_pos hk]
      rw [htake, ih (h.decrement hk), Multiset.cons_inter_of_pos _ hk, Multiset.card_cons]
      omega
    · have htake : takeOut (m, c) k = (m, c) := by
        rw [takeOut, h k, if_neg hk]
      rw [htake, ih h, Multiset.cons_inter_of_neg _ hk]

end YlUtils.UniqueMap
