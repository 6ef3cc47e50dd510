import YlUtils.Dict.Dict

/-! # Term identifiers

The identifiers of a dictionary are those up to its greatest one, each for one
term. An insertion keeps the identifiers that are given and counts for its
signature only.
-/

namespace YlUtils.Dict

def termIDs (d : Dict) : List ℤ := d.mDictMap.entries.map fun e => e.2.termID

/-- The identifiers are those up to the greatest one, each for one term. -/
structure Identified (d : Dict) : Prop where
  distinct : d.termIDs.Nodup
  range : ∀ id, id ∈ d.termIDs ↔ 0 ≤ id ∧ id ≤ d.mCurrMaxID
  size : (d.size : ℤ) = d.mCurrMaxID + 1

variable {d d' : Dict} {sign s : TSign}

theorem Identified.of_perm (h : d.Identified) (hid : d'.mCurrMaxID = d.mCurrMaxID)
    (hp : d'.mDictMap.entries.Perm d.mDictMap.entries) : d'.Identified := by
  have hids : d'.termIDs.Perm d.termIDs := hp.map _
  constructor
  · exact hids.nodup_iff.mpr h.distinct
  · intro id
    rw [hids.mem_iff, h.range, hid]
  · rw [hid, ← h.size]
    exact congrArg Nat.cast hp.length_eq

def idOf (d : Dict) (sign : TSign) : Option ℤ := (d.mDictMap.find sign).map TermInfo.termID

/-- How often a signature was inserted, as the dictionary remembers it. -/
def termFreqOf (d : Dict) (sign : TSign) : UInt32 :=
  (d.mDictMap.find sign).elim 0 TermInfo.termFreq

theorem new_identified : new.Identified := by
  constructor
  · exact List.nodup_nil
  · intro id
    simp only [termIDs, new, UniqueMap.empty, List.map_nil, List.not_mem_nil, false_iff]
    omega
  · rfl

theorem insertSign_of_find {info : TermInfo} (h : d.mDictMap.find sign = some info) :
    d.insertSign sign = (info.termID, ⟨d.mCurrMaxID, d.mDictMap.modify sign fun i =>
      { i with termFreq := i.termFreq + 1 }⟩) := by
  unfold insertSign
  rw [h]

theorem insertSign_of_find_none (h : d.mDictMap.find sign = none)
    (hmax : -1 ≤ d.mCurrMaxID ∧ d.mCurrMaxID + 1 < 2 ^ 31) :
    d.insertSign sign = (d.mCurrMaxID + 1, ⟨d.mCurrMaxID + 1,
      d.mDictMap.insert sign ⟨d.mCurrMaxID + 1, 1, 0, 0⟩⟩) := by
  unfold insertSign
  rw [h]
  simp only [wrapInt_of_lt (show -2 ^ 31 ≤ d.mCurrMaxID + 1 by omega) hmax.2]

theorem Identified.neg_one_le (h : d.Identified) : -1 ≤ d.mCurrMaxID := by
  have := h.size
  omega

theorem Identified.modify (h : d.Identified) {f : TermInfo → TermInfo}
    (hf : ∀ info, (f info).termID = info.termID) :
    Identified ⟨d.mCurrMaxID, d.mDictMap.modify sign f⟩ := by
  have hids : termIDs ⟨d.mCurrMaxID, d.mDictMap.modify sign f⟩ = d.termIDs := by
    unfold termIDs UniqueMap.modify
    rw [List.map_map]
    apply List.map_congr_left
    intro e _
    rw [Function.comp_apply]
    split
    · exact hf e.2
    · rfl
  constructor
  · rw [hids]
    exact h.distinct
  · rw [hids]
    exact h.range
  · exact (congrArg Nat.cast (List.length_map _)).trans h.size

theorem Identified.insert (h : d.Identified) (hf : d.mDictMap.find sign = none) {info : TermInfo}
    (hid : info.termID = d.mCurrMaxID + 1) :
    Identified ⟨d.mCurrMaxID + 1, d.mDictMap.insert sign info⟩ := by
  have hmax := h.neg_one_le
  have hentries := UniqueMap.insert_entries hf info
  have hids : termIDs ⟨d.mCurrMaxID + 1, d.mDictMap.insert sign info⟩ =
      d.termIDs ++ [d.mCurrMaxID + 1] := by
    unfold termIDs
    rw [hentries, List.map_append, List.map_singleton, hid]
  have hnew : d.mCurrMaxID + 1 ∉ d.termIDs := fun hm => by
    have := (h.range _).mp hm
    omega
  constructor
  · rw [hids]
    exact h.distinct.append (List.nodup_singleton _) (by simpa using hnew)
  · intro id
    rw [hids, List.mem_append, List.mem_singleton, h.range]
    dsimp only
    omega
  · have hlen : Dict.size ⟨d.mCurrMaxID + 1, d.mDictMap.insert sign info⟩ = d.size + 1 := by
      unfold Dict.size UniqueMap.size
      rw [hentries, List.length_append, List.length_singleton]
    have hsize := h.size
    rw [hlen]
    dsimp only
    omega

theorem Identified.insertSign (h : d.Identified) (hsize : d.size + 1 < 2 ^ 31) (sign : TSign) :
    (d.insertSign sign).2.Identified ∧ (d.insertSign sign).2.size ≤ d.size + 1 := by
  have hmax := h.size
  cases hf : d.mDictMap.find sign with
  | some info =>
    have hd : Identified ⟨d.mCurrMaxID, d.mDictMap.modify sign fun i =>
        { i with termFreq := i.termFreq + 1 }⟩ := h.modify fun _ => rfl
    rw [insertSign_of_find hf]
    refine ⟨hd, ?_⟩
    have hsize' := hd.size
    dsimp only at hsize' ⊢
    omega
  | none =>
    have hd : Identified ⟨d.mCurrMaxID + 1, d.mDictMap.insert sign ⟨d.mCurrMaxID + 1, 1, 0, 0⟩⟩ :=
      h.insert hf rfl
    rw [insertSign_of_find_none hf ⟨h.neg_one_le, by omega⟩]
    refine ⟨hd, ?_⟩
    have hsize' := hd.size
    dsimp only at hsize' ⊢
    omega

/-- Insertion keeps the identifiers that are given, whatever is inserted. -/
theorem find_insertSign {info : TermInfo} (h : d.mDictMap.find s = some info) (sign : TSign) :
    ∃ info', (d.insertSign sign).2.mDictMap.find s = some info' ∧ info'.termID = info.termID := by
  cases hf : d.mDictMap.find sign with
  | some i =>
    rw [insertSign_of_find hf]
    simp only [UniqueMap.find_modify, h]
    by_cases hs : s = sign
    · exact ⟨{ info with termFreq := info.termFreq + 1 }, by simp [hs], rfl⟩
    · exact ⟨info, by simp [hs], rfl⟩
  | none =>
    have hs : s ≠ sign := by
      rintro rfl
      rw [hf] at h
      exact absurd h (by simp)
    unfold Dict.insertSign
    rw [hf]
    simp only [UniqueMap.find_insert hf, if_neg hs]
    exact ⟨info, h, rfl⟩

theorem getSignID_insertSign (d : Dict) (sign : TSign) :
    ∃ info, (d.insertSign sign).2.mDictMap.find sign = some info ∧
      info.termID = (d.insertSign sign).1 := by
  cases hf : d.mDictMap.find sign with
  | some info =>
    rw [insertSign_of_find hf]
    refine ⟨{ info with termFreq := info.termFreq + 1 }, ?_, rfl⟩
    simp only [UniqueMap.find_modify, hf, if_true, Option.map_some]
  | none =>
    unfold Dict.insertSign
    rw [hf]
    refine ⟨⟨wrapInt (d.mCurrMaxID + 1), 1, 0, 0⟩, ?_, rfl⟩
    simp only [UniqueMap.find_insert hf, if_true]

theorem termFreqOf_insertSign (d : Dict) (sign s : TSign) :
    (d.insertSign sign).2.termFreqOf s = d.termFreqOf s + if s = sign then 1 else 0 := by
  unfold termFreqOf
  cases hf : d.mDictMap.find sign with
  | some info =>
    rw [insertSign_of_find hf]
    simp only [UniqueMap.find_modify]
    by_cases hs : s = sign
    · subst hs
      simp [hf]
    · simp [hs]
  | none =>
    unfold Dict.insertSign
    rw [hf]
    simp only [UniqueMap.find_insert hf]
    by_cases hs : s = sign
    · subst hs
      simp [hf]
    · simp [hs]

end YlUtils.Dict
