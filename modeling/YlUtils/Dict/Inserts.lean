import YlUtils.Dict.Image

/-! # Sequences of insertions

Dictionaries with the same greatest identifier and the same map, in whatever
order it has its entries, answer all insertions alike. A dictionary that is
loaded from a saved file is one of them.
-/

namespace YlUtils.Dict

/-- The identifiers that insertions return, and the dictionary after them. -/
def insertSigns (d : Dict) : List TSign → List ℤ × Dict
  | [] => ([], d)
  | sign :: signs =>
    let r := d.insertSign sign
    let rest := r.2.insertSigns signs
    (r.1 :: rest.1, rest.2)

/-- Dictionaries with the same counter and the same terms. -/
structure Agrees (d d' : Dict) : Prop where
  mCurrMaxID : d'.mCurrMaxID = d.mCurrMaxID
  find : ∀ s, d'.mDictMap.find s = d.mDictMap.find s

variable {d d' : Dict} {sign s t : TSign} {id : ℤ}

theorem Agrees.of_perm (hid : d'.mCurrMaxID = d.mCurrMaxID)
    (hp : d'.mDictMap.entries.Perm d.mDictMap.entries) : d.Agrees d' := by
  constructor
  · exact hid
  · intro s
    ext info
    rw [UniqueMap.find_eq_some_iff, UniqueMap.find_eq_some_iff, hp.mem_iff]

theorem Agrees.insertSign (h : d.Agrees d') (sign : TSign) :
    (d'.insertSign sign).1 = (d.insertSign sign).1 ∧
      (d.insertSign sign).2.Agrees (d'.insertSign sign).2 := by
  cases hf : d.mDictMap.find sign with
  | some info =>
    rw [insertSign_of_find hf, insertSign_of_find ((h.find sign).trans hf)]
    refine ⟨rfl, h.mCurrMaxID, fun s => ?_⟩
    rw [UniqueMap.find_modify, UniqueMap.find_modify, h.find]
  | none =>
    have hf' := (h.find sign).trans hf
    unfold Dict.insertSign
    rw [hf, hf']
    simp only [h.mCurrMaxID, true_and]
    refine ⟨rfl, fun s => ?_⟩
    rw [UniqueMap.find_insert hf, UniqueMap.find_insert hf', h.find]

theorem Agrees.insertSigns (h : d.Agrees d') (signs : List TSign) :
    (d'.insertSigns signs).1 = (d.insertSigns signs).1 := by
  induction signs generalizing d d' with
  | nil => rfl
  | cons sign signs ih =>
    obtain ⟨hid, hagree⟩ := h.insertSign sign
    exact congrArg₂ List.cons hid (ih hagree)

theorem size_insertSign (d : Dict) (sign : TSign) :
    (d.insertSign sign).2.size =
      if d.mDictMap.find sign = none then d.size + 1 else d.size := by
  unfold Dict.insertSign size UniqueMap.size
  cases hf : d.mDictMap.find sign with
  | some info => exact List.length_map _
  | none =>
    rw [if_pos rfl, UniqueMap.insert_entries hf, List.length_append, List.length_singleton]

theorem size_le_insertSigns (d : Dict) (signs : List TSign) :
    d.size ≤ (d.insertSigns signs).2.size := by
  induction signs generalizing d with
  | nil => exact Nat.le_refl _
  | cons sign signs ih =>
    refine Nat.le_trans ?_ (ih (d.insertSign sign).2)
    rw [size_insertSign]
    split
    · exact Nat.le_succ _
    · exact Nat.le_refl _

theorem Identified.insertSigns (h : d.Identified) {signs : List TSign}
    (hsize : (d.insertSigns signs).2.size < 2 ^ 31) : (d.insertSigns signs).2.Identified := by
  induction signs generalizing d with
  | nil => exact h
  | cons sign signs ih =>
    refine ih ?_ hsize
    have hle : (d.insertSign sign).2.size < 2 ^ 31 :=
      Nat.lt_of_le_of_lt (size_le_insertSigns _ signs) hsize
    rw [size_insertSign] at hle
    cases hf : d.mDictMap.find sign with
    | some info =>
      rw [insertSign_of_find hf]
      exact h.modify fun _ => rfl
    | none =>
      rw [if_pos hf] at hle
      exact (h.insertSign hle sign).1

theorem Identified.eq_of_idOf (h : d.Identified) (hs : d.idOf s = some id)
    (ht : d.idOf t = some id) : s = t := by
  obtain ⟨info, hinfo, rfl⟩ := Option.map_eq_some_iff.mp hs
  obtain ⟨info', hinfo', hid⟩ := Option.map_eq_some_iff.mp ht
  have heq := List.inj_on_of_nodup_map h.distinct (UniqueMap.find_eq_some_iff.mp hinfo)
    (UniqueMap.find_eq_some_iff.mp hinfo') hid.symm
  exact congrArg Prod.fst heq

/-- Every dictionary that insertions build is saved to a file that any dictionary loads, and that
gives it the same counter, the same terms and the same identifiers for all later insertions. -/
theorem save_load_insertSigns (signs : List TSign) (hsize : (new.insertSigns signs).2.size < 2 ^ 31)
    (dictf dictf' : String) (it : Iteration) (d₀ : Dict) :
    let d := (new.insertSigns signs).2
    ∃ file d', d.save dictf it none = .ok file ∧ d₀.load dictf' (.ok file) = (.ok (), d') ∧
      d'.mCurrMaxID = d.mCurrMaxID ∧ (∀ s, d'.mDictMap.find s = d.mDictMap.find s) ∧
      ∀ later, (d'.insertSigns later).1 = (d.insertSigns later).1 := by
  intro d
  have hd : d.Identified := new_identified.insertSigns hsize
  obtain ⟨file, hsave⟩ : ∃ file, d.save dictf it none = .ok file := ⟨_, rfl⟩
  obtain ⟨m, hperm, hload⟩ := load_save hd hsize hsave d₀ dictf'
  have hagree : d.Agrees ⟨d.mCurrMaxID, m⟩ := .of_perm rfl hperm
  exact ⟨file, _, hsave, hload, rfl, hagree.find, hagree.insertSigns⟩

/-- Three insertions of two terms, loaded into a dictionary that holds another term. -/
theorem save_load_insertSigns_two :
    let d := (new.insertSigns [⟨1, 2⟩, ⟨3, 4⟩, ⟨1, 2⟩]).2
    ∃ file d', d.save "dict.img" ⟨fun m => m.entries.reverse, fun _ => List.reverse_perm _⟩ none =
        .ok file ∧
      (new.insertSign ⟨5, 6⟩).2.load "dict.img" (.ok file) = (.ok (), d') ∧ d'.mCurrMaxID = 1 ∧
      (∀ s, d'.mDictMap.find s = d.mDictMap.find s) ∧
      ∀ later, (d'.insertSigns later).1 = (d.insertSigns later).1 :=
  save_load_insertSigns [⟨1, 2⟩, ⟨3, 4⟩, ⟨1, 2⟩] (by decide) "dict.img" "dict.img" _
    (new.insertSign ⟨5, 6⟩).2

end YlUtils.Dict
