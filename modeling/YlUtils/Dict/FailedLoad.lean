import YlUtils.Dict.Inserts

/-! # Loads that throw

`load` reads the greatest identifier into the field before it checks the file.
If it throws after that, the entries are the old ones and the counter is that of
the file, so that later terms can get identifiers that are taken.
-/

namespace YlUtils.Dict

/-- Every later insertion, as long as `int` can number the terms, returns an identifier that no
other term has. -/
def AssignsFresh (d : Dict) : Prop :=
  ∀ signs sign, (d.insertSigns (signs ++ [sign])).2.size < 2 ^ 31 →
    let r := (d.insertSigns signs).2.insertSign sign
    ∀ s ≠ sign, r.2.idOf s ≠ some r.1

/-- If `load` throws, it leaves the dictionary as it was, and so as good as it was. -/
def ThrowsUnchanged (d : Dict) (dictf : String) (fdict : Except String Bytes) : Prop :=
  ∀ e, (d.load dictf fdict).1 = .error e →
    (d.load dictf fdict).2 = d ∧ (d.load dictf fdict).2.AssignsFresh

def WellFormed (file : Bytes) : Prop :=
  8 ≤ file.length ∧ wordAt (file.drop 4) ≤ UInt32.ofInt (intOf (wordAt file) + 1) ∧
    8 + (wordAt (file.drop 4)).toNat * sizeofTermPair ≤ file.length

/-- A file that does not exist, or is well-formed, or whose first word leaves the counter as it
is, as far as the file has bytes of it. -/
def Spares (d : Dict) : Except String Bytes → Prop
  | .error _ => True
  | .ok file => WellFormed file ∨ overwriteInt d.mCurrMaxID (file.take 4) = d.mCurrMaxID

variable {d : Dict} {dictf : String} {file : Bytes}

theorem insertSigns_append (d : Dict) (signs : List TSign) (sign : TSign) :
    (d.insertSigns (signs ++ [sign])).2 = ((d.insertSigns signs).2.insertSign sign).2 := by
  induction signs generalizing d with
  | nil => rfl
  | cons s signs ih => exact ih (d.insertSign s).2

theorem Identified.assignsFresh (h : d.Identified) : d.AssignsFresh := by
  intro signs sign hsize r s hs hid
  have hr : r.2.Identified := by
    have hd := h.insertSigns hsize
    rwa [insertSigns_append] at hd
  have hsign : r.2.idOf sign = some r.1 := by
    obtain ⟨info, hinfo, hinfo'⟩ := getSignID_insertSign (d.insertSigns signs).2 sign
    rw [← hinfo']
    exact congrArg (Option.map _) hinfo
  exact hs (hr.eq_of_idOf hid hsign)

theorem load_error_iff (d : Dict) (dictf : String) (file : Bytes) :
    (∃ e, (d.load dictf (.ok file)).1 = .error e) ↔ ¬ WellFormed file := by
  have hmax : 8 ≤ file.length → overwriteInt d.mCurrMaxID (file.take 4) = intOf (wordAt file) := by
    intro hlen
    have htake : (file.take 4).length = 4 := by
      rw [List.length_take]
      omega
    unfold overwriteInt
    rw [htake, List.drop_of_length_le (by simp), List.append_nil, wordAt_take (Nat.le_refl 4)]
  unfold load WellFormed
  simp only
  split
  · next hlen => exact iff_of_true ⟨_, rfl⟩ fun h => absurd h.1 (Nat.not_le.mpr hlen)
  · next hlen =>
    rw [hmax (Nat.not_lt.mp hlen)]
    split
    · next hnum => exact iff_of_true ⟨_, rfl⟩ fun h => absurd hnum (UInt32.not_lt.mpr h.2.1)
    · next hnum =>
      split
      · next hrest => exact iff_of_true ⟨_, rfl⟩ fun h => absurd h.2.2 (Nat.not_le.mpr hrest)
      · next hrest =>
        refine iff_of_false (fun ⟨_, h⟩ => by cases h) (not_not.mpr ?_)
        exact ⟨Nat.not_lt.mp hlen, UInt32.not_lt.mp hnum, Nat.not_lt.mp hrest⟩

/-- By the time it throws, a `load` has changed the counter alone. -/
theorem load_of_error {e : String} (h : (d.load dictf (.ok file)).1 = .error e) :
    (d.load dictf (.ok file)).2 =
      { d with mCurrMaxID := overwriteInt d.mCurrMaxID (file.take 4) } := by
  unfold load at h ⊢
  simp only at h ⊢
  split at h
  · next hlen => rw [if_pos hlen]
  · next hlen =>
    rw [if_neg hlen]
    split at h
    · next hnum => rw [if_pos hnum]
    · next hnum =>
      rw [if_neg hnum]
      split at h
      · next hrest => rw [if_pos hrest]
      · cases h

/-- A `load` that throws leaves the dictionary as it was exactly if the file cannot be opened or
begins with the counter that the dictionary has. -/
theorem throwsUnchanged_iff_spares (h : d.Identified) (dictf : String)
    (fdict : Except String Bytes) : d.ThrowsUnchanged dictf fdict ↔ d.Spares fdict := by
  cases fdict with
  | error e => exact iff_of_true (fun _ _ => ⟨rfl, h.assignsFresh⟩) trivial
  | ok file =>
    constructor
    · intro hsame
      by_cases hfile : WellFormed file
      · exact .inl hfile
      · obtain ⟨e, he⟩ := (load_error_iff d dictf file).mpr hfile
        have hload := (hsame e he).1
        rw [load_of_error he] at hload
        exact .inr (congrArg mCurrMaxID hload)
    · rintro hspares e he
      have hfile := (load_error_iff d dictf file).mp ⟨e, he⟩
      have hd : (d.load dictf (.ok file)).2 = d := by
        rw [load_of_error he, hspares.resolve_left hfile]
      rw [hd]
      exact ⟨rfl, h.assignsFresh⟩

/-- A dictionary of one term, and a file of two bytes that are those of its counter. -/
theorem throwsUnchanged_iff_spares_one :
    (new.insertSign ⟨1, 2⟩).2.ThrowsUnchanged "dict.img" (.ok [0, 0]) :=
  (throwsUnchanged_iff_spares (new_identified.insertSign (by decide) ⟨1, 2⟩).1 "dict.img"
    (.ok [0, 0])).mpr (.inr (by decide +kernel))

/-- A file of four bytes is too short, but sets the counter back: the next term gets the identifier
of the one that is there. -/
theorem short_file_resets_counter :
    let d := (new.insertSign ⟨1, 2⟩).2
    d.Identified ∧ ¬ d.ThrowsUnchanged "dict.img" (.ok [255, 255, 255, 255]) ∧
      ¬ (d.load "dict.img" (.ok [255, 255, 255, 255])).2.AssignsFresh := by
  intro d
  have hid : d.mCurrMaxID = 0 := by decide
  have hmax : (d.load "dict.img" (.ok [255, 255, 255, 255])).2.mCurrMaxID = -1 := by
    decide +kernel
  refine ⟨(new_identified.insertSign (by decide) _).1, ?_, ?_⟩
  · intro h
    have hsame := congrArg mCurrMaxID (h _ rfl).1
    rw [hmax, hid] at hsame
    cases hsame
  · intro h
    exact h [] ⟨3, 4⟩ (by decide +kernel) ⟨1, 2⟩ (by decide) (by decide +kernel)

end YlUtils.Dict
