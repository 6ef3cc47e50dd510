import YlUtils.Text.Ascii

/-! # Lower case

`ToLowerCase` changes bytes, `str2lower` characters. The second byte of a Chinese
character may be a capital letter, which only the first of them changes.
-/

namespace YlUtils

def isChineseChar (c1 c2 : UInt8) : Bool := 128 ≤ c1 && c1 ≤ 254 && 64 ≤ c2 && c2 ≤ 254

def YeeString.ToLowerCase (str : Bytes) : Bytes :=
  str.map fun ch => if 65 ≤ ch ∧ ch ≤ 90 then ch + 97 - 65 else ch

/-- What `str2lower` appends from a position of a C string on. -/
def str2lower : Bytes → Option Bytes
  | [] => none
  | 0 :: _ => some []
  | _ :: [] => none
  | c1 :: c2 :: str =>
    if isChineseChar c1 c2 then (str2lower str).map ([c1, c2] ++ ·)
    else (str2lower (c2 :: str)).map (tolower c1 :: ·)

/-- Which bytes of a text are the second ones of Chinese characters, as these are read from the
left. -/
def trailing : Bytes → List Bool
  | [] => []
  | [_] => [false]
  | c1 :: c2 :: s =>
    if isChineseChar c1 c2 then false :: true :: trailing s else false :: trailing (c2 :: s)

/-- Both functions give the same text, in which the second bytes are those of the string. -/
structure LowersAlike (s : Bytes) : Prop where
  same : str2lower (s ++ [0]) = some (YeeString.ToLowerCase s)
  kept : ∀ i : ℕ, (trailing s)[i]? = some true → (YeeString.ToLowerCase s)[i]? = s[i]?

variable {s : Bytes}

theorem length_trailing (s : Bytes) : (trailing s).length = s.length := by
  induction s using trailing.induct with
  | case1 => rfl
  | case2 c => rfl
  | case3 c1 c2 s h ih =>
    rw [trailing, if_pos h]
    simp [ih]
  | case4 c1 c2 s h ih =>
    rw [trailing, if_neg h]
    simp [ih]

theorem toLowerCase_eq (s : Bytes) : YeeString.ToLowerCase s = s.map tolower := by
  have hbyte : ∀ ch : UInt8, (if 65 ≤ ch ∧ ch ≤ 90 then ch + 97 - 65 else ch) = tolower ch := by
    decide +kernel
  exact List.map_congr_left fun ch _ => hbyte ch

theorem tolower_eq_self_iff : ∀ c : UInt8, tolower c = c ↔ ¬ (65 ≤ c ∧ c ≤ 90) := by
  decide +kernel

theorem str2lower_cons {c1 : UInt8} (h : c1 ≠ 0) (c2 : UInt8) (str : Bytes) :
    str2lower (c1 :: c2 :: str) =
      if isChineseChar c1 c2 then (str2lower str).map ([c1, c2] ++ ·)
      else (str2lower (c2 :: str)).map (tolower c1 :: ·) := by
  rw [str2lower]
  exact h

theorem str2lower_eq (hs : 0 ∉ s) :
    str2lower (s ++ [0]) =
      some (List.zipWith (fun t c => if t then c else tolower c) (trailing s) s) := by
  induction s using trailing.induct with
  | case1 => rfl
  | case2 c =>
    have hc : c ≠ 0 := fun h => hs (h ▸ List.mem_cons_self)
    have hno : isChineseChar c 0 = false := by simp [isChineseChar]
    rw [List.singleton_append, str2lower_cons hc, hno]
    rfl
  | case3 c1 c2 s h ih =>
    have hc : c1 ≠ 0 := fun h => hs (h ▸ List.mem_cons_self)
    have hrest : 0 ∉ s := fun h => hs (by simp [h])
    have hlead : tolower c1 = c1 := by
      simp only [isChineseChar, Bool.and_eq_true, decide_eq_true_eq] at h
      exact (tolower_eq_self_iff c1).mpr fun hcap =>
        absurd (UInt8.le_trans h.1.1.1 hcap.2) (by decide)
    rw [List.cons_append, List.cons_append, str2lower_cons hc, if_pos h, ih hrest, trailing,
      if_pos h]
    simp [hlead]
  | case4 c1 c2 s h ih =>
    have hc : c1 ≠ 0 := fun h => hs (h ▸ List.mem_cons_self)
    have hrest : 0 ∉ c2 :: s := fun h => hs (List.mem_cons_of_mem c1 h)
    rw [List.cons_append, List.cons_append, str2lower_cons hc, if_neg h, ← List.cons_append,
      ih hrest, trailing, if_neg h]
    rfl

/-- Both give the same exactly if no second byte is a capital letter. -/
theorem lowersAlike_iff (hs : 0 ∉ s) :
    LowersAlike s ↔
      ∀ i : ℕ, (trailing s)[i]? = some true → ∀ c ∈ s[i]?, ¬ (65 ≤ c ∧ c ≤ 90) := by
  constructor
  · rintro ⟨-, hkept⟩ i hi c hc
    have hsame := hkept i hi
    rw [toLowerCase_eq, List.getElem?_map, hc] at hsame
    exact (tolower_eq_self_iff c).mp (Option.some.inj hsame)
  · intro hsmall
    have hkept : ∀ i : ℕ, (trailing s)[i]? = some true → ∀ c ∈ s[i]?, tolower c = c :=
      fun i hi c hc => (tolower_eq_self_iff c).mpr (hsmall i hi c hc)
    refine ⟨?_, fun i hi => ?_⟩
    · rw [str2lower_eq hs, toLowerCase_eq]
      refine congrArg some (List.ext_getElem? fun i => ?_)
      rw [List.getElem?_zipWith, List.getElem?_map]
      cases hc : s[i]? with
      | none => cases (trailing s)[i]? <;> rfl
      | some c =>
        obtain ⟨hi, -⟩ := List.getElem?_eq_some_iff.mp hc
        rw [← length_trailing] at hi
        rw [List.getElem?_eq_getElem hi]
        cases ht : (trailing s)[i] with
        | false => rfl
        | true =>
          have hmark : (trailing s)[i]? = some true := by rw [List.getElem?_eq_getElem hi, ht]
          exact congrArg some (hkept i hmark c hc).symm
    · rw [toLowerCase_eq, List.getElem?_map]
      cases hc : s[i]? with
      | none => rfl
      | some c => exact congrArg some (hkept i hi c hc)

/-- A Chinese character whose second byte is no letter. -/
theorem lowersAlike_iff_character :
    LowersAlike [176, 161] ↔
      ∀ i : ℕ, (trailing [176, 161])[i]? = some true →
        ∀ c ∈ ([176, 161] : Bytes)[i]?, ¬ (65 ≤ c ∧ c ≤ 90) :=
  lowersAlike_iff (by decide)

/-- The second byte of this character is a capital letter. -/
theorem not_lowersAlike : ¬ LowersAlike [129, 65] := by
  intro h
  have hkept := h.kept 1 rfl
  revert hkept
  decide

end YlUtils
