import YlUtils.Encoding.Base64RoundTrip

/-! # The buffer of the encoder

The guard of the encoder compares the number of groups with `2 ^ 30`, which no
`int` reaches, and lets through two negative lengths. The size of the buffer is
that of the text only from zero up to where four times the groups overflow.
-/

namespace YlUtils.Base64

variable {str p : Bytes} {length : ℤ}

/-- The lengths for which the guard does not make the encoder return `NULL`. -/
def LetThrough (length : ℤ) : Prop :=
  ¬ (wrapInt (length + 2) < 0 ∨ (wrapInt (length + 2)).tdiv 3 ≥ 2 ^ 30)

/-- The number of bytes to allocate, `((length + 2) / 3) * 4 + 1`, without overflow. -/
def exactSize (length : ℤ) : ℤ := (length + 2).tdiv 3 * 4 + 1

/-- The size is an `int`, and the one that is allocated, and whatever is encoded, the text and the
zero after it fit into it. -/
structure SizeFits (length : ℤ) : Prop where
  noOverflow : exactSize length < 2 ^ 31 ∧ bufferSize length = exactSize length
  written : ∀ str p, encodeLoop str length = some p → (p.length : ℤ) + 1 ≤ exactSize length

theorem length_encodeTail (h₀ : 0 ≤ length) (h : length ≤ 2)
    (he : encodeTail str length = some p) : (p.length : ℤ) = (length + 2) / 3 * 4 := by
  unfold encodeTail at he
  split at he
  · next hne =>
    have hgroups : (length + 2) / 3 = 1 := by omega
    cases ha : str[0]? with
    | none => simp [ha] at he
    | some a =>
      simp only [ha, Option.bind_eq_bind, Option.bind_some] at he
      split at he
      · cases hb : str[1]? with
        | none => simp [hb] at he
        | some b =>
          simp only [hb, Option.bind_some, Option.some_inj] at he
          rw [← he, hgroups]
          rfl
      · cases he
        rw [hgroups]
        rfl
  · next hz =>
    cases he
    obtain rfl : length = 0 := by simpa using hz
    rfl

theorem length_encodeLoop (h₀ : 0 ≤ length) (he : encodeLoop str length = some p) :
    (p.length : ℤ) = (length + 2) / 3 * 4 := by
  induction str, length using encodeLoop.induct generalizing p with
  | case1 a b c current length hlt ih =>
    rw [encodeLoop, if_pos hlt] at he
    obtain ⟨q, hq, rfl⟩ := Option.map_eq_some_iff.mp he
    have hrest := ih (by omega) hq
    have hquad : (quad a b c).length = 4 := rfl
    rw [List.length_append, hquad]
    omega
  | case2 a b c current length hle =>
    rw [encodeLoop, if_neg hle] at he
    exact length_encodeTail h₀ (by omega) he
  | case3 current length hshort hlt =>
    unfold encodeLoop at he
    split at he
    · next a b c rest => exact absurd rfl (hshort a b c rest)
    · rw [if_pos hlt] at he
      cases he
  | case4 current length hshort hle =>
    rw [encodeLoop_of_le (by omega)] at he
    exact length_encodeTail h₀ (by omega) he

theorem encodeLoop_of_neg (h : length < 0) (a : UInt8) :
    ∃ p, encodeLoop [a] length = some p ∧ p.length = 4 := by
  rw [encodeLoop_of_le (by omega), encodeTail, if_pos (by omega)]
  simp only [List.getElem?_cons_zero, Option.bind_eq_bind, Option.bind_some,
    if_neg (show ¬ length > 1 by omega)]
  exact ⟨_, rfl, rfl⟩

/-- For the lengths that the guard lets through, the buffer is large enough and its size does not
overflow exactly from 0 up to 1610612733. -/
theorem sizeFits_iff (length : ℤ) (h₀ : -2 ^ 31 ≤ length) (h : length < 2 ^ 31)
    (hguard : LetThrough length) :
    SizeFits length ↔ 0 ≤ length ∧ length ≤ 1610612733 := by
  have hnowrap : wrapInt (length + 2) = length + 2 := by
    rcases Int.lt_or_le (length + 2) (2 ^ 31) with hlt | hge
    · exact wrapInt_of_lt (by omega) hlt
    · refine absurd (.inl ?_) hguard
      unfold wrapInt Int.bmod
      simp only []
      split <;> omega
  have hlow : -2 ≤ length := by
    by_contra hneg
    exact hguard (.inl (by omega))
  have hdiv : (length + 2).tdiv 3 = (length + 2) / 3 := Int.tdiv_eq_ediv_of_nonneg (by omega)
  have hexact : exactSize length = (length + 2) / 3 * 4 + 1 := by rw [exactSize, hdiv]
  constructor
  · intro hfits
    have hsize := hfits.noOverflow.1
    rw [hexact] at hsize
    constructor
    · by_contra hneg
      obtain ⟨p, hp, hlen⟩ := encodeLoop_of_neg (Int.not_le.mp hneg) 0
      have hle := hfits.written _ p hp
      rw [hexact, hlen] at hle
      omega
    · omega
  · rintro ⟨hpos, hle⟩
    have hbuffer : bufferSize length = exactSize length := by
      rw [bufferSize, hnowrap, hdiv, hexact, wrapInt_of_lt (by omega) (by omega)]
    refine ⟨⟨by rw [hexact]; omega, hbuffer⟩, fun str p hp => ?_⟩
    rw [hexact, length_encodeLoop hpos hp]

theorem sizeFits_iff_five : SizeFits 5 ↔ 0 ≤ (5 : ℤ) ∧ (5 : ℤ) ≤ 1610612733 :=
  sizeFits_iff 5 (by decide) (by decide) (by unfold LetThrough; decide)

/-- The guard lets a length through for which the size overflows, and `-1`, for which five bytes are
written into a buffer of one. -/
theorem letThrough_not_fits :
    (LetThrough 1610612734 ∧ ¬ SizeFits 1610612734) ∧ LetThrough (-1) ∧ ¬ SizeFits (-1) := by
  refine ⟨⟨by unfold LetThrough; decide, fun h => ?_⟩, by unfold LetThrough; decide, fun h => ?_⟩
  · exact absurd h.noOverflow.1 (by decide)
  · exact absurd (h.written [0] _ rfl) (by decide)

end YlUtils.Base64
