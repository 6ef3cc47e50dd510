import Mathlib.Data.Nat.Bitwise

/-! # Bits of a byte

The bits of a byte are counted from the highest one. A mask shifted to a position
selects or sets the bit there, and what lies above and below it is kept by shifts.
-/

namespace YlUtils

def bitAt (b : UInt8) (k : ℕ) : Bool := b.toNat.testBit (7 - k)

variable {b : UInt8} {k : UInt32} {j : ℕ}

theorem bitAt_toUInt8 (w : UInt32) (k : ℕ) : bitAt w.toUInt8 k = w.toNat.testBit (7 - k) := by
  rw [bitAt, UInt32.toNat_toUInt8, Nat.testBit_mod_two_pow]
  simp only [Bool.and_eq_right_iff_imp, decide_eq_true_eq]
  omega

theorem toNat_mask (hk : k.toNat < 8) : ((128 : UInt32) >>> k).toNat = 2 ^ (7 - k.toNat) := by
  have hmod : k.toNat % 32 = k.toNat := Nat.mod_eq_of_lt (by omega)
  have hone : (128 : UInt32).toNat = 2 ^ 7 := rfl
  rw [UInt32.toNat_shiftRight, hmod, hone, Nat.shiftRight_eq_div_pow,
    Nat.pow_div (by omega) (by decide)]

theorem and_mask_ne_zero (hk : k.toNat < 8) :
    b.toUInt32 &&& 128 >>> k ≠ 0 ↔ bitAt b k.toNat = true := by
  have hpos : 0 < 2 ^ (7 - k.toNat) := Nat.two_pow_pos _
  rw [ne_eq, ← UInt32.toNat_inj, UInt32.toNat_and, toNat_mask hk, UInt8.toNat_toUInt32,
    Nat.and_two_pow, UInt32.toNat_zero, bitAt]
  cases b.toNat.testBit (7 - k.toNat) with
  | false => simp
  | true => simp

theorem bitAt_or_mask (hk : k.toNat < 8) (hj : j < 8) :
    bitAt (b.toUInt32 ||| 128 >>> k).toUInt8 j = if j = k.toNat then true else bitAt b j := by
  rw [bitAt_toUInt8, UInt32.toNat_or, toNat_mask hk, UInt8.toNat_toUInt32, Nat.testBit_or,
    Nat.testBit_two_pow, ← bitAt]
  by_cases h : j = k.toNat
  · rw [if_pos h, h]
    simp
  · have hne : ¬ 7 - k.toNat = 7 - j := by omega
    rw [if_neg h, decide_eq_false hne, Bool.or_false]

theorem bitAt_split (hk : k.toNat < 8) (hj : j < 8) :
    bitAt ((127 >>> k &&& b.toUInt32) ||| b.toUInt32 >>> (8 - k) <<< (8 - k)).toUInt8 j =
      if j = k.toNat then false else bitAt b j := by
  have hb := b.toNat_lt
  have height : (8 : UInt32).toNat = 8 := rfl
  have hsub : (8 - k).toNat = 8 - k.toNat := by
    rw [UInt32.toNat_sub_of_le _ _ (UInt32.le_iff_toNat_le.mpr (by rw [height]; omega)), height]
  have hmod : k.toNat % 32 = k.toNat := Nat.mod_eq_of_lt (by omega)
  have hmod' : (8 - k.toNat) % 32 = 8 - k.toNat := Nat.mod_eq_of_lt (by omega)
  have hlow : (127 : UInt32).toNat = 2 ^ 7 - 1 := rfl
  rw [bitAt_toUInt8, UInt32.toNat_or, UInt32.toNat_and, UInt32.toNat_shiftRight, hmod, hlow,
    UInt32.toNat_shiftLeft, UInt32.toNat_shiftRight, hsub, hmod', UInt8.toNat_toUInt32,
    Nat.testBit_or, Nat.testBit_and, Nat.testBit_shiftRight, Nat.testBit_two_pow_sub_one,
    Nat.testBit_mod_two_pow, Nat.testBit_shiftLeft, Nat.testBit_shiftRight]
  by_cases h : j = k.toNat
  · have hbelow : ¬ k.toNat + (7 - j) < 7 := by omega
    have habove : ¬ 7 - j ≥ 8 - k.toNat := by omega
    rw [if_pos h]
    simp [hbelow, habove]
  · rw [if_neg h, bitAt]
    rcases Nat.lt_or_ge k.toNat j with hlt | hge
    · have hbelow : k.toNat + (7 - j) < 7 := by omega
      have habove : ¬ 7 - j ≥ 8 - k.toNat := by omega
      simp [hbelow, habove]
    · have hbelow : ¬ k.toNat + (7 - j) < 7 := by omega
      have habove : 7 - j ≥ 8 - k.toNat := by omega
      have hplace : 8 - k.toNat + (7 - j - (8 - k.toNat)) = 7 - j := by omega
      have hword : 7 - j < 32 := by omega
      simp [hbelow, habove, hplace, hword]

end YlUtils
