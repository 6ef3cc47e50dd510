import Mathlib.Data.Nat.Bitwise
import YlUtils.Machine.Words

/-! # Bit fields of words

A mask of consecutive ones selects a field, and fields that do not overlap are
joined by a sum.
-/

namespace YlUtils

theorem and_field (y s w : ℕ) : y &&& (2 ^ w - 1) <<< s = y / 2 ^ s % 2 ^ w * 2 ^ s := by
  apply Nat.eq_of_testBit_eq
  intro i
  rw [Nat.testBit_and, Nat.testBit_shiftLeft, ← Nat.shiftLeft_eq, Nat.testBit_shiftLeft,
    Nat.testBit_mod_two_pow, Nat.testBit_two_pow_sub_one, ← Nat.shiftRight_eq_div_pow,
    Nat.testBit_shiftRight]
  by_cases hi : s ≤ i
  · rw [Nat.add_sub_cancel' hi]
    cases y.testBit i <;> simp [hi]
  · simp [hi]

theorem toNat_and_field {x m : UInt32} (s w : ℕ) (hm : m.toNat = (2 ^ w - 1) <<< s) :
    (x &&& m).toNat = x.toNat / 2 ^ s % 2 ^ w * 2 ^ s := by
  rw [UInt32.toNat_and, hm, and_field]

theorem toNat_or_field {x y : UInt32} (k : ℕ) (hx : x.toNat < 2 ^ k) (hy : 2 ^ k ∣ y.toNat) :
    (x ||| y).toNat = x.toNat + y.toNat := by
  obtain ⟨z, hz⟩ := hy
  rw [UInt32.toNat_or, hz, Nat.or_comm, ← Nat.two_pow_add_eq_or_of_lt hx, Nat.add_comm]

end YlUtils
