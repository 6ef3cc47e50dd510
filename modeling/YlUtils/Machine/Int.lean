import Mathlib.Algebra.Group.Int.Defs
import Mathlib.Algebra.Group.Nat.Defs
import Mathlib.Data.Int.Basic

/-! # Machine integers

The conversions and the arithmetic of `int`, whose values are integers here.
-/

namespace YlUtils

def intOf (n : UInt32) : ℤ := n.toBitVec.toInt

/-- The value of an `int` expression, whose overflow wraps around. -/
def wrapInt (x : ℤ) : ℤ := x.bmod (2 ^ 32)

theorem intOf_of_lt {n : UInt32} (h : n.toNat < 2 ^ 31) : intOf n = n.toNat := by
  unfold intOf
  rw [BitVec.toInt_eq_toNat_of_lt (by rw [UInt32.toNat_toBitVec]; omega), UInt32.toNat_toBitVec]

theorem intOf_of_le {n : UInt32} (h : 2 ^ 31 ≤ n.toNat) : intOf n = n.toNat - 2 ^ 32 := by
  unfold intOf
  rw [BitVec.toInt_eq_toNat_cond, if_neg (by simp; omega)]
  rfl

theorem intOf_lt (n : UInt32) : intOf n < 2 ^ 31 := n.toBitVec.toInt_lt

theorem wrapInt_of_lt {x : ℤ} (h₀ : -2 ^ 31 ≤ x) (h : x < 2 ^ 31) : wrapInt x = x := by
  unfold wrapInt
  exact Int.bmod_eq_of_le (by omega) (by omega)

theorem wrapInt_lt (x : ℤ) : wrapInt x < 2 ^ 31 := by
  have h := @Int.bmod_lt x (2 ^ 32) (by decide)
  unfold wrapInt
  omega

theorem wrapInt_le {x : ℤ} (h₀ : 0 ≤ x) : wrapInt x ≤ x := by
  unfold wrapInt Int.bmod
  simp only []
  split <;> omega

theorem wrapInt_emod (x : ℤ) : wrapInt x % 2 ^ 32 = x % 2 ^ 32 := Int.bmod_emod

theorem wrapInt_add_ne {x k : ℤ} (hk : 0 < k) (h : k < 2 ^ 32) : wrapInt (x + k) ≠ x := by
  intro he
  have hmod := wrapInt_emod (x + k)
  rw [he] at hmod
  omega

theorem ofInt_natCast_toNat {n : ℕ} (h : n < 2 ^ 32) : (UInt32.ofInt n).toNat = n := by
  rw [UInt32.ofInt, UInt32.toNat_ofNat_of_lt' (by change _ < 2 ^ 32; omega)]
  omega

end YlUtils
