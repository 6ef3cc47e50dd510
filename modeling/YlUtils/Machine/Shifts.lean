import Mathlib.Data.Int.Basic
import Mathlib.Tactic.NormNum

/-! # Shifts

The amount of a shift is an `int`, which must be less than the number of bits and not
negative. A rotation that is put together from two shifts is not defined for zero.
-/

namespace YlUtils

variable {w : ℕ}

/-- A shift to the left, which is undefined for other amounts. -/
def shiftLeft (x : BitVec w) (n : ℤ) : Option (BitVec w) :=
  if 0 ≤ n ∧ n < w then some (x <<< n.toNat) else none

def shiftRight (x : BitVec w) (n : ℤ) : Option (BitVec w) :=
  if 0 ≤ n ∧ n < w then some (x >>> n.toNat) else none

def rotate (x : BitVec w) (n : ℤ) : Option (BitVec w) := do
  let high ← shiftLeft x n
  let low ← shiftRight x (w - n)
  some (high ||| low)

theorem rotate_of_lt (x : BitVec w) {n : ℤ} (h₀ : 0 < n) (h : n < w) :
    rotate x n = some (x.rotateLeft n.toNat) := by
  have hmod : n.toNat % w = n.toNat := Nat.mod_eq_of_lt (by omega)
  have hrest : ((w : ℤ) - n).toNat = w - n.toNat := by omega
  rw [rotate, shiftLeft, if_pos ⟨h₀.le, h⟩, shiftRight, if_pos (by omega), BitVec.rotateLeft_def,
    hmod, hrest]
  rfl

theorem rotate_zero (x : BitVec w) : rotate x 0 = none := by
  have hright : shiftRight x ((w : ℤ) - 0) = none := if_neg (by omega)
  rw [rotate, hright]
  cases shiftLeft x 0 <;> rfl

end YlUtils
