import YlUtils.Machine.Int
import YlUtils.Text.CString

/-! # Words in memory

A word is stored in four bytes, the lowest first. What is written over the
bytes of an `int` may end before its last byte.
-/

namespace YlUtils

def wordBytes (w : UInt32) : Bytes :=
  [w.toUInt8, (w >>> 8).toUInt8, (w >>> 16).toUInt8, (w >>> 24).toUInt8]

def wordAt (b : Bytes) : UInt32 :=
  (b.take 4).foldr (fun x w => w <<< 8 ||| x.toUInt32) 0

def intBytes (n : ℤ) : Bytes := wordBytes (.ofInt n)

def longBytes (n : UInt64) : Bytes := wordBytes n.toUInt32 ++ wordBytes (n >>> 32).toUInt32

def longAt (b : Bytes) : UInt64 := (wordAt (b.drop 4)).toUInt64 <<< 32 ||| (wordAt b).toUInt64

def longOf (n : UInt64) : ℤ := n.toBitVec.toInt

/-- An `unsigned long` whose bytes are overwritten by at most eight bytes. -/
def overwriteLong (n : UInt64) (b : Bytes) : UInt64 := longAt (b ++ (longBytes n).drop b.length)

def overwriteWord (w : UInt32) (b : Bytes) : UInt32 := wordAt (b ++ (wordBytes w).drop b.length)

/-- An `int` whose bytes are overwritten by at most four bytes. -/
def overwriteInt (n : ℤ) (b : Bytes) : ℤ := intOf (wordAt (b ++ (intBytes n).drop b.length))

@[simp] theorem wordBytes_length (w : UInt32) : (wordBytes w).length = 4 := rfl

@[simp] theorem intBytes_length (n : ℤ) : (intBytes n).length = 4 := rfl

theorem toNat_shiftLeft_or {w : UInt32} (h : w.toNat < 2 ^ 24) (x : UInt8) :
    (w <<< 8 ||| x.toUInt32).toNat = w.toNat * 256 + x.toNat := by
  have hx := x.toNat_lt
  rw [UInt32.toNat_or, UInt32.toNat_shiftLeft, UInt8.toNat_toUInt32, Nat.mod_eq_of_lt]
  · rw [← Nat.shiftLeft_add_eq_or_of_lt (by simpa using hx), Nat.shiftLeft_eq]
    rfl
  · rw [Nat.shiftLeft_eq]
    change w.toNat * 256 < 2 ^ 32
    omega

theorem wordAt_take {n : ℕ} (h : 4 ≤ n) (b : Bytes) : wordAt (b.take n) = wordAt b := by
  rw [wordAt, wordAt, List.take_take, Nat.min_eq_left h]

theorem overwriteLong_take (n : UInt64) {b : Bytes} (h : 8 ≤ b.length) :
    overwriteLong n (b.take 8) = longAt b := by
  have htake : (b.take 8).length = 8 := by
    rw [List.length_take, Nat.min_eq_left h]
  have hdrop : (longBytes n).drop 8 = [] := rfl
  unfold overwriteLong longAt
  rw [htake, hdrop, List.append_nil, List.drop_take, wordAt_take (by decide),
    wordAt_take (by decide)]

theorem toNat_wordAt (a b c d : UInt8) (t : Bytes) : (wordAt (a :: b :: c :: d :: t)).toNat =
    d.toNat * 2 ^ 24 + c.toNat * 2 ^ 16 + b.toNat * 2 ^ 8 + a.toNat := by
  have hb := b.toNat_lt
  have hc := c.toNat_lt
  have hd := d.toNat_lt
  have h3 := toNat_shiftLeft_or (w := 0) (by decide) d
  rw [UInt32.toNat_zero, Nat.zero_mul, Nat.zero_add] at h3
  have h2 := toNat_shiftLeft_or (by rw [h3]; omega) c
  have h1 := toNat_shiftLeft_or (by rw [h2, h3]; omega) b
  have h0 := toNat_shiftLeft_or (by rw [h1, h2, h3]; omega) a
  simp only [wordAt, List.take_succ_cons, List.take_zero, List.foldr_cons, List.foldr_nil]
  rw [h0, h1, h2, h3]
  omega

theorem wordAt_wordBytes (w : UInt32) (t : Bytes) : wordAt (wordBytes w ++ t) = w := by
  have hw := w.toNat_lt
  have hbyte : ∀ i < 4, ((w >>> (.ofNat (i * 8))).toUInt8).toNat = w.toNat / 2 ^ (i * 8) % 256 := by
    intro i hi
    rw [UInt32.toNat_toUInt8, UInt32.toNat_shiftRight,
      UInt32.toNat_ofNat_of_lt' (show i * 8 < 2 ^ 32 by omega),
      Nat.mod_eq_of_lt (show i * 8 < 32 by omega), Nat.shiftRight_eq_div_pow]
  have b0 : w.toUInt8.toNat = w.toNat % 256 := by simp
  have b1 := hbyte 1 (by decide)
  have b2 := hbyte 2 (by decide)
  have b3 := hbyte 3 (by decide)
  simp only [Nat.reduceMul, UInt32.reduceOfNat] at b1 b2 b3
  apply UInt32.toNat_inj.mp
  simp only [wordBytes, List.cons_append, List.nil_append]
  rw [toNat_wordAt, b0, b1, b2, b3]
  omega

theorem intOf_ofInt {n : ℤ} (h₀ : -2 ^ 31 ≤ n) (h : n < 2 ^ 31) : intOf (.ofInt n) = n := by
  unfold intOf
  rw [BitVec.toInt_eq_toNat_bmod, UInt32.toNat_toBitVec, UInt32.ofInt,
    UInt32.toNat_ofNat_of_lt' (by change _ < 2 ^ 32; omega)]
  rw [Int.toNat_of_nonneg (by omega)]
  exact (Int.emod_bmod (n := 2 ^ 32) (x := n)).trans (wrapInt_of_lt h₀ h)

theorem ofInt_intOf (w : UInt32) : UInt32.ofInt (intOf w) = w := by
  have hw := w.toNat_lt
  have hmod : (w.toNat : ℤ).bmod (2 ^ 32) % 2 ^ 32 = (w.toNat : ℤ) % 2 ^ 32 := Int.bmod_emod
  apply UInt32.toNat_inj.mp
  rw [intOf, BitVec.toInt_eq_toNat_bmod, UInt32.toNat_toBitVec, UInt32.ofInt, UInt32.toNat_ofNat',
    hmod]
  omega

theorem overwriteWord_take (w : UInt32) {b : Bytes} (h : 4 ≤ b.length) :
    overwriteWord w (b.take 4) = wordAt b := by
  have htake : (b.take 4).length = 4 := List.length_take_of_le h
  have hdrop : (wordBytes w).drop 4 = [] := rfl
  rw [overwriteWord, htake, hdrop, List.append_nil, wordAt_take le_rfl]

theorem overwriteInt_intBytes {n m : ℤ} (h₀ : -2 ^ 31 ≤ m) (h : m < 2 ^ 31) (t : Bytes) :
    overwriteInt n (intBytes m ++ t) = m := by
  unfold overwriteInt
  rw [List.append_assoc, intBytes, wordAt_wordBytes, intOf_ofInt h₀ h]

/-- The high half of a `long` stays as four bytes are stored, and with it the sign. -/
theorem longOf_overwriteLong_neg (w : UInt32) :
    longOf (overwriteLong (.ofInt (-1)) (wordBytes w)) < 0 := by
  have hhigh : overwriteLong (.ofInt (-1)) (wordBytes w) =
      0xFFFFFFFF00000000 ||| w.toUInt64 := by
    have hrest : (longBytes (.ofInt (-1))).drop (wordBytes w).length = wordBytes 0xFFFFFFFF := rfl
    rw [overwriteLong, hrest, longAt, wordAt_wordBytes]
    have hdrop : (wordBytes w ++ wordBytes 0xFFFFFFFF).drop 4 = wordBytes 0xFFFFFFFF ++ [] := rfl
    rw [hdrop, wordAt_wordBytes]
    rfl
  have hle : (0xFFFFFFFF00000000 : UInt64).toNat ≤ (0xFFFFFFFF00000000 ||| w.toUInt64).toNat := by
    rw [UInt64.toNat_or]
    exact Nat.left_le_or
  rw [hhigh, longOf]
  apply BitVec.toInt_neg_iff.mpr
  change _ ≤ 2 * (0xFFFFFFFF00000000 ||| w.toUInt64).toNat
  have hbound : 2 ^ 64 ≤ 2 * (0xFFFFFFFF00000000 : UInt64).toNat := by decide
  omega

end YlUtils
