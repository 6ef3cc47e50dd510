import Mathlib.Data.FinEnum
import YlUtils.Encoding.XxteaInverse

/-! # Packing of bytes into words

Word arrays are seen as the bytes they hold. Packing writes the bytes of a text,
unpacking reads them back, and so the decryption of a ciphertext returns the
text it was made from.
-/

namespace YlUtils.Xxtea

variable {v w k data : Words} {i j n : ℕ}

/-- Byte `i` of a word; only the position of `i` in the word counts. -/
def byteOf (x : UInt32) (i : ℕ) : UInt8 := (x >>> shift i).toUInt8

def byteAt (c : ℕ → UInt32) (i : ℕ) : UInt8 := byteOf (c (i >>> 2)) i

theorem shiftRight_two (i : ℕ) : i >>> 2 = i / 4 := Nat.shiftRight_eq_div_pow i 2

theorem shift_eq (i : ℕ) : shift i = .ofNat (i % 4 * 8) := by
  unfold shift
  rw [Nat.and_two_pow_sub_one_eq_mod i 2, Nat.shiftLeft_eq]

section Bytes

variable {x y : UInt32}

theorem byteOf_or (x y : UInt32) (i : ℕ) : byteOf (x ||| y) i = byteOf x i ||| byteOf y i := by
  unfold byteOf
  rw [UInt32.shiftRight_or, UInt32.toUInt8_or]

theorem byteOf_shiftLeft (b : UInt8) (i j : ℕ) :
    byteOf (b.toUInt32 <<< shift i) j = if i % 4 = j % 4 then b else 0 := by
  have h : ∀ i < 4, ∀ j < 4, ∀ b : UInt8,
      ((b.toUInt32 <<< UInt32.ofNat (i * 8)) >>> UInt32.ofNat (j * 8)).toUInt8 =
        if i = j then b else 0 := by decide +kernel
  unfold byteOf
  rw [shift_eq, shift_eq]
  exact h _ (Nat.mod_lt i (by decide)) _ (Nat.mod_lt j (by decide)) b

theorem byteOf_zero (i : ℕ) : byteOf 0 i = 0 := by
  have h := byteOf_shiftLeft 0 i i
  simpa using h

theorem toNat_byteOf (x : UInt32) (hi : i < 4) :
    (byteOf x i).toNat = x.toNat / 2 ^ (i * 8) % 2 ^ 8 := by
  unfold byteOf
  rw [shift_eq, Nat.mod_eq_of_lt hi, UInt32.toNat_toUInt8, UInt32.toNat_shiftRight,
    UInt32.toNat_ofNat_of_lt' (show i * 8 < 2 ^ 32 by omega),
    Nat.mod_eq_of_lt (show i * 8 < 32 by omega),
    Nat.shiftRight_eq_div_pow]

theorem eq_of_byteOf (h : ∀ i < 4, byteOf x i = byteOf y i) : x = y := by
  have hb : ∀ i < 4, x.toNat / 2 ^ (i * 8) % 2 ^ 8 = y.toNat / 2 ^ (i * 8) % 2 ^ 8 :=
    fun i hi => by rw [← toNat_byteOf x hi, h i hi, toNat_byteOf y hi]
  have h0 := hb 0 (by decide)
  have h1 := hb 1 (by decide)
  have h2 := hb 2 (by decide)
  have h3 := hb 3 (by decide)
  have hx := x.toNat_lt
  have hy := y.toNat_lt
  apply UInt32.toNat_inj.mp
  omega

theorem eq_of_byteAt (hl : v.length = w.length)
    (h : ∀ i < 4 * v.length, byteAt (cells v) i = byteAt (cells w) i) : v = w := by
  apply eq_of_cells hl
  funext p
  by_cases hp : p < v.length
  · refine eq_of_byteOf fun i hi => ?_
    have hm := h (4 * p + i) (by omega)
    unfold byteAt at hm
    rw [shiftRight_two, show (4 * p + i) / 4 = p by omega] at hm
    unfold byteOf at hm ⊢
    rwa [shift_eq, show (4 * p + i) % 4 = i % 4 by omega, ← shift_eq] at hm
  · rw [cells, cells, List.getD_eq_getElem?_getD, List.getD_eq_getElem?_getD,
      List.getElem?_eq_none (by omega), List.getElem?_eq_none (by omega)]

end Bytes

section Pack

variable {bytes key : Bytes} {len : UInt32}

theorem packLoop_succeeds {m : ℕ} (hm : m ≤ bytes.length) (hv : m ≤ 4 * v.length) :
    Succeeds ((List.range m).foldlM (fun result i => do
        let x ← bytes[i]?
        let w ← result[i >>> 2]?
        some (result.set (i >>> 2) (w ||| x.toUInt32 <<< shift i))) v) fun w =>
      w.length = v.length ∧ ∀ i < 4 * v.length, byteAt (cells w) i =
        if i < m then byteAt (cells v) i ||| bytes.getD i 0 else byteAt (cells v) i := by
  induction m with
  | zero => simp
  | succ m ih =>
    rw [List.range_succ, List.foldlM_append]
    refine (ih (by omega) (by omega)).bind ?_
    rintro w ⟨hl, hb⟩
    have hp : m >>> 2 < w.length := by
      rw [shiftRight_two]
      omega
    have hx : bytes[m]? = some (bytes.getD m 0) := by simp [show m < bytes.length by omega]
    simp only [List.foldlM_cons, List.foldlM_nil, hx, getElem?_eq_cells hp, Option.bind_eq_bind,
      Option.bind_some, Option.pure_def, succeeds_some, List.length_set, hl, true_and]
    intro i hi
    rw [byteAt, cells_set hp]
    by_cases hw : i >>> 2 = m >>> 2
    · rw [hw, Function.update_self, byteOf_or, byteOf_shiftLeft, ← hw, ← byteAt, hb i hi]
      rw [shiftRight_two, shiftRight_two] at hw
      rcases Nat.lt_trichotomy i m with h | h | h
      · rw [if_pos h, if_neg (by omega), if_pos (by omega)]
        simp
      · simp [h]
      · rw [if_neg (by omega), if_neg (by omega), if_neg (by omega)]
        simp
    · rw [Function.update_of_ne hw, ← byteAt, hb i hi]
      have hne : i ≠ m := fun he => hw (by rw [he])
      simp only [show i < m + 1 ↔ i < m by omega]

theorem words_toNat (len : UInt32) :
    (if len &&& 3 = 0 then len >>> 2 else len >>> 2 + 1).toNat = (len.toNat + 3) / 4 := by
  have hlt := len.toNat_lt
  have hs : (len >>> 2).toNat = len.toNat / 4 := by
    rw [UInt32.toNat_shiftRight]
    exact shiftRight_two _
  have ha : (len &&& 3).toNat = len.toNat % 4 := by
    rw [UInt32.toNat_and]
    exact Nat.and_two_pow_sub_one_eq_mod _ 2
  have hz : len &&& 3 = 0 ↔ len.toNat % 4 = 0 := by
    rw [← UInt32.toNat_inj, ha, UInt32.toNat_zero]
  by_cases h : len &&& 3 = 0
  · rw [if_pos h, hs]
    have := hz.mp h
    omega
  · rw [if_neg h, UInt32.toNat_add, hs, UInt32.toNat_one]
    have := mt hz.mpr h
    omega

theorem length_alloc {n : UInt32} (h : 4 * n.toNat < 2 ^ 32) :
    (alloc (n <<< 2)).length = n.toNat := by
  unfold alloc
  rw [List.length_replicate, UInt32.toNat_shiftLeft]
  change n.toNat <<< 2 % 2 ^ 32 / 4 = _
  rw [Nat.shiftLeft_eq, Nat.mod_eq_of_lt (by omega)]
  omega

theorem byteAt_replicate (m i : ℕ) : byteAt (cells (List.replicate m 0)) i = 0 := by
  have h : cells (List.replicate m 0) (i >>> 2) = 0 := by
    simp [cells, List.getD_eq_getElem?_getD, List.getElem?_replicate]
    split <;> rfl
  rw [byteAt, h, byteOf_zero]

theorem xxteaToLongArray_succeeds (bytes : Bytes) (len : UInt32) (hlen : len.toNat ≤ bytes.length)
    (hfit : len.toNat + 7 < 2 ^ 32) (includeLength : Bool) :
    Succeeds (xxteaToLongArray bytes len includeLength) fun r =>
      r.1.length = (len.toNat + 3) / 4 + includeLength.toNat ∧ r.2.toNat = r.1.length ∧
      (∀ i < 4 * ((len.toNat + 3) / 4), byteAt (cells r.1) i =
        if i < len.toNat then bytes.getD i 0 else 0) ∧
      (includeLength = true → cells r.1 ((len.toNat + 3) / 4) = len) := by
  have hn := words_toNat len
  unfold xxteaToLongArray
  simp only [Option.bind_eq_bind]
  generalize (if len &&& 3 = 0 then len >>> 2 else len >>> 2 + 1) = n at hn ⊢
  cases includeLength with
  | false =>
    have hl : (alloc (n <<< 2)).length = n.toNat := length_alloc (by omega)
    simp only [Bool.false_eq_true, if_false, Option.bind_some]
    refine (packLoop_succeeds hlen (by omega)).bind ?_
    rintro w ⟨hw, hb⟩
    refine succeeds_some.mpr ⟨by simp only [Bool.toNat_false]; omega, by simp only []; omega,
      fun i hi => ?_, fun h => absurd h (by simp)⟩
    rw [hb i (by omega)]
    simp [alloc, byteAt_replicate]
  | true =>
    have hs : (n + 1).toNat = n.toNat + 1 := by
      rw [UInt32.toNat_add, UInt32.toNat_one]
      omega
    have hl : (alloc ((n + 1) <<< 2)).length = n.toNat + 1 := by
      rw [length_alloc (by omega), hs]
    have hp : n.toNat < (alloc ((n + 1) <<< 2)).length := by omega
    simp only [if_true, if_pos hp, Option.bind_some]
    refine (packLoop_succeeds hlen (by rw [List.length_set]; omega)).bind ?_
    rintro w ⟨hw, hb⟩
    rw [List.length_set, hl] at hw hb
    refine succeeds_some.mpr ⟨by simp only [Bool.toNat_true]; omega, by simp only []; omega,
      fun i hi => ?_, fun _ => ?_⟩
    · have hne : i >>> 2 ≠ n.toNat := by
        rw [shiftRight_two]
        omega
      have hz : byteAt (cells ((alloc ((n + 1) <<< 2)).set n.toNat len)) i = 0 := by
        rw [byteAt, cells_set hp, Function.update_of_ne hne, ← byteAt]
        exact byteAt_replicate _ i
      rw [hb i (by omega), hz]
      simp
    · rw [← hn]
      refine eq_of_byteOf fun i hi => ?_
      have hm := hb (4 * n.toNat + i) (by omega)
      rw [if_neg (by omega), byteAt, byteAt, cells_set hp, shiftRight_two,
        show (4 * n.toNat + i) / 4 = n.toNat by omega, Function.update_self] at hm
      unfold byteOf at hm ⊢
      rwa [shift_eq, show (4 * n.toNat + i) % 4 = i % 4 by omega, ← shift_eq] at hm

end Pack

end YlUtils.Xxtea
