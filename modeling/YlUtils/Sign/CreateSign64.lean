import YlUtils.Machine.Shifts
import YlUtils.Machine.Words
import YlUtils.Sign.UlPrime

/-! # Signatures of two words

`create_sign64` adds up the words of a string at odd and at even positions, rotates
both sums by the number of the words, and adds the tail. The rotation is not defined
for every length.
-/

namespace YlUtils.YeeString

open YeeSign (memcpyIn memcpyWord)

/-- `strcpy` to `n` bytes that are zero. -/
def strcpyIn (n : ℕ) (src : Bytes) : Option Bytes :=
  if 0 ∈ src ∧ strlen src < n then some (cstr src ++ List.replicate (n - strlen src) 0) else none

def wordIn (mem : Bytes) (pos : ℕ) : Option UInt32 :=
  if pos + 4 ≤ mem.length then some (wordAt (mem.drop pos)) else none

def addWord (strSrc : Bytes) (sign : UInt32 × UInt32) (i : ℕ) : Option (UInt32 × UInt32) := do
  let word ← wordIn strSrc (i * 4)
  if i % 2 = 1 then some (sign.1 + word, sign.2) else some (sign.1, sign.2 + word)

def rotateWord (x : UInt32) (times : ℤ) : Option UInt32 :=
  (rotate x.toBitVec times).map UInt32.ofBitVec

def tailLength (slen : ℤ) : ℤ := slen - slen / 4 * 4

def createSign64 (strSrc : Bytes) (slen : ℤ) : Option (UInt32 × UInt32) :=
  if slen ≤ 8 then do
    let tstr ← strcpyIn 9 strSrc
    some (wordAt tstr, wordAt (tstr.drop 4))
  else do
    let times := slen / 4
    let sign ← (List.range times.toNat).foldlM (addWord strSrc) (0, 0)
    let sign1 ← rotateWord sign.1 (times % 32)
    let sign2 ← rotateWord sign.2 (times % 32)
    let tint ← memcpyIn (strSrc.drop (times * 4).toNat) (tailLength slen)
    some (sign1 + tint, sign2 + tint)

def createSign64Pair (strSrc : Bytes) : Option (UInt32 × UInt32) := do
  let n ← strlenIn strSrc
  createSign64 strSrc (wrapInt n)

/-- `create_sign64` of a C string to an `unsigned long`: the sum is the amount of the shift. -/
def createSign64Packed (strSrc : Bytes) : Option UInt64 := do
  let (sig1, sig2) ← createSign64Pair strSrc
  let psign := sig1.toUInt64
  let psign ← shiftLeft psign.toBitVec (32 + sig2).toNat
  some (.ofBitVec psign)

def shiftAmounts (slen : ℤ) : List ℤ := [slen / 4 % 32, 32 - slen / 4 % 32]

/-- All shifts have amounts below the number of bits, so that the call returns, and the tail leaves
room in its word. -/
structure WellDefined (strSrc : Bytes) (slen : ℤ) : Prop where
  shifts : ∀ n ∈ shiftAmounts slen, 0 ≤ n ∧ n ≤ 31
  returns : (createSign64 strSrc slen).isSome
  tail : 0 ≤ tailLength slen ∧ tailLength slen ≤ 3

def wordSum (mem : Bytes) (r : ℕ) : ℕ → UInt32
  | 0 => 0
  | k + 1 => if k % 2 = r then wordSum mem r k + wordAt (mem.drop (k * 4)) else wordSum mem r k

variable {mem s : Bytes} {slen : ℤ}

section Counted

theorem addWord_foldlM {k : ℕ} (h : k * 4 ≤ mem.length) :
    (List.range k).foldlM (addWord mem) (0, 0) = some (wordSum mem 1 k, wordSum mem 0 k) := by
  induction k with
  | zero => rfl
  | succ k ih =>
    have hword : wordIn mem (k * 4) = some (wordAt (mem.drop (k * 4))) := if_pos (by omega)
    rw [List.range_succ, List.foldlM_append, ih (by omega)]
    change (addWord mem (wordSum mem 1 k, wordSum mem 0 k) k).bind some = _
    rw [Option.bind_fun_some, addWord, hword, wordSum, wordSum]
    rcases Nat.mod_two_eq_zero_or_one k with h0 | h1
    · rw [h0]
      rfl
    · rw [h1]
      rfl

def tailWord (mem : Bytes) (slen : ℤ) : UInt32 :=
  memcpyWord ((mem.drop (slen / 4 * 4).toNat).take (tailLength slen).toNat)

theorem tail_spec (h₀ : 0 ≤ slen) (hmem : slen ≤ mem.length) :
    memcpyIn (mem.drop (slen / 4 * 4).toNat) (tailLength slen) = some (tailWord mem slen) := by
  refine if_pos ⟨?_, ?_, ?_⟩
  · unfold tailLength
    omega
  · unfold tailLength
    omega
  · unfold tailLength
    rw [List.length_drop]
    omega

theorem createSign64_eq (h8 : 8 < slen) (hmem : slen ≤ mem.length) :
    createSign64 mem slen =
      (rotateWord (wordSum mem 1 (slen / 4).toNat) (slen / 4 % 32)).bind fun sign1 =>
        (rotateWord (wordSum mem 0 (slen / 4).toNat) (slen / 4 % 32)).bind fun sign2 =>
          some (sign1 + tailWord mem slen, sign2 + tailWord mem slen) := by
  rw [createSign64, if_neg (by omega)]
  dsimp only
  rw [addWord_foldlM (by omega), tail_spec (by omega) hmem]
  rfl

theorem createSign64_of_ne (h8 : 8 < slen) (hmem : slen ≤ mem.length)
    (htimes : slen / 4 % 32 ≠ 0) :
    createSign64 mem slen =
      some (.ofBitVec ((wordSum mem 1 (slen / 4).toNat).toBitVec.rotateLeft (slen / 4 % 32).toNat) +
          tailWord mem slen,
        .ofBitVec ((wordSum mem 0 (slen / 4).toNat).toBitVec.rotateLeft (slen / 4 % 32).toNat) +
          tailWord mem slen) := by
  rw [createSign64_eq h8 hmem, rotateWord, rotateWord, rotate_of_lt _ (by omega) (by omega),
    rotate_of_lt _ (by omega) (by omega)]
  rfl

theorem createSign64_of_eq (h8 : 8 < slen) (hmem : slen ≤ mem.length)
    (htimes : slen / 4 % 32 = 0) : createSign64 mem slen = none := by
  rw [createSign64_eq h8 hmem, rotateWord, htimes, rotate_zero]
  rfl

/-- The call is defined exactly if the number of words is no multiple of the bits of one. -/
theorem wellDefined_iff (h8 : 8 < slen) (hmem : slen ≤ mem.length) :
    WellDefined mem slen ↔ slen / 4 % 32 ≠ 0 := by
  constructor
  · rintro ⟨-, hreturns, -⟩ htimes
    rw [createSign64_of_eq h8 hmem htimes] at hreturns
    cases hreturns
  · intro htimes
    refine ⟨?_, ?_, ?_⟩
    · intro n hn
      simp only [shiftAmounts, List.mem_cons, List.not_mem_nil, or_false] at hn
      rcases hn with rfl | rfl
      · omega
      · omega
    · rw [createSign64_of_ne h8 hmem htimes]
      rfl
    · unfold tailLength
      omega

/-- Twelve letters. -/
theorem wellDefined_iff_twelve :
    WellDefined (List.replicate 12 97) 12 ↔ (12 : ℤ) / 4 % 32 ≠ 0 :=
  wellDefined_iff (by decide) (by decide)

/-- For 128 letters a word is shifted to the right by 32 bits. -/
theorem not_wellDefined : ¬ WellDefined (List.replicate 128 97) 128 := by
  intro h
  have hshift := h.shifts 32 (by decide)
  omega

end Counted

section Packed

/-- The string has at most four characters, or its words at even positions, added up and rotated by
the number of the words, are with the tail added zero. -/
def HasNoSecondWord (s : Bytes) : Prop :=
  let slen := wrapInt s.length
  s.length ≤ 4 ∨ 8 < slen ∧ slen / 4 % 32 ≠ 0 ∧
    (.ofBitVec ((wordSum (s ++ [0]) 0 (slen / 4).toNat).toBitVec.rotateLeft
      (slen / 4 % 32).toNat) : UInt32) + tailWord (s ++ [0]) slen = 0

/-- The `unsigned long` consists of the words of the two-word signature, which can be read from
it. -/
def Packs (s : Bytes) : Prop :=
  ∃ sign1 sign2 sign, createSign64Pair (s ++ [0]) = some (sign1, sign2) ∧
    createSign64Packed (s ++ [0]) = some sign ∧
    sign.toNat = sign1.toNat * 2 ^ 32 + sign2.toNat ∧
    sign.toNat / 2 ^ 32 = sign1.toNat ∧ sign.toNat % 2 ^ 32 = sign2.toNat

theorem toNat_shifted (sig1 : UInt32) (n : ℕ) :
    (UInt64.ofBitVec (sig1.toUInt64.toBitVec <<< n)).toNat = sig1.toNat * 2 ^ n % 2 ^ 64 := by
  rw [UInt64.toNat_ofBitVec, BitVec.toNat_shiftLeft, UInt64.toNat_toBitVec, UInt32.toNat_toUInt64,
    Nat.shiftLeft_eq]

/-- If a shift by the sum leaves both words, the second one is zero. -/
theorem eq_zero_of_shifted {sig1 sig2 : UInt32}
    (h : sig1.toNat * 2 ^ (32 + sig2).toNat % 2 ^ 64 = sig1.toNat * 2 ^ 32 + sig2.toNat) :
    sig2 = 0 := by
  have h1 := sig1.toNat_lt
  have h2 := sig2.toNat_lt
  have hsum : (32 + sig2).toNat = (32 + sig2.toNat) % 2 ^ 32 := UInt32.toNat_add 32 sig2
  apply UInt32.toNat_inj.mp
  rcases Nat.lt_or_ge (32 + sig2.toNat) (2 ^ 32) with hlt | hge
  · -- the low half of what is shifted by more than it has bits is zero
    rw [hsum, Nat.mod_eq_of_lt hlt, Nat.pow_add, ← Nat.mul_assoc, Nat.mul_right_comm] at h
    have hlow := congrArg (· % 2 ^ 32) h
    rw [Nat.mod_mod_of_dvd _ (by decide), Nat.mul_mod_left] at hlow
    rw [UInt32.toNat_zero]
    omega
  · -- the sum wraps around, and the shift is too short
    have hpow : 2 ^ (32 + sig2).toNat ≤ 2 ^ 32 := Nat.pow_le_pow_right (by decide) (by omega)
    have hle := Nat.mul_le_mul_left sig1.toNat hpow
    have hmod := Nat.mod_le (sig1.toNat * 2 ^ (32 + sig2).toNat) (2 ^ 64)
    omega

theorem packed_iff (sig1 sig2 : UInt32) :
    (∃ sign, (shiftLeft sig1.toUInt64.toBitVec (32 + sig2).toNat).map UInt64.ofBitVec = some sign ∧
      sign.toNat = sig1.toNat * 2 ^ 32 + sig2.toNat) ↔ sig2 = 0 := by
  constructor
  · rintro ⟨sign, hsign, hvalue⟩
    obtain ⟨x, hx, rfl⟩ := Option.map_eq_some_iff.mp hsign
    unfold shiftLeft at hx
    split at hx
    · obtain rfl := Option.some.inj hx
      rw [Int.toNat_natCast, toNat_shifted] at hvalue
      exact eq_zero_of_shifted hvalue
    · cases hx
  · rintro rfl
    have h1 := sig1.toNat_lt
    have hamount : ((32 + 0 : UInt32).toNat : ℤ).toNat = 32 := rfl
    refine ⟨_, rfl, ?_⟩
    rw [hamount, toNat_shifted, UInt32.toNat_zero]
    omega

theorem createSign64Packed_eq {sig1 sig2 : UInt32} (h : createSign64Pair mem = some (sig1, sig2)) :
    createSign64Packed mem =
      (shiftLeft sig1.toUInt64.toBitVec (32 + sig2).toNat).map UInt64.ofBitVec := by
  rw [createSign64Packed, h]
  cases hshift : shiftLeft sig1.toUInt64.toBitVec (32 + sig2).toNat with
  | none => exact congrArg (Option.bind · _) hshift
  | some psign => exact congrArg (Option.bind · _) hshift

theorem packs_iff_second :
    Packs s ↔ ∃ sign1, createSign64Pair (s ++ [0]) = some (sign1, 0) := by
  constructor
  · rintro ⟨sign1, sign2, sign, hpair, hsign, hvalue, -⟩
    rw [createSign64Packed_eq hpair] at hsign
    obtain rfl := (packed_iff sign1 sign2).mp ⟨sign, hsign, hvalue⟩
    exact ⟨sign1, hpair⟩
  · rintro ⟨sign1, hpair⟩
    obtain ⟨sign, hsign, hvalue⟩ := (packed_iff sign1 0).mpr rfl
    have hlt := sign1.toNat_lt
    refine ⟨sign1, 0, sign, hpair, (createSign64Packed_eq hpair).trans hsign, hvalue, ?_, ?_⟩
    · rw [hvalue, UInt32.toNat_zero]
      omega
    · rw [hvalue, UInt32.toNat_zero]
      omega

theorem second_eq_zero_iff (hs : 0 ∉ s) (h8 : s.length ≤ 8) :
    wordAt ((s ++ List.replicate (9 - s.length) 0).drop 4) = 0 ↔ s.length ≤ 4 := by
  constructor
  · intro hzero
    by_contra hlong
    have hne : s.drop 4 ≠ [] := by
      rw [← List.length_pos_iff, List.length_drop]
      omega
    obtain ⟨c, t, hct⟩ := List.exists_cons_of_ne_nil hne
    rw [List.drop_append_of_le_length (by omega), hct, List.cons_append, wordAt,
      List.take_succ_cons, List.foldr_cons] at hzero
    have hc : c.toUInt32 = (0 : UInt8).toUInt32 := (UInt32.or_eq_zero_iff.mp hzero).2
    have hmem : c ∈ s := List.mem_of_mem_drop (hct ▸ List.mem_cons_self)
    exact hs (UInt8.toUInt32_inj.mp hc ▸ hmem)
  · intro h4
    have hfive : 9 - s.length - (4 - s.length) = 5 := by omega
    rw [List.drop_append, List.drop_of_length_le h4, List.nil_append, List.drop_replicate, hfive]
    rfl

/-- The `unsigned long` holds both words exactly if the second one is zero. -/
theorem packs_iff (hs : 0 ∉ s) : Packs s ↔ HasNoSecondWord s := by
  have hle := wrapInt_le (Int.natCast_nonneg s.length)
  have hmem : ((s ++ [0]).length : ℤ) = s.length + 1 := by simp
  have hpair : createSign64Pair (s ++ [0]) = createSign64 (s ++ [0]) (wrapInt s.length) := by
    rw [createSign64Pair, strlenIn_eq hs, Option.bind_eq_bind, Option.bind_some]
  rw [packs_iff_second, hpair]
  unfold HasNoSecondWord
  by_cases h8 : 8 < wrapInt s.length
  · have hlong : ¬ s.length ≤ 4 := by omega
    by_cases htimes : wrapInt s.length / 4 % 32 = 0
    · rw [createSign64_of_eq h8 (by omega) htimes]
      simp [hlong, htimes]
    · rw [createSign64_of_ne h8 (by omega) htimes]
      simp [hlong, htimes, h8]
  · rw [createSign64, if_pos (by omega), strcpyIn, strlen_append_zero hs, cstr_append_zero hs]
    by_cases hshort : s.length ≤ 8
    · rw [if_pos ⟨by simp, by omega⟩]
      simp [h8, second_eq_zero_iff hs hshort]
    · rw [if_neg fun h => hshort (by omega)]
      have hlong : ¬ s.length ≤ 4 := by omega
      simp [h8, hlong]

/-- Four letters. -/
theorem packs_iff_four : Packs [97, 98, 99, 100] ↔ HasNoSecondWord [97, 98, 99, 100] :=
  packs_iff (by decide)

/-- For five letters the word is shifted by 133 bits. -/
theorem not_packs : ¬ Packs [97, 98, 99, 100, 101] := by
  rintro ⟨sign1, sign2, sign, -, hsign, -⟩
  have hnone : createSign64Packed ([97, 98, 99, 100, 101] ++ [0]) = none := by decide
  rw [hnone] at hsign
  cases hsign

end Packed

end YlUtils.YeeString
