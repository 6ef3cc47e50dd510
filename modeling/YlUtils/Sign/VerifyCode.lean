import YlUtils.Sign.Signature

/-! # Verify codes with tags

The blocks of a verify code are read until the block or the file ends, not until
the part that is looked at ends. So the last block reads on into an ID3v1 tag,
and the code changes unless the hash value does not.
-/

namespace YlUtils.FileSignature

def blockHash (j : ℕ) (fp : Bytes) : UInt32 := (packetLoop j 0 fp).1

section Hash

variable {j : ℕ} {fp s t : Bytes}

theorem packetLoop_nil (j : ℕ) (hashvalue : UInt32) :
    packetLoop j hashvalue [] = (hashvalue, []) := by
  cases j with
  | zero => rfl
  | succ j => rw [packetLoop, if_pos rfl]

theorem blockHash_nil (j : ℕ) : blockHash j [] = 0 := by
  rw [blockHash, packetLoop_nil]

theorem packetLoop_eq (j : ℕ) (hashvalue : UInt32) (fp : Bytes) :
    packetLoop j hashvalue fp = (hashvalue ^^^ blockHash j fp, fp.drop (j * packetSize)) := by
  induction j generalizing hashvalue fp with
  | zero => simp [packetLoop, blockHash]
  | succ j ih =>
    by_cases hfp : fp = []
    · rw [hfp, packetLoop_nil, blockHash_nil, UInt32.xor_zero, List.drop_nil]
    · unfold blockHash
      simp only [packetLoop, if_neg hfp]
      rw [ih, ih (0 ^^^ _), List.drop_drop, UInt32.zero_xor, UInt32.xor_assoc, Nat.add_one_mul,
        Nat.add_comm]

theorem blockHash_succ (j : ℕ) (fp : Bytes) : blockHash (j + 1) fp =
    calcHash (fp.take packetSize) ^^^ blockHash j (fp.drop packetSize) := by
  by_cases hfp : fp = []
  · rw [hfp, blockHash_nil, List.take_nil, List.drop_nil, blockHash_nil]
    rfl
  · rw [blockHash, packetLoop, if_neg hfp, packetLoop_eq, UInt32.zero_xor]

theorem blockHash_append (h : j * packetSize ≤ s.length) :
    blockHash j (s ++ t) = blockHash j s := by
  induction j generalizing s with
  | zero => rfl
  | succ j ih =>
    rw [Nat.add_one_mul] at h
    rw [blockHash_succ, blockHash_succ, List.take_append_of_le_length (by omega),
      List.drop_append_of_le_length (by omega), ih (by rw [List.length_drop]; omega)]

/-- The bytes `t` behind `s` leave the hash value as it is: those that fall into the last
packet of `s`, which is the packet number `i` of `j`, and those that are a packet of their own. -/
def Harmless (j : ℕ) (s t : Bytes) : Prop :=
  let o := s.length % packetSize
  let i := s.length / packetSize
  let p := s.drop (s.length - o)
  calcHash p = calcHash (p ++ t.take (packetSize - o)) ^^^
    (if i + 1 = j then 0 else calcHash (t.drop (packetSize - o)))

instance (j : ℕ) (s t : Bytes) : Decidable (Harmless j s t) :=
  inferInstanceAs (Decidable (_ = _))

theorem blockHash_short (h : s.length ≤ packetSize) :
    blockHash j s = if j = 0 then 0 else calcHash s := by
  cases j with
  | zero => rfl
  | succ j =>
    rw [blockHash_succ, List.take_of_length_le h, List.drop_of_length_le h, blockHash_nil,
      UInt32.xor_zero, if_neg (Nat.succ_ne_zero j)]

theorem harmless_drop (h : packetSize ≤ s.length) :
    Harmless j (s.drop packetSize) t ↔ Harmless (j + 1) s t := by
  have hmod : (s.length - packetSize) % packetSize = s.length % packetSize := by
    rw [← Nat.mod_eq_sub_mod h]
  have hdiv : s.length / packetSize = (s.length - packetSize) / packetSize + 1 :=
    Nat.div_eq_sub_div (by decide) h
  have hle : s.length % packetSize ≤ s.length - packetSize := hmod ▸ Nat.mod_le _ _
  have hdrop : packetSize + (s.length - packetSize - s.length % packetSize) =
      s.length - s.length % packetSize := by omega
  unfold Harmless
  simp only [List.length_drop, hmod, hdiv, List.drop_drop, hdrop, Nat.add_right_cancel_iff]

/-- A block that is not full keeps its hash value exactly if what follows is harmless. -/
theorem blockHash_append_iff (h : s.length < j * packetSize) (ht : t.length ≤ packetSize) :
    blockHash j (s ++ t) = blockHash j s ↔ Harmless j s t := by
  induction j generalizing s with
  | zero => omega
  | succ j ih =>
    rw [blockHash_succ, blockHash_succ]
    by_cases hs : s.length < packetSize
    · have htail : (t.drop (packetSize - s.length)).length ≤ packetSize := by
        rw [List.length_drop]
        omega
      rw [List.take_append, List.take_of_length_le (by omega), List.drop_append,
        List.drop_of_length_le (by omega), List.nil_append, blockHash_nil, UInt32.xor_zero,
        blockHash_short htail, Harmless]
      simp only [Nat.mod_eq_of_lt hs, Nat.div_eq_of_lt hs, Nat.sub_self, List.drop_zero,
        Nat.zero_add, Nat.right_eq_add, eq_comm]
    · have hrest : (s.drop packetSize).length = s.length - packetSize := List.length_drop
      rw [List.take_append_of_le_length (by omega), List.drop_append_of_le_length (by omega)]
      rw [Nat.add_one_mul] at h
      rw [UInt32.xor_right_inj, ih (by omega), harmless_drop (by omega)]

end Hash

section Code

variable {x y : UInt32} {bs n : ℕ} {code fp fp' : Bytes}

theorem xnumToDigit_inj : ∀ a b : Fin 16,
    xnumToDigit (UInt8.ofNat a) = xnumToDigit (UInt8.ofNat b) → a = b := by
  decide +kernel

theorem toNat_digit (x s : UInt32) (hs : s.toNat < 32) :
    (x >>> s &&& 0xf).toNat = x.toNat / 2 ^ s.toNat % 16 := by
  rw [UInt32.toNat_and, UInt32.toNat_shiftRight, Nat.mod_eq_of_lt hs, Nat.shiftRight_eq_div_pow]
  exact Nat.and_two_pow_sub_one_eq_mod _ 4

theorem digit_eq (s : UInt32) (hs : s.toNat < 32)
    (h : xnumToDigit (x >>> s &&& 0xf).toUInt8 = xnumToDigit (y >>> s &&& 0xf).toUInt8) :
    x.toNat / 2 ^ s.toNat % 16 = y.toNat / 2 ^ s.toNat % 16 := by
  have hx := toNat_digit x s hs
  have hy := toNat_digit y s hs
  have hlt : ∀ n, n % 16 < 16 := fun n => Nat.mod_lt n (by decide)
  have hdigit := xnumToDigit_inj ⟨_, hlt _⟩ ⟨_, hlt _⟩ (show xnumToDigit (.ofNat (x.toNat /
    2 ^ s.toNat % 16)) = xnumToDigit (.ofNat (y.toNat / 2 ^ s.toNat % 16)) by rwa [← hx, ← hy])
  exact Fin.mk.inj hdigit

theorem div_eq_of_digit {m n : ℕ} (k : ℕ) (h : m / 2 ^ (k + 4) = n / 2 ^ (k + 4))
    (hdigit : m / 2 ^ k % 16 = n / 2 ^ k % 16) : m / 2 ^ k = n / 2 ^ k := by
  rw [pow_add, ← Nat.div_div_eq_div_mul, ← Nat.div_div_eq_div_mul] at h
  calc m / 2 ^ k = 16 * (m / 2 ^ k / 16) + m / 2 ^ k % 16 := (Nat.div_add_mod _ _).symm
    _ = 16 * (n / 2 ^ k / 16) + n / 2 ^ k % 16 := congrArg₂ (16 * · + ·) h hdigit
    _ = n / 2 ^ k := Nat.div_add_mod _ _

theorem dectoHexStr_injective : Function.Injective dectoHexStr := by
  intro x y h
  simp only [dectoHexStr, List.map_cons, List.map_nil, List.cons.injEq, and_true] at h
  obtain ⟨h₇, h₆, h₅, h₄, h₃, h₂, h₁, h₀⟩ := h
  have h32 : x.toNat / 2 ^ 32 = y.toNat / 2 ^ 32 := by
    rw [Nat.div_eq_of_lt x.toNat_lt, Nat.div_eq_of_lt y.toNat_lt]
  have h28 := div_eq_of_digit 28 h32 (digit_eq 28 (by decide) h₇)
  have h24 := div_eq_of_digit 24 h28 (digit_eq 24 (by decide) h₆)
  have h20 := div_eq_of_digit 20 h24 (digit_eq 20 (by decide) h₅)
  have h16 := div_eq_of_digit 16 h20 (digit_eq 16 (by decide) h₄)
  have h12 := div_eq_of_digit 12 h16 (digit_eq 12 (by decide) h₃)
  have h8 := div_eq_of_digit 8 h12 (digit_eq 8 (by decide) h₂)
  have h4 := div_eq_of_digit 4 h8 (digit_eq 4 (by decide) h₁)
  have h0 := div_eq_of_digit 0 h4 (digit_eq 0 (by decide) h₀)
  rw [pow_zero, Nat.div_one, Nat.div_one] at h0
  exact UInt32.toNat_inj.mp h0

theorem length_dectoHexStr (x : UInt32) : (dectoHexStr x).length = 8 := rfl

theorem blockLoop_inj {code' : Bytes} (h : code.length = code'.length) :
    blockLoop bs n code fp = blockLoop bs n code' fp' ↔ code = code' ∧ ∀ i < n,
      blockHash bs (fp.drop (i * (bs * packetSize))) =
        blockHash bs (fp'.drop (i * (bs * packetSize))) := by
  induction n generalizing code code' fp fp' with
  | zero => simp [blockLoop]
  | succ n ih =>
    simp only [blockLoop, packetLoop_eq, UInt32.zero_xor]
    rw [ih (by simp only [List.length_append, length_dectoHexStr, h])]
    constructor
    · rintro ⟨hcode, hrest⟩
      obtain ⟨rfl, hhex⟩ := List.append_inj hcode h
      refine ⟨rfl, fun i hi => ?_⟩
      cases i with
      | zero => simpa using dectoHexStr_injective hhex
      | succ i => simpa [Nat.succ_mul, Nat.add_comm, List.drop_drop] using hrest i (by omega)
    · rintro ⟨rfl, hblocks⟩
      refine ⟨?_, fun i hi => ?_⟩
      · rw [show blockHash bs fp = blockHash bs fp' by simpa using hblocks 0 (by omega)]
      · simpa [Nat.succ_mul, Nat.add_comm, List.drop_drop] using hblocks (i + 1) (by omega)

end Code

section Tags

variable {body t : Bytes}

def blockLength (filesize : ℕ) : ℕ := blockSize filesize * packetSize

theorem blockLength_pos (n : ℕ) : 0 < blockLength n := by
  unfold blockLength blockSize packetSize
  split_ifs <;> decide

theorem blocknum_full {n : ℕ} (h : blockLength n ∣ n ∨ 2 ^ 31 ≤ n / blockLength n + 1) :
    (blocknum n).toNat ≤ n / blockLength n := by
  change (if n % blockLength n ≠ 0 then wrapInt (wrapInt (n / blockLength n : ℕ) + 1)
    else wrapInt (n / blockLength n : ℕ)).toNat ≤ _
  generalize n / blockLength n = q at *
  have hwrap : wrapInt q ≤ q := wrapInt_le (by omega)
  by_cases hdvd : n % blockLength n = 0
  · rw [if_neg (not_not.mpr hdvd)]
    omega
  · have hnext := wrapInt_lt (wrapInt q + 1)
    have hlarge := h.resolve_left fun hd => hdvd (Nat.mod_eq_zero_of_dvd hd)
    rw [if_pos hdvd]
    omega

theorem blocknum_part {n : ℕ} (h : ¬blockLength n ∣ n) (h31 : n / blockLength n + 1 < 2 ^ 31) :
    (blocknum n).toNat = n / blockLength n + 1 := by
  change (if n % blockLength n ≠ 0 then wrapInt (wrapInt (n / blockLength n : ℕ) + 1)
    else wrapInt (n / blockLength n : ℕ)).toNat = _
  rw [if_pos (fun hd => h (Nat.dvd_of_mod_eq_zero hd))]
  generalize n / blockLength n = q at *
  rw [@wrapInt_of_lt q (by omega) (by omega), wrapInt_of_lt (by omega) (by omega)]
  rfl

/-- The bytes `t` behind the body leave the code as it is: the last block is full, or the
number of the blocks exceeds `int`, or the hash value of the last block stays the same. -/
def KeepsCode (body t : Bytes) : Prop :=
  blockLength body.length ∣ body.length ∨ 2 ^ 31 ≤ body.length / blockLength body.length + 1 ∨
    Harmless (blockSize body.length)
      (body.drop (body.length / blockLength body.length * blockLength body.length)) t

theorem blockHash_full {i : ℕ} (hi : i < body.length / blockLength body.length) :
    blockHash (blockSize body.length) ((body ++ t).drop (i * blockLength body.length)) =
      blockHash (blockSize body.length) (body.drop (i * blockLength body.length)) := by
  have hfits : (i + 1) * blockLength body.length ≤ body.length :=
    (Nat.mul_le_mul_right _ hi).trans (Nat.div_mul_le_self _ _)
  rw [Nat.add_one_mul] at hfits
  rw [List.drop_append_of_le_length (by omega), blockHash_append]
  rw [List.length_drop]
  exact Nat.le_sub_of_add_le' hfits

/-- The code depends on what follows the body exactly if the last block does. -/
theorem blockLoop_append (ht : t.length ≤ packetSize) :
    blockLoop (blockSize body.length) (blocknum body.length).toNat [] (body ++ t) =
      blockLoop (blockSize body.length) (blocknum body.length).toNat [] body ↔
        KeepsCode body t := by
  have hB := blockLength_pos body.length
  rw [blockLoop_inj rfl, eq_self_iff_true, true_and]
  by_cases hfull : blockLength body.length ∣ body.length ∨
      2 ^ 31 ≤ body.length / blockLength body.length + 1
  · have hle := blocknum_full hfull
    exact ⟨fun _ => or_assoc.mp (.inl hfull), fun _ i hi => blockHash_full (by omega)⟩
  · obtain ⟨hdvd, h31⟩ := not_or.mp hfull
    rw [blocknum_part hdvd (by omega), KeepsCode, ← or_assoc, or_iff_right hfull]
    have hq := Nat.div_mul_le_self body.length (blockLength body.length)
    have hlast : blockHash (blockSize body.length) ((body ++ t).drop
          (body.length / blockLength body.length * blockLength body.length)) =
        blockHash (blockSize body.length) (body.drop
          (body.length / blockLength body.length * blockLength body.length)) ↔
        Harmless (blockSize body.length) (body.drop
          (body.length / blockLength body.length * blockLength body.length)) t := by
      rw [List.drop_append_of_le_length hq, blockHash_append_iff _ ht]
      rw [List.length_drop]
      have := Nat.div_add_mod' body.length (blockLength body.length)
      have := Nat.mod_lt body.length hB
      change _ < blockLength body.length
      omega
    rw [← hlast]
    constructor
    · intro h
      exact h _ (Nat.lt_succ_self _)
    · intro h i hi
      rcases Nat.lt_succ_iff_lt_or_eq.mp hi with hi | rfl
      · exact blockHash_full hi
      · exact h

/-- The code of a file with tags is that of the file without them exactly if there is no ID3v1
tag or its bytes leave the code as it is. -/
theorem genFileVerifyCode_tagged_iff (filepath filepath' : Bytes) (h : IsMp3Path filepath)
    (h' : IsMp3Path filepath') (hbody : Untagged body) (v2 : Option Id3v2) (v1 : Option Id3v1) :
    ∃ code code', genFileVerifyCode filepath (some (tagged v2 body v1)) = some (some code) ∧
      genFileVerifyCode filepath' (some body) = some (some code') ∧
        (code = code' ↔ ∀ t ∈ v1, KeepsCode body t.bytes) := by
  have hcode : ∀ path, IsMp3Path path → ∀ v2 v1, genFileVerifyCode path
      (some (tagged v2 body v1)) = some (some (blockLoop (blockSize body.length)
        (blocknum body.length).toNat [] (body ++ v1.elim [] Id3v1.bytes))) := by
    intro path hpath v2 v1
    obtain ⟨ext, hext, hmp3⟩ := hpath.extension
    unfold genFileVerifyCode
    simp only [hext, Option.bind_eq_bind, Option.bind_some, virtualFile_tagged hmp3 hbody]
    rw [if_neg (List.length_pos_iff.mpr hbody.ne_nil).ne', tagged, List.drop_left]
  have hnone := hcode filepath' h' none none
  rw [tagged, Option.elim_none, Option.elim_none, List.nil_append, List.append_nil] at hnone
  refine ⟨_, _, hcode filepath h v2 v1, hnone, ?_⟩
  cases v1 with
  | none => simp
  | some t =>
    have ht : t.bytes.length ≤ packetSize := by
      rw [Id3v1.bytes, List.length_append, t.length_eq]
      decide
    rw [Option.elim_some, blockLoop_append ht]
    simp

/-- A file of one byte before an empty ID3v1 tag. -/
theorem genFileVerifyCode_tagged_iff_byte : ∃ code code',
    genFileVerifyCode [97, 46, 109, 112, 51] (some (tagged none [1]
      (some ⟨List.replicate 125 0, List.length_replicate⟩))) = some (some code) ∧
    genFileVerifyCode [97, 46, 109, 112, 51] (some [1]) = some (some code') ∧
      (code = code' ↔ ∀ t ∈ some (⟨List.replicate 125 0, List.length_replicate⟩ : Id3v1),
        KeepsCode [1] t.bytes) :=
  genFileVerifyCode_tagged_iff _ _ ⟨[97], [109, 112, 51], by decide, by decide⟩
    ⟨[97], [109, 112, 51], by decide, by decide⟩ ⟨by decide, by decide, by decide⟩ none _

/-- The tag behind a file of one byte changes the code. -/
theorem genFileVerifyCode_tagged_ne : IsMp3Path [97, 46, 109, 112, 51] ∧ Untagged [1] ∧
    genFileVerifyCode [97, 46, 109, 112, 51] (some (tagged none [1]
        (some ⟨List.replicate 125 0, List.length_replicate⟩))) ≠
      genFileVerifyCode [97, 46, 109, 112, 51] (some [1]) :=
  ⟨⟨[97], [109, 112, 51], by decide, by decide⟩, ⟨by decide, by decide, by decide⟩,
    by decide +kernel⟩

end Tags

end YlUtils.FileSignature
