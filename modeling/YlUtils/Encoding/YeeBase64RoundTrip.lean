import YlUtils.Encoding.Base64RoundTrip
import YlUtils.Encoding.YeeBase64

/-! # Decoding with the same key

The last group of an encoding may hold bits of the memory behind the data, and
the decoder drops them. Combining with the key twice changes nothing, so that a
text is decoded to the data whenever the encoder gets to an end: its loops do
so unless the key has no bytes to use or the loop variable overflows.
-/

namespace YlUtils.YeeBase64

open Base64 (two_four_bits four_two_bits byte_parts byte_join exists_groups length_of_groups
  append_of_groups)

section Characters

theorem charOf_spec : ∀ v : UInt8, v < 64 → (charOf v ≠ 0 ∧ charOf v ≠ pad) ∧
    isBase64 (charOf v) = true ∧ wordOf (charOf v) = v.toUInt64 := by decide +kernel

theorem charOf_ne (v : UInt8) (h : v < 64) : charOf v ≠ 0 ∧ charOf v ≠ pad := (charOf_spec v h).1

theorem isBase64_charOf (v : UInt8) (h : v < 64) : isBase64 (charOf v) = true :=
  (charOf_spec v h).2.1

theorem wordOf_charOf (v : UInt8) (h : v < 64) : wordOf (charOf v) = v.toUInt64 :=
  (charOf_spec v h).2.2

theorem nextBase64Char_charOf {v : UInt8} (h : v < 64) (p : Bytes) :
    nextBase64Char (charOf v :: p) = some (charOf v, p) := by
  rw [nextBase64Char, if_neg fun hc => hc.2 (isBase64_charOf v h)]

theorem isBase64_pad : isBase64 pad = true := by simp [isBase64]

theorem nextBase64Char_pad (p : Bytes) : nextBase64Char (pad :: p) = some (pad, p) := by
  rw [nextBase64Char, if_neg fun hc => hc.2 isBase64_pad]

theorem nextBase64Char_zero (p : Bytes) : nextBase64Char (0 :: p) = some (0, p) := by
  rw [nextBase64Char, if_neg fun hc => hc.1 rfl]

theorem shifted_bits : ∀ v : UInt8, v < 64 →
    ((v.toUInt64 <<< 18) >>> 16).toUInt8 = v <<< 2 ∧
    ((v.toUInt64 <<< 12) >>> 16).toUInt8 = v >>> 4 ∧
    ((v.toUInt64 <<< 18) >>> 8).toUInt8 = 0 ∧
    ((v.toUInt64 <<< 12) >>> 8).toUInt8 = v <<< 4 ∧
    ((v.toUInt64 <<< 6) >>> 8).toUInt8 = v >>> 2 ∧
    (v.toUInt64 <<< 18).toUInt8 = 0 ∧ (v.toUInt64 <<< 12).toUInt8 = 0 ∧
    (v.toUInt64 <<< 6).toUInt8 = v <<< 6 := by decide +kernel

theorem toUInt8_mask (x : UInt64) : ((0xff : UInt64) &&& x).toUInt8 = x.toUInt8 := by
  rw [UInt64.toUInt8_and]
  exact UInt8.and_comm _ _ |>.trans (UInt8.and_neg_one)

end Characters

section Quadruplets

variable {v₁ v₂ v₃ v₄ : UInt8}

theorem quadruplet_four (h₁ : v₁ < 64) (h₂ : v₂ < 64) (h₃ : v₃ < 64) (h₄ : v₄ < 64)
    (p q : Bytes) :
    quadruplet (charOf v₁ :: charOf v₂ :: charOf v₃ :: charOf v₄ :: p) q =
      some (.continued p (q ++ [v₁ <<< 2 ||| v₂ >>> 4, v₂ <<< 4 ||| v₃ >>> 2,
        v₃ <<< 6 ||| v₄])) := by
  obtain ⟨hhi₁, -, hmid₁, -, -, hlo₁, -, -⟩ := shifted_bits v₁ h₁
  obtain ⟨-, hhi₂, -, hmid₂, -, -, hlo₂, -⟩ := shifted_bits v₂ h₂
  obtain ⟨-, -, -, -, hmid₃, -, -, hlo₃⟩ := shifted_bits v₃ h₃
  simp only [quadruplet, nextBase64Char_charOf, h₁, h₂, h₃, h₄, charOf_ne, wordOf_charOf,
    Option.bind_eq_bind, Option.bind_some, if_false, toUInt8_mask, UInt64.shiftRight_or,
    UInt64.toUInt8_or, hhi₁, hhi₂, hmid₁, hmid₂, hmid₃, hlo₁, hlo₂, hlo₃]
  simp

theorem quadruplet_three (h₁ : v₁ < 64) (h₂ : v₂ < 64) (h₃ : v₃ < 64) (p q : Bytes) :
    quadruplet (charOf v₁ :: charOf v₂ :: charOf v₃ :: pad :: p) q =
      some (.continued p (q ++ [v₁ <<< 2 ||| v₂ >>> 4, v₂ <<< 4 ||| v₃ >>> 2])) := by
  obtain ⟨hhi₁, -, hmid₁, -, -, -, -, -⟩ := shifted_bits v₁ h₁
  obtain ⟨-, hhi₂, -, hmid₂, -, -, -, -⟩ := shifted_bits v₂ h₂
  obtain ⟨-, -, -, -, hmid₃, -, -, -⟩ := shifted_bits v₃ h₃
  simp only [quadruplet, nextBase64Char_charOf, nextBase64Char_pad, h₁, h₂, h₃, charOf_ne,
    wordOf_charOf, Option.bind_eq_bind, Option.bind_some, if_false, if_true, toUInt8_mask,
    UInt64.shiftRight_or, UInt64.toUInt8_or, hhi₁, hhi₂, hmid₁, hmid₂, hmid₃]
  simp [pad]

theorem quadruplet_two (h₁ : v₁ < 64) (h₂ : v₂ < 64) (p q : Bytes) :
    quadruplet (charOf v₁ :: charOf v₂ :: pad :: pad :: p) q =
      some (.continued p (q ++ [v₁ <<< 2 ||| v₂ >>> 4])) := by
  obtain ⟨hhi₁, -, -, -, -, -, -, -⟩ := shifted_bits v₁ h₁
  obtain ⟨-, hhi₂, -, -, -, -, -, -⟩ := shifted_bits v₂ h₂
  simp only [quadruplet, nextBase64Char_charOf, nextBase64Char_pad, h₁, h₂, charOf_ne,
    wordOf_charOf, Option.bind_eq_bind, Option.bind_some, if_false, if_true,
    UInt64.shiftRight_or, UInt64.toUInt8_or, hhi₁, hhi₂]
  simp [pad]

theorem quadruplet_zero (p q : Bytes) : quadruplet (0 :: p) q = some (.finished q) := by
  rw [quadruplet, nextBase64Char_zero]
  rfl

end Quadruplets

section Decoding

theorem low_four_bits : ∀ v : UInt8, v <<< 4 = (v &&& 0x0f) <<< 4 := by decide +kernel

theorem low_two_bits : ∀ v : UInt8, v <<< 6 = (v &&& 0x03) <<< 6 := by decide +kernel

theorem first_byte (a : UInt8) {y : UInt8} (hy : y < 16) :
    ((a &&& 3) <<< 4) + y < 64 ∧ (a >>> 2) <<< 2 ||| (((a &&& 3) <<< 4) + y) >>> 4 = a := by
  obtain ⟨-, ha, -⟩ := byte_parts a
  obtain ⟨hlt, hhi, -⟩ := two_four_bits _ ha y hy
  refine ⟨hlt, ?_⟩
  rw [hhi]
  exact (byte_join a).1

theorem second_byte (a b : UInt8) {z : UInt8} (hz : z < 4) :
    ((b &&& 0xf) <<< 2) + z < 64 ∧
      (((a &&& 3) <<< 4) + (b >>> 4)) <<< 4 ||| (((b &&& 0xf) <<< 2) + z) >>> 2 = b := by
  obtain ⟨-, ha, -⟩ := byte_parts a
  obtain ⟨-, -, hhi, hlo, -⟩ := byte_parts b
  obtain ⟨-, -, hlow⟩ := two_four_bits _ ha _ hhi
  obtain ⟨hlt, hhigh, -⟩ := four_two_bits _ hlo z hz
  refine ⟨hlt, ?_⟩
  rw [low_four_bits, hlow, hhigh]
  exact (byte_join b).2.1

theorem third_byte (b c : UInt8) :
    (((b &&& 0xf) <<< 2) + (c >>> 6)) <<< 6 ||| (c &&& 0x3f) = c := by
  obtain ⟨-, -, -, hb, -⟩ := byte_parts b
  obtain ⟨-, -, -, -, hc, -⟩ := byte_parts c
  obtain ⟨-, -, hlow⟩ := four_two_bits _ hb _ hc
  rw [low_two_bits, hlow]
  exact (byte_join c).2.2

/-- The characters for all bytes, where `t` follows them in memory. -/
def encoded (t : UInt8) : Bytes → Bytes
  | a :: b :: c :: d => quad a b c ++ encoded t d
  | [a, b] => [charOf (a >>> 2), charOf (((a &&& 3) <<< 4) + (b >>> 4)),
      charOf (((b &&& 0xf) <<< 2) + (t >>> 6)), pad]
  | [a] => [charOf (a >>> 2), charOf (((a &&& 3) <<< 4) + (t >>> 4)), pad, pad]
  | [] => []

theorem decodeLoop_encoded (t : UInt8) (d rest : Bytes) {n : ℕ} (hn : d.length < n) (q : Bytes) :
    decodeLoop n (encoded t d ++ 0 :: rest) q = some (wrapInt (q ++ d).length, q ++ d) := by
  induction d using encoded.induct generalizing n q with
  | case1 a b c d ih =>
    obtain ⟨n, rfl⟩ := Nat.exists_eq_add_one_of_ne_zero (Nat.ne_zero_of_lt hn)
    simp only [List.length_cons] at hn
    obtain ⟨ha, -⟩ := byte_parts a
    obtain ⟨-, -, hb, -⟩ := byte_parts b
    obtain ⟨-, -, -, -, hc, hc'⟩ := byte_parts c
    obtain ⟨h₁, e₁⟩ := first_byte a hb
    obtain ⟨h₂, e₂⟩ := second_byte a b hc
    have hquad := quadruplet_four ha h₁ h₂ hc' (encoded t d ++ 0 :: rest) q
    rw [e₁, e₂, third_byte] at hquad
    simp only [encoded, quad, List.cons_append, List.nil_append, decodeLoop, hquad,
      Option.bind_eq_bind, Option.bind_some]
    rw [ih (by omega), List.append_assoc]
    rfl
  | case2 a b =>
    obtain ⟨n, rfl⟩ : ∃ m, n = m + 2 := ⟨n - 2, by simp only [List.length_cons] at hn; omega⟩
    obtain ⟨ha, -⟩ := byte_parts a
    obtain ⟨-, -, hb, -⟩ := byte_parts b
    obtain ⟨-, -, -, -, ht, -⟩ := byte_parts t
    obtain ⟨h₁, e₁⟩ := first_byte a hb
    obtain ⟨h₂, e₂⟩ := second_byte a b ht
    have hquad := quadruplet_three ha h₁ h₂ (0 :: rest) q
    rw [e₁, e₂] at hquad
    simp only [encoded, List.cons_append, List.nil_append, decodeLoop, hquad, quadruplet_zero,
      Option.bind_eq_bind, Option.bind_some]
  | case3 a =>
    obtain ⟨n, rfl⟩ : ∃ m, n = m + 2 := ⟨n - 2, by simp only [List.length_cons] at hn; omega⟩
    obtain ⟨ha, -⟩ := byte_parts a
    obtain ⟨-, -, ht, -⟩ := byte_parts t
    obtain ⟨h₁, e₁⟩ := first_byte a ht
    have hquad := quadruplet_two ha h₁ (0 :: rest) q
    rw [e₁] at hquad
    simp only [encoded, List.cons_append, List.nil_append, decodeLoop, hquad, quadruplet_zero,
      Option.bind_eq_bind, Option.bind_some]
  | case4 =>
    obtain ⟨n, rfl⟩ := Nat.exists_eq_add_one_of_ne_zero (Nat.ne_zero_of_lt hn)
    simp only [encoded, List.nil_append, decodeLoop, quadruplet_zero, Option.bind_eq_bind,
      Option.bind_some, List.append_nil]

end Decoding

section Encoding

variable {t t' : UInt8} {tail : Bytes}

theorem length_encoded (t : UInt8) (d : Bytes) :
    (encoded t d).length = (d.length + 2) / 3 * 4 :=
  length_of_groups (q := quad) (fun _ _ _ _ => rfl) (fun _ _ _ => rfl) (fun _ _ => rfl)
    (fun _ => rfl) rfl d

theorem encoded_append {e : Bytes} (he : 3 ∣ e.length) (d : Bytes) :
    encoded t (e ++ d) = encoded t e ++ encoded t d :=
  append_of_groups (q := quad) (fun _ _ _ _ => rfl) (fun _ _ _ _ => rfl) rfl he d

/-- The characters that the loop writes, where `t` and `t'` follow the bytes in memory. -/
def unpadded (t t' : UInt8) : Bytes → Bytes
  | a :: b :: c :: d => quad a b c ++ unpadded t t' d
  | [a, b] => quad a b t
  | [a] => quad a t t'
  | [] => []

theorem unpadded_append {e : Bytes} (he : 3 ∣ e.length) (d : Bytes) :
    unpadded t t' (e ++ d) = encoded t e ++ unpadded t t' d :=
  append_of_groups (q := quad) (fun _ _ _ _ => rfl) (fun _ _ _ _ => rfl) rfl he d

theorem encodeLoop_of_le {length i : ℤ} (h : length ≤ i) (s : Bytes) :
    encodeLoop length s i = some ([], i) := by
  unfold encodeLoop
  split <;> rw [if_neg (by omega)]

theorem encodeLoop_cons {length i : ℤ} (hi : 0 ≤ i) (hl : i < length) (h : i + 3 < 2 ^ 31)
    (a b c : UInt8) (s : Bytes) :
    encodeLoop length (a :: b :: c :: s) i =
      (fun r => (quad a b c ++ r.1, r.2)) <$> encodeLoop length s (i + 3) := by
  have hwrap : wrapInt (i + 3) = i + 3 := wrapInt_of_lt (by omega) h
  rw [encodeLoop, if_pos hl, hwrap]
  cases encodeLoop length s (i + 3) <;> rfl

theorem encodeLoop_groups {e : Bytes} (he : 3 ∣ e.length) {length i : ℤ} (hi : 0 ≤ i)
    (hl : i + e.length ≤ length) (h : i + e.length < 2 ^ 31) (s : Bytes) :
    encodeLoop length (e ++ s) i =
      (fun r => (encoded t e ++ r.1, r.2)) <$> encodeLoop length s (i + e.length) := by
  induction e using encoded.induct generalizing i with
  | case1 a b c e ih =>
    simp only [List.length_cons] at he
    have hlen : ((a :: b :: c :: e).length : ℤ) = 3 + e.length := by
      simp only [List.length_cons]
      omega
    rw [hlen] at hl h ⊢
    rw [List.cons_append, List.cons_append, List.cons_append,
      encodeLoop_cons hi (by omega) (by omega),
      ih (by omega) (by omega) (by omega) (by omega), Int.add_assoc]
    cases encodeLoop length s (i + (3 + e.length)) with
    | none => rfl
    | some r => simp [encoded]
  | case2 a b => exact absurd he (by simp)
  | case3 a => exact absurd he (by simp)
  | case4 =>
    rw [List.length_nil, List.nil_append, Int.natCast_zero, Int.add_zero]
    cases encodeLoop length s i <;> rfl

/-- The loop ends at the first multiple of three that is not below the length, if `int` has it. -/
theorem encodeLoop_append (t t' : UInt8) (tail d : Bytes)
    (hend : (d.length + 2) / 3 * 3 < 2 ^ 31) :
    encodeLoop d.length (d ++ t :: t' :: tail) 0 =
      some (unpadded t t' d, (((d.length + 2) / 3 * 3 : ℕ) : ℤ)) := by
  obtain ⟨e, r, rfl, he, hr⟩ := exists_groups d
  rw [List.length_append] at hend ⊢
  rw [List.append_assoc, encodeLoop_groups (t := t) he le_rfl (by omega) (by omega),
    unpadded_append he, Int.zero_add]
  have hgroups : (e.length + r.length + 2) / 3 * 3 = e.length + (r.length + 2) / 3 * 3 := by omega
  rw [hgroups] at hend ⊢
  rcases r with - | ⟨a, - | ⟨b, - | ⟨c, r⟩⟩⟩
  · rw [encodeLoop_of_le (by simp)]
    rfl
  · simp only [List.length_cons, List.length_nil] at hend ⊢
    rw [List.cons_append, List.nil_append, encodeLoop_cons (by omega) (by omega) (by omega),
      encodeLoop_of_le (by omega)]
    rfl
  · simp only [List.length_cons, List.length_nil] at hend ⊢
    rw [List.cons_append, List.cons_append, List.nil_append,
      encodeLoop_cons (by omega) (by omega) (by omega), encodeLoop_of_le (by omega)]
    rfl
  · simp only [List.length_cons] at hr
    omega

/-- Where the loop variable overflows, the loop reads to the end of the memory. -/
theorem encodeLoop_overflow (s : Bytes) {i : ℤ} (hs : 3 ∣ s.length) (hi : 0 ≤ i)
    (hlt : i < 2 ^ 31 - 1) (hend : i + s.length = 2 ^ 31 + 1) :
    encodeLoop (2 ^ 31 - 1) s i = none := by
  induction s using encoded.induct generalizing i with
  | case1 a b c s ih =>
    simp only [List.length_cons] at hs hend
    rcases s with - | ⟨e, s⟩
    · obtain rfl : i = 2 ^ 31 - 2 := by simp only [List.length_nil] at hend; omega
      rfl
    · simp only [List.length_cons] at hs hend ih
      rw [encodeLoop_cons hi hlt (by omega), ih (by omega) (by omega) (by omega) (by omega)]
      rfl
  | case2 a b => exact absurd hs (by simp)
  | case3 a => exact absurd hs (by simp)
  | case4 =>
    simp only [List.length_nil] at hend
    omega

theorem padAt_append {p' : Bytes} {k : ℕ} (hk : k ≤ p'.length) (p : Bytes) :
    padAt (p ++ p') k = some (p ++ p'.set (p'.length - k) pad) := by
  rw [padAt, List.length_append, if_pos (by omega), List.set_append_right _ _ (by omega)]
  congr 3
  omega

theorem padResult_unpadded (d : Bytes) (h : d.length + 1 < 2 ^ 31) :
    padResult (unpadded t t' d) ((d.length + 2) / 3 * 3 : ℕ) d.length = some (encoded t d) := by
  have hone : wrapInt (d.length + 1) = d.length + 1 := wrapInt_of_lt (by omega) (by omega)
  obtain ⟨e, r, rfl, he, hr⟩ := exists_groups d
  rw [unpadded_append he, encoded_append he, padResult, hone]
  rw [List.length_append] at h ⊢
  rcases r with - | ⟨a, - | ⟨b, - | ⟨c, r⟩⟩⟩
  · have hgroups : (e.length + 0 + 2) / 3 * 3 = e.length + 0 := by omega
    rw [List.length_nil, hgroups, if_neg (by omega),
      if_neg (wrapInt_add_ne (by decide) (by decide)).symm]
    rfl
  · simp only [List.length_cons, List.length_nil] at h ⊢
    have htwo : wrapInt ((e.length + (0 + 1) : ℕ) + 2) = (e.length + (0 + 1) : ℕ) + 2 :=
      wrapInt_of_lt (by omega) (by omega)
    rw [if_neg (by omega), if_pos (by omega), unpadded, padAt_append (by simp [quad]),
      Option.bind_eq_bind, Option.bind_some, padAt_append (by simp [quad])]
    rfl
  · simp only [List.length_cons, List.length_nil] at h ⊢
    rw [if_pos (by omega), unpadded, padAt_append (by simp [quad])]
    rfl
  · simp only [List.length_cons] at hr
    omega

theorem base64Encode_eq (d : Bytes) (h : d.length + 1 < 2 ^ 31) :
    base64Encode (d ++ t :: t' :: tail) d.length =
      some (encoded t d ++ [0], wrapInt (encoded t d).length) := by
  have hloop := encodeLoop_append t t' tail d (by omega)
  rw [base64Encode, hloop, Option.bind_eq_bind, Option.bind_some]
  simp only [padResult_unpadded d h]
  rfl

theorem base64Encode_overflow (d : Bytes) (h : d.length + 1 = 2 ^ 31) :
    base64Encode (d ++ [t, t']) d.length = none := by
  have happ : (d ++ [t, t']).length = d.length + 2 := by simp
  have hloop := encodeLoop_overflow (d ++ [t, t']) (i := 0) (by omega) le_rfl (by decide)
    (by omega)
  have hlen : (d.length : ℤ) = 2 ^ 31 - 1 := by omega
  rw [base64Encode, hlen, hloop]
  rfl

end Encoding

section Keys

variable {key todo out : Bytes} {rounds : ℕ}

theorem xorPass_eq (key todo : Bytes) :
    xorPass key todo = (List.zipWith (· ^^^ ·) todo key, todo.drop key.length) := by
  induction key generalizing todo with
  | nil => simp [xorPass]
  | cons x key ih =>
    cases todo with
    | nil => simp [xorPass]
    | cons b todo =>
      rw [xorPass, ih]
      rfl

/-- What an inner loop has changed is changed back by one over the same bytes. -/
theorem xorPass_changed (key todo rest : Bytes) (h : todo.drop key.length = [] → rest = []) :
    xorPass key (List.zipWith (· ^^^ ·) todo key ++ rest) = (todo.take key.length, rest) := by
  induction key generalizing todo with
  | nil => simp [xorPass]
  | cons x key ih =>
    cases todo with
    | nil =>
      rw [h rfl]
      rfl
    | cons b todo =>
      rw [List.zipWith_cons_cons, List.cons_append, xorPass, ih todo h, UInt8.xor_assoc,
        UInt8.xor_self, UInt8.xor_zero]
      rfl

theorem xorLoop_succ (h : todo ≠ []) : xorLoop key (rounds + 1) todo =
    ((xorPass key todo).1 ++ ·) <$> xorLoop key rounds (xorPass key todo).2 := by
  cases todo with
  | nil => exact absurd rfl h
  | cons b todo => rw [xorLoop]

theorem xorLoop_succeeds (h : todo = [] ∨ key ≠ []) (hr : todo.length ≤ rounds) :
    Succeeds (xorLoop key rounds todo) fun out =>
      out.length = todo.length ∧ xorLoop key rounds out = some todo := by
  induction rounds generalizing todo with
  | zero =>
    obtain rfl : todo = [] := List.length_eq_zero_iff.mp (by omega)
    exact ⟨[], rfl, rfl, rfl⟩
  | succ rounds ih =>
    cases todo with
    | nil => exact ⟨[], rfl, rfl, rfl⟩
    | cons b todo =>
      have hkey : key ≠ [] := h.resolve_left (List.cons_ne_nil b todo)
      have hpos : 0 < key.length := List.length_pos_iff.mpr hkey
      have hlen : ((b :: todo).drop key.length).length ≤ rounds := by
        simp only [List.length_drop, List.length_cons] at hr ⊢
        omega
      obtain ⟨out, hout, hsame, hback⟩ := ih (.inr hkey) hlen
      have hend : (b :: todo).drop key.length = [] → out = [] := fun hd => by
        rw [hd] at hsame
        exact List.length_eq_zero_iff.mp hsame
      have hlength : (List.zipWith (· ^^^ ·) (b :: todo) key ++ out).length =
          (b :: todo).length := by
        rw [List.length_append, List.length_zipWith, hsame, List.length_drop]
        omega
      have hne : List.zipWith (· ^^^ ·) (b :: todo) key ++ out ≠ [] := by
        rw [← List.length_pos_iff, hlength]
        exact Nat.succ_pos _
      refine ⟨List.zipWith (· ^^^ ·) (b :: todo) key ++ out, ?_, hlength, ?_⟩
      · rw [xorLoop_succ (List.cons_ne_nil b todo), xorPass_eq, hout]
        rfl
      · rw [xorLoop_succ hne, xorPass_changed key (b :: todo) out hend, hback]
        exact congrArg some (List.take_append_drop key.length (b :: todo))

theorem length_xorLoop (h : xorLoop key rounds todo = some out) : out.length = todo.length := by
  induction rounds generalizing todo out with
  | zero =>
    cases todo with
    | nil => cases h; rfl
    | cons b todo => cases h
  | succ rounds ih =>
    cases todo with
    | nil => cases h; rfl
    | cons b todo =>
      rw [xorLoop_succ (List.cons_ne_nil b todo), xorPass_eq] at h
      obtain ⟨rest, hrest, rfl⟩ := Option.map_eq_some_iff.mp h
      rw [List.length_append, List.length_zipWith, ih hrest, List.length_drop]
      omega

theorem xorLoop_nil (h : todo ≠ []) : xorLoop [] rounds todo = none := by
  induction rounds with
  | zero =>
    cases todo with
    | nil => exact absurd rfl h
    | cons b todo => rfl
  | succ rounds ih =>
    rw [xorLoop_succ h, xorPass_eq, List.length_nil, List.drop_zero, ih]
    rfl

theorem keyOf_eq_nil_iff (xorString : Bytes) :
    keyOf xorString = [] ↔ wrapInt (strlen xorString) ≤ 0 := by
  rw [keyOf, List.take_eq_nil_iff]
  constructor
  · rintro (h | h)
    · omega
    · rw [strlen, h]
      decide
  · intro h
    exact .inl (by omega)

end Keys

section RoundTrip

/-- Whatever follows the data and the text in memory, both loops over the key end, and the decoder
returns the length of the data and restores them. -/
def RoundTrips (d xorString : Bytes) : Prop :=
  ∀ (t t' : UInt8) (tail rest : Bytes), ∃ rounds text n,
    base64EncodeXor rounds d d.length xorString (t :: t' :: tail) = some (some (text, n)) ∧
    base64DecodeXor rounds (text ++ rest) xorString = some (some ((d.length : ℤ), d))

variable {d xorString : Bytes}

theorem base64Decode_encoded (t : UInt8) (h : d.length < 2 ^ 31) (rest : Bytes) :
    base64Decode (encoded t d ++ 0 :: rest) = some ((d.length : ℤ), d) := by
  have hlen : d.length < (encoded t d ++ 0 :: rest).length + 1 := by
    rw [List.length_append, length_encoded, List.length_cons]
    omega
  rw [base64Decode, decodeLoop_encoded t d rest hlen, List.nil_append,
    wrapInt_of_lt (by omega) (by omega)]

theorem roundTrips_of_key (h : d.length + 1 < 2 ^ 31) (hkey : d = [] ∨ keyOf xorString ≠ []) :
    RoundTrips d xorString := by
  intro t t' tail rest
  obtain ⟨tmp, htmp, hlen, hback⟩ := xorLoop_succeeds hkey (Nat.le_refl d.length)
  refine ⟨d.length, encoded t tmp ++ [0], wrapInt (encoded t tmp).length, ?_, ?_⟩
  · rw [base64EncodeXor, if_neg (by omega), Int.toNat_natCast, List.take_length, htmp,
      Option.map_eq_map, Option.map_some, ← hlen, base64Encode_eq tmp (by omega)]
  · have hdecode := base64Decode_encoded (d := tmp) t (by omega) rest
    have htake : tmp.take d.length = tmp := List.take_of_length_le hlen.le
    have hdrop : tmp.drop d.length = [] := List.drop_of_length_le hlen.le
    rw [base64DecodeXor, List.append_assoc, List.singleton_append, hdecode, hlen]
    simp only []
    rw [if_neg (by omega), Int.toNat_natCast, htake, hdrop, hback]
    simp

theorem not_roundTrips_of_overflow (h : d.length + 1 = 2 ^ 31) : ¬ RoundTrips d xorString := by
  intro htrips
  obtain ⟨rounds, text, n, hencode, -⟩ := htrips 0 0 [] []
  rw [base64EncodeXor, if_neg (by omega), Int.toNat_natCast, List.take_length] at hencode
  obtain ⟨tmp, htmp, hnone⟩ := Option.map_eq_some_iff.mp hencode
  rw [← length_xorLoop htmp, base64Encode_overflow tmp (by rw [length_xorLoop htmp, h])] at hnone
  cases hnone

theorem not_roundTrips_of_nil (h : keyOf xorString = []) (hd : d ≠ []) :
    ¬ RoundTrips d xorString := by
  intro htrips
  obtain ⟨rounds, text, n, hencode, -⟩ := htrips 0 0 [] []
  rw [base64EncodeXor, if_neg (by omega), Int.toNat_natCast, List.take_length, h,
    xorLoop_nil hd] at hencode
  cases hencode

/-- Data are restored exactly if the loop variable of the encoder does not overflow, and the length
of the key, as an `int`, is positive unless there are no data. -/
theorem roundTrips_iff (d xorString : Bytes) (h : d.length < 2 ^ 31) :
    RoundTrips d xorString ↔
      d.length ≤ 2147483646 ∧ (d = [] ∨ 0 < wrapInt (strlen xorString)) := by
  constructor
  · intro htrips
    constructor
    · by_contra hlong
      exact not_roundTrips_of_overflow (by omega) htrips
    · by_contra hkey
      rw [not_or, Int.not_lt] at hkey
      exact not_roundTrips_of_nil ((keyOf_eq_nil_iff xorString).mpr hkey.2) hkey.1 htrips
  · rintro ⟨hlong, hkey⟩
    refine roundTrips_of_key (by omega) (hkey.imp_right fun hpos hnil => ?_)
    have := (keyOf_eq_nil_iff xorString).mp hnil
    omega

theorem roundTrips_iff_four : RoundTrips [1, 0, 255, 7] [107, 101, 121, 0] ↔
    ([1, 0, 255, 7] : Bytes).length ≤ 2147483646 ∧
      (([1, 0, 255, 7] : Bytes) = [] ∨ 0 < wrapInt (strlen [107, 101, 121, 0])) :=
  roundTrips_iff [1, 0, 255, 7] [107, 101, 121, 0] (by decide)

/-- The greatest `int` many bytes are not restored, with a key of one byte. -/
theorem greatest_not_roundTrips :
    (List.replicate 2147483647 (1 : UInt8)).length < 2 ^ 31 ∧
      ¬ RoundTrips (List.replicate 2147483647 1) [107, 0] := by
  rw [List.length_replicate]
  refine ⟨by decide, not_roundTrips_of_overflow ?_⟩
  rw [List.length_replicate]
  decide

end RoundTrip

end YlUtils.YeeBase64
