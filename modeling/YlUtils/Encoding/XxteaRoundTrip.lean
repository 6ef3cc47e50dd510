import YlUtils.Encoding.XxteaPacking

/-! # Encryption and decryption of texts

The decryption of the ciphertext of a text returns the text; the decryption of
any other ciphertext, when it returns a text, returns one that is shorter.
-/

namespace YlUtils.Xxtea

variable {v data : Words} {bytes key buf : Bytes} {len : UInt32}

/-- The first `m` bytes of the words. -/
def unpacked (v : Words) (m : ℕ) : Bytes := (List.range m).map (byteAt (cells v))

@[simp] theorem length_unpacked (v : Words) (m : ℕ) : (unpacked v m).length = m := by
  simp [unpacked]

theorem getD_unpacked (v : Words) {m i : ℕ} (hi : i < m) :
    (unpacked v m).getD i 0 = byteAt (cells v) i := by
  simp [unpacked, hi]

theorem unpackLoop_eq {m : ℕ} (hm : m ≤ 4 * v.length) :
    ((List.range m).mapM fun i =>
      v[i >>> 2]?.bind fun w => some (w >>> shift i &&& 0xff).toUInt8) = some (unpacked v m) := by
  refine mapM_eq_some fun i hi => ?_
  have hi := List.mem_range.mp hi
  rw [getElem?_eq_cells (by rw [shiftRight_two]; omega)]
  have hmask : ∀ b : UInt8, b &&& 0xff = b := by decide +kernel
  simp [byteAt, byteOf, hmask]

theorem toNat_shiftLeft_two (h : 4 * len.toNat < 2 ^ 32) : (len <<< 2).toNat = 4 * len.toNat := by
  rw [UInt32.toNat_shiftLeft]
  change len.toNat <<< 2 % 2 ^ 32 = _
  rw [Nat.shiftLeft_eq, Nat.mod_eq_of_lt (by omega)]
  omega

theorem xxteaToByteArray_false (hl : v.length = len.toNat) (h : 4 * len.toNat < 2 ^ 32) :
    xxteaToByteArray v len false = some (some (unpacked v (4 * len.toNat) ++ [0], len <<< 2)) := by
  have hn := toNat_shiftLeft_two h
  unfold xxteaToByteArray
  simp only [Bool.false_eq_true, false_and, if_false, Option.bind_eq_bind, Option.bind_some, hn]
  rw [unpackLoop_eq (by omega)]
  rfl

/-- The length word is accepted exactly when it points into the last packed word. -/
theorem xxteaToByteArray_true (hl : v.length = len.toNat) (h2 : 2 ≤ len.toNat)
    (h : 4 * len.toNat < 2 ^ 32) {m : UInt32} (hm : cells v (len.toNat - 1) = m) :
    xxteaToByteArray v len true =
      some (if 4 * len.toNat ≤ m.toNat + 7 ∧ m.toNat + 4 ≤ 4 * len.toNat then
        some (unpacked v m.toNat ++ [0], m) else none) := by
  have hn := toNat_shiftLeft_two h
  have h1 : (len - 1).toNat = len.toNat - 1 := by
    rw [UInt32.toNat_sub_of_le _ _ (by rw [UInt32.le_iff_toNat_le, UInt32.toNat_one]; omega),
      UInt32.toNat_one]
  have hsub : ∀ c : UInt32, c.toNat ≤ 4 * len.toNat →
      (len <<< 2 - c).toNat = 4 * len.toNat - c.toNat := fun c hc => by
    rw [UInt32.toNat_sub_of_le _ _ (by rw [UInt32.le_iff_toNat_le, hn]; exact hc), hn]
  have h7 : (len <<< 2 - 7).toNat = 4 * len.toNat - 7 := hsub 7 (by change 7 ≤ _; omega)
  have h4 : (len <<< 2 - 4).toNat = 4 * len.toNat - 4 := hsub 4 (by change 4 ≤ _; omega)
  unfold xxteaToByteArray
  simp only [if_true, h1, getElem?_eq_cells (show len.toNat - 1 < v.length by omega), hm,
    Option.bind_eq_bind, Option.bind_some, true_and, gt_iff_lt, UInt32.lt_iff_toNat_lt, h7, h4]
  by_cases hc : 4 * len.toNat ≤ m.toNat + 7 ∧ m.toNat + 4 ≤ 4 * len.toNat
  · rw [if_pos hc, if_neg (by omega), unpackLoop_eq (by omega)]
    rfl
  · rw [if_neg hc, if_pos (by omega)]

theorem key_succeeds (hk : 16 ≤ key.length) :
    Succeeds (xxteaToLongArray key 16 false) fun r => 4 ≤ r.1.length := by
  have h16 : (16 : UInt32).toNat = 16 := rfl
  refine (xxteaToLongArray_succeeds _ _ (h16 ▸ hk) (by decide) false).mono fun r hr => ?_
  rw [hr.1]
  decide

/-- No length word is accepted that is the only word: the lower bound wraps around. -/
theorem xxteaToByteArray_one (hl : v.length = 1) : xxteaToByteArray v 1 true = some none := by
  have hm : ∀ m : UInt32, m < (1 : UInt32) <<< 2 - 7 ∨ m > (1 : UInt32) <<< 2 - 4 := by
    intro m
    rcases eq_or_ne m 0 with rfl | hne
    · left
      decide
    · right
      exact UInt32.pos_iff_ne_zero.mpr hne
  unfold xxteaToByteArray
  have h0 : v[((1 : UInt32) - 1).toNat]? = some (cells v 0) :=
    getElem?_eq_cells (show 0 < v.length by omega)
  simp only [if_true, h0, Option.bind_eq_bind, Option.bind_some, true_and, hm]

theorem xxteaLongDecrypt_one (hl : v.length = 1) (k : Words) :
    xxteaLongDecrypt v 1 k = some v := by
  obtain ⟨x, rfl⟩ := List.length_eq_one_iff.mp hl
  rfl

theorem decrypt_succeeds (hlen : len.toNat ≤ bytes.length) (hfit : len.toNat + 7 < 2 ^ 32)
    (h1 : 0 < len.toNat) (hk : 16 ≤ key.length) :
    Succeeds (decrypt bytes len key) fun r => (len.toNat ≤ 4 → r = none) ∧
      ∀ b m, r = some (b, m) → ∃ text, b = text ++ [0] ∧
        4 * ((len.toNat + 3) / 4 - 1) ≤ text.length + 3 ∧
        text.length ≤ 4 * ((len.toNat + 3) / 4 - 1) := by
  unfold decrypt
  refine (xxteaToLongArray_succeeds _ _ hlen hfit false).bind ?_
  rintro ⟨v, vLen⟩ ⟨hl, hv, -, -⟩
  refine (key_succeeds hk).bind ?_
  rintro ⟨k, kLen⟩ hk
  simp only [Bool.toNat_false, Nat.add_zero] at hl hv hk
  by_cases hone : len.toNat ≤ 4
  · have hv1 : v.length = 1 := by omega
    have hvLen : vLen = 1 := UInt32.toNat_inj.mp (by rw [hv, hv1, UInt32.toNat_one])
    simp only [hvLen, xxteaLongDecrypt_one hv1, xxteaToByteArray_one hv1, Option.bind_eq_bind,
      Option.bind_some, succeeds_some]
    exact ⟨fun _ => trivial, fun b m hb => by cases hb⟩
  · refine (xxteaLongDecrypt_succeeds hv.symm (by omega) hk).bind ?_
    rintro w ⟨hw, -⟩
    rw [xxteaToByteArray_true hw (by omega) (by omega) rfl, succeeds_some]
    refine ⟨fun h4 => absurd h4 hone, fun b m hb => ?_⟩
    split at hb
    · next hc =>
      obtain ⟨rfl, rfl⟩ := Prod.mk.inj (Option.some.inj hb)
      refine ⟨_, rfl, ?_, ?_⟩ <;> rw [length_unpacked] <;> omega
    · exact absurd hb (by simp)

theorem encrypt_succeeds (hlen : len.toNat ≤ bytes.length) (hfit : len.toNat + 15 < 2 ^ 32)
    (h0 : 0 < len.toNat) (hk : 16 ≤ key.length) :
    Succeeds (encrypt bytes len key) fun r => ∃ c : Bytes,
      c.length = 4 * ((len.toNat + 3) / 4 + 1) ∧ r = some (c ++ [0], .ofNat c.length) ∧
      decrypt c (.ofNat c.length) key = some (some (bytes.take len.toNat ++ [0], len)) := by
  unfold encrypt
  refine (xxteaToLongArray_succeeds _ _ hlen (by omega) true).bind ?_
  rintro ⟨v, vLen⟩ ⟨hl, hv, hbytes, hword⟩
  obtain ⟨⟨k, kLen⟩, hkey, hk⟩ := key_succeeds hk
  rw [hkey]
  simp only [Bool.toNat_true, Option.bind_eq_bind, Option.bind_some] at hl hv hk hbytes hword ⊢
  refine (xxteaLongDecrypt_xxteaLongEncrypt hv.symm (by omega) hk).bind ?_
  rintro w ⟨hw, hdec⟩
  have hofNat : vLen <<< 2 = .ofNat (4 * vLen.toNat) := by
    rw [← toNat_shiftLeft_two (by omega), UInt32.ofNat_toNat]
  rw [xxteaToByteArray_false hw (by omega), succeeds_some]
  refine ⟨unpacked w (4 * vLen.toNat), by rw [length_unpacked]; omega,
    by rw [hofNat, length_unpacked], ?_⟩
  -- the bytes of the ciphertext pack into the words they were unpacked from
  have hc : (UInt32.ofNat (4 * vLen.toNat)).toNat = 4 * vLen.toNat :=
    UInt32.toNat_ofNat_of_lt' (show _ < 2 ^ 32 by omega)
  obtain ⟨⟨u, uLen⟩, hpack, hul, hu, hub, -⟩ := xxteaToLongArray_succeeds
    (unpacked w (4 * vLen.toNat)) (.ofNat (4 * vLen.toNat))
    (by rw [hc, length_unpacked]) (by rw [hc]; omega) false
  simp only [hc, Bool.toNat_false] at hul hu hub
  have huw : u = w := by
    refine eq_of_byteAt (by omega) fun i hi => ?_
    rw [hub i (by omega), if_pos (by omega), getD_unpacked w (by omega)]
  have huLen : uLen = vLen := UInt32.toNat_inj.mp (by omega)
  unfold decrypt
  rw [length_unpacked, hpack, hkey]
  simp only [Option.bind_eq_bind, Option.bind_some, huw, huLen, hdec]
  have hm : cells v (vLen.toNat - 1) = len := by
    rw [hv, hl]
    exact hword trivial
  rw [xxteaToByteArray_true hv.symm (by omega) (by omega) hm, if_pos (by omega)]
  have htake : unpacked v len.toNat = bytes.take len.toNat := by
    refine List.ext_getElem (by simpa using hlen) fun i hi hi' => ?_
    rw [length_unpacked] at hi
    have hb := hbytes i (by omega)
    rw [if_pos hi] at hb
    simpa [unpacked, show i < bytes.length by omega] using hb
  rw [htake]

theorem ustrlen_eq {s : Bytes} (h : 0 ∈ s) : ustrlen s = some (.ofNat (strlen s)) := by
  rw [ustrlen, strlenIn, if_pos h, Option.map_some]

theorem ustrlen_eq_none {s : Bytes} (h : 0 ∉ s) : ustrlen s = none := by
  rw [ustrlen, strlenIn, if_neg h, Option.map_none]

/-- The bytes of a key that no zero ends are read to the last one, and beyond. -/
theorem xxteaEncrypt_eq_none (h : 0 ∉ key) (data : Bytes) : xxteaEncrypt data key = none := by
  unfold xxteaEncrypt
  rw [ustrlen_eq_none h]
  cases ustrlen data <;> rfl

theorem xxteaDecrypt_eq_none (h : 0 ∉ key) (data : Bytes) (len : ℤ) :
    xxteaDecrypt data key len = none := by
  unfold xxteaDecrypt
  rw [ustrlen_eq_none h]
  rfl

section Texts

variable (hk : 16 ≤ key.length) (hz : 0 ∈ key)
include hk hz

theorem xxteaEncrypt_succeeds (hbuf : 0 ∈ buf) (h0 : 0 < strlen buf)
    (hfit : strlen buf + 15 < 2 ^ 31) :
    Succeeds (xxteaEncrypt buf key) fun r => ∃ c : Bytes,
      c.length = 4 * ((strlen buf + 3) / 4 + 1) ∧ r = some (c ++ [0], (c.length : ℤ)) ∧
      xxteaDecrypt c key c.length = some (some (cstr buf ++ [0])) := by
  have hu : (UInt32.ofNat (strlen buf)).toNat = strlen buf :=
    UInt32.toNat_ofNat_of_lt' (show _ < 2 ^ 32 by omega)
  have hne : UInt32.ofNat (strlen buf) ≠ 0 := fun h => by
    rw [h, UInt32.toNat_zero] at hu
    omega
  unfold xxteaEncrypt
  simp only [ustrlen_eq hbuf, ustrlen_eq hz, Option.bind_eq_bind, Option.bind_some]
  rw [if_neg hne]
  refine (encrypt_succeeds (by rw [hu]; exact strlen_le buf) (by omega) (by omega) hk).bind ?_
  rintro r ⟨c, hc, rfl, hdec⟩
  rw [hu] at hc hdec
  have hcn : (UInt32.ofNat c.length).toNat = c.length :=
    UInt32.toNat_ofNat_of_lt' (show _ < 2 ^ 32 by omega)
  refine succeeds_some.mpr ⟨c, hc, ?_, ?_⟩
  · have hint := intOf_of_lt (n := .ofNat c.length) (by omega)
    rw [hcn] at hint
    simp only [Option.map_some, hint]
  · have hof : UInt32.ofInt (c.length : ℤ) = .ofNat c.length :=
      UInt32.toNat_inj.mp (by rw [ofInt_natCast_toNat (by omega), hcn])
    have hc0 : UInt32.ofNat c.length ≠ 0 := fun h => by
      rw [h, UInt32.toNat_zero] at hcn
      omega
    unfold xxteaDecrypt
    simp only [ustrlen_eq hz, hof, if_neg hc0, hdec, Option.bind_eq_bind, Option.bind_some,
      Option.map_some, take_strlen]

theorem xxteaDecrypt_succeeds (bytes : Bytes) (h1 : 0 < bytes.length)
    (hfit : bytes.length + 7 < 2 ^ 32) :
    Succeeds (xxteaDecrypt bytes key bytes.length) fun r => (bytes.length ≤ 4 → r = none) ∧
      ∀ b, r = some b → ∃ text, b = text ++ [0] ∧
        4 * ((bytes.length + 3) / 4 - 1) ≤ text.length + 3 ∧
        text.length ≤ 4 * ((bytes.length + 3) / 4 - 1) := by
  have hof : (UInt32.ofInt (bytes.length : ℤ)).toNat = bytes.length :=
    ofInt_natCast_toNat (by omega)
  have hne : UInt32.ofInt (bytes.length : ℤ) ≠ 0 := fun h => by
    rw [h, UInt32.toNat_zero] at hof
    omega
  unfold xxteaDecrypt
  simp only [ustrlen_eq hz, Option.bind_eq_bind, Option.bind_some]
  rw [if_neg hne]
  refine (decrypt_succeeds (by omega) (by omega) (by omega) hk).bind ?_
  rintro r ⟨hnone, hsome⟩
  rw [hof] at hnone hsome
  rw [succeeds_some]
  constructor
  · intro h4
    rw [hnone h4]
    rfl
  · intro b hb
    obtain ⟨p, hp, rfl⟩ := Option.map_eq_some_iff.mp hb
    exact hsome p.1 p.2 hp

end Texts

/-- The text that words spell, the last of them its length. -/
def spelled (w : Words) : Option Bytes :=
  let m := (cells w (w.length - 1)).toNat
  if 4 * w.length ≤ m + 7 ∧ m + 4 ≤ 4 * w.length then some (unpacked w m) else none

theorem length_spelled {w : Words} {text : Bytes} (h : spelled w = some text) :
    text.length + 4 ≤ 4 * w.length := by
  unfold spelled at h
  simp only [Option.ite_none_right_eq_some, Option.some_inj] at h
  obtain ⟨⟨-, hle⟩, rfl⟩ := h
  rwa [length_unpacked]

theorem eq_of_unpacked {w : Words} (hl : v.length = w.length)
    (h : unpacked v (4 * v.length) = unpacked w (4 * w.length)) : v = w := by
  refine eq_of_byteAt hl fun i hi => ?_
  rw [← getD_unpacked v hi, ← getD_unpacked w (hl ▸ hi), h]

theorem eq_of_spelled {w : Words} {text : Bytes} (hl : v.length = w.length)
    (hv : spelled v = some text) (hw : spelled w = some text)
    (hlen : text.length + 4 = 4 * v.length) : v = w := by
  have hspelled : ∀ {u : Words}, spelled u = some text →
      (cells u (u.length - 1)).toNat = text.length ∧ unpacked u text.length = text := by
    intro u hu
    unfold spelled at hu
    simp only [Option.ite_none_right_eq_some, Option.some_inj] at hu
    obtain ⟨-, rfl⟩ := hu
    rw [length_unpacked]
    exact ⟨rfl, rfl⟩
  obtain ⟨hmv, htv⟩ := hspelled hv
  obtain ⟨hmw, htw⟩ := hspelled hw
  refine eq_of_byteAt hl fun i hi => ?_
  by_cases hit : i < text.length
  · rw [← getD_unpacked v hit, ← getD_unpacked w hit, htv, htw]
  · have hlast : i >>> 2 = v.length - 1 := by
      rw [shiftRight_two]
      omega
    have hword : cells v (v.length - 1) = cells w (v.length - 1) := by
      apply UInt32.toNat_inj.mp
      rw [hmv, hl, hmw]
    rw [byteAt, byteAt, hlast, hword]

/-- A ciphertext is decrypted as words, the last one filled up with zeros, and what it decrypts to
is encrypted to these words. -/
theorem xxteaDecrypt_words {k : Words} {kLen : UInt32}
    (hkey : xxteaToLongArray key 16 false = some (k, kLen)) (hk : 4 ≤ k.length) (hz : 0 ∈ key)
    (h4 : 4 < bytes.length) (hfit : bytes.length + 7 < 2 ^ 32) :
    let n := (bytes.length + 3) / 4
    ∃ x w : Words, x.length = n ∧ w.length = n ∧
      unpacked x (4 * n) = bytes ++ List.replicate (4 * n - bytes.length) 0 ∧
      xxteaLongDecrypt x (.ofNat n) k = some w ∧ xxteaLongEncrypt w (.ofNat n) k = some x ∧
      xxteaDecrypt bytes key bytes.length = some ((spelled w).map (· ++ [0])) := by
  intro n
  have hn : n = (bytes.length + 3) / 4 := rfl
  have hof : (UInt32.ofInt (bytes.length : ℤ)).toNat = bytes.length :=
    ofInt_natCast_toNat (by omega)
  have hne : UInt32.ofInt (bytes.length : ℤ) ≠ 0 := fun h => by
    rw [h, UInt32.toNat_zero] at hof
    omega
  obtain ⟨⟨x, xLen⟩, hpack, hxl, hxLen, hbytes, -⟩ := xxteaToLongArray_succeeds bytes
    (.ofInt (bytes.length : ℤ)) (by omega) (by omega) false
  rw [hof] at hxl hbytes
  simp only [Bool.toNat_false, Nat.add_zero] at hxl hxLen
  have hlenOf : UInt32.ofNat n = xLen := by
    rw [hn, ← hxl, ← hxLen, UInt32.ofNat_toNat]
  obtain ⟨w, hdec, hwl, henc⟩ := xxteaLongEncrypt_xxteaLongDecrypt hxLen.symm (by omega) hk
  refine ⟨x, w, hxl, by omega, ?_, hlenOf ▸ hdec, hlenOf ▸ henc, ?_⟩
  · have hlen : (unpacked x (4 * n)).length =
        (bytes ++ List.replicate (4 * n - bytes.length) 0).length := by
      rw [length_unpacked, List.length_append, List.length_replicate]
      omega
    refine List.ext_getElem hlen fun i hi hi' => ?_
    rw [length_unpacked] at hi
    have hb := hbytes i hi
    simp only [unpacked, List.getElem_map, List.getElem_range, hb]
    by_cases hib : i < bytes.length
    · simp [hib]
    · simp [hib, List.getElem_append_right (Nat.not_lt.mp hib)]
  · have hword : spelled w = if 4 * xLen.toNat ≤ (cells w (xLen.toNat - 1)).toNat + 7 ∧
        (cells w (xLen.toNat - 1)).toNat + 4 ≤ 4 * xLen.toNat then
        some (unpacked w (cells w (xLen.toNat - 1)).toNat) else none := by
      rw [spelled, hwl]
    unfold xxteaDecrypt decrypt
    simp only [ustrlen_eq hz, Option.bind_eq_bind, Option.bind_some, if_neg hne, hpack, hkey, hdec,
      xxteaToByteArray_true hwl (by omega) (by omega) rfl, hword]
    split <;> rfl

/-- Any bytes at all can be decrypted with any key that a zero ends: no word outside the ciphertext
is accessed, and what is returned is nothing, as always for one word, or a text of all words but the
last one, less three bytes at most. -/
theorem xxteaDecrypt_safe_iff (bytes key : Bytes) (h1 : 1 ≤ bytes.length)
    (hint : bytes.length < 2 ^ 31) (hk : 16 ≤ key.length) :
    let k := (bytes.length + 3) / 4
    Succeeds (xxteaDecrypt bytes key bytes.length) (fun r => (k = 1 → r = none) ∧
      ∀ b, r = some b → ∃ text, b = text ++ [0] ∧
        4 * ((k : ℤ) - 1) - 3 ≤ text.length ∧ (text.length : ℤ) ≤ 4 * ((k : ℤ) - 1)) ↔
      0 ∈ key := by
  intro k
  constructor
  · intro h
    by_contra hz
    rw [xxteaDecrypt_eq_none hz] at h
    exact not_succeeds_none h
  · intro hz
    refine (xxteaDecrypt_succeeds hk hz bytes h1 (by omega)).mono ?_
    rintro r ⟨hnone, hsome⟩
    refine ⟨fun hone => hnone (by omega), fun b hb => ?_⟩
    obtain ⟨text, htext, hlow, hhigh⟩ := hsome b hb
    exact ⟨text, htext, by omega, by omega⟩

/-- Nine bytes, which take three words. -/
theorem xxteaDecrypt_safe_iff_nine :
    let k : ℕ := (9 + 3) / 4
    Succeeds (xxteaDecrypt [1, 2, 3, 4, 5, 6, 7, 8, 9] (List.replicate 16 7 ++ [0]) 9) fun r =>
      (k = 1 → r = none) ∧ ∀ b, r = some b → ∃ text, b = text ++ [0] ∧
        4 * ((k : ℤ) - 1) - 3 ≤ text.length ∧ (text.length : ℤ) ≤ 4 * ((k : ℤ) - 1) :=
  (xxteaDecrypt_safe_iff [1, 2, 3, 4, 5, 6, 7, 8, 9] (List.replicate 16 7 ++ [0]) (by decide)
    (by decide) (by decide)).mpr (by decide)

/-- Sixteen bytes of a key without a zero are not enough. -/
theorem xxteaDecrypt_unterminated :
    ¬ Succeeds (xxteaDecrypt [1, 2, 3] (List.replicate 16 7) 3) fun _ => True := by
  rw [xxteaDecrypt_eq_none (by decide)]
  exact not_succeeds_none

end YlUtils.Xxtea
