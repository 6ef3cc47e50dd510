import YlUtils.Encoding.Base64RoundTrip
import YlUtils.Encoding.XxteaRoundTrip

/-! # Encoding of texts for use in addresses

A text is encrypted and written in base64, with the characters that have a
meaning in addresses replaced. Decoding undoes the three steps.
-/

namespace YlUtils.Edcode

open Base64 Xxtea

def toUrl (c : UInt8) : UInt8 :=
  if c = 43 then 45 else if c = 47 then 95 else if c = 61 then 46 else c

def ofUrl (c : UInt8) : UInt8 :=
  if c = 45 then 43 else if c = 95 then 47 else if c = 46 then 61 else c

/-- The `for` loop over the first `n` characters of a buffer. -/
def replaceFirst (f : UInt8 → UInt8) (n : ℤ) (buf : Bytes) : Bytes :=
  (buf.take n.toNat).map f ++ buf.drop n.toNat

/-- `_encode`: the text it duplicates for its caller. -/
def encode (src key : Bytes) : Option (Option Bytes) := do
  let some (xxtea, xxteaLength) ← xxteaEncrypt src key | some none
  let some (result, base64Length) ← base64Encode xxtea xxteaLength | some none
  some (some (cstr (replaceFirst toUrl base64Length result)))

/-- `_decode`. The decryption reads the first `xxteaLength` bytes of the decoded
buffer, all of which have to be written by then. -/
def decode (src key : Bytes) : Option (Option Bytes) := do
  let n ← strlenIn src
  let base64Length := wrapInt n
  let src := replaceFirst ofUrl base64Length src
  let some (xxtea, xxteaLength) ← base64Decode src base64Length | some none
  let data ← (xxtea.take xxteaLength.toNat).mapM id
  let some result ← xxteaDecrypt data key xxteaLength | some none
  some (some (cstr result))

theorem mapM_id_map_some (d : Bytes) : (d.map some).mapM id = some d := by
  induction d with
  | nil => rfl
  | cons a d ih =>
    rw [List.map_cons, List.mapM_cons, ih]
    rfl

theorem ofUrl_toUrl (d : Bytes) : ∀ ch ∈ encoded d, ofUrl (toUrl ch) = ch ∧ toUrl ch ≠ 0 :=
  forall_mem_encoded (by decide +kernel) (by decide) d

theorem replaceFirst_append (f : UInt8 → UInt8) (a b : Bytes) :
    replaceFirst f a.length (a ++ b) = a.map f ++ b := by
  simp [replaceFirst]

section RoundTrip

variable {cs d buf key s : Bytes}

theorem decode_eq (hcs : ∀ ch ∈ cs, ofUrl (toUrl ch) = ch ∧ toUrl ch ≠ 0)
    (hlen : cs.length < 2 ^ 31) (t : Bytes)
    (h : Succeeds (base64Decode (cs ++ 0 :: t) cs.length) fun r => ∃ buf : Buffer,
      r = some (buf, (d.length : ℤ)) ∧ buf.take d.length = d.map some) :
    decode (cs.map toUrl ++ 0 :: t) key =
      (xxteaDecrypt d key d.length).map (Option.map cstr) := by
  have h0 : 0 ∉ cs.map toUrl := by
    intro hm
    obtain ⟨ch, hch, he⟩ := List.mem_map.mp hm
    exact (hcs ch hch).2 he
  have hlen' : wrapInt (cs.map toUrl).length = (cs.map toUrl).length :=
    wrapInt_of_lt (by omega) (by rw [List.length_map]; omega)
  have hback : (cs.map toUrl).map ofUrl = cs := by
    rw [List.map_map]
    exact (List.map_congr_left fun ch hch => (hcs ch hch).1).trans (List.map_id cs)
  have hsrc : replaceFirst ofUrl (cs.map toUrl).length (cs.map toUrl ++ 0 :: t) = cs ++ 0 :: t := by
    rw [replaceFirst_append, hback]
  obtain ⟨_, hdec, buf, rfl, htake⟩ := h
  unfold decode
  rw [strlenIn_eq h0, Option.bind_eq_bind, Option.bind_some, hlen']
  simp only [hsrc]
  rw [List.length_map]
  simp only [hdec, Option.bind_eq_bind, Option.bind_some, Int.toNat_natCast, htake,
    mapM_id_map_some]
  cases xxteaDecrypt d key d.length with
  | none => rfl
  | some r => cases r <;> rfl

theorem encode_eq_none (h : 0 ∉ key) (src : Bytes) : encode src key = none := by
  unfold encode
  rw [xxteaEncrypt_eq_none h]
  rfl

theorem encode_succeeds (hk : 16 ≤ key.length) (hz : 0 ∈ key) (hbuf : 0 ∈ buf)
    (h0 : 0 < strlen buf)
    (hfit : (4 * ((strlen buf + 3) / 4 + 1) + 2) / 3 * 4 + 1 < 2 ^ 31) :
    Succeeds (encode buf key) fun r => ∃ c : Bytes,
      c.length = 4 * ((strlen buf + 3) / 4 + 1) ∧ r = some ((encoded c).map toUrl) ∧
      xxteaEncrypt buf key = some (some (c ++ [0], (c.length : ℤ))) ∧
      xxteaDecrypt c key c.length = some (some (cstr buf ++ [0])) := by
  obtain ⟨_, hxx, c, hc, rfl, hdec⟩ := xxteaEncrypt_succeeds hk hz hbuf h0 (by omega)
  unfold encode
  refine Succeeds.bind (P := fun r => r = some (c ++ [0], (c.length : ℤ))) ⟨_, hxx, rfl⟩ ?_
  rintro _ rfl
  have henc := base64Encode_eq (d := c) (by rw [hc]; exact hfit) [0]
  have hnul : 0 ∉ (encoded c).map toUrl := by
    intro hm
    obtain ⟨ch, hch, he⟩ := List.mem_map.mp hm
    exact (ofUrl_toUrl c ch hch).2 he
  simp only [henc, Option.bind_eq_bind, Option.bind_some, replaceFirst_append,
    cstr_append_zero hnul, succeeds_some]
  exact ⟨c, hc, rfl, hxx, hdec⟩

/-- Every text that is not empty is decoded from its encoding with the same
key, as long as no size computed in `int` overflows, exactly if a zero ends the key. -/
theorem decode_encode_iff_terminated (s t key : Bytes) (hs : s ≠ []) (hz : 0 ∉ s)
    (hk : 16 ≤ key.length) (hfit : (4 * ((s.length + 3) / 4 + 1) + 2) / 3 * 4 + 1 < 2 ^ 31) :
    Succeeds (encode (s ++ 0 :: t) key) (fun r => ∃ text, r = some text ∧ 0 ∉ text ∧
      ∀ u, decode (text ++ 0 :: u) key = some (some s)) ↔ 0 ∈ key := by
  have hcstr : cstr (s ++ 0 :: t) = s := cstr_append_zero hz t
  have hlen : strlen (s ++ 0 :: t) = s.length := by rw [strlen, hcstr]
  have hpos := List.length_pos_iff.mpr hs
  constructor
  · intro h
    by_contra hkey
    rw [encode_eq_none hkey] at h
    exact not_succeeds_none h
  intro hkey
  refine (encode_succeeds hk hkey (by simp) (by omega) (by rw [hlen]; exact hfit)).mono ?_
  rintro r ⟨c, hc, rfl, -, hdec⟩
  rw [hlen] at hc
  have hl := length_encoded c
  refine ⟨_, rfl, ?_, fun u => ?_⟩
  · intro hm
    obtain ⟨ch, hch, he⟩ := List.mem_map.mp hm
    exact (ofUrl_toUrl c ch hch).2 he
  · rw [decode_eq (ofUrl_toUrl c) (by omega) u (base64Decode_encoded c u), hdec, hcstr,
      Option.map_some, Option.map_some, cstr_append_zero hz]

end RoundTrip

theorem decode_encode_iff_terminated_digits :
    Succeeds (encode ([54, 53, 56, 57, 57, 56, 54] ++ 0 :: []) (List.replicate 16 85 ++ [0]))
      fun r => ∃ text, r = some text ∧ 0 ∉ text ∧
        ∀ u, decode (text ++ 0 :: u) (List.replicate 16 85 ++ [0]) =
          some (some [54, 53, 56, 57, 57, 56, 54]) :=
  (decode_encode_iff_terminated [54, 53, 56, 57, 57, 56, 54] [] (List.replicate 16 85 ++ [0])
    (by decide) (by decide) (by decide) (by decide)).mpr (by decide)

/-- Sixteen bytes of a key without a zero are not enough. -/
theorem encode_unterminated :
    ¬ Succeeds (encode ([54, 53, 56, 57] ++ 0 :: []) (List.replicate 16 85)) fun r =>
      ∃ text, r = some text ∧ 0 ∉ text ∧
        ∀ u, decode (text ++ 0 :: u) (List.replicate 16 85) = some (some [54, 53, 56, 57]) := by
  rw [encode_eq_none (by decide)]
  exact not_succeeds_none

end YlUtils.Edcode
