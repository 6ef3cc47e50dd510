import YlUtils.Encoding.Edcode

/-! # Encryption of short texts

The wrappers copy their argument into a buffer of 100 bytes, of which at most 98
are text. An encoding of 98 characters holds 73 bytes of ciphertext, while a text
of more than 68 bytes has a ciphertext of 76 bytes or more.
-/

namespace YlUtils.Ku6Encrypt

open Base64 Xxtea

def buffstr (encfid : Bytes) : Bytes := strncpy (List.replicate 100 0) (encfid ++ [0]) 98

def decode (encfid key : Bytes) : Option Bytes :=
  if encfid = [] then some []
  else do
    let pRs ← Edcode.decode (buffstr encfid) key
    some (pRs.getD [])

def encode (encfid key : Bytes) : Option Bytes :=
  if encfid = [] then some []
  else do
    let pRs ← Edcode.encode (buffstr encfid) key
    some (pRs.getD [])

/-- The last three bytes of the ciphertext, which are cut, are zero; or the ciphertext with zeros in
their place is that of other words that spell the text. -/
def CutHarmless (s key : Bytes) : Prop :=
  ∃ c k kLen, xxteaEncrypt (buffstr s) key = some (some (c ++ [0], 76)) ∧
    xxteaToLongArray key 16 false = some (k, kLen) ∧
    (c.drop 73 = [0, 0, 0] ∨ s.length < 72 ∧ ∃ w x t, w.length = 19 ∧ spelled w = some t ∧
      cstr t = s ∧ xxteaLongEncrypt w 19 k = some x ∧ unpacked x 76 = c.take 73 ++ [0, 0, 0])

variable {s key : Bytes}

theorem buffstr_eq (hz : 0 ∉ s) : ∃ t, buffstr s = s.take 98 ++ 0 :: t := by
  have hc : cstr (s ++ [0]) = s := cstr_append_zero hz []
  refine ⟨List.replicate (98 - s.length) 0 ++ [0], ?_⟩
  have hd : (List.replicate 100 (0 : UInt8)).drop 98 = [0, 0] := rfl
  rw [buffstr, strncpy, strlen, hc, hd, List.append_assoc, ← List.cons_append,
    ← List.replicate_succ, List.replicate_succ', List.append_assoc]
  rfl

theorem cstr_buffstr (hz : 0 ∉ s) : cstr (buffstr s) = s.take 98 := by
  obtain ⟨t, ht⟩ := buffstr_eq hz
  rw [ht]
  exact cstr_append_zero (fun h => hz (List.mem_of_mem_take h)) t

theorem encode_eq_none (hkey : 0 ∉ key) (hs : s ≠ []) : encode s key = none := by
  unfold encode
  rw [if_neg hs, Edcode.encode_eq_none hkey]
  rfl

theorem encode_succeeds (hk : 16 ≤ key.length) (hkey : 0 ∈ key) (hs : s ≠ []) (hz : 0 ∉ s) :
    Succeeds (encode s key) fun text => ∃ c : Bytes,
      c.length = 4 * ((min s.length 98 + 3) / 4 + 1) ∧ text = (encoded c).map Edcode.toUrl ∧
      xxteaEncrypt (buffstr s) key = some (some (c ++ [0], (c.length : ℤ))) ∧
      xxteaDecrypt c key c.length = some (some (s.take 98 ++ [0])) := by
  have hpos := List.length_pos_iff.mpr hs
  have hlen : strlen (buffstr s) = min s.length 98 := by
    rw [strlen, cstr_buffstr hz, List.length_take, Nat.min_comm]
  have hbuf : 0 ∈ buffstr s := by
    obtain ⟨t, ht⟩ := buffstr_eq hz
    simp [ht]
  unfold encode
  rw [if_neg hs]
  refine (Edcode.encode_succeeds hk hkey hbuf (by omega) (by omega)).bind ?_
  rintro r ⟨c, hc, rfl, henc, hdec⟩
  rw [cstr_buffstr hz] at hdec
  rw [hlen] at hc
  exact succeeds_some.mpr ⟨c, hc, rfl, henc, hdec⟩

theorem decode_eq {cs d : Bytes} (hne : cs ≠ [])
    (hcs : ∀ ch ∈ cs, Edcode.ofUrl (Edcode.toUrl ch) = ch ∧ Edcode.toUrl ch ≠ 0)
    (h : ∀ t, Succeeds (base64Decode (cs.take 98 ++ 0 :: t) (cs.take 98).length) fun r =>
      ∃ buf : Buffer, r = some (buf, (d.length : ℤ)) ∧ buf.take d.length = d.map some) :
    decode (cs.map Edcode.toUrl) key =
      (xxteaDecrypt d key d.length).map fun r => (r.map cstr).getD [] := by
  have hz : 0 ∉ cs.map Edcode.toUrl := by
    intro hm
    obtain ⟨ch, hch, he⟩ := List.mem_map.mp hm
    exact (hcs ch hch).2 he
  obtain ⟨t, ht⟩ := buffstr_eq hz
  have hlen : (cs.take 98).length < 2 ^ 31 := by
    rw [List.length_take]
    omega
  unfold decode
  rw [if_neg (by simpa using hne), ht, ← List.map_take,
    Edcode.decode_eq (fun ch hch => hcs ch (List.mem_of_mem_take hch)) hlen t (h t)]
  cases xxteaDecrypt d key d.length <;> rfl

theorem decode_short {c : Bytes} (hc : c ≠ []) (hle : c.length ≤ 72) :
    decode ((encoded c).map Edcode.toUrl) key =
      (xxteaDecrypt c key c.length).map fun r => (r.map cstr).getD [] := by
  have hl := length_encoded c
  have hpos := List.length_pos_iff.mpr hc
  have htake : (encoded c).take 98 = encoded c := List.take_of_length_le (by omega)
  refine decode_eq (fun he => ?_) (Edcode.ofUrl_toUrl c) fun t => ?_
  · rw [he, List.length_nil] at hl
    omega
  · rw [htake]
    exact base64Decode_encoded c t

theorem decode_long {c : Bytes} (hle : 75 ≤ c.length) :
    decode ((encoded c).map Edcode.toUrl) key =
      (xxteaDecrypt (c.take 73) key 73).map fun r => (r.map cstr).getD [] := by
  obtain ⟨e, r, rfl, he, hr⟩ : ∃ e r, c = e ++ r ∧ e.length = 72 ∧ 3 ≤ r.length :=
    ⟨c.take 72, c.drop 72, (List.take_append_drop 72 c).symm, by rw [List.length_take]; omega,
      by rw [List.length_drop]; omega⟩
  match r, hr with
  | a :: b :: x :: d, _ =>
    have h3 : 3 ∣ e.length := by rw [he]; decide
    have hl := length_encoded e
    have h96 : (encoded e).length = 96 := by rw [hl, he]
    have htake := take_encoded h3 a b x d
    rw [h96] at htake
    have h73 : (e ++ a :: b :: x :: d).take 73 = e ++ [a] := by
      rw [List.take_append, he, List.take_of_length_le (by omega)]
      rfl
    have hlen : (e ++ [a]).length = 73 := by simp [he]
    rw [h73, decode_eq (d := e ++ [a]) (fun hn => ?_) (Edcode.ofUrl_toUrl _) fun t => ?_,
      hlen]
    · rfl
    · simp [hn] at htake
    · have hcut := base64Decode_cut h3 a (byte_parts b).2.2.1 t
      rw [htake, List.append_assoc]
      simpa [h96] using hcut

theorem roundTrip_short (hk : 16 ≤ key.length) (hkey : 0 ∈ key) (hs : s ≠ []) (hz : 0 ∉ s)
    (h68 : s.length ≤ 68) :
    Succeeds ((encode s key).bind fun text => decode text key) fun out => out = s := by
  have hpos := List.length_pos_iff.mpr hs
  refine (encode_succeeds hk hkey hs hz).bind ?_
  rintro _ ⟨c, hc, rfl, -, hdec⟩
  have htake : s.take 98 = s := List.take_of_length_le (by omega)
  have hne : c ≠ [] := List.length_pos_iff.mp (by omega)
  rw [decode_short hne (by omega), hdec, htake]
  exact succeeds_some.mpr (cstr_append_zero hz [])

theorem decrypt_nineteen {k : Words} {kLen : UInt32} {d : Bytes}
    (hwords : xxteaToLongArray key 16 false = some (k, kLen)) (hk : 4 ≤ k.length) (hkey : 0 ∈ key)
    (h73 : 73 ≤ d.length) (h76 : d.length ≤ 76) :
    ∃ x w : Words, x.length = 19 ∧ w.length = 19 ∧
      unpacked x 76 = d ++ List.replicate (76 - d.length) 0 ∧
      xxteaLongDecrypt x 19 k = some w ∧ xxteaLongEncrypt w 19 k = some x ∧
      xxteaDecrypt d key d.length = some ((spelled w).map (· ++ [0])) := by
  have hn : (d.length + 3) / 4 = 19 := by omega
  have h4 : 4 < d.length := by omega
  have hfit : d.length + 7 < 2 ^ 32 := by omega
  have h := xxteaDecrypt_words hwords hk hkey h4 hfit
  simp only [hn] at h
  exact h

theorem denotes_iff_spelled {d : Bytes} {n : ℤ} {w : Words}
    (h : xxteaDecrypt d key n = some ((spelled w).map (· ++ [0]))) :
    (∃ b, xxteaDecrypt d key n = some (some b) ∧ cstr b = s) ↔
      ∃ t, spelled w = some t ∧ cstr t = s := by
  rw [h]
  simp only [Option.some_inj, Option.map_eq_some_iff]
  constructor
  · rintro ⟨_, ⟨t, ht, rfl⟩, hts⟩
    exact ⟨t, ht, (cstr_append_singleton t).symm.trans hts⟩
  · rintro ⟨t, ht, hts⟩
    exact ⟨_, ⟨t, ht, rfl⟩, (cstr_append_singleton t).trans hts⟩

/-- The words are those of the whole ciphertext exactly if zeros were cut. -/
theorem eq_words_iff {c : Bytes} {x y : Words} (hc : c.length = 76) (hx : x.length = 19)
    (hy : y.length = 19) (hxc : unpacked x 76 = c)
    (hyc : unpacked y 76 = c.take 73 ++ [0, 0, 0]) : x = y ↔ c.drop 73 = [0, 0, 0] := by
  have h73 : (c.take 73).length = 73 := by
    rw [List.length_take]
    omega
  constructor
  · rintro rfl
    have hdrop := congrArg (List.drop 73) (hxc.symm.trans hyc)
    simpa [h73] using hdrop
  · intro hdrop
    refine eq_of_unpacked (hx.trans hy.symm) ?_
    rw [hx, hy, hxc, hyc, ← List.take_append_drop 73 c, hdrop, List.take_left' h73]

/-- A text of full length is spelled by the words of its whole ciphertext alone. -/
theorem eq_of_spelled_full {v w x y : Words} {k : Words} {t : Bytes} (hv : v.length = w.length)
    (hspell : spelled v = some s) (ht : spelled w = some t) (hts : cstr t = s)
    (hfull : 4 * v.length ≤ s.length + 4) (hvx : xxteaLongEncrypt v 19 k = some x)
    (hwy : xxteaLongEncrypt w 19 k = some y) : x = y := by
  have hbound := length_spelled ht
  obtain rfl : t = s := by
    have hpre : cstr t <+: t := List.takeWhile_prefix _
    rw [hts] at hpre
    exact (hpre.eq_of_length_le (by omega)).symm
  obtain rfl := eq_of_spelled hv hspell ht (by omega)
  exact Option.some_inj.mp (hvx.symm.trans hwy)

/-- What is left of a ciphertext of 76 bytes decrypts to the text exactly if the cut is harmless. -/
theorem decrypt_cut_iff {c : Bytes} (hk : 16 ≤ key.length) (hkey : 0 ∈ key) (hz : 0 ∉ s)
    (hle : s.length ≤ 72) (hc : c.length = 76)
    (henc : xxteaEncrypt (buffstr s) key = some (some (c ++ [0], 76)))
    (hdec : xxteaDecrypt c key c.length = some (some (s ++ [0]))) :
    (∃ b, xxteaDecrypt (c.take 73) key 73 = some (some b) ∧ cstr b = s) ↔ CutHarmless s key := by
  obtain ⟨⟨k, kLen⟩, hwords, hk⟩ := key_succeeds hk
  have h73 : (c.take 73).length = 73 := by
    rw [List.length_take]
    omega
  obtain ⟨x, v, hx, hv, hxc, hxv, hvx, hcv⟩ := decrypt_nineteen hwords hk hkey (d := c)
    (by omega) (by omega)
  obtain ⟨y, w, hy, hw, hyc, hyw, hwy, hcw⟩ := decrypt_nineteen hwords hk hkey (d := c.take 73)
    (by omega) (by omega)
  rw [hc, Nat.sub_self, List.replicate_zero, List.append_nil] at hxc
  rw [h73] at hyc hcw
  have hspell : spelled v = some s := by
    obtain ⟨t, ht, hts⟩ := Option.map_eq_some_iff.mp (Option.some_inj.mp (hcv.symm.trans hdec))
    rw [ht, List.append_cancel_right hts]
  have hsame : x = y ↔ c.drop 73 = [0, 0, 0] := eq_words_iff hc hx hy hxc hyc
  have hcw' : xxteaDecrypt (c.take 73) key 73 = some ((spelled w).map (· ++ [0])) := hcw
  rw [denotes_iff_spelled hcw']
  constructor
  · rintro ⟨t, ht, hts⟩
    refine ⟨c, k, kLen, henc, hwords, ?_⟩
    by_cases hzero : c.drop 73 = [0, 0, 0]
    · exact .inl hzero
    · refine .inr ⟨?_, w, y, t, hw, ht, hts, hwy, hyc⟩
      by_contra hfull
      have hvw : v.length = w.length := hv.trans hw.symm
      exact hzero (hsame.mp (eq_of_spelled_full hvw hspell ht hts (by omega) hvx hwy))
  · rintro ⟨c', k', kLen', henc', hwords', hharm⟩
    obtain rfl : c' = c := by
      rw [henc, Option.some_inj, Option.some_inj, Prod.mk.injEq] at henc'
      exact (List.append_cancel_right henc'.1).symm
    obtain ⟨rfl, rfl⟩ := Prod.mk.inj (Option.some_inj.mp (hwords.symm.trans hwords'))
    rcases hharm with hzero | ⟨-, w', y', t, hw', ht, hts, hwy', hyc'⟩
    · obtain rfl := hsame.mpr hzero
      rw [hxv, Option.some_inj] at hyw
      exact ⟨s, hyw ▸ hspell, cstr_eq_self hz⟩
    · have hl : w'.length = (19 : UInt32).toNat := hw'
      obtain ⟨z, hz', hzl, hzw⟩ := xxteaLongDecrypt_xxteaLongEncrypt hl (by decide) hk
      obtain rfl := Option.some_inj.mp (hz'.symm.trans hwy')
      obtain rfl : z = y := by
        refine eq_of_unpacked (hzl.trans hy.symm) ?_
        rw [hzl, hy]
        exact hyc'.trans hyc.symm
      obtain rfl := Option.some_inj.mp (hzw.symm.trans hyw)
      exact ⟨t, ht, hts⟩

/-- What comes back of a longer text has at most 72 bytes, and is the text
exactly if the cut of its ciphertext is harmless. -/
theorem roundTrip_long (hk : 16 ≤ key.length) (hkey : 0 ∈ key) (hz : 0 ∉ s)
    (h68 : 68 < s.length) :
    Succeeds ((encode s key).bind fun text => decode text key) fun out =>
      out.length ≤ 72 ∧ (s.length ≤ 72 → (out = s ↔ CutHarmless s key)) := by
  have hs : s ≠ [] := List.length_pos_iff.mp (by omega)
  refine (encode_succeeds hk hkey hs hz).bind ?_
  rintro _ ⟨c, hc, rfl, henc, hdec⟩
  have h73 : (c.take 73).length = 73 := by
    rw [List.length_take]
    omega
  have hxx := xxteaDecrypt_succeeds hk hkey (c.take 73) (by omega) (by omega)
  rw [h73] at hxx
  obtain ⟨r, hr, -, htext⟩ := hxx
  have hr : xxteaDecrypt (c.take 73) key 73 = some r := hr
  have hiff : s.length ≤ 72 → ((∃ b, r = some b ∧ cstr b = s) ↔ CutHarmless s key) := by
    intro h72
    have h76 : c.length = 76 := by omega
    rw [List.take_of_length_le (by omega)] at hdec
    rw [h76] at henc
    rw [← decrypt_cut_iff hk hkey hz h72 h76 henc hdec, hr]
    simp only [Option.some_inj]
  rw [decode_long (by omega), hr, Option.map_some, succeeds_some]
  refine ⟨?_, fun h72 => Iff.trans ?_ (hiff h72)⟩
  · cases r with
    | none => simp
    | some b =>
      obtain ⟨u, rfl, -, hu⟩ := htext b rfl
      exact (strlen_append_zero_le u).trans hu
  · cases r with
    | none =>
      refine ⟨fun hout => absurd hout.symm hs, ?_⟩
      rintro ⟨b, hb, -⟩
      exact absurd hb (by simp)
    | some b =>
      refine ⟨fun hout => ⟨_, rfl, hout⟩, ?_⟩
      rintro ⟨b, hb, hout⟩
      rwa [Option.some_inj.mp hb]

/-- A text comes back from its encoding exactly if a zero ends the key, and the text has at most 68
bytes, or has at most 72 and the bytes that its ciphertext loses make no difference. -/
theorem decode_encode_iff (s key : Bytes) (hs : s ≠ []) (hz : 0 ∉ s) (hk : 16 ≤ key.length) :
    Succeeds ((encode s key).bind fun text => decode text key) (fun out => out = s) ↔
      0 ∈ key ∧ (s.length ≤ 68 ∨ s.length ≤ 72 ∧ CutHarmless s key) := by
  constructor
  · intro h
    have hkey : 0 ∈ key := by
      by_contra hkey
      rw [encode_eq_none hkey hs] at h
      exact not_succeeds_none h
    refine ⟨hkey, or_iff_not_imp_left.mpr fun h68 => ?_⟩
    obtain ⟨out, hout, rfl⟩ := h
    obtain ⟨hle, hharm⟩ := (roundTrip_long hk hkey hz (by omega)).of_eq hout
    exact ⟨hle, (hharm hle).mp rfl⟩
  · rintro ⟨hkey, h⟩
    by_cases h68 : s.length ≤ 68
    · exact roundTrip_short hk hkey hs hz h68
    · obtain ⟨h72, hharm⟩ := h.resolve_left h68
      exact (roundTrip_long hk hkey hz (by omega)).mono fun out hout => (hout.2 h72).mpr hharm

theorem decode_encode_iff_digits :
    Succeeds ((encode [54, 53, 56, 57] (List.replicate 16 85 ++ [0])).bind fun text =>
      decode text (List.replicate 16 85 ++ [0])) fun out => out = [54, 53, 56, 57] :=
  (decode_encode_iff [54, 53, 56, 57] (List.replicate 16 85 ++ [0]) (by decide) (by decide)
    (by decide)).mpr ⟨by decide, .inl (by decide)⟩

/-- A text of 73 bytes does not come back. -/
theorem decode_encode_long_ne :
    ¬ Succeeds ((encode (List.replicate 73 97) (List.replicate 16 85 ++ [0])).bind fun text =>
      decode text (List.replicate 16 85 ++ [0])) fun out => out = List.replicate 73 97 := by
  rintro ⟨out, hout, rfl⟩
  have hkey : 0 ∈ List.replicate 16 (85 : UInt8) ++ [0] := by decide
  have hz : 0 ∉ List.replicate 73 (97 : UInt8) := by decide
  have hlong := roundTrip_long (by decide) hkey hz (by decide)
  exact absurd (hlong.of_eq hout).1 (by decide)

end YlUtils.Ku6Encrypt
