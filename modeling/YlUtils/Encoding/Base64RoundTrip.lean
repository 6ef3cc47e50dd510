import Mathlib.Data.FinEnum
import YlUtils.Encoding.Base64
import YlUtils.Runs.Succeeds

/-! # Decoding what was encoded

The encoder writes whole groups of three bytes and a padded rest; the decoder
completes a byte with every character but the first of a group. It therefore
returns the encoded bytes, also of a text that was cut after the first two
characters of a group.
-/

namespace YlUtils.Base64

section Bits

theorem two_four_bits : ∀ x : UInt8, x < 4 → ∀ y : UInt8, y < 16 →
    (x <<< 4) + y < 64 ∧ ((x <<< 4) + y) >>> 4 = x ∧ ((x <<< 4) + y) &&& 0x0f = y := by
  decide +kernel

theorem four_two_bits : ∀ x : UInt8, x < 16 → ∀ y : UInt8, y < 4 →
    (x <<< 2) + y < 64 ∧ ((x <<< 2) + y) >>> 2 = x ∧ ((x <<< 2) + y) &&& 0x03 = y := by
  decide +kernel

theorem byte_parts : ∀ a : UInt8, a >>> 2 < 64 ∧ a &&& 0x03 < 4 ∧ a >>> 4 < 16 ∧
    a &&& 0x0f < 16 ∧ a >>> 6 < 4 ∧ a &&& 0x3f < 64 := by decide +kernel

theorem byte_join : ∀ a : UInt8, (a >>> 2) <<< 2 ||| (a &&& 0x03) = a ∧
    (a >>> 4) <<< 4 ||| (a &&& 0x0f) = a ∧ (a >>> 6) <<< 6 ||| (a &&& 0x3f) = a := by
  decide +kernel

theorem reverseOf_charOf : ∀ x : UInt8, x < 64 →
    reverseOf (charOf x) = x.toNat ∧ charOf x ≠ 0 ∧ charOf x ≠ base64Pad := by decide +kernel

end Bits

section Encoding

/-- The characters for all bytes. -/
def encoded : Bytes → Bytes
  | a :: b :: c :: d => quad a b c ++ encoded d
  | [a, b] => [charOf (a >>> 2), charOf (((a &&& 0x03) <<< 4) + (b >>> 4)),
      charOf ((b &&& 0x0f) <<< 2), base64Pad]
  | [a] => [charOf (a >>> 2), charOf ((a &&& 0x03) <<< 4), base64Pad, base64Pad]
  | [] => []

theorem length_of_groups {f : Bytes → Bytes} {q : UInt8 → UInt8 → UInt8 → Bytes}
    (hf : ∀ a b c d, f (a :: b :: c :: d) = q a b c ++ f d) (hq : ∀ a b c, (q a b c).length = 4)
    (htwo : ∀ a b, (f [a, b]).length = 4) (hone : ∀ a, (f [a]).length = 4) (hnil : f [] = [])
    (d : Bytes) : (f d).length = (d.length + 2) / 3 * 4 := by
  induction d using encoded.induct with
  | case1 a b c d ih =>
    rw [hf, List.length_append, hq, ih]
    simp only [List.length_cons]
    omega
  | case2 a b => simp [htwo]
  | case3 a => simp [hone]
  | case4 => simp [hnil]

theorem append_of_groups {f g : Bytes → Bytes} {q : UInt8 → UInt8 → UInt8 → Bytes}
    (hf : ∀ a b c d, f (a :: b :: c :: d) = q a b c ++ f d)
    (hg : ∀ a b c d, g (a :: b :: c :: d) = q a b c ++ g d) (hnil : g [] = [])
    {e : Bytes} (he : 3 ∣ e.length) (d : Bytes) : f (e ++ d) = g e ++ f d := by
  induction e using encoded.induct with
  | case1 a b c e ih =>
    have : 3 ∣ e.length := by
      simp only [List.length_cons] at he
      omega
    simp only [List.cons_append, hf, hg, ih this, List.append_assoc]
  | case2 a b => exact absurd he (by simp)
  | case3 a => exact absurd he (by simp)
  | case4 => rw [hnil, List.nil_append, List.nil_append]

theorem length_encoded (d : Bytes) : (encoded d).length = (d.length + 2) / 3 * 4 :=
  length_of_groups (q := quad) (fun _ _ _ _ => rfl) (fun _ _ _ => rfl) (fun _ _ => rfl)
    (fun _ => rfl) rfl d

theorem encoded_append {e : Bytes} (he : 3 ∣ e.length) (d : Bytes) :
    encoded (e ++ d) = encoded e ++ encoded d :=
  append_of_groups (q := quad) (fun _ _ _ _ => rfl) (fun _ _ _ _ => rfl) rfl he d

theorem encodeLoop_of_le {l : ℤ} (h : l ≤ 2) (current : Bytes) :
    encodeLoop current l = encodeTail current l := by
  unfold encodeLoop
  split <;> rw [if_neg (by omega)]

theorem encodeLoop_eq (d t : Bytes) : encodeLoop (d ++ t) d.length = some (encoded d) := by
  induction d using encoded.induct with
  | case1 a b c d ih =>
    have hlen : ((a :: b :: c :: d).length : ℤ) = d.length + 3 := by
      simp only [List.length_cons]
      omega
    have hloop : encodeLoop (a :: b :: c :: d ++ t) (d.length + 3) =
        (quad a b c ++ ·) <$> encodeLoop (d ++ t) (d.length + 3 - 3) := by
      simp only [List.cons_append, encodeLoop]
      exact if_pos (by omega)
    rw [hlen, hloop, Int.add_sub_cancel, ih]
    rfl
  | case2 a b =>
    rw [encodeLoop_of_le (by simp)]
    rfl
  | case3 a =>
    rw [encodeLoop_of_le (by simp)]
    rfl
  | case4 =>
    rw [encodeLoop_of_le (by simp)]
    rfl

theorem base64Encode_eq {d : Bytes} (h : (d.length + 2) / 3 * 4 + 1 < 2 ^ 31) (t : Bytes) :
    base64Encode (d ++ t) d.length = some (some (encoded d ++ [0], ((encoded d).length : ℤ))) := by
  have hl := length_encoded d
  have hw : wrapInt (d.length + 2) = (d.length + 2 : ℕ) := by
    rw [wrapInt_of_lt (by omega) (by omega)]
    rfl
  have hdiv : ((d.length + 2 : ℕ) : ℤ).tdiv 3 = ((d.length + 2) / 3 : ℕ) := rfl
  have hsize : bufferSize d.length = ((d.length + 2) / 3 * 4 + 1 : ℕ) := by
    unfold bufferSize
    rw [hw, hdiv, wrapInt_of_lt (by omega) (by omega)]
    rfl
  unfold base64Encode
  rw [hw, hdiv, if_neg (by omega), encodeLoop_eq, hsize]
  simp only [Option.bind_eq_bind, Option.bind_some]
  rw [if_neg (by omega)]

theorem take_encoded {e : Bytes} (he : 3 ∣ e.length) (a b c : UInt8) (d : Bytes) :
    (encoded (e ++ a :: b :: c :: d)).take ((encoded e).length + 2) =
      encoded e ++ [charOf (a >>> 2), charOf (((a &&& 0x03) <<< 4) + (b >>> 4))] := by
  rw [encoded_append he, List.take_length_add_append]
  rfl

theorem forall_mem_encoded {P : UInt8 → Prop} (h : ∀ x < 64, P (charOf x)) (hp : P base64Pad)
    (d : Bytes) : ∀ ch ∈ encoded d, P ch := by
  have h24 : ∀ a y : UInt8, y < 16 → P (charOf (((a &&& 0x03) <<< 4) + y)) := fun a y hy =>
    h _ (two_four_bits _ (byte_parts a).2.1 y hy).1
  have h42 : ∀ a y : UInt8, y < 4 → P (charOf (((a &&& 0x0f) <<< 2) + y)) := fun a y hy =>
    h _ (four_two_bits _ (byte_parts a).2.2.2.1 y hy).1
  induction d using encoded.induct with
  | case1 a b c d ih =>
    obtain ⟨h₀, -, -, -, -, -⟩ := byte_parts a
    obtain ⟨-, -, h₁, -, -, -⟩ := byte_parts b
    obtain ⟨-, -, -, -, h₂, h₃⟩ := byte_parts c
    simpa [encoded, quad] using ⟨h _ h₀, h24 a _ h₁, h42 b _ h₂, h _ h₃, ih⟩
  | case2 a b =>
    obtain ⟨h₀, -, -, -, -, -⟩ := byte_parts a
    obtain ⟨-, -, h₁, -, -, -⟩ := byte_parts b
    have h₂ := h42 b 0 (by decide)
    rw [UInt8.add_zero] at h₂
    simpa [encoded] using ⟨h _ h₀, h24 a _ h₁, h₂, hp⟩
  | case3 a =>
    obtain ⟨h₀, -, -, -, -, -⟩ := byte_parts a
    have h₁ := h24 a 0 (by decide)
    rw [UInt8.add_zero] at h₁
    simpa [encoded] using ⟨h _ h₀, h₁, hp⟩
  | case4 => simp [encoded]

end Encoding

section Decoding

variable {s : DecodeState} {done : Bytes} {room : ℕ} {x y : UInt8} {rest : Buffer}

theorem put_append (o : Option UInt8) :
    put (done.map some ++ o :: rest) done.length x = some (done.map some ++ some x :: rest) := by
  unfold put
  rw [if_pos (by simp)]
  simp

theorem orAt_append : orAt (done.map some ++ some y :: rest) done.length x =
    some ((done ++ [y ||| x]).map some ++ rest) := by
  unfold orAt
  have hget : (done.map some ++ some y :: rest)[done.length]?.join = some y := by simp
  rw [hget]
  exact (put_append _).trans (by simp)

/-- `done` is decoded, of a group that began with it, and `room` bytes of the buffer follow. -/
def Whole (done : Bytes) (room : ℕ) (s : DecodeState) : Prop :=
  s.i % 4 = 0 ∧ s.j = done.length ∧
    ∃ rest : Buffer, s.result = done.map some ++ rest ∧ rest.length = room

/-- After character `p` of a group, `done` is decoded and the next byte begins with `y`. -/
def Begun (p : ℕ) (done : Bytes) (y : UInt8) (room : ℕ) (s : DecodeState) : Prop :=
  s.i % 4 = p ∧ s.j = done.length ∧
    ∃ rest : Buffer, s.result = done.map some ++ some y :: rest ∧ rest.length = room

theorem Whole.decodeChar (h : Whole done (room + 1) s) (x : UInt8) :
    Succeeds (decodeChar s x) (Begun 1 done (x <<< 2) room) := by
  obtain ⟨hi, hj, rest, hr, hl⟩ := h
  obtain ⟨o, rest, rfl⟩ := List.exists_cons_of_length_eq_add_one hl
  unfold Base64.decodeChar
  simp only [hi, hj, hr, put_append, Option.bind_eq_bind, Option.bind_some, succeeds_some]
  exact ⟨by simp only []; omega, rfl, rest, rfl, by simpa using hl⟩

theorem Begun.decodeChar_one (h : Begun 1 done y (room + 1) s) (x : UInt8) :
    Succeeds (decodeChar s x) (Begun 2 (done ++ [y ||| x >>> 4]) ((x &&& 0x0f) <<< 4) room) := by
  obtain ⟨hi, hj, rest, hr, hl⟩ := h
  obtain ⟨o, rest, rfl⟩ := List.exists_cons_of_length_eq_add_one hl
  have hlen : done.length + 1 = (done ++ [y ||| x >>> 4]).length := by simp
  unfold Base64.decodeChar
  simp only [hi, hj, hr, orAt_append, hlen, put_append, Option.bind_eq_bind, Option.bind_some,
    succeeds_some]
  exact ⟨by simp only []; omega, rfl, rest, rfl, by simpa using hl⟩

theorem Begun.decodeChar_two (h : Begun 2 done y (room + 1) s) (x : UInt8) :
    Succeeds (decodeChar s x) (Begun 3 (done ++ [y ||| x >>> 2]) ((x &&& 0x03) <<< 6) room) := by
  obtain ⟨hi, hj, rest, hr, hl⟩ := h
  obtain ⟨o, rest, rfl⟩ := List.exists_cons_of_length_eq_add_one hl
  have hlen : done.length + 1 = (done ++ [y ||| x >>> 2]).length := by simp
  unfold Base64.decodeChar
  simp only [hi, hj, hr, orAt_append, hlen, put_append, Option.bind_eq_bind, Option.bind_some,
    succeeds_some]
  exact ⟨by simp only []; omega, rfl, rest, rfl, by simpa using hl⟩

theorem Begun.decodeChar_three (h : Begun 3 done y room s) (x : UInt8) :
    Succeeds (decodeChar s x) (Whole (done ++ [y ||| x]) room) := by
  obtain ⟨hi, hj, rest, hr, hl⟩ := h
  have hlen : done.length + 1 = (done ++ [y ||| x]).length := by simp
  unfold Base64.decodeChar
  simp only [hi, hj, hr, orAt_append, hlen, Option.bind_eq_bind, Option.bind_some, succeeds_some]
  exact ⟨by simp only []; omega, rfl, rest, rfl, hl⟩

theorem decodeLoop_charOf (hx : x < 64) {l : ℤ} (hl : 0 < l) (cs : Bytes)
    (s : DecodeState) : decodeLoop (charOf x :: cs) l s =
      (decodeChar s x).bind fun s => decodeLoop cs (l - 1) s := by
  obtain ⟨hrev, h0, hp⟩ := reverseOf_charOf x hx
  rw [decodeLoop, if_pos ⟨h0, hl⟩, if_neg hp, hrev, if_neg (by omega), Int.toNat_natCast,
    UInt8.ofNat_toNat]
  rfl

variable {l : ℤ}

theorem Whole.decodeLoop_two (h : Whole done (room + 2) s) (a : UInt8) (hy : y < 16)
    (hl : 2 ≤ l) (cs : Bytes) :
    ∃ s', Begun 2 (done ++ [a]) (y <<< 4) room s' ∧
      decodeLoop (charOf (a >>> 2) :: charOf (((a &&& 0x03) <<< 4) + y) :: cs) l s =
        decodeLoop cs (l - 2) s' := by
  obtain ⟨ha, ha', -⟩ := byte_parts a
  obtain ⟨hx, hhi, hlo⟩ := two_four_bits _ ha' y hy
  obtain ⟨s₁, hs₁, hb₁⟩ := h.decodeChar (a >>> 2)
  obtain ⟨s₂, hs₂, hb₂⟩ := hb₁.decodeChar_one (((a &&& 0x03) <<< 4) + y)
  rw [hhi, hlo, (byte_join a).1] at hb₂
  refine ⟨s₂, hb₂, ?_⟩
  rw [decodeLoop_charOf ha (by omega), hs₁, Option.bind_some, decodeLoop_charOf hx (by omega), hs₂,
    Option.bind_some, Int.sub_sub]
  rfl

theorem Begun.decodeLoop_three {b : UInt8} (h : Begun 2 done ((b >>> 4) <<< 4) (room + 1) s)
    (hy : y < 4) (hl : 1 ≤ l) (cs : Bytes) :
    ∃ s', Begun 3 (done ++ [b]) (y <<< 6) room s' ∧
      decodeLoop (charOf (((b &&& 0x0f) <<< 2) + y) :: cs) l s =
        decodeLoop cs (l - 1) s' := by
  obtain ⟨-, -, -, hb, -⟩ := byte_parts b
  obtain ⟨hx, hhi, hlo⟩ := four_two_bits _ hb y hy
  obtain ⟨s', hs', hb'⟩ := h.decodeChar_two (((b &&& 0x0f) <<< 2) + y)
  rw [hhi, hlo, (byte_join b).2.1] at hb'
  refine ⟨s', hb', ?_⟩
  rw [decodeLoop_charOf hx (by omega), hs', Option.bind_some]

theorem Begun.decodeLoop_four {c : UInt8} (h : Begun 3 done ((c >>> 6) <<< 6) room s)
    (hl : 1 ≤ l) (cs : Bytes) :
    ∃ s', Whole (done ++ [c]) room s' ∧
      decodeLoop (charOf (c &&& 0x3f) :: cs) l s = decodeLoop cs (l - 1) s' := by
  obtain ⟨-, -, -, -, -, hc⟩ := byte_parts c
  obtain ⟨s', hs', hb'⟩ := h.decodeChar_three (c &&& 0x3f)
  rw [(byte_join c).2.2] at hb'
  refine ⟨s', hb', ?_⟩
  rw [decodeLoop_charOf hc (by omega), hs', Option.bind_some]

theorem Whole.decodeLoop_encoded {e : Bytes} (he : 3 ∣ e.length)
    (h : Whole done (room + e.length) s) (hl : ((encoded e).length : ℤ) ≤ l) (cs : Bytes) :
    ∃ s', Whole (done ++ e) room s' ∧
      decodeLoop (encoded e ++ cs) l s =
        decodeLoop cs (l - (encoded e).length) s' := by
  induction e using encoded.induct generalizing done s l with
  | case1 a b c e ih =>
    have he' : 3 ∣ e.length := by
      simp only [List.length_cons] at he
      omega
    have hlen : (encoded (a :: b :: c :: e)).length = (encoded e).length + 4 := by
      simp only [encoded, quad, List.length_append, List.length_cons, List.length_nil]
      omega
    have hroom : room + (a :: b :: c :: e).length = room + e.length + 1 + 2 := by
      simp only [List.length_cons]
      omega
    rw [hroom] at h
    rw [hlen] at hl ⊢
    obtain ⟨-, -, hb, -⟩ := byte_parts b
    obtain ⟨-, -, -, -, hc, -⟩ := byte_parts c
    obtain ⟨s₁, h₁, e₁⟩ := h.decodeLoop_two (l := l) a hb (by omega)
      (charOf (((b &&& 0x0f) <<< 2) + (c >>> 6)) :: charOf (c &&& 0x3f) :: (encoded e ++ cs))
    obtain ⟨s₂, h₂, e₂⟩ := h₁.decodeLoop_three (l := l - 2) hc (by omega)
      (charOf (c &&& 0x3f) :: (encoded e ++ cs))
    obtain ⟨s₃, h₃, e₃⟩ := h₂.decodeLoop_four (l := l - 2 - 1) (by omega) (encoded e ++ cs)
    obtain ⟨s', h', e'⟩ := ih (l := l - 2 - 1 - 1) he' h₃ (by omega)
    refine ⟨s', by simpa using h', ?_⟩
    have hcs : encoded (a :: b :: c :: e) ++ cs = charOf (a >>> 2) ::
        charOf (((a &&& 0x03) <<< 4) + (b >>> 4)) :: charOf (((b &&& 0x0f) <<< 2) + (c >>> 6)) ::
        charOf (c &&& 0x3f) :: (encoded e ++ cs) := by simp [encoded, quad]
    rw [hcs, e₁, e₂, e₃, e']
    congr 1
    omega
  | case2 a b => exact absurd he (by simp)
  | case3 a => exact absurd he (by simp)
  | case4 => exact ⟨s, by simpa using h, by simp [encoded]⟩

end Decoding

section RoundTrip

variable {d : Bytes} {s : DecodeState} {ch : UInt8} {str t : Bytes} {l : ℤ}

theorem put_succeeds {r : Buffer} {j n : ℕ} (hj : j < r.length) (hn : n ≤ j) (x : UInt8) :
    Succeeds (put r j x) fun r' => r'.take n = r.take n ∧ r'.length = r.length := by
  refine ⟨r.set j (some x), if_pos hj, ?_, by simp⟩
  exact List.take_set_of_le hn

theorem base64Decode_of_loop
    (hloop : decodeLoop str l ⟨0, 0, List.replicate (l + 1).toNat none⟩ = some (s, ch))
    (hj : s.j = d.length) (htake : s.result.take d.length = d.map some)
    (hroom : d.length < s.result.length)
    (hpad : ch = base64Pad → s.i % 4 ≠ 1 ∧ (s.i % 4 = 2 → d.length + 1 < s.result.length)) :
    Succeeds (base64Decode str l) fun r => ∃ buf : Buffer,
      r = some (buf, (d.length : ℤ)) ∧ buf.take d.length = d.map some := by
  unfold base64Decode
  rw [hloop]
  simp only [Option.bind_eq_bind, Option.bind_some, hj]
  rw [if_neg fun h => (hpad h.1).1 h.2]
  refine Succeeds.bind (P := fun r : Buffer => r.take d.length = d.map some ∧
    r.length = s.result.length) ?_ fun r hr => ?_
  · split
    · next h =>
      exact (put_succeeds ((hpad h.1).2 h.2) (by omega) 0).mono fun r hr => ⟨hr.1.trans htake, hr.2⟩
    · split
      · exact (put_succeeds hroom le_rfl 0).mono fun r hr => ⟨hr.1.trans htake, hr.2⟩
      · exact succeeds_some.mpr ⟨htake, rfl⟩
  · refine (put_succeeds (hr.2 ▸ hroom) le_rfl 0).bind fun r' hr' => ?_
    exact succeeds_some.mpr ⟨r', rfl, hr'.1.trans hr.1⟩

theorem whole_initial {n : ℕ} : Whole [] n ⟨0, 0, List.replicate n none⟩ :=
  ⟨rfl, rfl, List.replicate n none, rfl, List.length_replicate⟩

theorem Whole.take {room : ℕ} (h : Whole d room s) :
    s.result.take d.length = d.map some ∧ s.result.length = d.length + room := by
  obtain ⟨-, -, rest, hr, hl⟩ := h
  rw [hr]
  simp [hl]

theorem Begun.take {p room : ℕ} {y : UInt8} (h : Begun p d y room s) :
    s.result.take d.length = d.map some ∧ s.result.length = d.length + (room + 1) := by
  obtain ⟨-, -, rest, hr, hl⟩ := h
  rw [hr]
  simp [hl]

theorem exists_groups (d : Bytes) : ∃ e r : Bytes, d = e ++ r ∧ 3 ∣ e.length ∧ r.length < 3 := by
  refine ⟨d.take (d.length / 3 * 3), d.drop (d.length / 3 * 3), (List.take_append_drop _ d).symm,
    ?_, ?_⟩
  · rw [List.length_take]
    omega
  · rw [List.length_drop]
    omega

/-- Decoding what was cut after the first two characters of a group. -/
theorem base64Decode_cut {e : Bytes} (he : 3 ∣ e.length) (a : UInt8) {y : UInt8} (hy : y < 16)
    (t : Bytes) :
    Succeeds (base64Decode
        (encoded e ++ charOf (a >>> 2) :: charOf (((a &&& 0x03) <<< 4) + y) :: 0 :: t)
        ((encoded e).length + 2)) fun r => ∃ buf : Buffer,
      r = some (buf, ((e ++ [a]).length : ℤ)) ∧
        buf.take (e ++ [a]).length = (e ++ [a]).map some := by
  have hl := length_encoded e
  have hn : ((encoded e).length + 2 + 1 : ℤ).toNat =
      (encoded e).length - e.length + 1 + 2 + e.length := by omega
  have h₀ : Whole [] ((encoded e).length - e.length + 1 + 2 + e.length)
      ⟨0, 0, List.replicate ((encoded e).length + 2 + 1 : ℤ).toNat none⟩ := by
    rw [hn]
    exact whole_initial
  obtain ⟨s₁, h₁, e₁⟩ := h₀.decodeLoop_encoded (l := (encoded e).length + 2) he (by omega)
    (charOf (a >>> 2) :: charOf (((a &&& 0x03) <<< 4) + y) :: 0 :: t)
  obtain ⟨s₂, h₂, e₂⟩ := h₁.decodeLoop_two
    (l := (encoded e).length + 2 - (encoded e).length) a hy (by omega) (0 :: t)
  rw [List.nil_append] at h₂
  have hend : ∀ l, decodeLoop (0 :: t) l s₂ = some (s₂, 0) := fun l => by
    simp [decodeLoop]
  obtain ⟨htake, hlen⟩ := h₂.take
  exact base64Decode_of_loop (e₁.trans (e₂.trans (hend _))) h₂.2.1 htake (by omega)
    fun h => absurd h (by decide)

theorem decodeLoop_pad (hl : 0 < l) (cs : Bytes) (s : DecodeState) :
    decodeLoop (base64Pad :: cs) l s = some (s, base64Pad) := by
  rw [decodeLoop, if_pos ⟨by decide, hl⟩, if_pos rfl]

theorem base64Decode_encoded (d t : Bytes) :
    Succeeds (base64Decode (encoded d ++ 0 :: t) (encoded d).length) fun r => ∃ buf : Buffer,
      r = some (buf, (d.length : ℤ)) ∧ buf.take d.length = d.map some := by
  obtain ⟨e, r, rfl, he, hr⟩ := exists_groups d
  have hl := length_encoded e
  have hlr := length_encoded r
  have happ := encoded_append he r
  have hsum : (encoded (e ++ r)).length = (encoded e).length + (encoded r).length := by
    rw [happ, List.length_append]
  have hn : ((encoded (e ++ r)).length + 1 : ℤ).toNat =
      (encoded e).length - e.length + (encoded r).length + 1 + e.length := by omega
  have h₀ : Whole [] ((encoded e).length - e.length + (encoded r).length + 1 + e.length)
      ⟨0, 0, List.replicate ((encoded (e ++ r)).length + 1 : ℤ).toNat none⟩ := by
    rw [hn]
    exact whole_initial
  obtain ⟨s₁, h₁, e₁⟩ := h₀.decodeLoop_encoded (l := (encoded (e ++ r)).length) he (by omega)
    (encoded r ++ 0 :: t)
  rw [← List.append_assoc, ← happ] at e₁
  rw [List.nil_append] at h₁
  match r, hr with
  | [], _ =>
    have hend : ∀ l, decodeLoop (0 :: t) l s₁ = some (s₁, 0) := fun l => by simp [decodeLoop]
    rw [List.append_nil] at *
    obtain ⟨htake, hlen⟩ := h₁.take
    exact base64Decode_of_loop (e₁.trans (hend _)) h₁.2.1 htake (by omega)
      fun h => absurd h (by decide)
  | [a], _ =>
    simp only [encoded, List.length_cons, List.length_nil] at h₁ e₁ hsum hlr
    obtain ⟨s₂, h₂, e₂⟩ := h₁.decodeLoop_two (l := (encoded (e ++ [a])).length -
      (encoded e).length) (y := 0) a (by decide) (by omega) (base64Pad :: base64Pad :: 0 :: t)
    rw [UInt8.add_zero] at e₂
    obtain ⟨htake, hlen⟩ := h₂.take
    refine base64Decode_of_loop (e₁.trans (e₂.trans (decodeLoop_pad (by omega) _ _))) h₂.2.1 htake
      (by omega) fun _ => ⟨?_, fun _ => by omega⟩
    rw [h₂.1]
    decide
  | [a, b], _ =>
    simp only [encoded, List.length_cons, List.length_nil] at h₁ e₁ hsum hlr
    obtain ⟨-, -, hb, -⟩ := byte_parts b
    obtain ⟨s₂, h₂, e₂⟩ := h₁.decodeLoop_two (l := (encoded (e ++ [a, b])).length -
      (encoded e).length) a hb (by omega) (charOf ((b &&& 0x0f) <<< 2) :: base64Pad :: 0 :: t)
    obtain ⟨s₃, h₃, e₃⟩ := h₂.decodeLoop_three (l := (encoded (e ++ [a, b])).length -
      (encoded e).length - 2) (y := 0) (by decide) (by omega) (base64Pad :: 0 :: t)
    rw [UInt8.add_zero] at e₃
    rw [List.append_assoc] at h₃
    change Begun 3 (e ++ [a, b]) _ _ _ at h₃
    obtain ⟨htake, hlen⟩ := h₃.take
    refine base64Decode_of_loop (e₁.trans (e₂.trans (e₃.trans (decodeLoop_pad (by omega) _ _))))
      h₃.2.1 htake (by omega) fun _ => ⟨?_, fun h => ?_⟩
    · rw [h₃.1]
      decide
    · rw [h₃.1] at h
      exact absurd h (by decide)
  | _ :: _ :: _ :: _, h => exact absurd h (by simp)

/-- Decoding the text of any bytes returns them with their exact length; no byte of the buffer is
read before it is written, and none is written outside. -/
theorem base64Decode_base64Encode {d : Bytes} (h : d.length ≤ 1610612733) (t : Bytes) :
    Succeeds (base64Encode (d ++ t) d.length) fun r => ∃ text len, r = some (text, len) ∧
      Succeeds (base64Decode text len) fun r' => ∃ buf : Buffer,
        r' = some (buf, (d.length : ℤ)) ∧ buf.take d.length = d.map some :=
  ⟨_, base64Encode_eq (by omega) t, _, _, rfl, base64Decode_encoded d []⟩

theorem base64Decode_base64Encode_four :
    Succeeds (base64Encode [1, 2, 3, 4] (4 : ℕ)) fun r => ∃ text len, r = some (text, len) ∧
      Succeeds (base64Decode text len) fun r' => ∃ buf : Buffer,
        r' = some (buf, ((4 : ℕ) : ℤ)) ∧ buf.take 4 = ([1, 2, 3, 4] : Bytes).map some :=
  base64Decode_base64Encode (d := [1, 2, 3, 4]) (by decide) []

end RoundTrip

end YlUtils.Base64
