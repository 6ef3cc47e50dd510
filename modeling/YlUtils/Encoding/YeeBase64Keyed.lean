import YlUtils.Encoding.YeeBase64RoundTrip

/-! # What the keyed calls rely on

The loop over the key makes a step only if the key has a byte, which nothing
checks, so that the calls return for no data at all or not for any. The encoder
takes whole groups from a copy that ends with the data: the text of a group that
is not whole depends on what follows the copy.
-/

namespace YlUtils.YeeBase64

open Base64 (exists_groups)

section Termination

variable {p q : Bytes}

theorem nextBase64Char_succeeds (h : 0 ∈ p) : Succeeds (nextBase64Char p) fun r =>
    r.2.length < p.length ∧ (r.1 ≠ 0 → 0 ∈ r.2) := by
  induction p with
  | nil => cases h
  | cons c p ih =>
    rw [nextBase64Char]
    split
    · next hskip =>
      have hp : 0 ∈ p := (List.mem_cons.mp h).resolve_left (Ne.symm hskip.1)
      refine (ih hp).mono ?_
      rintro r ⟨hlen, hrest⟩
      exact ⟨Nat.lt_succ_of_lt hlen, hrest⟩
    · rw [succeeds_some]
      exact ⟨Nat.lt_succ_self _, fun hc => (List.mem_cons.mp h).resolve_left (Ne.symm hc)⟩

def Pass.Leaves (n : ℕ) : Pass → Prop
  | .continued p _ => p.length < n ∧ 0 ∈ p
  | _ => True

theorem quadruplet_succeeds (h : 0 ∈ p) (q : Bytes) :
    Succeeds (quadruplet p q) (Pass.Leaves p.length) := by
  have hfinished : ∀ q, Succeeds (some (Pass.finished q)) (Pass.Leaves p.length) := fun _ =>
    succeeds_some.mpr trivial
  have hfailed : ∀ q, Succeeds (some (Pass.failed q)) (Pass.Leaves p.length) := fun _ =>
    succeeds_some.mpr trivial
  unfold quadruplet
  refine (nextBase64Char_succeeds h).bind ?_
  rintro ⟨c₁, p₁⟩ ⟨hl₁, hz₁⟩
  refine .ite (fun _ => hfinished q) fun hc₁ => .ite (fun _ => hfailed q) fun _ => ?_
  refine (nextBase64Char_succeeds (hz₁ hc₁)).bind ?_
  rintro ⟨c₂, p₂⟩ ⟨hl₂, hz₂⟩
  refine .ite (fun _ => hfailed q) fun hc₂ => .ite (fun _ => hfailed q) fun _ => ?_
  refine (nextBase64Char_succeeds (hz₂ hc₂)).bind ?_
  rintro ⟨c₃, p₃⟩ ⟨hl₃, hz₃⟩
  refine .ite (fun _ => hfailed _) fun hc₃ => ?_
  have hlen : ∀ {p₄ : Bytes}, p₄.length < p₃.length → p₄.length < p.length := fun hl₄ =>
    hl₄.trans (hl₃.trans (hl₂.trans hl₁))
  refine .ite (fun _ => ?_) fun _ => ?_
  · refine (nextBase64Char_succeeds (hz₃ hc₃)).bind ?_
    rintro ⟨c₄, p₄⟩ ⟨hl₄, hz₄⟩
    refine .ite (fun _ => hfailed _) fun hc₄ => .ite (fun _ => hfailed _) fun _ => ?_
    exact succeeds_some.mpr ⟨hlen hl₄, hz₄ hc₄⟩
  · refine (nextBase64Char_succeeds (hz₃ hc₃)).bind ?_
    rintro ⟨c₄, p₄⟩ ⟨hl₄, hz₄⟩
    refine .ite (fun _ => hfailed _) fun hc₄ => .ite (fun _ => ?_) fun _ => ?_
    · exact succeeds_some.mpr ⟨hlen hl₄, hz₄ hc₄⟩
    · exact succeeds_some.mpr ⟨hlen hl₄, hz₄ hc₄⟩

theorem decodeLoop_succeeds {n : ℕ} (h : 0 ∈ p) (hn : p.length < n) (q : Bytes) :
    Succeeds (decodeLoop n p q) fun _ => True := by
  induction n generalizing p q with
  | zero => omega
  | succ n ih =>
    rw [decodeLoop]
    refine (quadruplet_succeeds h q).bind fun pass hpass => ?_
    cases pass with
    | finished q => exact succeeds_some.mpr trivial
    | failed q => exact succeeds_some.mpr trivial
    | continued p' q' => exact ih hpass.2 (Nat.lt_of_lt_of_le hpass.1 (Nat.le_of_lt_succ hn)) q'

theorem base64Decode_succeeds (h : 0 ∈ p) : Succeeds (base64Decode p) fun _ => True :=
  decodeLoop_succeeds h (Nat.lt_succ_self _) []

theorem decodeLoop_result {n : ℕ} {ret : ℤ} {out : Bytes}
    (h : decodeLoop n p q = some (ret, out)) : ret = -1 ∨ ret = wrapInt out.length := by
  induction n generalizing p q with
  | zero => cases h
  | succ n ih =>
    rw [decodeLoop] at h
    obtain ⟨pass, -, h⟩ := Option.bind_eq_some_iff.mp h
    cases pass with
    | finished q =>
      simp only [Option.some.injEq, Prod.mk.injEq] at h
      obtain ⟨rfl, rfl⟩ := h
      exact .inr rfl
    | failed q =>
      simp only [Option.some.injEq, Prod.mk.injEq] at h
      exact .inl h.1.symm
    | continued p' q' => exact ih h

/-- The keyed encoder returns, if two bytes can be read behind the copy of the data. -/
def EncodeReturns (d xorString : Bytes) : Prop :=
  ∀ (t t' : UInt8) (tail : Bytes), ∃ rounds r,
    base64EncodeXor rounds d d.length xorString (t :: t' :: tail) = some (some r)

/-- The keyed decoder returns. -/
def DecodeReturns (text xorString : Bytes) : Prop :=
  ∃ rounds r, base64DecodeXor rounds text xorString = some (some r)

variable {d text xorString : Bytes}

theorem keyOf_ne_nil_iff (xorString : Bytes) :
    keyOf xorString ≠ [] ↔ 0 < wrapInt (strlen xorString) := by
  rw [ne_eq, keyOf_eq_nil_iff, Int.not_le]

theorem encodeReturns_iff (h : d.length < 2 ^ 31) : EncodeReturns d xorString ↔
    d.length ≤ 2147483646 ∧ (d = [] ∨ 0 < wrapInt (strlen xorString)) := by
  rw [← keyOf_ne_nil_iff]
  constructor
  · intro hreturns
    obtain ⟨rounds, r, hencode⟩ := hreturns 0 0 []
    rw [base64EncodeXor, if_neg (by omega), Int.toNat_natCast, List.take_length] at hencode
    constructor
    · by_contra hlong
      obtain ⟨tmp, htmp, hnone⟩ := Option.map_eq_some_iff.mp hencode
      have hlen := length_xorLoop htmp
      rw [← hlen, base64Encode_overflow tmp (by omega)] at hnone
      cases hnone
    · by_contra hno
      rw [not_or, not_not] at hno
      rw [hno.2, xorLoop_nil hno.1] at hencode
      cases hencode
  · rintro ⟨hlong, hkey⟩ t t' tail
    obtain ⟨rounds, text, n, hencode, -⟩ :=
      roundTrips_of_key (by omega) hkey t t' tail []
    exact ⟨rounds, _, hencode⟩

theorem decodeReturns_iff (h : 0 ∈ text) : DecodeReturns text xorString ↔
    (∃ ret q, base64Decode text = some (ret, q) ∧ ret ≤ 0) ∨
      0 < wrapInt (strlen xorString) := by
  rw [← keyOf_ne_nil_iff]
  obtain ⟨⟨ret, q⟩, hdecode, -⟩ := base64Decode_succeeds h
  have hiff : (∃ ret q, base64Decode text = some (ret, q) ∧ ret ≤ 0) ↔ ret ≤ 0 := by
    rw [hdecode]
    constructor
    · rintro ⟨ret', q', heq, hle⟩
      cases heq
      exact hle
    · exact fun hle => ⟨ret, q, rfl, hle⟩
  rw [hiff]
  unfold DecodeReturns base64DecodeXor
  simp only [hdecode]
  by_cases hfail : ret = -1
  · simp only [if_pos hfail]
    exact iff_of_true ⟨0, _, rfl⟩ (.inl (by omega))
  simp only [if_neg hfail]
  have hret : ret = wrapInt q.length := (decodeLoop_result hdecode).resolve_left hfail
  constructor
  · rintro ⟨rounds, r, hloop⟩
    by_contra hno
    rw [not_or, not_not, Int.not_le] at hno
    obtain ⟨hpos, hnil⟩ := hno
    have htodo : q.take ret.toNat ≠ [] := by
      intro hempty
      rcases List.take_eq_nil_iff.mp hempty with hzero | rfl
      · omega
      · exact absurd hpos (by rw [hret]; decide)
    rw [hnil, xorLoop_nil htodo] at hloop
    cases hloop
  · intro hcond
    have htodo : q.take ret.toNat = [] ∨ keyOf xorString ≠ [] := by
      refine hcond.imp_left fun hle => ?_
      rw [Int.toNat_of_nonpos hle, List.take_zero]
    obtain ⟨out, hout, -⟩ := xorLoop_succeeds htodo le_rfl
    exact ⟨_, _, by rw [hout]; rfl⟩

/-- The keyed calls return for just these data, texts and keys. -/
theorem keyed_returns_iff (d text xorString : Bytes) (h : d.length < 2 ^ 31) (htext : 0 ∈ text) :
    (EncodeReturns d xorString ↔
      d.length ≤ 2147483646 ∧ (d = [] ∨ 0 < wrapInt (strlen xorString))) ∧
    (DecodeReturns text xorString ↔
      (∃ ret q, base64Decode text = some (ret, q) ∧ ret ≤ 0) ∨
        0 < wrapInt (strlen xorString)) :=
  ⟨encodeReturns_iff h, decodeReturns_iff htext⟩

theorem keyed_returns_iff_one :
    (EncodeReturns [7] [107, 0] ↔
      ([7] : Bytes).length ≤ 2147483646 ∧
        (([7] : Bytes) = [] ∨ 0 < wrapInt (strlen [107, 0]))) ∧
    (DecodeReturns [66, 119, 61, 61, 0] [107, 0] ↔
      (∃ ret q, base64Decode [66, 119, 61, 61, 0] = some (ret, q) ∧ ret ≤ 0) ∨
        0 < wrapInt (strlen [107, 0])) :=
  keyed_returns_iff [7] [66, 119, 61, 61, 0] [107, 0] (by decide) (by decide)

/-- With an empty key, one byte is neither encoded nor decoded in any number of rounds. -/
theorem empty_key_not_returns :
    ¬ EncodeReturns [7] [0] ∧ ¬ DecodeReturns [66, 119, 61, 61, 0] [0] := by
  rw [encodeReturns_iff (by decide), decodeReturns_iff (by decide)]
  constructor
  · rintro ⟨-, hkey⟩
    exact absurd hkey (by decide)
  · rintro (⟨ret, q, hdecode, hle⟩ | hkey)
    · have hone : base64Decode [66, 119, 61, 61, 0] = some (1, [7]) := by decide +kernel
      cases hone.symm.trans hdecode
      exact absurd hle (by decide)
    · exact absurd hkey (by decide)

end Termination

section Memory

variable {d xorString : Bytes}

/-- Two runs on the same data and key write the same text, whatever is in the memory. -/
def TextsAgree (d xorString : Bytes) : Prop :=
  ∀ (more more' tail tail' : Bytes) (t₁ t₂ u₁ u₂ : UInt8) (rounds : ℕ),
    base64EncodeXor rounds (d ++ more) d.length xorString (t₁ :: t₂ :: tail) =
      base64EncodeXor rounds (d ++ more') d.length xorString (u₁ :: u₂ :: tail')

/-- No byte behind the copy of the data is read, so that none has to be there. -/
def ReadsCopyOnly (d xorString : Bytes) : Prop :=
  ∀ more rounds, base64EncodeXor rounds (d ++ more) d.length xorString [] ≠ some none

theorem base64Encode_groups (h3 : 3 ∣ d.length) (h : d.length < 2 ^ 31) (tail : Bytes) :
    base64Encode (d ++ tail) d.length =
      some (encoded 0 d ++ [0], wrapInt (encoded 0 d).length) := by
  have hloop : encodeLoop d.length (d ++ tail) 0 = some (encoded 0 d, (d.length : ℤ)) := by
    rw [encodeLoop_groups (t := 0) h3 le_rfl (by omega) (by omega), encodeLoop_of_le (by omega)]
    simp
  have hpad : padResult (encoded 0 d) d.length d.length = some (encoded 0 d) := by
    rw [padResult, if_neg (wrapInt_add_ne (by decide) (by decide)).symm,
      if_neg (wrapInt_add_ne (by decide) (by decide)).symm]
  rw [base64Encode, hloop, Option.bind_eq_bind, Option.bind_some]
  simp only [hpad]
  rfl

theorem base64Encode_part (h3 : ¬ 3 ∣ d.length) (h : d.length < 2 ^ 31) :
    base64Encode d d.length = none := by
  obtain ⟨e, r, rfl, he, hr⟩ := exists_groups d
  have hpos : 0 < r.length := by
    rw [List.length_append] at h3
    omega
  have hnone : encodeLoop (e ++ r).length r (0 + e.length) = none := by
    unfold encodeLoop
    split
    · next a b c s => exact absurd hr (by simp)
    · rw [if_pos (by rw [List.length_append]; omega)]
  rw [base64Encode, encodeLoop_groups (t := 0) he le_rfl (by rw [List.length_append]; omega)
    (by rw [List.length_append] at h; omega), hnone]
  rfl

theorem base64EncodeXor_eq (d more tail xorString : Bytes) (rounds : ℕ) :
    base64EncodeXor rounds (d ++ more) d.length xorString tail =
      (fun tmp => base64Encode (tmp ++ tail) d.length) <$>
        xorLoop (keyOf xorString) rounds d := by
  have hlen : ¬ ((d.length : ℤ) < 0 ∨ ((d ++ more).length : ℤ) < d.length) := by
    rw [List.length_append]
    omega
  rw [base64EncodeXor, if_neg hlen, Int.toNat_natCast, List.take_left]

theorem base64EncodeXor_groups (h3 : 3 ∣ d.length) (h : d.length < 2 ^ 31)
    (more tail xorString : Bytes) (rounds : ℕ) :
    base64EncodeXor rounds (d ++ more) d.length xorString tail =
      (fun tmp => some (encoded 0 tmp ++ [0], wrapInt (encoded 0 tmp).length)) <$>
        xorLoop (keyOf xorString) rounds d := by
  rw [base64EncodeXor_eq]
  cases htmp : xorLoop (keyOf xorString) rounds d with
  | none => rfl
  | some tmp =>
    have hlen := length_xorLoop htmp
    refine congrArg some ?_
    rw [← hlen]
    exact base64Encode_groups (hlen ▸ h3) (hlen ▸ h) tail

/-- The loop over an empty key ends for no data but the empty ones. -/
theorem base64EncodeXor_nil (hd : d ≠ []) (hkey : keyOf xorString = []) (more tail : Bytes)
    (rounds : ℕ) : base64EncodeXor rounds (d ++ more) d.length xorString tail = none := by
  rw [base64EncodeXor_eq, hkey, xorLoop_nil hd]
  rfl

/-- Of a part of a group a byte behind the copy is read. -/
theorem base64EncodeXor_part (h3 : ¬ 3 ∣ d.length) (h : d.length < 2 ^ 31)
    (hkey : keyOf xorString ≠ []) :
    base64EncodeXor d.length (d ++ []) d.length xorString [] = some none := by
  obtain ⟨tmp, htmp, hlen, -⟩ := xorLoop_succeeds (.inr hkey) (Nat.le_refl d.length)
  rw [base64EncodeXor_eq, htmp]
  change some (base64Encode (tmp ++ []) d.length) = some none
  rw [List.append_nil, ← hlen, base64Encode_part (hlen ▸ h3) (hlen ▸ h)]

/-- The text depends on the data and the key alone exactly if the data are whole groups, or the loop
over the key does not end. -/
theorem text_depends_iff (d xorString : Bytes) (h : d.length < 2 ^ 31) :
    TextsAgree d xorString ∧ ReadsCopyOnly d xorString ↔
      3 ∣ d.length ∨ wrapInt (strlen xorString) ≤ 0 := by
  rw [← keyOf_eq_nil_iff]
  constructor
  · rintro ⟨-, hinside⟩
    by_contra hno
    obtain ⟨h3, hkey⟩ := not_or.mp hno
    exact hinside [] d.length (base64EncodeXor_part h3 h hkey)
  · intro hcond
    by_cases h3 : 3 ∣ d.length
    · constructor
      · intro more more' tail tail' t₁ t₂ u₁ u₂ rounds
        rw [base64EncodeXor_groups h3 h, base64EncodeXor_groups h3 h]
      · intro more rounds hnone
        rw [base64EncodeXor_groups h3 h] at hnone
        obtain ⟨tmp, -, hencode⟩ := Option.map_eq_some_iff.mp hnone
        cases hencode
    · have hkey := hcond.resolve_left h3
      have hd : d ≠ [] := by
        rintro rfl
        exact h3 (Nat.dvd_zero 3)
      constructor
      · intro more more' tail tail' t₁ t₂ u₁ u₂ rounds
        rw [base64EncodeXor_nil hd hkey, base64EncodeXor_nil hd hkey]
      · intro more rounds hnone
        rw [base64EncodeXor_nil hd hkey] at hnone
        cases hnone

theorem text_depends_iff_three :
    TextsAgree [1, 2, 3] [107, 0] ∧ ReadsCopyOnly [1, 2, 3] [107, 0] ↔
      3 ∣ ([1, 2, 3] : Bytes).length ∨ wrapInt (strlen [107, 0]) ≤ 0 :=
  text_depends_iff [1, 2, 3] [107, 0] (by decide)

/-- The text of one byte depends on the byte behind its copy, which has to be there. -/
theorem text_depends_on_tail : ¬ TextsAgree [7] [107, 0] ∧ ¬ ReadsCopyOnly [7] [107, 0] := by
  constructor
  · intro hagree
    exact absurd (hagree [] [] [] [] 0 0 255 0 1) (by decide +kernel)
  · intro hinside
    exact hinside [] 1 (by decide +kernel)

end Memory

end YlUtils.YeeBase64
