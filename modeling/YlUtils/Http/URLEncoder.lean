import Mathlib.Data.FinEnum
import YlUtils.Http.URLDecoder

/-! # The encoder of URLs and query values

A text is written with the characters escaped that have no place in a URL, or in
a query value, except where it looks escaped already. Both encoders look two
characters ahead of a `%` and so does the decoder, which finds the same two
characters behind it in the encoded text.
-/

namespace YlUtils.URLEncoder

open HttpQuery (hexByte plain unescaped)
open URLDecoder

def urlchrReserved : UInt8 := 1

def urlchrUnsafe : UInt8 := 2

def urlchrTable : Array UInt8 := #[
    2, 2, 2, 2, 2, 2, 2, 2, 2, 2, 2, 2, 2, 2, 2, 2,
    2, 2, 2, 2, 2, 2, 2, 2, 2, 2, 2, 2, 2, 2, 2, 2,
    2, 0, 2, 3, 1, 2, 1, 0, 0, 0, 0, 1, 1, 0, 0, 1,
    0, 0, 0, 0, 0, 0, 0, 0, 0, 0, 3, 1, 2, 1, 2, 1,
    3, 0, 0, 0, 0, 0, 0, 0, 0, 0, 0, 0, 0, 0, 0, 0,
    0, 0, 0, 0, 0, 0, 0, 0, 0, 0, 0, 3, 2, 3, 2, 0,
    2, 0, 0, 0, 0, 0, 0, 0, 0, 0, 0, 0, 0, 0, 0, 0,
    0, 0, 0, 0, 0, 0, 0, 0, 0, 0, 0, 2, 2, 2, 0, 2,
    2, 2, 2, 2, 2, 2, 2, 2, 2, 2, 2, 2, 2, 2, 2, 2,
    2, 2, 2, 2, 2, 2, 2, 2, 2, 2, 2, 2, 2, 2, 2, 2,
    2, 2, 2, 2, 2, 2, 2, 2, 2, 2, 2, 2, 2, 2, 2, 2,
    2, 2, 2, 2, 2, 2, 2, 2, 2, 2, 2, 2, 2, 2, 2, 2,
    2, 2, 2, 2, 2, 2, 2, 2, 2, 2, 2, 2, 2, 2, 2, 2,
    2, 2, 2, 2, 2, 2, 2, 2, 2, 2, 2, 2, 2, 2, 2, 2,
    2, 2, 2, 2, 2, 2, 2, 2, 2, 2, 2, 2, 2, 2, 2, 2,
    2, 2, 2, 2, 2, 2, 2, 2, 2, 2, 2, 2, 2, 2, 2, 2]

def urlchrTest (c mask : UInt8) : Bool := urlchrTable.getD c.toNat 0 &&& mask ≠ 0

def queryCharNeedsEscaping (p : Bytes) : Bool :=
  if p.getD 0 0 = 37 then !(isxdigit (p.getD 1 0) && isxdigit (p.getD 2 0))
  else urlchrTest (p.getD 0 0) urlchrUnsafe || urlchrTest (p.getD 0 0) urlchrReserved

def urlCharNeedsEscaping (p : Bytes) : Bool :=
  if p.getD 0 0 = 37 then !(isxdigit (p.getD 1 0) && isxdigit (p.getD 2 0))
  else urlchrTest (p.getD 0 0) urlchrUnsafe && !urlchrTest (p.getD 0 0) urlchrReserved

def encodeWith (needsEscaping : Bytes → Bool) : Bytes → Bytes
  | [] => []
  | c :: p =>
    if needsEscaping (c :: p) then
      37 :: xnumToDigit (c >>> 4) :: xnumToDigit (c &&& 0xf) :: encodeWith needsEscaping p
    else c :: encodeWith needsEscaping p

def encode (url : Bytes) : Bytes := encodeWith urlCharNeedsEscaping (cstr url)

def encodeQuery (query : Bytes) : Bytes := encodeWith queryCharNeedsEscaping (cstr query)

section Digits

variable {c : UInt8}

theorem xnumToDigit_spec : ∀ c : UInt8,
    (c ≠ 0 → hexByte (xnumToDigit (c >>> 4)) (xnumToDigit (c &&& 0xf)) = some c) ∧
    isxdigit (xnumToDigit (c >>> 4)) = true ∧ isxdigit (xnumToDigit (c &&& 0xf)) = true := by
  decide +kernel

theorem hexByte_xnumToDigit (c : UInt8) (hc : c ≠ 0) :
    hexByte (xnumToDigit (c >>> 4)) (xnumToDigit (c &&& 0xf)) = some c := (xnumToDigit_spec c).1 hc

theorem isxdigit_xnumToDigit (c : UInt8) : isxdigit (xnumToDigit (c >>> 4)) = true ∧
    isxdigit (xnumToDigit (c &&& 0xf)) = true := (xnumToDigit_spec c).2

theorem ne_percent_of_isxdigit : ∀ c : UInt8, isxdigit c = true → c ≠ 37 := by
  rintro c hc rfl
  cases hc

theorem unescaped_cons (hc : c ≠ 37) (s : Bytes) : unescaped (c :: s) = plain c :: unescaped s := by
  match s with
  | [] => rfl
  | [a] => rfl
  | a :: b :: s => rw [unescaped, if_neg hc]

theorem unescaped_escape (hc : c ≠ 0) (s : Bytes) :
    unescaped (37 :: xnumToDigit (c >>> 4) :: xnumToDigit (c &&& 0xf) :: s) = c :: unescaped s := by
  rw [unescaped, if_pos rfl, hexByte_xnumToDigit c hc]

end Digits

/-- A test that spares what looks like an escape and decides on any other character alone. -/
structure Spares (needsEscaping : Bytes → Bool) (escaped : UInt8 → Bool) : Prop where
  percent : ∀ p, needsEscaping (37 :: p) = !(isxdigit (p.getD 0 0) && isxdigit (p.getD 1 0))
  other : ∀ c p, c ≠ 37 → needsEscaping (c :: p) = escaped c
  digit : ∀ c, isxdigit c = true → escaped c = false

/-- The characters that are escaped in a URL, a `%` apart. -/
def escapedInUrl (c : UInt8) : Bool := urlchrTest c urlchrUnsafe && !urlchrTest c urlchrReserved

def escapedInQuery (c : UInt8) : Bool := urlchrTest c urlchrUnsafe || urlchrTest c urlchrReserved

theorem not_escaped_of_isxdigit : ∀ c : UInt8, isxdigit c = true →
    escapedInUrl c = false ∧ escapedInQuery c = false := by decide +kernel

theorem escaped_plus_zero : (escapedInUrl 43 = false ∧ escapedInQuery 43 = true) ∧
    escapedInUrl 0 = true ∧ escapedInQuery 0 = true := by decide +kernel

theorem spares_url : Spares urlCharNeedsEscaping escapedInUrl where
  percent p := by
    unfold urlCharNeedsEscaping
    rw [List.getD_cons_zero, if_pos rfl]
    rfl
  other c p hc := by
    unfold urlCharNeedsEscaping
    rw [List.getD_cons_zero, if_neg hc]
    rfl
  digit c hc := (not_escaped_of_isxdigit c hc).1

theorem spares_query : Spares queryCharNeedsEscaping escapedInQuery where
  percent p := by
    unfold queryCharNeedsEscaping
    rw [List.getD_cons_zero, if_pos rfl]
    rfl
  other c p hc := by
    unfold queryCharNeedsEscaping
    rw [List.getD_cons_zero, if_neg hc]
    rfl
  digit c hc := (not_escaped_of_isxdigit c hc).2

section Spares

variable {needs : Bytes → Bool} {escaped : UInt8 → Bool} {a b c : UInt8} {s : Bytes}

theorem encodeWith_escape (h : needs (c :: s) = true) : encodeWith needs (c :: s) =
    37 :: xnumToDigit (c >>> 4) :: xnumToDigit (c &&& 0xf) :: encodeWith needs s := by
  rw [encodeWith, if_pos h]

theorem encodeWith_copy (h : needs (c :: s) = false) :
    encodeWith needs (c :: s) = c :: encodeWith needs s := by
  rw [encodeWith, h, if_neg Bool.false_ne_true]

theorem Spares.encodeWith_digit (h : Spares needs escaped) (hc : isxdigit c = true) (s : Bytes) :
    encodeWith needs (c :: s) = c :: encodeWith needs s := by
  apply encodeWith_copy
  rw [h.other c s (ne_percent_of_isxdigit c hc), h.digit c hc]

theorem Spares.percent_iff (h : Spares needs escaped) : needs (37 :: s) = false ↔
    ∃ b c t, s = b :: c :: t ∧ isxdigit b = true ∧ isxdigit c = true := by
  rw [h.percent]
  constructor
  · intro hn
    rw [Bool.not_eq_false', Bool.and_eq_true] at hn
    rcases s with - | ⟨b, - | ⟨c, t⟩⟩
    · exact absurd hn.1 (by decide)
    · exact absurd hn.2 (by simp [isxdigit])
    · exact ⟨b, c, t, rfl, hn.1, hn.2⟩
  · rintro ⟨b, c, t, rfl, hb, hc⟩
    simp [hb, hc]

theorem Spares.encodeWith_percent (h : Spares needs escaped) (hb : isxdigit b = true)
    (hc : isxdigit c = true) (s : Bytes) :
    encodeWith needs (37 :: b :: c :: s) = 37 :: b :: c :: encodeWith needs s := by
  rw [encodeWith_copy (h.percent_iff.mpr ⟨b, c, s, rfl, hb, hc⟩), h.encodeWith_digit hb,
    h.encodeWith_digit hc]

theorem Spares.hexByte_eq_none (h : Spares needs escaped)
    (hn : needs (37 :: b :: c :: s) = true) : hexByte b c = none := by
  rw [h.percent] at hn
  unfold hexByte
  rw [if_neg]
  rintro ⟨hd, -⟩
  simp [hd] at hn

theorem Spares.notMem_encodeWith (h : Spares needs escaped) (hp : a ≠ 37) (ha : escaped a = true)
    (s : Bytes) : a ∉ encodeWith needs s := by
  have hdigit : ∀ b, isxdigit b = true → a ≠ b := by
    rintro b hb rfl
    rw [h.digit a hb] at ha
    exact Bool.false_ne_true ha
  induction s with
  | nil => exact List.not_mem_nil
  | cons c s ih =>
    cases hn : needs (c :: s) with
    | true =>
      obtain ⟨h₁, h₂⟩ := isxdigit_xnumToDigit c
      rw [encodeWith_escape hn]
      simp [hp, hdigit _ h₁, hdigit _ h₂, ih]
    | false =>
      have hc : a ≠ c := by
        rintro rfl
        rw [h.other a s hp, ha] at hn
        exact absurd hn (by decide)
      rw [encodeWith_copy hn]
      simp [hc, ih]

/-- The encoder leaves its own output alone. -/
theorem Spares.encodeWith_idempotent (h : Spares needs escaped) (s : Bytes) :
    encodeWith needs (encodeWith needs s) = encodeWith needs s := by
  induction s with
  | nil => rfl
  | cons c s ih =>
    cases hn : needs (c :: s) with
    | true =>
      obtain ⟨h₁, h₂⟩ := isxdigit_xnumToDigit c
      rw [encodeWith_escape hn, h.encodeWith_percent h₁ h₂, ih]
    | false =>
      by_cases hc : c = 37
      · subst hc
        obtain ⟨a, b, t, rfl, ha, hb⟩ := h.percent_iff.mp hn
        rw [h.encodeWith_percent ha hb]
        rw [h.encodeWith_digit ha, h.encodeWith_digit hb] at ih
        rw [h.encodeWith_percent ha hb]
        rw [h.encodeWith_digit ha, h.encodeWith_digit hb, List.cons.injEq, List.cons.injEq] at ih
        rw [ih.2.2]
      · rw [encodeWith_copy hn, encodeWith_copy, ih]
        rw [h.other c _ hc] at hn ⊢
        exact hn

theorem Spares.unescaped_encodeWith (h : Spares needs escaped) {copy : UInt8 → UInt8}
    (hcopy : ∀ c, copy c = if c = 37 ∨ escaped c = true then c else plain c) (hz : 0 ∉ s) :
    unescaped (encodeWith needs s) = replacedWith copy s := by
  -- a `%` before two digits is copied, so the digits are skipped together
  induction hn : s.length using Nat.strong_induction_on generalizing s with
  | h n ih =>
    subst hn
    rcases s with - | ⟨c, s⟩
    · rfl
    rw [List.mem_cons, not_or] at hz
    have ihs := ih s.length (by simp) hz.2 rfl
    cases hn : needs (c :: s) with
    | true =>
      have hkeep : copy c = c := by
        rw [hcopy, if_pos]
        by_cases hc : c = 37
        · exact .inl hc
        · exact .inr (h.other c s hc ▸ hn)
      rw [encodeWith_escape hn, unescaped_escape (Ne.symm hz.1), ihs, replacedWith_cons, hkeep]
      rintro a b t rfl rfl
      exact h.hexByte_eq_none hn
    | false =>
      by_cases hc : c = 37
      · subst hc
        obtain ⟨a, b, t, rfl, ha, hb⟩ := h.percent_iff.mp hn
        simp only [List.mem_cons, not_or] at hz
        have iht := ih t.length (by simp only [List.length_cons]; omega) hz.2.2.2 rfl
        rw [h.encodeWith_percent ha hb, unescaped, replacedWith, if_pos rfl]
        rw [h.encodeWith_digit ha, h.encodeWith_digit hb] at ihs
        cases hexByte a b with
        | some x => simp only [iht]
        | none =>
          have hkeep : copy 37 = plain 37 := by
            rw [hcopy, if_pos (.inl rfl)]
            rfl
          simp only [ihs, hkeep]
      · rw [encodeWith_copy hn, unescaped_cons hc, ihs, replacedWith_cons, hcopy, if_neg]
        · rw [h.other c s hc] at hn
          simp [hc, hn]
        · exact fun _ _ _ _ ha => absurd ha hc

end Spares

theorem plain_of_ne {c : UInt8} (hc : c ≠ 43) : plain c = c := if_neg hc

theorem plain_eq_url (c : UInt8) :
    plain c = if c = 37 ∨ escapedInUrl c = true then c else plain c := by
  by_cases hc : c = 43
  · rw [hc, escaped_plus_zero.1.1, if_neg (by decide)]
  · rw [plain_of_ne hc, ite_self]

theorem id_eq_query (c : UInt8) :
    id c = if c = 37 ∨ escapedInQuery c = true then c else plain c := by
  by_cases hc : c = 43
  · rw [hc, if_pos (.inr escaped_plus_zero.1.2), id]
  · rw [plain_of_ne hc, ite_self, id]

theorem zero_notMem_url (s : Bytes) : 0 ∉ encodeWith urlCharNeedsEscaping s :=
  spares_url.notMem_encodeWith (by decide) escaped_plus_zero.2.1 s

theorem zero_notMem_query (s : Bytes) : 0 ∉ encodeWith queryCharNeedsEscaping s :=
  spares_query.notMem_encodeWith (by decide) escaped_plus_zero.2.2 s

theorem unescaped_encodeQuery {s : Bytes} (hz : 0 ∉ s) :
    unescaped (encodeWith queryCharNeedsEscaping s) = replaced s :=
  spares_query.unescaped_encodeWith id_eq_query hz

/-- Encoding an encoded text changes nothing. -/
theorem encode_idempotent (s : Bytes) :
    encode (encode s) = encode s ∧ encodeQuery (encodeQuery s) = encodeQuery s := by
  constructor
  · unfold encode
    rw [cstr_eq_self (zero_notMem_url _), spares_url.encodeWith_idempotent]
  · unfold encodeQuery
    rw [cstr_eq_self (zero_notMem_query _), spares_query.encodeWith_idempotent]

/-- The text a URL or a query value denotes is what its encoding denotes. -/
theorem decode_urlEncoded {s : Bytes} (hz : 0 ∉ s) :
    (decode s).isSome = true ∧ decode (encode s) = decode s ∧
      decode (encodeQuery s) = some (replaced s) := by
  refine ⟨by rw [decode_eq]; rfl, ?_, ?_⟩
  · rw [decode_eq, decode_eq, encode, cstr_eq_self hz, cstr_eq_self (zero_notMem_url s),
      spares_url.unescaped_encodeWith plain_eq_url hz, unescaped_eq]
  · rw [decode_eq, encodeQuery, cstr_eq_self hz, cstr_eq_self (zero_notMem_query s),
      unescaped_encodeQuery hz]

/-- The text `%%41+`, whose second `%` begins an escape. -/
theorem decode_urlEncoded_overlapping :
    (decode [37, 37, 52, 49, 43]).isSome = true ∧
      decode (encode [37, 37, 52, 49, 43]) = decode [37, 37, 52, 49, 43] ∧
      decode (encodeQuery [37, 37, 52, 49, 43]) = some (replaced [37, 37, 52, 49, 43]) :=
  decode_urlEncoded (by decide)

end YlUtils.URLEncoder
