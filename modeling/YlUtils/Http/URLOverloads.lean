import YlUtils.Http.URLEncoder
import YlUtils.Runs.Succeeds

/-! # The overloads of the URL encoder

The encoder of a counted text looks ahead of a `%` without regard to the count.
What lies behind the text decides how a `%` among its last two bytes is encoded,
and the overloads agree on every other text.
-/

namespace YlUtils.URLEncoder

/-- `url_char_needs_escaping` at a place of the memory, which ends with the list. The second
digit is read only behind a first one. -/
def needsEscapingIn (mem : Bytes) : Option Bool := do
  let c ← mem[0]?
  if c = 37 then do
    let h1 ← mem[1]?
    if isxdigit h1 then do
      let h2 ← mem[2]?
      some !isxdigit h2
    else some true
  else some (urlchrTest c urlchrUnsafe && !urlchrTest c urlchrReserved)

def encodeCounted : ℕ → Bytes → Option Bytes
  | 0, _ => some []
  | _ + 1, [] => none
  | n + 1, c :: p => do
    let e ← needsEscapingIn (c :: p)
    let encoded ← encodeCounted n p
    some (if e then 37 :: xnumToDigit (c >>> 4) :: xnumToDigit (c &&& 0xf) :: encoded
      else c :: encoded)

/-- `encode(url, len)`, where `mem` is the memory from `url` on. -/
def encodeLen (mem : Bytes) (len : ℤ) : Option Bytes := encodeCounted len.toNat mem

def advance (tourl : Bytes) (n : ℕ) : Option Bytes :=
  if n ≤ tourl.length then some (tourl.drop n) else none

/-- `encode(tourl, fromurl)`, where both are memories, and what it leaves in `tourl`. -/
def encodeTo : Bytes → Bytes → Option Bytes
  | _, [] => none
  | tourl, c :: p =>
    if c = 0 then do
      let p1 ← advance tourl 1
      some (0 :: p1)
    else do
      let e ← needsEscapingIn (c :: p)
      if e then do
        let p1 ← advance tourl 3
        let encoded ← encodeTo p1 p
        some (37 :: xnumToDigit (c >>> 4) :: xnumToDigit (c &&& 0xf) :: encoded)
      else do
        let p1 ← advance tourl 1
        let encoded ← encodeTo p1 p
        some (c :: encoded)

/-- The overloads agree on the text `s` that the bytes `rest` lie behind. -/
def OverloadsAgree (s rest : Bytes) : Prop :=
  encodeLen (s ++ rest) s.length = some (encode s) ∧
    ∀ tourl t : Bytes, (encode s).length < tourl.length →
      Succeeds (encodeTo tourl (s ++ 0 :: t)) fun r => cstr r = encode s

/-- A `%` among the last two bytes of `s` is not completed to an escape by `rest`. -/
structure EndsCleanly (s rest : Bytes) : Prop where
  percent : [37] <:+ s → ∃ b t, rest = b :: t ∧
    (isxdigit b = true → ∃ c u, t = c :: u ∧ isxdigit c = false)
  digit : ∀ d, isxdigit d = true → [37, d] <:+ s → ∃ b t, rest = b :: t ∧ isxdigit b = false

section Overloads

variable {s rest : Bytes} {c : UInt8}

theorem endsCleanly_nil : EndsCleanly [] rest where
  percent h := by simp at h
  digit d _ h := by simp at h

theorem endsCleanly_cons (h : c ≠ 37 ∨ 2 ≤ s.length) :
    EndsCleanly (c :: s) rest ↔ EndsCleanly s rest := by
  have hone : [37] <:+ c :: s ↔ [37] <:+ s := by
    rw [List.suffix_cons_iff, or_iff_right]
    intro he
    obtain ⟨rfl, rfl⟩ := List.cons.inj he
    simp at h
  have htwo : ∀ d, [37, d] <:+ c :: s ↔ [37, d] <:+ s := fun d => by
    rw [List.suffix_cons_iff, or_iff_right]
    intro he
    obtain ⟨rfl, rfl⟩ := List.cons.inj he
    simp at h
  constructor
  · exact fun hs => ⟨fun hp => hs.percent (hone.mpr hp), fun d hd hp => hs.digit d hd
      ((htwo d).mpr hp)⟩
  · exact fun hs => ⟨fun hp => hs.percent (hone.mp hp), fun d hd hp => hs.digit d hd
      ((htwo d).mp hp)⟩

theorem EndsCleanly.tail (h : EndsCleanly (c :: s) rest) : EndsCleanly s rest where
  percent hp := h.percent (hp.trans (List.suffix_cons c s))
  digit d hd hp := h.digit d hd (hp.trans (List.suffix_cons c s))

theorem endsCleanly_zero (s t : Bytes) : EndsCleanly s (0 :: t) where
  percent _ := ⟨0, t, rfl, fun h => absurd h (by decide)⟩
  digit _ _ _ := ⟨0, t, rfl, by decide⟩

theorem needsEscapingIn_percent (mem : Bytes) : needsEscapingIn (37 :: mem) = some true ↔
    ∃ b t, mem = b :: t ∧ (isxdigit b = true → ∃ c u, t = c :: u ∧ isxdigit c = false) := by
  rcases mem with - | ⟨b, t⟩
  · simp [needsEscapingIn]
  · cases hb : isxdigit b with
    | false => simp [needsEscapingIn, hb]
    | true =>
      rcases t with - | ⟨c, u⟩
      · simp [needsEscapingIn, hb]
      · simp [needsEscapingIn, hb]

theorem needsEscapingIn_far (h : c ≠ 37 ∨ 2 ≤ s.length) (rest : Bytes) :
    needsEscapingIn (c :: (s ++ rest)) = some (urlCharNeedsEscaping (c :: s)) := by
  by_cases hc : c = 37
  · subst hc
    rcases s with - | ⟨b, - | ⟨d, s⟩⟩
    · simp at h
    · simp at h
    · cases hb : isxdigit b with
      | false => simp [needsEscapingIn, urlCharNeedsEscaping, hb]
      | true => simp [needsEscapingIn, urlCharNeedsEscaping, hb]
  · simp [needsEscapingIn, urlCharNeedsEscaping, hc]

theorem needsEscapingIn_eq (h : EndsCleanly (c :: s) rest) :
    needsEscapingIn (c :: (s ++ rest)) = some (urlCharNeedsEscaping (c :: s)) := by
  by_cases hc : c ≠ 37 ∨ 2 ≤ s.length
  · exact needsEscapingIn_far hc rest
  · obtain ⟨rfl, hlen⟩ := by simpa only [not_or, not_not, not_le] using hc
    rcases s with - | ⟨b, - | ⟨d, s⟩⟩
    · rw [List.nil_append, (needsEscapingIn_percent rest).mpr (h.percent List.suffix_rfl)]
      rfl
    · have hn : urlCharNeedsEscaping [37, b] = true := by
        rw [spares_url.percent]
        simp [isxdigit]
      rw [hn, List.singleton_append, needsEscapingIn_percent]
      exact ⟨b, rest, rfl, fun hb => h.digit b hb List.suffix_rfl⟩
    · simp only [List.length_cons] at hlen
      omega

theorem encodeCounted_eq (h : EndsCleanly s rest) :
    encodeCounted s.length (s ++ rest) = some (encodeWith urlCharNeedsEscaping s) := by
  induction s with
  | nil => rfl
  | cons c s ih =>
    rw [List.length_cons, List.cons_append, encodeCounted, needsEscapingIn_eq h, ih h.tail]
    rfl

theorem encodeCounted_cons {w : Bytes}
    (h : encodeCounted (c :: s).length (c :: s ++ rest) = some w) : ∃ e v,
      needsEscapingIn (c :: (s ++ rest)) = some e ∧
      encodeCounted s.length (s ++ rest) = some v ∧
      w = if e then 37 :: xnumToDigit (c >>> 4) :: xnumToDigit (c &&& 0xf) :: v else c :: v := by
  rw [List.length_cons, List.cons_append, encodeCounted] at h
  cases hn : needsEscapingIn (c :: (s ++ rest)) with
  | none => simp [hn] at h
  | some e =>
    cases hv : encodeCounted s.length (s ++ rest) with
    | none => simp [hn, hv] at h
    | some v =>
      rw [hn, hv] at h
      exact ⟨e, v, rfl, rfl, (Option.some.inj h).symm⟩

/-- Only a text that ends cleanly is encoded as the encoder of a terminated text does. -/
theorem endsCleanly_of_encodeCounted
    (h : encodeCounted s.length (s ++ rest) = some (encodeWith urlCharNeedsEscaping s)) :
    EndsCleanly s rest := by
  induction s with
  | nil => exact endsCleanly_nil
  | cons c s ih =>
    obtain ⟨e, v, he, hv, hw⟩ := encodeCounted_cons h
    have htail : e = urlCharNeedsEscaping (c :: s) → EndsCleanly s rest := fun hn => by
      apply ih
      rw [hv]
      rw [encodeWith, ← hn] at hw
      cases e with
      | true => simpa using hw.symm
      | false => simpa using hw.symm
    by_cases hc : c ≠ 37 ∨ 2 ≤ s.length
    · rw [endsCleanly_cons hc]
      rw [needsEscapingIn_far hc, Option.some.injEq] at he
      exact htail he.symm
    · obtain ⟨rfl, hlen⟩ := by simpa only [not_or, not_not, not_le] using hc
      have hneeds : urlCharNeedsEscaping (37 :: s) = true := by
        rw [spares_url.percent]
        rcases s with - | ⟨b, - | ⟨d, s⟩⟩
        · rfl
        · simp [isxdigit]
        · simp only [List.length_cons] at hlen
          omega
      rw [encodeWith_escape hneeds] at hw
      have hread := needsEscapingIn_percent (s ++ rest)
      cases e with
      | true =>
        have hs := htail hneeds.symm
        obtain ⟨b, t, hrest, hb⟩ := hread.mp he
        constructor
        · intro hp
          rcases List.suffix_cons_iff.mp hp with heq | hp
          · obtain rfl := (List.cons.inj heq).2
            exact ⟨b, t, hrest, hb⟩
          · exact hs.percent hp
        · intro d hd hp
          rcases List.suffix_cons_iff.mp hp with heq | hp
          · obtain rfl := (List.cons.inj heq).2
            obtain ⟨rfl, rfl⟩ := List.cons.inj hrest
            exact hb hd
          · exact hs.digit d hd hp
      | false =>
        -- the character behind the `%` is a digit, so that it is copied
        have hs : EndsCleanly s rest := by
          rcases s with - | ⟨b, - | ⟨d, s⟩⟩
          · exact endsCleanly_nil
          · apply (endsCleanly_cons (.inl _)).mpr endsCleanly_nil
            rintro rfl
            rw [hread.mpr ⟨37, rest, rfl, fun h => absurd h (by decide)⟩] at he
            exact absurd he (by simp)
          · simp only [List.length_cons] at hlen
            omega
        rw [encodeCounted_eq hs, Option.some.injEq] at hv
        have hlength := congrArg List.length hw
        simp only [Bool.false_eq_true, if_false, List.length_cons, hv] at hlength
        omega

theorem encodeTo_eq (hz : 0 ∉ s) (tourl t : Bytes)
    (hroom : (encodeWith urlCharNeedsEscaping s).length < tourl.length) :
    Succeeds (encodeTo tourl (s ++ 0 :: t)) fun r =>
      ∃ rest, r = encodeWith urlCharNeedsEscaping s ++ 0 :: rest := by
  induction s generalizing tourl with
  | nil =>
    have hfit : advance tourl 1 = some (tourl.drop 1) := if_pos hroom
    rw [List.nil_append, encodeTo, if_pos rfl, hfit]
    exact ⟨_, rfl, tourl.drop 1, rfl⟩
  | cons c s ih =>
    rw [List.mem_cons, not_or] at hz
    rw [List.cons_append, encodeTo, if_neg (Ne.symm hz.1),
      needsEscapingIn_eq (endsCleanly_zero _ t)]
    cases hn : urlCharNeedsEscaping (c :: s) with
    | true =>
      rw [encodeWith_escape hn] at hroom ⊢
      simp only [List.length_cons] at hroom
      have hfit : advance tourl 3 = some (tourl.drop 3) := if_pos (by omega)
      obtain ⟨r, hr, rest, rfl⟩ := ih hz.2 (tourl.drop 3) (by rw [List.length_drop]; omega)
      simp only [Option.bind_eq_bind, Option.bind_some, if_true, hfit, hr]
      exact ⟨_, rfl, rest, rfl⟩
    | false =>
      rw [encodeWith_copy hn] at hroom ⊢
      simp only [List.length_cons] at hroom
      have hfit : advance tourl 1 = some (tourl.drop 1) := if_pos (by omega)
      obtain ⟨r, hr, rest, rfl⟩ := ih hz.2 (tourl.drop 1) (by rw [List.length_drop]; omega)
      simp only [Option.bind_eq_bind, Option.bind_some, Bool.false_eq_true, if_false, hfit, hr]
      exact ⟨_, rfl, rest, rfl⟩

/-- The overloads agree on a text exactly if it ends cleanly before what lies behind it. -/
theorem overloadsAgree_iff (hz : 0 ∉ s) (rest : Bytes) :
    OverloadsAgree s rest ↔ EndsCleanly s rest := by
  unfold OverloadsAgree encodeLen encode
  rw [cstr_eq_self hz, Int.toNat_natCast]
  constructor
  · exact fun h => endsCleanly_of_encodeCounted h.1
  · intro h
    refine ⟨encodeCounted_eq h, fun tourl t hroom => (encodeTo_eq hz tourl t hroom).mono ?_⟩
    rintro r ⟨rest, rfl⟩
    exact cstr_append_zero (zero_notMem_url s) rest

theorem overloadsAgree_iff_digit : OverloadsAgree [37, 52] [65] ↔ EndsCleanly [37, 52] [65] :=
  overloadsAgree_iff (by decide) [65]

/-- The first byte of `%41` is encoded as if the digits behind it belonged to it. -/
theorem not_overloadsAgree : ¬ OverloadsAgree [37] [52, 49] := by
  intro h
  exact absurd h.1 (by decide)

end Overloads

end YlUtils.URLEncoder
