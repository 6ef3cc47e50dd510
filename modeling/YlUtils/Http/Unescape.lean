import YlUtils.Http.HttpQuery
import YlUtils.Runs.Succeeds

/-! # Unescaping in place

The text that unescaping leaves is stated without a buffer. In the buffer it
never grows beyond the text it replaces, and nothing outside that text changes.
-/

namespace YlUtils.HttpQuery

/-- The byte that two hexadecimal digits denote, unless it is zero. -/
def hexByte (a b : UInt8) : Option UInt8 :=
  if (isxdigit a && isxdigit b) = true ∧ x2digitsToNum a b ≠ 0 then some (x2digitsToNum a b)
  else none

/-- What an unescaped byte stands for. -/
def plain (c : UInt8) : UInt8 := if c = 43 then 32 else c

def unescaped : Bytes → Bytes
  | a :: b :: c :: s =>
    match (if a = 37 then hexByte b c else none) with
    | some x => x :: unescaped s
    | none => plain a :: unescaped (b :: c :: s)
  | a :: s => plain a :: unescaped s
  | [] => []

variable {a b c x y : UInt8} {s buf mid r : Bytes} {h : ℕ}

theorem hexByte_ne_zero (hx : hexByte a b = some x) : x ≠ 0 := by
  unfold hexByte at hx
  split at hx
  · next hc =>
    rw [Option.some_inj] at hx
    exact hx ▸ hc.2
  · exact absurd hx (by simp)

theorem plain_ne_zero (hc : c ≠ 0) : plain c ≠ 0 := by
  unfold plain
  split
  · decide
  · exact hc

theorem zero_notMem_unescaped (hs : 0 ∉ s) : 0 ∉ unescaped s := by
  induction s using unescaped.induct with
  | case1 a b c s x hx ih =>
    have hx0 : x ≠ 0 := by
      by_cases ha : a = 37
      · rw [if_pos ha] at hx
        exact hexByte_ne_zero hx
      · rw [if_neg ha] at hx
        exact absurd hx (by simp)
    simp only [List.mem_cons, not_or] at hs
    rw [unescaped, hx, List.mem_cons, not_or]
    exact ⟨hx0.symm, ih hs.2.2.2⟩
  | case2 a b c s hx ih =>
    rw [List.mem_cons, not_or] at hs
    rw [unescaped, hx, List.mem_cons, not_or]
    exact ⟨(plain_ne_zero (Ne.symm hs.1)).symm, ih hs.2⟩
  | case3 a s hn ih =>
    rw [List.mem_cons, not_or] at hs
    rw [unescaped, List.mem_cons, not_or]
    · exact ⟨(plain_ne_zero (Ne.symm hs.1)).symm, ih hs.2⟩
    · exact hn
  | case4 => simp [unescaped]

theorem escapeAt_eq (hb : b ≠ 0) (hc : c ≠ 0) (h1 : buf[h + 1]? = some b)
    (h2 : buf[h + 2]? = some c) : escapeAt buf h = some (hexByte b c) := by
  unfold escapeAt hexByte
  simp only [h1, h2, Option.bind_eq_bind, Option.bind_some, if_neg hb]
  by_cases hd : (isxdigit b && isxdigit c) = true
  · by_cases hz : x2digitsToNum b c = 0
    · simp [hd, hz]
    · simp [hd, hz, hc]
  · simp [hd]

theorem escapeAt_eq_none (h1 : buf[h + 1]? = some b)
    (h2 : b = 0 ∨ buf[h + 2]? = some 0) : escapeAt buf h = some none := by
  unfold escapeAt
  rcases h2 with h2 | h2
  · simp [h1, h2]
  · simp only [h1, h2, Option.bind_eq_bind, Option.bind_some]
    split <;> simp

theorem exists_set_eq (a mid : Bytes) (c : UInt8) (s : Bytes) (y : UInt8) :
    ∃ mid' : Bytes, mid'.length = mid.length ∧
      (a ++ mid ++ c :: s).set a.length y = (a ++ [y]) ++ mid' ++ s := by
  cases mid with
  | nil => exact ⟨[], rfl, by simp⟩
  | cons m mid => exact ⟨mid ++ [c], by simp, by simp⟩

theorem unescapeLoop_plain {n t : ℕ} (h0 : buf[h]? = some c) (hc : c ≠ 0)
    (hesc : c = 37 → escapeAt buf h = some none) :
    unescapeLoop (n + 1) buf t h = unescapeLoop n (buf.set t (plain c)) (t + 1) (h + 1) := by
  rw [unescapeLoop, h0, Option.bind_eq_bind, Option.bind_some, if_neg hc]
  by_cases hp : c = 37
  · rw [if_neg (not_not.mpr hp), hesc hp]
    rfl
  · rw [if_pos hp]
    rfl

theorem unescapeLoop_escape {n t : ℕ} (h0 : buf[h]? = some 37)
    (hesc : escapeAt buf h = some (some x)) :
    unescapeLoop (n + 1) buf t h = unescapeLoop n (buf.set t x) (t + 1) (h + 3) := by
  rw [unescapeLoop, h0, Option.bind_eq_bind, Option.bind_some, if_neg (by decide),
    if_neg (by decide), hesc]
  rfl

/-- The loop leaves the unescaped text, a zero, and a rest of the old length. -/
theorem unescapeLoop_succeeds (hs : 0 ∉ s) {fuel : ℕ} (hf : s.length < fuel) (a mid r : Bytes) :
    Succeeds (unescapeLoop fuel (a ++ mid ++ (s ++ 0 :: r)) a.length (a.length + mid.length))
      fun buf => ∃ j : Bytes, buf = a ++ (unescaped s ++ 0 :: j) ++ r ∧
        (unescaped s).length + j.length = mid.length + s.length := by
  have hget : ∀ (a mid t : Bytes) (i : ℕ),
      (a ++ mid ++ t)[a.length + mid.length + i]? = t[i]? := fun a mid t i => by
    rw [List.getElem?_append_right (by rw [List.length_append]; omega), List.length_append]
    congr 1
    omega
  -- a byte that is copied becomes one of the bytes behind the tortoise
  have hplain : ∀ {c : UInt8} {s : Bytes}, c ≠ 0 → ∀ (n : ℕ) (a mid : Bytes),
      (c = 37 → escapeAt (a ++ mid ++ (c :: (s ++ 0 :: r))) (a.length + mid.length) = some none) →
      ∃ mid' : Bytes, mid'.length = mid.length ∧
        unescapeLoop (n + 1) (a ++ mid ++ (c :: (s ++ 0 :: r))) a.length (a.length + mid.length) =
          unescapeLoop n (a ++ [plain c] ++ mid' ++ (s ++ 0 :: r)) (a ++ [plain c]).length
            ((a ++ [plain c]).length + mid'.length) := by
    intro c s hc n a mid hesc
    obtain ⟨mid', hlen, hset⟩ := exists_set_eq a mid c (s ++ 0 :: r) (plain c)
    refine ⟨mid', hlen, ?_⟩
    rw [unescapeLoop_plain (hget a mid _ 0) hc hesc, hset, hlen, List.length_append,
      List.length_singleton]
    congr 1
    omega
  induction s using unescaped.induct generalizing fuel a mid with
  | case1 b c d s x hx ih =>
    simp only [List.mem_cons, not_or] at hs
    obtain ⟨n, rfl⟩ := Nat.exists_eq_succ_of_ne_zero (Nat.ne_zero_of_lt hf)
    obtain rfl : b = 37 := by
      by_contra hb
      rw [if_neg hb] at hx
      exact absurd hx (by simp)
    have hesc := escapeAt_eq (Ne.symm hs.2.1) (Ne.symm hs.2.2.1)
      (hget a mid (37 :: c :: d :: (s ++ 0 :: r)) 1) (hget a mid (37 :: c :: d :: (s ++ 0 :: r)) 2)
    rw [if_pos rfl] at hx
    rw [hx] at hesc
    obtain ⟨mid', hlen, hset⟩ := exists_set_eq a mid 37 (c :: d :: (s ++ 0 :: r)) x
    have hbuf : a ++ [x] ++ mid' ++ (c :: d :: (s ++ 0 :: r)) =
        a ++ [x] ++ (mid' ++ [c, d]) ++ (s ++ 0 :: r) := by simp
    have hpos : a.length + mid.length + 3 = (a ++ [x]).length + (mid' ++ [c, d]).length := by
      simp only [List.length_append, List.length_cons, List.length_nil]
      omega
    have hstep := ih hs.2.2.2 (show s.length < n by simp only [List.length_cons] at hf; omega)
      (a ++ [x])
      (mid' ++ [c, d])
    simp only [List.cons_append]
    rw [unescapeLoop_escape (hget a mid _ 0) hesc, hset, hbuf, hpos,
      show a.length + 1 = (a ++ [x]).length by simp]
    refine hstep.mono ?_
    rintro buf ⟨j, rfl, hj⟩
    refine ⟨j, by simp [unescaped, hx], ?_⟩
    simp only [unescaped, if_true, hx, List.length_cons, List.length_append, List.length_nil]
      at hj ⊢
    omega
  | case2 b c d s hx ih =>
    rw [List.mem_cons, not_or] at hs
    obtain ⟨n, rfl⟩ := Nat.exists_eq_succ_of_ne_zero (Nat.ne_zero_of_lt hf)
    have hs' : c ≠ 0 ∧ d ≠ 0 := by
      simp only [List.mem_cons, not_or] at hs
      exact ⟨Ne.symm hs.2.1, Ne.symm hs.2.2.1⟩
    obtain ⟨mid', hlen, hloop⟩ := hplain (s := c :: d :: s) (Ne.symm hs.1) n a mid
      fun hb => by
        rw [if_pos hb] at hx
        rw [escapeAt_eq hs'.1 hs'.2 (hget a mid _ 1) (hget a mid _ 2), hx]
    rw [List.cons_append, hloop]
    refine (ih hs.2 (by simpa using hf) _ mid').mono ?_
    rintro buf ⟨j, rfl, hj⟩
    refine ⟨j, by simp [unescaped, hx], ?_⟩
    simp only [unescaped, hx, List.length_cons] at hj ⊢
    omega
  | case3 b s hn ih =>
    rw [List.mem_cons, not_or] at hs
    obtain ⟨n, rfl⟩ := Nat.exists_eq_succ_of_ne_zero (Nat.ne_zero_of_lt hf)
    obtain ⟨mid', hlen, hloop⟩ := hplain (s := s) (Ne.symm hs.1) n a mid
      fun _ => by
        match s, hn with
        | [], _ => exact escapeAt_eq_none (hget a mid (b :: (0 :: r)) 1) (.inl rfl)
        | [c], _ => exact escapeAt_eq_none (hget a mid _ 1) (.inr (hget a mid (b :: c :: 0 :: r) 2))
        | c :: d :: s, hn => exact absurd rfl (hn c d s)
    rw [List.cons_append, hloop]
    refine (ih hs.2 (by simpa using hf) _ mid').mono ?_
    rintro buf ⟨j, rfl, hj⟩
    have hu : unescaped (b :: s) = plain b :: unescaped s := by
      rw [unescaped]
      exact hn
    refine ⟨j, by simp [hu], ?_⟩
    rw [hu, List.length_cons, List.length_cons]
    omega
  | case4 =>
    obtain ⟨n, rfl⟩ := Nat.exists_eq_succ_of_ne_zero (Nat.ne_zero_of_lt hf)
    have h0 := hget a mid (0 :: r) 0
    obtain ⟨mid', hlen, hset⟩ := exists_set_eq a mid 0 r 0
    simp only [List.nil_append, unescapeLoop, Nat.add_zero] at h0 ⊢
    rw [h0]
    simp only [List.getElem?_cons_zero, Option.bind_eq_bind, Option.bind_some, if_true,
      succeeds_some, hset]
    exact ⟨mid', by simp [unescaped], by simp [unescaped, hlen]⟩

theorem unescape_succeeds (hs : 0 ∉ s) (a r : Bytes) :
    Succeeds (unescape (a ++ (s ++ 0 :: r)) a.length) fun buf => ∃ j : Bytes,
      buf = a ++ (unescaped s ++ 0 :: j) ++ r ∧
        (unescaped s ++ 0 :: j).length = s.length + 1 := by
  have hf : s.length < (a ++ (s ++ 0 :: r)).length := by
    simp only [List.length_append, List.length_cons]
    omega
  have hloop := unescapeLoop_succeeds hs hf a [] r
  rw [List.append_nil] at hloop
  refine hloop.mono ?_
  rintro buf ⟨j, rfl, hj⟩
  refine ⟨j, rfl, ?_⟩
  rw [List.length_nil] at hj
  rw [List.length_append, List.length_cons]
  omega

end YlUtils.HttpQuery
