import YlUtils.Net.StdSocket
import YlUtils.Streams.Replies

/-! # What a write returns

The loop writes the whole buffer however the calls divide it, but returns the
result of its last call.
-/

namespace YlUtils.StdSocket

open Program

/-- If `safeWrite` returns, it has written the first `count` bytes in order and returns `count`. -/
def Delivers (mSocket : ℤ) (isPoll : Bool) (buf : Bytes) (count : ℤ) (rs : List Reply) : Prop :=
  ∀ s res, (safeWrite mSocket buf count isPoll).run rs = some (s, .ret res) →
    s = buf.take count.toNat ∧ res = count

section Replies

variable {rs : List Reply} {e : Errno} {k n : ℕ} {z : ℤ}

@[simp] theorem firstWritten_interrupted :
    firstWritten (List.replicate k .interrupted ++ rs) = firstWritten rs := by
  induction k with
  | zero => rfl
  | succ k ih => exact ih

@[simp] theorem firstWritten_ready : firstWritten (.ready z e :: rs) = firstWritten rs := rfl

@[simp] theorem firstWritten_wrote : firstWritten (.wrote n e :: rs) = some n := rfl

end Replies

section Loop

variable {mSocket : ℤ} {isPoll : Bool} {buf s : Bytes} {count res res' : ℤ} {fuel n : ℕ}
  {rs : List Reply} {q : Program ℤ}

/-- How a round goes on: a part of the buffer is written, of which the `int` result is positive. -/
inductive Writes (mSocket : ℤ) (isPoll : Bool) (fuel : ℕ) (buf : Bytes) (count : ℤ)
    (rs : List Reply) (s : Bytes) (q : Program ℤ) : Prop
  | ends : q ≠ .undefined → (∀ res, q ≠ .ret res) → Writes mSocket isPoll fuel buf count rs s q
  | outside : (buf.length : ℤ) < count → (∀ res, q ≠ .ret res) →
      Writes mSocket isPoll fuel buf count rs s q
  | wrote (k : ℕ) (rs' : List Reply) (t : Bytes) : (k : ℤ) ≤ count → 0 < wrapInt k →
      firstWritten rs = some k → s = (buf.take count.toNat).take k ++ t →
      (safeWriteLoop mSocket isPoll fuel (buf.drop (wrapInt k).toNat) (count - wrapInt k)
        (wrapInt k)).run rs' = some (t, q) → Writes mSocket isPoll fuel buf count rs s q

theorem safeWriteLoop_writes (hcount : 0 < count)
    (h : (safeWriteLoop mSocket isPoll (fuel + 1) buf count res).run rs = some (s, q)) :
    Writes mSocket isPoll fuel buf count rs s q := by
  rw [safeWriteLoop, if_pos hcount] at h
  rcases run_wait h with ⟨rfl, -, -⟩ | ⟨k, z, e, rs', rfl, hwait⟩
  · exact .ends (by simp) (by simp)
  · split at hwait
    · obtain ⟨-, -, rfl⟩ := run_of_not_calls (by simp [Calls]) hwait
      exact .ends (by simp) (by simp)
    · split at hwait
      · next hbuf =>
        obtain ⟨-, -, rfl⟩ := run_of_not_calls (by simp [Calls]) hwait
        exact .outside hbuf (by simp)
      · next hbuf =>
        rcases run_write hwait with ⟨rfl, -⟩ | ⟨k', n, e, rs', t, hn, rfl, rfl, hwrite⟩ |
          ⟨k', e, rs', rfl, hwrite⟩
        · exact .ends (by simp) (by simp)
        · rw [List.length_take] at hn
          split at hwrite
          · obtain ⟨-, -, rfl⟩ := run_of_not_calls (by simp [Calls]) hwrite
            exact .ends (by simp) (by simp)
          · next hpos =>
            exact .wrote n rs' t (by omega) (by omega) (by simp) rfl hwrite
        · rw [if_pos (by decide)] at hwrite
          obtain ⟨-, -, rfl⟩ := run_of_not_calls (by simp [Calls]) hwrite
          exact .ends (by simp) (by simp)

theorem safeWriteLoop_defined (hbuf : count ≤ buf.length) (hf : count < fuel)
    (h : (safeWriteLoop mSocket isPoll fuel buf count res).run rs = some (s, q)) (h0 : 0 < fuel) :
    q ≠ .undefined := by
  induction fuel generalizing buf count res rs s with
  | zero => omega
  | succ fuel ih =>
    by_cases hcount : 0 < count
    · cases safeWriteLoop_writes hcount h with
      | ends hq => exact hq
      | outside hout => omega
      | wrote k rs' t hk hpos _ _ hrun =>
        have hle := wrapInt_le (Int.natCast_nonneg k)
        apply ih _ (by omega) hrun (by omega)
        rw [List.length_drop]
        omega
    · rw [safeWriteLoop, if_neg hcount] at h
      obtain ⟨-, -, rfl⟩ := run_of_not_calls (by simp [Calls]) h
      simp

theorem safeWriteLoop_res_lt (hres : res < 2 ^ 31)
    (h : (safeWriteLoop mSocket isPoll fuel buf count res).run rs = some (s, .ret res')) :
    res' < 2 ^ 31 := by
  induction fuel generalizing buf count res rs s with
  | zero =>
    obtain ⟨-, -, hq⟩ := run_of_not_calls (by simp [Calls, safeWriteLoop]) h
    exact absurd hq (by simp [safeWriteLoop])
  | succ fuel ih =>
    by_cases hcount : 0 < count
    · cases safeWriteLoop_writes hcount h with
      | ends _ hq => exact absurd rfl (hq res')
      | outside _ hq => exact absurd rfl (hq res')
      | wrote k rs' t _ _ _ _ hrun => exact ih (wrapInt_lt k) hrun
    · rw [safeWriteLoop, if_neg hcount] at h
      obtain ⟨-, -, hq⟩ := run_of_not_calls (by simp [Calls]) h
      rw [ret.inj hq]
      exact hres

/-- The rounds write the buffer up to `n`, and the result is `n` only if the first of them does. -/
theorem safeWriteLoop_returns (h31 : n < 2 ^ 31)
    (h : (safeWriteLoop mSocket isPoll fuel buf n res).run rs = some (s, .ret res')) :
    s = buf.take n ∧ (n = 0 → res' = res) ∧
      (0 < n → res' ≤ n ∧ (res' = n ↔ firstWritten rs = some n)) := by
  induction fuel generalizing buf n res rs s with
  | zero =>
    obtain ⟨-, -, hq⟩ := run_of_not_calls (by simp [Calls, safeWriteLoop]) h
    exact absurd hq (by simp [safeWriteLoop])
  | succ fuel ih =>
    by_cases hn : 0 < n
    · cases safeWriteLoop_writes (by omega) h with
      | ends _ hq => exact absurd rfl (hq res')
      | outside _ hq => exact absurd rfl (hq res')
      | wrote k rs' t hk hpos hfirst hs hrun =>
        rw [Int.toNat_natCast] at hs
        rw [wrapInt_natCast (show k < 2 ^ 31 by omega)] at hpos hrun
        rw [Int.toNat_natCast, ← Int.ofNat_sub (by omega)] at hrun
        obtain ⟨rfl, hzero, hmore⟩ := ih (by omega) hrun
        refine ⟨?_, fun h0 => absurd h0 (by omega), fun _ => ?_⟩
        · rw [hs, List.take_take, Nat.min_eq_left (by omega), ← List.take_add]
          congr 1
          omega
        · rw [hfirst, Option.some.injEq]
          rcases Nat.eq_or_lt_of_le (show k ≤ n by omega) with rfl | hlt
          · rw [hzero (Nat.sub_self k)]
            simp
          · obtain ⟨hle, -⟩ := hmore (by omega)
            constructor
            · omega
            · constructor <;> intro <;> omega
    · obtain rfl : n = 0 := by omega
      rw [safeWriteLoop, if_neg (by simp)] at h
      obtain ⟨-, rfl, hq⟩ := run_of_not_calls (by simp [Calls]) h
      exact ⟨rfl, fun _ => ret.inj hq, fun h0 => absurd h0 hn⟩

end Loop

variable {mSocket : ℤ} {isPoll : Bool} {buf s : Bytes} {count res : ℤ} {rs : List Reply}
  {q : Program ℤ}

theorem safeWrite_defined (hbuf : count ≤ buf.length)
    (h : (safeWrite mSocket buf count isPoll).run rs = some (s, q)) : q ≠ .undefined :=
  safeWriteLoop_defined hbuf (by omega) h (Nat.succ_pos _)

/-- A write that returns has delivered the buffer and says so only if there is nothing to write, or
the first call writes all of it and the number fits in an `int`. -/
theorem safeWrite_delivers_iff (hcount : 0 ≤ count)
    (h : (safeWrite mSocket buf count isPoll).run rs = some (s, .ret res)) :
    Delivers mSocket isPoll buf count rs ↔
      count = 0 ∨ count < 2 ^ 31 ∧ firstWritten rs = some count.toNat := by
  have hdelivers : Delivers mSocket isPoll buf count rs ↔
      s = buf.take count.toNat ∧ res = count := by
    constructor
    · intro hd
      exact hd s res h
    · rintro hd s' res' h'
      obtain ⟨rfl, hq⟩ := Prod.mk.inj (Option.some.inj (h.symm.trans h'))
      rwa [← ret.inj hq]
  rw [hdelivers]
  have hint := safeWriteLoop_res_lt (by decide) h
  by_cases h31 : count < 2 ^ 31
  · obtain ⟨n, rfl⟩ := Int.eq_ofNat_of_zero_le hcount
    obtain ⟨hs, hzero, hmore⟩ := safeWriteLoop_returns (by omega) h
    rw [Int.toNat_natCast]
    rcases Nat.eq_zero_or_pos n with rfl | hn
    · simp [hs, hzero rfl]
    · rw [← (hmore hn).2]
      constructor
      · rintro ⟨-, hres⟩
        exact .inr ⟨h31, hres⟩
      · rintro (h0 | ⟨-, hres⟩)
        · omega
        · exact ⟨hs, hres⟩
  · constructor
    · rintro ⟨-, hres⟩
      omega
    · rintro (h0 | ⟨hlt, -⟩)
      · omega
      · exact absurd hlt h31

/-- Two bytes that are written at once. -/
theorem safeWrite_delivers_iff_atOnce :
    Delivers 3 false [7, 8] 2 [.ready 1 ⟨false, ""⟩, .wrote 2 ⟨false, ""⟩] ↔
      (2 : ℤ) = 0 ∨ (2 : ℤ) < 2 ^ 31 ∧
        firstWritten [.ready 1 ⟨false, ""⟩, .wrote 2 ⟨false, ""⟩] = some (2 : ℤ).toNat :=
  safeWrite_delivers_iff (s := [7, 8]) (by decide) rfl

/-- Two bytes that are written one by one: the result is 1. -/
theorem not_delivers : ¬ Delivers 3 false [7, 8] 2
    [.ready 1 ⟨false, ""⟩, .wrote 1 ⟨false, ""⟩, .interrupted, .ready 1 ⟨false, ""⟩,
      .wrote 1 ⟨false, ""⟩] := by
  intro h
  exact absurd (h [7, 8] 1 rfl).2 (by decide)

end YlUtils.StdSocket
