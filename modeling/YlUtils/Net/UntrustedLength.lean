import YlUtils.Net.Socket4Object
import YlUtils.Streams.Replies

/-! # Objects of an untrusted length

What is received into an object is as long as the peer says, whatever the object
has room for.
-/

namespace YlUtils

open Program

namespace StdSocket

section Loop

variable {mSocket count total : ℤ} {isPoll : Bool} {mem s : Bytes} {pos fuel : ℕ}
  {rs : List Reply} {q : Program (ℤ × Bytes)}

/-- The loop leaves the memory exactly as more is read than is left of it, and it returns what it
was to read. -/
structure Fills (mem : Bytes) (pos : ℕ) (count : ℤ) (b : Bytes) (q : Program (ℤ × Bytes)) :
    Prop where
  le : b.length ≤ count.toNat
  outside : q = .undefined ↔ mem.length < pos + b.length
  filled : ∀ r, q = .ret r →
    b.length = count.toNat ∧ r.2 = mem.take pos ++ b ++ mem.drop (pos + b.length)

theorem Fills.nothing (hpos : pos ≤ mem.length) (hq : q ≠ .undefined) (hret : ∀ r, q ≠ .ret r) :
    Fills mem pos count [] q := by
  refine ⟨Nat.zero_le _, ?_, fun r hr => absurd hr (hret r)⟩
  exact iff_of_false hq (Nat.not_lt.mpr hpos)

theorem Fills.cons {b b' : Bytes} (hpos : pos + b.length ≤ mem.length) (hb : b.length ≤ count)
    (h : Fills (mem.take pos ++ b ++ mem.drop (pos + b.length)) (pos + b.length)
      (count - b.length) b' q) : Fills mem pos count (b ++ b') q := by
  have hlen := length_store (store_eq hpos)
  have hle := h.le
  have hout := h.outside
  rw [hlen, Nat.add_assoc, ← List.length_append] at hout
  refine ⟨by rw [List.length_append]; omega, hout, fun r hr => ?_⟩
  obtain ⟨hcount, hmem⟩ := h.filled r hr
  refine ⟨by rw [List.length_append]; omega, ?_⟩
  have hfront : (mem.take pos ++ b).length = pos + b.length := by
    rw [List.length_append, List.length_take_of_le (by omega)]
  rw [hmem, List.take_left' hfront, ← List.drop_drop, List.drop_left' hfront, List.drop_drop,
    List.length_append, ← List.append_assoc (mem.take pos), Nat.add_assoc]

theorem safeReadLoop_fills (hpos : pos ≤ mem.length) (h31 : count < 2 ^ 31) (hf : count < fuel)
    (h0 : 0 < fuel)
    (h : (safeReadLoop mSocket isPoll fuel mem pos count total).run rs = some (s, q)) :
    Fills mem pos count (received rs) q := by
  induction fuel generalizing mem pos count total rs s with
  | zero => omega
  | succ fuel ih =>
    rw [safeReadLoop] at h
    by_cases hcount : 0 < count
    · rw [if_pos hcount] at h
      rcases run_wait h with ⟨rfl, -, k, rfl⟩ | ⟨k, z, e, rs', rfl, hwait⟩
      · simpa using Fills.nothing hpos (by simp) (by simp)
      · split at hwait
        · obtain ⟨rfl, -, rfl⟩ := run_of_not_calls (by simp [Calls]) hwait
          simpa using Fills.nothing hpos (by simp) (by simp)
        · rcases run_read hwait with ⟨rfl, -, k', rfl⟩ | ⟨k', b, e', rs'', hb, rfl, hread⟩ |
            ⟨k', e', rs'', rfl, hread⟩
          · simpa using Fills.nothing hpos (by simp) (by simp)
          · have hint : wrapInt b.length = b.length := wrapInt_natCast (by omega)
            rw [hint] at hread
            rcases Nat.eq_zero_or_pos b.length with hzero | hbpos
            · rw [if_pos (by omega)] at hread
              obtain ⟨rfl, -, rfl⟩ := run_of_not_calls (by simp [Calls]) hread
              obtain rfl := List.length_eq_zero_iff.mp hzero
              simpa using Fills.nothing hpos (by simp) (by simp)
            · rw [if_neg (by omega), if_neg (by omega), Int.toNat_natCast] at hread
              rcases Nat.lt_or_ge mem.length (pos + b.length) with hout | hin
              · rw [store_eq_none hout] at hread
                obtain ⟨rfl, -, rfl⟩ := run_of_not_calls (by simp [Calls]) hread
                refine ⟨by simpa using hb, ?_, by simp⟩
                simpa using hout
              · rw [store_eq hin] at hread
                have hlen := length_store (store_eq hin)
                have hrest := ih (by omega) (by omega) (by omega) (by omega) hread
                simpa using hrest.cons hin (by omega)
          · rw [show wrapInt (-1) = -1 by decide, if_neg (by decide), if_pos (by decide)] at hread
            obtain ⟨rfl, -, rfl⟩ := run_of_not_calls (by simp [Calls]) hread
            simpa using Fills.nothing hpos (by simp) (by simp)
    · rw [if_neg hcount] at h
      obtain ⟨rfl, -, rfl⟩ := run_of_not_calls (by simp [Calls]) h
      refine ⟨Nat.zero_le _, by simpa using hpos, fun r hr => ?_⟩
      rw [← ret.inj hr]
      constructor
      · rw [received_nil, List.length_nil]
        omega
      · simp

end Loop

end StdSocket

namespace Socket4Object

open StdSocket

/-- Whatever part of the stream arrives, and however it does, nothing is stored behind the
object. -/
def StoresInside (mSocket : ℤ) (object s : Bytes) : Prop :=
  ∀ rs t q, Program.received rs <+: s → (recvObject mSocket object).run rs = some (t, q) →
    q ≠ .undefined

section Streams

variable {mSocket : ℤ} {object s t : Bytes} {rs : List Reply} {q : Program (ℤ × Bytes)}

theorem safeRead_fills {count : ℤ} {mem : Bytes} (h31 : count < 2 ^ 31)
    (h : (safeRead mSocket mem count false).run rs = some (s, q)) :
    Fills mem 0 count (Program.received rs) q :=
  safeReadLoop_fills (Nat.zero_le _) h31 (by omega) (Nat.succ_pos _) h

theorem recvObject_run (h : (recvObject mSocket object).run rs = some (t, q)) :
    (Program.received rs).length - 4 ≤ (intOf (wordAt (Program.received rs))).toNat ∧
      (q = .undefined ↔ object.length + 4 < (Program.received rs).length) := by
  rcases run_bind_eq_some h with ⟨p, hp, hret, rfl⟩ | ⟨rs₁, rs₂, t₁, t₂, r, rfl, rfl, hr, hrest⟩
  · have hfills := safeRead_fills (by decide) hp
    have hle : (Program.received rs).length ≤ 4 := hfills.le
    have hin : p ≠ .undefined := mt hfills.outside.mp (by rw [intBytes_length]; omega)
    exact ⟨by omega, iff_of_false (bind_ne_undefined hin hret) (by omega)⟩
  · obtain ⟨hfour, hmem⟩ := (safeRead_fills (by decide) hr).filled r rfl
    have hfour : (Program.received rs₁).length = 4 := hfour
    have hword : r.2 = Program.received rs₁ := by
      rw [hmem, hfour]
      simp
    have hlen : wordAt (Program.received (rs₁ ++ rs₂)) = wordAt r.2 := by
      rw [received_append, ← wordAt_take (Nat.le_refl 4), List.take_left' hfour, hword]
    rw [hlen, received_append, List.length_append, hfour, Nat.add_sub_cancel_left, Nat.add_comm,
      Nat.add_lt_add_iff_left]
    rcases run_bind_eq_some hrest with ⟨p, hp, hret, rfl⟩ |
      ⟨rs₃, rs₄, t₃, t₄, r', rfl, rfl, hr', hlast⟩
    · have hfills := safeRead_fills (intOf_lt _) hp
      have hout := hfills.outside
      rw [Nat.zero_add] at hout
      refine ⟨hfills.le, ?_⟩
      rw [← hout]
      constructor
      · intro hq
        by_contra hp'
        exact bind_ne_undefined hp' hret hq
      · rintro rfl
        rfl
    · have hfills := safeRead_fills (intOf_lt _) hr'
      have hout := hfills.outside
      rw [Nat.zero_add] at hout
      obtain ⟨rfl, -, rfl⟩ := run_of_not_calls (p := .ret _) (by simp [Calls]) hlast
      rw [List.append_nil]
      refine ⟨hfills.le, ?_⟩
      rw [← hout]
      simp

/-- A peer that says a length and sends more than the object has room for. -/
theorem run_outside (hlen : 4 + object.length < s.length)
    (hsize : object.length < intOf (wordAt s)) (e : Errno) :
    (recvObject mSocket object).run [.ready 1 e, .got (s.take 4) e, .ready 1 e,
      .got ((s.drop 4).take (object.length + 1)) e] = some ([], .undefined) := by
  have hint := intOf_lt (wordAt s)
  have hfour : (s.take 4).length = 4 := List.length_take_of_le (by omega)
  have hmore : ((s.drop 4).take (object.length + 1)).length = object.length + 1 :=
    List.length_take_of_le (by rw [List.length_drop]; omega)
  have hfirst : (safeRead mSocket (intBytes 0) 4 false).run [.ready 1 e, .got (s.take 4) e] =
      some ([], .ret (4, s.take 4)) := by
    change (safeReadLoop mSocket false (4 + 1) (intBytes 0) 0 4 0).run _ = _
    rw [safeReadLoop, if_pos (by decide), run_ready, if_neg (by decide),
      run_got (by rw [hfour]; decide), hfour, if_neg (by decide), if_neg (by decide),
      store_eq (by rw [hfour]; decide), hfour]
    change some _ = some _
    rw [List.take_zero, List.nil_append, List.drop_of_length_le (by decide), List.append_nil]
    rfl
  have hsecond : (safeRead mSocket object (intOf (wordAt (s.take 4))) false).run
      [.ready 1 e, .got ((s.drop 4).take (object.length + 1)) e] = some ([], .undefined) := by
    rw [wordAt_take (Nat.le_refl 4), safeRead, safeReadLoop, if_pos (by omega), run_ready,
      if_neg (by decide), run_got (by rw [hmore]; omega), hmore,
      wrapInt_natCast (by omega), if_neg (by omega), if_neg (by omega),
      store_eq_none (by rw [hmore]; omega)]
    rfl
  change (recvObject mSocket object).run ([.ready 1 e, .got (s.take 4) e] ++
    [.ready 1 e, .got ((s.drop 4).take (object.length + 1)) e]) = _
  unfold recvObject
  rw [run_append (run_bind hfirst)]
  exact congrArg (Option.map _) (run_bind hsecond)

/-- Nothing is stored behind the object exactly if the peer sends no more than it has room for, or
says no more in front. -/
theorem storesInside_iff (mSocket : ℤ) (object s : Bytes) :
    StoresInside mSocket object s ↔
      s.length ≤ 4 + object.length ∨ intOf (wordAt s) ≤ object.length := by
  constructor
  · intro hin
    by_contra hout
    rw [not_or, Nat.not_le, Int.not_le] at hout
    refine hin _ [] .undefined ?_ (run_outside hout.1 hout.2 ⟨false, ""⟩) rfl
    have hread : Program.received [.ready 1 ⟨false, ""⟩, .got (s.take 4) ⟨false, ""⟩,
        .ready 1 ⟨false, ""⟩, .got ((s.drop 4).take (object.length + 1)) ⟨false, ""⟩] =
          s.take 4 ++ (s.drop 4).take (object.length + 1) := by simp
    have hpre := (List.prefix_append_right_inj (s.take 4)).mpr
      (List.take_prefix (object.length + 1) (s.drop 4))
    rw [List.take_append_drop] at hpre
    rwa [hread]
  · rintro hs rs t q hrs h hq
    obtain ⟨hle, hiff⟩ := recvObject_run h
    have hlong := hiff.mp hq
    have hshort := hrs.length_le
    obtain ⟨u, hu⟩ := hrs
    have hword : wordAt s = wordAt (Program.received rs) := by
      rw [← wordAt_take (Nat.le_refl 4), ← hu, List.take_append_of_le_length (by omega),
        wordAt_take (Nat.le_refl 4)]
    rw [hword] at hs
    omega

/-- A peer that says 2 and sends two bytes for an object of one byte. -/
theorem not_storesInside : ¬ StoresInside 3 [0] [2, 0, 0, 0, 7, 8] :=
  fun h => h [.ready 1 ⟨false, ""⟩, .got [2, 0, 0, 0] ⟨false, ""⟩, .ready 1 ⟨false, ""⟩,
    .got [7, 8] ⟨false, ""⟩] [] .undefined (by decide) rfl rfl

end Streams

end Socket4Object

end YlUtils
