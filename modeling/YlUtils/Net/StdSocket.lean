import YlUtils.Machine.Int
import YlUtils.Streams.Program

/-! # Reading and writing a socket

Both loops wait for the socket, transfer a part of what is left and go on behind
it. The loop for a system call that is interrupted is that of the call itself.
-/

namespace YlUtils.StdSocket

def ofd (mSocket : ℤ) : String := " fd : " ++ toString mSocket

/-- The memory after bytes are stored at a position of it, if they fit in. -/
def store (mem : Bytes) (pos : ℕ) (b : Bytes) : Option Bytes :=
  if pos + b.length ≤ mem.length then some (mem.take pos ++ b ++ mem.drop (pos + b.length))
  else none

/-- The `while` loop of `safeRead`, which makes at most `fuel` rounds, into the
memory `mem` at `pos`. -/
def safeReadLoop (mSocket : ℤ) (isPoll : Bool) :
    ℕ → Bytes → ℕ → ℤ → ℤ → Program (ℤ × Bytes)
  | 0, _, _, _, _ => .undefined
  | fuel + 1, mem, pos, count, total =>
    if 0 < count then
      .wait isPoll false fun result e =>
        if result ≤ 0 then
          .throw ("_Std_Socket::safeRead() _select_fd error :" ++
            (if e.timedOut then "Read Timeout" else e.strerror) ++ ofd mSocket)
        else .read count.toNat fun res buf e =>
          if wrapInt res = 0 then
            .throw ("_Std_Socket::safeRead() : read() error : peer shut down" ++ ofd mSocket)
          else if wrapInt res < 0 then
            .throw ("_Std_Socket::safeRead() : read() error " ++ e.strerror ++ ofd mSocket)
          else match store mem pos buf with
            | none => .undefined
            | some mem => safeReadLoop mSocket isPoll fuel mem (pos + (wrapInt res).toNat)
                (count - wrapInt res) (wrapInt (total + wrapInt res))
    else .ret (total, mem)

/-- `safeRead` into a memory: its result, and the memory after it. -/
def safeRead (mSocket : ℤ) (mem : Bytes) (count : ℤ) (isPoll : Bool) : Program (ℤ × Bytes) :=
  safeReadLoop mSocket isPoll (count.toNat + 1) mem 0 count 0

def safeWriteLoop (mSocket : ℤ) (isPoll : Bool) : ℕ → Bytes → ℤ → ℤ → Program ℤ
  | 0, _, _, _ => .undefined
  | fuel + 1, buf, count, res =>
    if 0 < count then
      .wait isPoll true fun result e =>
        if result ≤ 0 then
          .throw ("_Std_Socket::safeWrite() : _select_fd() error " ++ e.strerror ++ ofd mSocket)
        else if buf.length < count then .undefined
        else .write (buf.take count.toNat) fun res e =>
          if wrapInt res ≤ 0 then
            .throw ("_Std_Socket::safeWrite() : write() error " ++ e.strerror ++ ofd mSocket)
          else safeWriteLoop mSocket isPoll fuel (buf.drop (wrapInt res).toNat)
            (count - wrapInt res) (wrapInt res)
    else .ret res

def safeWrite (mSocket : ℤ) (buf : Bytes) (count : ℤ) (isPoll : Bool) : Program ℤ :=
  safeWriteLoop mSocket isPoll (count.toNat + 1) buf count 0

section Store

variable {mem mem' b : Bytes} {pos : ℕ}

theorem store_eq (h : pos + b.length ≤ mem.length) :
    store mem pos b = some (mem.take pos ++ b ++ mem.drop (pos + b.length)) := by
  rw [store, if_pos h]

theorem store_eq_none (h : mem.length < pos + b.length) : store mem pos b = none := by
  rw [store, if_neg (by omega)]

theorem length_store (h : store mem pos b = some mem') : mem'.length = mem.length := by
  unfold store at h
  split at h
  · rw [← Option.some.inj h]
    simp only [List.length_append, List.length_take, List.length_drop]
    omega
  · exact absurd h (by simp)

end Store

section Loops

variable {mSocket : ℤ} {isPoll : Bool} {mem s buf : Bytes} {pos fuel n : ℕ} {total res : ℤ}

theorem wrapInt_natCast (h : n < 2 ^ 31) : wrapInt n = n := wrapInt_of_lt (by omega) (by omega)

theorem safeWriteLoop_transfers (buf : Bytes) (n : ℕ) (hn : n ≤ buf.length) (h31 : n < 2 ^ 31)
    (hf : n < fuel) (res : ℤ) :
    (safeWriteLoop mSocket isPoll fuel buf n res).Transfers .sending (buf.take n) (2 * n)
      fun _ => True := by
  induction fuel generalizing n buf res with
  | zero => omega
  | succ fuel ih =>
    unfold safeWriteLoop
    by_cases h0 : n = 0
    · rw [if_neg (by omega), Program.transfers_ret, h0]
      exact ⟨List.take_zero, trivial⟩
    · rw [if_pos (by omega), Program.transfers_wait]
      refine ⟨2 * n - 1, by omega, fun r e hr => ?_⟩
      rw [if_neg (by omega), if_neg (by omega), Int.toNat_natCast]
      have hlen : (buf.take n).length = n := List.length_take_of_le hn
      rw [Program.transfers_write]
      refine ⟨rfl, List.ne_nil_of_length_pos (by omega), List.prefix_rfl, 2 * n - 2, by omega,
        fun k e hk hle => ?_⟩
      rw [hlen] at hle
      rw [wrapInt_natCast (show k < 2 ^ 31 by omega), if_neg (by omega), Int.toNat_natCast,
        ← Int.ofNat_sub hle, List.drop_take]
      have hrest := ih (buf.drop k) (n - k) (by rw [List.length_drop]; omega) (by omega)
        (by omega) k
      exact hrest.mono (by omega) fun _ h => h

theorem safeReadLoop_transfers (mem s : Bytes) (pos : ℕ) (total : ℤ)
    (hpos : pos + s.length ≤ mem.length) (h31 : s.length < 2 ^ 31)
    (hf : s.length < fuel) (ht : 0 ≤ total ∧ total + s.length < 2 ^ 31) :
    (safeReadLoop mSocket isPoll fuel mem pos s.length total).Transfers .receiving s (2 * s.length)
      fun r => r = (total + s.length, mem.take pos ++ s ++ mem.drop (pos + s.length)) := by
  induction fuel generalizing s mem pos total with
  | zero => omega
  | succ fuel ih =>
    unfold safeReadLoop
    by_cases h0 : s = []
    · subst h0
      rw [if_neg (by simp), Program.transfers_ret]
      refine ⟨rfl, ?_⟩
      simp
    · have hs := List.length_pos_iff.mpr h0
      rw [if_pos (by omega), Program.transfers_wait]
      refine ⟨2 * s.length - 1, by omega, fun r e hr => ?_⟩
      rw [if_neg (by omega), Int.toNat_natCast, Program.transfers_read]
      refine ⟨rfl, hs, Nat.le_refl _, 2 * s.length - 2, by omega, fun k e hk hle => ?_⟩
      have hlen : (s.take k).length = k := List.length_take_of_le hle
      have hdrop : (s.drop k).length = s.length - k := List.length_drop
      have hstore : store mem pos (s.take k) =
          some (mem.take pos ++ s.take k ++ mem.drop (pos + k)) := by
        rw [store_eq (by omega), hlen]
      rw [wrapInt_natCast (show k < 2 ^ 31 by omega), if_neg (by omega), if_neg (by omega), hstore,
        Int.toNat_natCast, ← Int.ofNat_sub hle, wrapInt_of_lt (by omega) (by omega), ← hdrop]
      have hfront : (mem.take pos ++ s.take k).length = pos + k := by
        rw [List.length_append, hlen, List.length_take_of_le (by omega)]
      have hmem : (mem.take pos ++ s.take k ++ mem.drop (pos + k)).length = mem.length := by
        rw [List.length_append, hfront, List.length_drop]
        omega
      have hrest := ih (mem.take pos ++ s.take k ++ mem.drop (pos + k)) (s.drop k) (pos + k)
        (total + k) (by omega) (by omega) (by omega) (by omega)
      apply hrest.mono (by omega)
      rintro _ rfl
      apply Prod.ext
      · dsimp only
        omega
      · dsimp only
        rw [List.take_left' hfront, ← List.drop_drop, List.drop_left' hfront, List.drop_drop,
          List.append_assoc (mem.take pos), List.take_append_drop]
        congr 2
        omega

end Loops

end YlUtils.StdSocket
