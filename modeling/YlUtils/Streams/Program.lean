import YlUtils.Text.CString

/-! # Programs on a byte stream

A program returns a result, or makes a system call and goes on with what the
call returns. What a program transfers does not depend on how the calls cut the
stream into pieces, if every call is for a part of what is still to come.
-/

namespace YlUtils

structure Errno where
  timedOut : Bool
  strerror : String

/-- A program by its next action. A call goes on with the value it returns, the
bytes it read and the error. -/
inductive Program (α : Type) : Type
  | ret (a : α)
  | throw (msg : String)
  | undefined
  | wait (isPoll isWrite : Bool) (next : ℤ → Errno → Program α)
  | write (buf : Bytes) (next : ℤ → Errno → Program α)
  | read (count : ℕ) (next : ℤ → Bytes → Errno → Program α)

inductive Direction
  | sending
  | receiving
  deriving DecidableEq

namespace Program

variable {α β : Type}

protected def bind (p : Program α) (f : α → Program β) : Program β :=
  match p with
  | ret a => f a
  | throw msg => throw msg
  | undefined => undefined
  | wait isPoll isWrite next => wait isPoll isWrite fun r e => (next r e).bind f
  | write buf next => write buf fun r e => (next r e).bind f
  | read count next => read count fun r b e => (next r b e).bind f

instance : Monad Program where
  pure := ret
  bind := Program.bind

/-- The program transfers exactly the bytes `s`, however they are cut, in at most
`m` calls, and its result satisfies `P`. -/
def Transfers (d : Direction) : Program α → Bytes → ℕ → (α → Prop) → Prop
  | ret a, s, _, P => s = [] ∧ P a
  | throw _, _, _, _ => False
  | undefined, _, _, _ => False
  | wait _ _ next, s, m, P => ∃ m', m = m' + 1 ∧ ∀ r e, 0 < r → (next r e).Transfers d s m' P
  | write buf next, s, m, P => d = .sending ∧ buf ≠ [] ∧ buf <+: s ∧ ∃ m', m = m' + 1 ∧
      ∀ n e, 0 < n → n ≤ buf.length → (next (n : ℕ) e).Transfers d (s.drop n) m' P
  | read count next, s, m, P => d = .receiving ∧ 0 < count ∧ count ≤ s.length ∧ ∃ m', m = m' + 1 ∧
      ∀ n e, 0 < n → n ≤ count → (next (n : ℕ) (s.take n) e).Transfers d (s.drop n) m' P

variable {d : Direction} {p : Program α} {s t : Bytes} {m m' n : ℕ} {P Q : α → Prop} {R : β → Prop}

theorem transfers_ret {a : α} : (ret a).Transfers d s m P ↔ s = [] ∧ P a := .rfl

theorem transfers_wait {isPoll isWrite : Bool} {next : ℤ → Errno → Program α} :
    (wait isPoll isWrite next).Transfers d s m P ↔
      ∃ m', m = m' + 1 ∧ ∀ r e, 0 < r → (next r e).Transfers d s m' P := .rfl

theorem transfers_write {buf : Bytes} {next : ℤ → Errno → Program α} :
    (write buf next).Transfers d s m P ↔ d = .sending ∧ buf ≠ [] ∧ buf <+: s ∧
      ∃ m', m = m' + 1 ∧
        ∀ n e, 0 < n → n ≤ buf.length → (next (n : ℕ) e).Transfers d (s.drop n) m' P := .rfl

theorem transfers_read {count : ℕ} {next : ℤ → Bytes → Errno → Program α} :
    (read count next).Transfers d s m P ↔ d = .receiving ∧ 0 < count ∧ count ≤ s.length ∧
      ∃ m', m = m' + 1 ∧
        ∀ n e, 0 < n → n ≤ count → (next (n : ℕ) (s.take n) e).Transfers d (s.drop n) m' P := .rfl

theorem Transfers.mono (h : p.Transfers d s m P) (hm : m ≤ m') (hP : ∀ a, P a → Q a) :
    p.Transfers d s m' Q := by
  induction p generalizing s m m' with
  | ret a => exact ⟨h.1, hP a h.2⟩
  | throw msg => exact h
  | undefined => exact h
  | wait isPoll isWrite next ih =>
    obtain ⟨k, rfl, hk⟩ := h
    exact ⟨m' - 1, by omega, fun r e hr => ih r e (hk r e hr) (by omega)⟩
  | write buf next ih =>
    obtain ⟨hd, hbuf, hs, k, rfl, hk⟩ := h
    exact ⟨hd, hbuf, hs, m' - 1, by omega, fun n e hn hle => ih n e (hk n e hn hle) (by omega)⟩
  | read count next ih =>
    obtain ⟨hd, hc, hs, k, rfl, hk⟩ := h
    exact ⟨hd, hc, hs, m' - 1, by omega, fun n e hn hle => ih n _ e (hk n e hn hle) (by omega)⟩

theorem Transfers.bind {f : α → Program β} (h : p.Transfers d s m P)
    (hf : ∀ a, P a → (f a).Transfers d t n R) : (p >>= f).Transfers d (s ++ t) (m + n) R := by
  change (p.bind f).Transfers d (s ++ t) (m + n) R
  induction p generalizing s m with
  | ret a =>
    obtain ⟨rfl, ha⟩ := h
    exact (hf a ha).mono (Nat.le_add_left n m) fun _ hb => hb
  | throw msg => exact h
  | undefined => exact h
  | wait isPoll isWrite next ih =>
    obtain ⟨k, rfl, hk⟩ := h
    exact ⟨k + n, by omega, fun r e hr => ih r e (hk r e hr)⟩
  | write buf next ih =>
    obtain ⟨hd, hbuf, hs, k, rfl, hk⟩ := h
    refine ⟨hd, hbuf, hs.trans (List.prefix_append s t), k + n, by omega, fun i e hi hle => ?_⟩
    rw [List.drop_append_of_le_length (hle.trans hs.length_le)]
    exact ih i e (hk i e hi hle)
  | read count next ih =>
    obtain ⟨hd, hc, hs, k, rfl, hk⟩ := h
    refine ⟨hd, hc, ?_, k + n, by omega, fun i e hi hle => ?_⟩
    · rw [List.length_append]
      omega
    · rw [List.drop_append_of_le_length (hle.trans hs),
        List.take_append_of_le_length (hle.trans hs)]
      exact ih i _ e (hk i e hi hle)

theorem Transfers.pure {a : α} (h : P a) : (pure a : Program α).Transfers d [] 0 P := ⟨rfl, h⟩

end Program

end YlUtils
