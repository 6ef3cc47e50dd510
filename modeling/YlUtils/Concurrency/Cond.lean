import YlUtils.Concurrency.Threads

/-! # Condition variables

A thread that waits is asleep until a signal wakes it, or until it wakes by
itself. No wakeup is lost if for every item there is a thread that was woken and
has not yet resumed, or a signal to come, whenever a thread is asleep.
-/

namespace YlUtils.Cond

open Threads

variable {ι σ : Type*} [Fintype ι] [DecidableEq ι]

/-- A signal wakes one of the threads that are asleep, the one that is named. If there is none it
does nothing. -/
def signal (asleep : σ → Bool) (wake : σ → σ) (f : ι → σ) : Option ι → Option (ι → σ)
  | some j => if asleep (f j) then some (Function.update f j (wake (f j))) else none
  | none => if ∀ i, asleep (f i) = false then some f else none

/-- While a thread is asleep, every item is accounted for by a signal to come or by a thread that
was woken and has not yet resumed. -/
def Covered (asleep signalled : σ → Bool) (f : ι → σ) (items pending : ℕ) : Prop :=
  (∃ i, asleep (f i) = true) → items ≤ pending + count signalled f

variable {asleep signalled : σ → Bool} {wake : σ → σ} {f g : ι → σ} {i : ι} {y : σ}
  {n n' p p' : ℕ} {w : Option ι}

omit [DecidableEq ι] in
theorem covered_zero : Covered asleep signalled f 0 p := fun _ => Nat.zero_le _

omit [DecidableEq ι] in
theorem covered_of_awake (h : ∀ i, asleep (f i) = false) : Covered asleep signalled f n p := by
  rintro ⟨i, hi⟩
  rw [h i] at hi
  exact absurd hi Bool.false_ne_true

theorem Covered.update (h : Covered asleep signalled f n p)
    (hy : asleep y = true → asleep (f i) = true)
    (hn : n' + p + (signalled (f i)).toNat ≤ n + p' + (signalled y).toNat) :
    Covered asleep signalled (Function.update f i y) n' p' := by
  rintro ⟨j, hj⟩
  have hasleep : ∃ j, asleep (f j) = true := by
    by_cases hji : j = i
    · rw [hji, Function.update_self] at hj
      exact ⟨i, hy hj⟩
    · rw [Function.update_of_ne hji] at hj
      exact ⟨j, hj⟩
  have hle := h hasleep
  have hcount := count_update signalled f i y
  omega

theorem total_signal {u : σ → ℕ} (hg : Cond.signal asleep wake f w = some g)
    (hwake : ∀ x, asleep x = true → u (wake x) = u x) : total u g = total u f := by
  cases w with
  | none =>
    rw [Cond.signal] at hg
    split at hg
    · rw [Option.some.inj hg]
    · exact absurd hg (by simp)
  | some j =>
    rw [Cond.signal] at hg
    split at hg
    · next hj =>
      have hupdate := total_update u f j (wake (f j))
      rw [hwake _ hj] at hupdate
      rw [← Option.some.inj hg]
      exact Nat.add_right_cancel hupdate
    · exact absurd hg (by simp)

theorem apply_signal {β : Type*} {u : σ → β} (hg : Cond.signal asleep wake f w = some g)
    (hwake : ∀ x, asleep x = true → u (wake x) = u x) (j : ι) : u (g j) = u (f j) := by
  cases w with
  | none =>
    rw [Cond.signal] at hg
    split at hg
    · rw [Option.some.inj hg]
    · exact absurd hg (by simp)
  | some k =>
    rw [Cond.signal] at hg
    split at hg
    · next hk =>
      rw [← Option.some.inj hg]
      by_cases hjk : j = k
      · rw [hjk, Function.update_self]
        exact hwake _ hk
      · rw [Function.update_of_ne hjk]
    · exact absurd hg (by simp)

theorem count_signal {u : σ → Bool} (hg : Cond.signal asleep wake f w = some g)
    (hwake : ∀ x, asleep x = true → u (wake x) = u x) : count u g = count u f := by
  rw [count_eq_total, count_eq_total]
  exact total_signal hg fun x hx => by rw [hwake x hx]

omit [DecidableEq ι] in
theorem Covered.add (h : Covered asleep signalled f n p) :
    Covered asleep signalled f (n + 1) (p + 1) := by
  intro hi
  have hle := h hi
  omega

theorem Covered.signal (h : Covered asleep signalled f n (p + 1))
    (hg : Cond.signal asleep wake f w = some g)
    (hwake : ∀ x, asleep x = true → asleep (wake x) = false ∧ signalled (wake x) = true)
    (hsignalled : ∀ x, asleep x = true → signalled x = false) :
    Covered asleep signalled g n p := by
  cases w with
  | none =>
    rw [Cond.signal] at hg
    split at hg
    · next hawake =>
      obtain rfl := Option.some.inj hg
      exact covered_of_awake hawake
    · exact absurd hg (by simp)
  | some j =>
    rw [Cond.signal] at hg
    split at hg
    · next hj =>
      obtain rfl := Option.some.inj hg
      obtain ⟨hawake, hwoken⟩ := hwake _ hj
      apply h.update
      · rw [hawake]
        exact fun h => absurd h Bool.false_ne_true
      · rw [hsignalled _ hj, hwoken, Bool.toNat_false, Bool.toNat_true]
        omega
    · exact absurd hg (by simp)

end YlUtils.Cond
