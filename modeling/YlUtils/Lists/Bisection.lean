import Mathlib.Data.Int.Notation
import Mathlib.Data.Nat.Notation
import Mathlib.Tactic.ByContra

/-! # Bisection

The positions from `low` to `high` are halved until a probe, which compares what
is sought with the entry at a position, finds it. If the entries are sorted, the
probe turns from positive to negative once, and the search is complete.
-/

namespace YlUtils

/-- The search between the positions `low` and `high`, both included. -/
def bisectLoop (probe : ℕ → ℤ) : ℕ → ℤ → ℤ → Option ℕ
  | 0, _, _ => none
  | rounds + 1, low, high =>
    if low ≤ high then
      let mid := (low + high) / 2
      if probe mid.toNat < 0 then bisectLoop probe rounds low (mid - 1)
      else if 0 < probe mid.toNat then bisectLoop probe rounds (mid + 1) high
      else some mid.toNat
    else none

def bisect (probe : ℕ → ℤ) (low high : ℤ) : Option ℕ :=
  bisectLoop probe (high - low + 1).toNat low high

structure Sorted (probe : ℕ → ℤ) (low high : ℤ) : Prop where
  below : ∀ i j : ℕ, low ≤ i → i ≤ j → j ≤ high → probe i < 0 → probe j < 0
  above : ∀ i j : ℕ, low ≤ i → i ≤ j → j ≤ high → 0 < probe j → 0 < probe i

variable {probe : ℕ → ℤ} {rounds k : ℕ} {low high : ℤ}

theorem Sorted.mono (h : Sorted probe low high) {low' high' : ℤ} (hl : low ≤ low')
    (hh : high' ≤ high) : Sorted probe low' high' where
  below i j hi hij hj := h.below i j (by omega) hij (by omega)
  above i j hi hij hj := h.above i j (by omega) hij (by omega)

theorem bisectLoop_sound (hlow : 0 ≤ low) (h : bisectLoop probe rounds low high = some k) :
    low ≤ k ∧ k ≤ high ∧ probe k = 0 := by
  induction rounds generalizing low high with
  | zero => cases h
  | succ rounds ih =>
    unfold bisectLoop at h
    split at h
    · dsimp only at h
      split at h
      · obtain ⟨h₁, h₂, h₃⟩ := ih hlow h
        exact ⟨h₁, by omega, h₃⟩
      · split at h
        · obtain ⟨h₁, h₂, h₃⟩ := ih (by omega) h
          exact ⟨by omega, h₂, h₃⟩
        · obtain rfl := Option.some.inj h
          exact ⟨by omega, by omega, by omega⟩
    · cases h

theorem bisectLoop_complete (hs : Sorted probe low high) (hlow : 0 ≤ low)
    (hrounds : high - low < rounds) (hk : low ≤ k) (hk' : k ≤ high) (hprobe : probe k = 0) :
    (bisectLoop probe rounds low high).isSome := by
  induction rounds generalizing low high with
  | zero => omega
  | succ rounds ih =>
    unfold bisectLoop
    rw [if_pos (by omega)]
    dsimp only
    split
    · -- what is sought cannot stand behind the middle
      have hmid : k < ((low + high) / 2).toNat := by
        by_contra hle
        have := hs.below _ k (by omega) (Nat.not_lt.mp hle) hk' ‹_›
        omega
      exact ih (hs.mono (Int.le_refl _) (by omega)) hlow (by omega) hk (by omega)
    · split
      · have hmid : ((low + high) / 2).toNat < k := by
          by_contra hle
          have := hs.above k _ hk (Nat.not_lt.mp hle) (by omega) ‹_›
          omega
        exact ih (hs.mono (by omega) (Int.le_refl _)) (by omega) (by omega) (by omega) hk'
      · rfl

theorem bisect_sound (hlow : 0 ≤ low) (h : bisect probe low high = some k) :
    low ≤ k ∧ k ≤ high ∧ probe k = 0 :=
  bisectLoop_sound hlow h

/-- The search comes to nothing exactly if no position holds what is sought. -/
theorem bisect_eq_none_iff (hs : Sorted probe low high) (hlow : 0 ≤ low) :
    bisect probe low high = none ↔ ∀ k : ℕ, low ≤ k → k ≤ high → probe k ≠ 0 := by
  constructor
  · intro h k hk hk' hprobe
    have := bisectLoop_complete hs hlow
      (show high - low < ((high - low + 1).toNat : ℕ) by omega) hk hk' hprobe
    rw [← bisect, h] at this
    cases this
  · intro h
    rw [Option.eq_none_iff_forall_ne_some]
    intro k hk
    obtain ⟨h₁, h₂, h₃⟩ := bisect_sound hlow hk
    exact h k h₁ h₂ h₃

end YlUtils
