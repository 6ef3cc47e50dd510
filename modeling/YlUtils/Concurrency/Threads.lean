import Mathlib.Algebra.BigOperators.Ring.Finset
import Mathlib.Algebra.Order.BigOperators.Group.Finset

/-! # Counting threads

Invariants of a concurrent system count the threads that are at certain places,
or sum up what each of them has. One thread after the other moves.
-/

namespace YlUtils

open Finset

namespace Threads

variable {ι σ : Type*} [Fintype ι]

def total (w : σ → ℕ) (f : ι → σ) : ℕ := ∑ i, w (f i)

/-- The number of the threads at places that satisfy `p`. -/
def count (p : σ → Bool) (f : ι → σ) : ℕ := #{i | p (f i)}

variable {w : σ → ℕ} {p q : σ → Bool} {f : ι → σ} {i j : ι} {x : σ}

theorem count_eq_total : count p f = total (fun x => (p x).toNat) f := by
  rw [count, card_filter]
  exact sum_congr rfl fun i _ => by cases h : p (f i) <;> simp [h]

theorem total_const_zero (h : ∀ i, w (f i) = 0) : total w f = 0 :=
  sum_eq_zero fun i _ => h i

theorem count_eq_zero (h : ∀ i, p (f i) = false) : count p f = 0 := by
  rw [count_eq_total]
  exact total_const_zero fun i => by rw [h]; rfl

theorem le_total (w : σ → ℕ) (f : ι → σ) (i : ι) : w (f i) ≤ total w f :=
  single_le_sum (f := fun i => w (f i)) (fun _ _ => Nat.zero_le _) (mem_univ i)

theorem existsUnique_of_total_eq_one (h : total w f = 1) : ∃! i, 0 < w (f i) := by
  obtain ⟨i, -, hi⟩ := exists_ne_zero_of_sum_ne_zero (show total w f ≠ 0 by omega)
  refine ⟨i, Nat.pos_of_ne_zero hi, fun j hj => ?_⟩
  by_contra hji
  have hpair : w (f i) + w (f j) ≤ total w f := by
    classical
    calc w (f i) + w (f j) = ∑ k ∈ {i, j}, w (f k) :=
          (sum_pair (f := fun k => w (f k)) (Ne.symm hji)).symm
      _ ≤ total w f := sum_le_sum_of_subset (subset_univ _)
  have hi := Nat.pos_of_ne_zero hi
  omega

theorem count_pos_iff : 0 < count p f ↔ ∃ i, p (f i) = true := by
  simp [count, card_pos, Finset.Nonempty]

theorem count_pos (h : p (f i) = true) : 0 < count p f := count_pos_iff.mpr ⟨i, h⟩

theorem eq_of_count_le_one (h : count p f ≤ 1) (hi : p (f i) = true) (hj : p (f j) = true) :
    i = j :=
  card_le_one.mp h i (by simp [hi]) j (by simp [hj])

variable [DecidableEq ι]

theorem total_update (w : σ → ℕ) (f : ι → σ) (i : ι) (x : σ) :
    total w (Function.update f i x) + w (f i) = total w f + w x := by
  have hrest : ∑ j ∈ univ.erase i, w (Function.update f i x j) = ∑ j ∈ univ.erase i, w (f j) :=
    sum_congr rfl fun j hj => by rw [Function.update_of_ne (ne_of_mem_erase hj)]
  have hold := add_sum_erase univ (fun j => w (f j)) (mem_univ i)
  have hnew := add_sum_erase univ (fun j => w (Function.update f i x j)) (mem_univ i)
  rw [Function.update_self, hrest] at hnew
  unfold total
  omega

theorem count_update (p : σ → Bool) (f : ι → σ) (i : ι) (x : σ) :
    count p (Function.update f i x) + (p (f i)).toNat = count p f + (p x).toNat := by
  rw [count_eq_total, count_eq_total]
  exact total_update _ f i x

end Threads

end YlUtils
