import Mathlib.Data.Nat.Notation
import Mathlib.Order.Lattice

/-! # The first maximum of a list

A scan keeps the best value seen so far with its position, and replaces it only
by a strictly larger one. What it keeps is the first of the largest values.
-/

namespace YlUtils

variable {W : Type} [LinearOrder W]

/-- The scan of the values from position `i` on, with the best one so far. -/
def scanMax (best : ℕ × W) (i : ℕ) : List W → ℕ × W
  | [] => best
  | w :: ws => scanMax (if best.2 < w then (i, w) else best) (i + 1) ws

def firstMax (w : W) (ws : List W) : ℕ × W := scanMax (0, w) 1 ws

theorem scanMax_get (l ws : List W) (best : ℕ × W) (h : l[best.1]? = some best.2) :
    (l ++ ws)[(scanMax best l.length ws).1]? = some (scanMax best l.length ws).2 := by
  induction ws generalizing l best with
  | nil => simpa [scanMax] using h
  | cons w ws ih =>
    have hl : (l ++ [w]).length = l.length + 1 := by simp
    rw [List.append_cons, scanMax, ← hl]
    apply ih
    split
    · simp
    · rw [List.getElem?_append_left (List.getElem?_eq_some_iff.mp h).1]
      exact h

theorem le_scanMax (best : ℕ × W) (i : ℕ) (ws : List W) : best.2 ≤ (scanMax best i ws).2 := by
  induction ws generalizing best i with
  | nil => exact le_refl _
  | cons w ws ih =>
    refine le_trans ?_ (ih _ _)
    split
    · exact le_of_lt ‹_›
    · exact le_refl _

theorem le_scanMax_of_mem {best : ℕ × W} {i : ℕ} {ws : List W} {w : W} (hw : w ∈ ws) :
    w ≤ (scanMax best i ws).2 := by
  induction ws generalizing best i with
  | nil => cases hw
  | cons v ws ih =>
    rw [scanMax]
    rcases List.mem_cons.mp hw with rfl | hw
    · refine le_trans ?_ (le_scanMax _ _ _)
      split
      · exact le_refl _
      · exact not_lt.mp ‹_›
    · exact ih hw

theorem scanMax_mem (best : ℕ × W) (i : ℕ) (ws : List W) :
    (scanMax best i ws).2 = best.2 ∨ (scanMax best i ws).2 ∈ ws := by
  induction ws generalizing best i with
  | nil => exact .inl rfl
  | cons w ws ih =>
    rw [scanMax]
    rcases ih (if best.2 < w then (i, w) else best) (i + 1) with h | h
    · rw [h]
      split
      · exact .inr (List.mem_cons_self ..)
      · exact .inl rfl
    · exact .inr (List.mem_cons_of_mem _ h)

theorem firstMax_get (w : W) (ws : List W) :
    (w :: ws)[(firstMax w ws).1]? = some (firstMax w ws).2 :=
  scanMax_get [w] ws (0, w) rfl

theorem le_firstMax {w v : W} {ws : List W} (hv : v ∈ w :: ws) : v ≤ (firstMax w ws).2 := by
  rcases List.mem_cons.mp hv with rfl | hv
  · exact le_scanMax (0, v) 1 ws
  · exact le_scanMax_of_mem hv

end YlUtils
