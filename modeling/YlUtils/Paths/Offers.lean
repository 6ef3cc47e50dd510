import Mathlib.Order.Lattice

/-! # Keeping the best offer

A search offers candidates with their scores one after the other, and keeps the
first of the best. It starts with a candidate and a score to beat.
-/

namespace YlUtils

variable {α W : Type*} [LinearOrder W]

/-- A candidate is kept if its score is strictly better. -/
def offer (score : α → W) (best : α × W) (a : α) : α × W :=
  if best.2 < score a then (a, score a) else best

variable (score : α → W) (best : α × W) (as : List α)

theorem le_foldl_offer : best.2 ≤ (as.foldl (offer score) best).2 := by
  induction as generalizing best with
  | nil => exact le_refl _
  | cons a as ih =>
    refine le_trans ?_ (ih _)
    unfold offer
    split
    · exact le_of_lt ‹_›
    · exact le_refl _

variable {as} in
theorem score_le_foldl_offer {a : α} (ha : a ∈ as) : score a ≤ (as.foldl (offer score) best).2 := by
  induction as generalizing best with
  | nil => cases ha
  | cons b as ih =>
    rcases List.mem_cons.mp ha with rfl | ha
    · refine le_trans ?_ (le_foldl_offer score (offer score best a) as)
      unfold offer
      split
      · exact le_refl _
      · exact not_lt.mp ‹_›
    · exact ih _ ha

/-- What is kept was there at the start, or it is an offer that beats the start. -/
theorem foldl_offer_cases : as.foldl (offer score) best = best ∨
    ∃ a ∈ as, as.foldl (offer score) best = (a, score a) ∧ best.2 < score a := by
  induction as generalizing best with
  | nil => exact .inl rfl
  | cons b as ih =>
    rw [List.foldl_cons]
    rcases ih (offer score best b) with h | ⟨a, ha, h, hlt⟩
    · rw [h]
      unfold offer
      split
      · exact .inr ⟨b, List.mem_cons_self, rfl, ‹_›⟩
      · exact .inl rfl
    · exact .inr ⟨a, List.mem_cons_of_mem b ha, h,
        lt_of_le_of_lt (le_foldl_offer score best [b]) hlt⟩

end YlUtils
