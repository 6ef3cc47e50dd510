import Mathlib.Data.List.Basic

/-! # The longest part that is accepted

An automaton takes items from the front of a text as long as it accepts them,
and may look at what comes behind. What it takes and what it leaves is the text.
-/

namespace YlUtils

variable {σ α : Type*}

/-- The items that are taken, and the others. -/
def munch (accept : σ → List α → Option σ) : σ → List α → List α × List α
  | _, [] => ([], [])
  | q, a :: s =>
    match accept q (a :: s) with
    | some q' => (a :: (munch accept q' s).1, (munch accept q' s).2)
    | none => ([], a :: s)

variable {accept : σ → List α → Option σ} {q q' : σ} {a : α} {s w r : List α}

theorem munch_of_some (h : accept q (a :: s) = some q') :
    munch accept q (a :: s) = (a :: (munch accept q' s).1, (munch accept q' s).2) := by
  rw [munch, h]

theorem munch_of_none (h : accept q (a :: s) = none) : munch accept q (a :: s) = ([], a :: s) := by
  rw [munch, h]

theorem munch_append (accept : σ → List α → Option σ) (q : σ) (s : List α) :
    (munch accept q s).1 ++ (munch accept q s).2 = s := by
  induction s generalizing q with
  | nil => rfl
  | cons a s ih =>
    cases h : accept q (a :: s) with
    | some q' => rw [munch_of_some h, List.cons_append, ih]
    | none => rw [munch_of_none h, List.nil_append]

theorem length_munch_le (accept : σ → List α → Option σ) (q : σ) (s : List α) :
    (munch accept q s).2.length ≤ s.length := by
  have happend := congrArg List.length (munch_append accept q s)
  rw [List.length_append] at happend
  omega

/-- What holds of the state and the items taken so far holds at the end, where nothing more is
accepted. -/
theorem munch_invariant {I : σ → List α → Prop}
    (hstep : ∀ q w a s q', I q w → accept q (a :: s) = some q' → I q' (w ++ [a]))
    (hI : I q w) : ∃ q', I q' (w ++ (munch accept q s).1) ∧
      ((munch accept q s).2 = [] ∨ accept q' (munch accept q s).2 = none) := by
  induction s generalizing q w with
  | nil => exact ⟨q, by simpa [munch] using hI, .inl rfl⟩
  | cons a s ih =>
    cases h : accept q (a :: s) with
    | some q' =>
      obtain ⟨q'', hI', hend⟩ := ih (hstep q w a s q' hI h)
      rw [munch_of_some h]
      refine ⟨q'', ?_, hend⟩
      rwa [List.append_assoc, List.singleton_append] at hI'
    | none =>
      rw [munch_of_none h]
      exact ⟨q, by simpa using hI, .inr h⟩

end YlUtils
