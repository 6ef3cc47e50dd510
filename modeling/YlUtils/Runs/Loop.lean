import Mathlib.Data.Nat.Basic
import Mathlib.Logic.Relation

/-! # Loops

The body of a loop goes round once more or leaves the loop. A loop whose rounds lower
a measure is left; a loop that an invariant always brings round again is not.
-/

namespace YlUtils

universe u v

inductive Round (σ : Type u) (β : Type v)
  | again (s : σ)
  | leave (b : β)

variable {σ : Type u} {β : Type v}

/-- What the loop is left with, if that happens within the rounds. -/
def loop (body : σ → Round σ β) : ℕ → σ → Option β
  | 0, _ => none
  | rounds + 1, s =>
    match body s with
    | .again s' => loop body rounds s'
    | .leave b => some b

/-- The loop is left after some rounds. -/
def Ends (body : σ → Round σ β) (s : σ) : Prop := ∃ rounds, (loop body rounds s).isSome

variable {body : σ → Round σ β} {s s' : σ} {b : β} {n m : ℕ}

theorem loop_leave (h : body s = .leave b) (n : ℕ) : loop body (n + 1) s = some b := by
  rw [loop, h]

theorem loop_again (h : body s = .again s') (n : ℕ) : loop body (n + 1) s = loop body n s' := by
  rw [loop, h]

theorem loop_mono (h : loop body n s = some b) (hle : n ≤ m) : loop body m s = some b := by
  induction n generalizing m s with
  | zero => cases h
  | succ n ih =>
    obtain ⟨m, rfl⟩ := Nat.exists_eq_add_of_le' hle
    rw [← Nat.add_assoc, loop]
    rw [loop] at h
    cases hbody : body s with
    | again s' =>
      rw [hbody] at h
      exact ih h (by omega)
    | leave b' =>
      rw [hbody] at h
      exact h

theorem ends_of_measure {I : σ → Prop} (μ : σ → ℕ)
    (hbody : ∀ s s', I s → body s = .again s' → I s' ∧ μ s' < μ s) (hs : I s) : Ends body s := by
  induction hn : μ s using Nat.strong_induction_on generalizing s with
  | h n ih =>
    cases hround : body s with
    | leave b => exact ⟨1, by rw [loop_leave hround 0]; rfl⟩
    | again s' =>
      obtain ⟨hs', hlt⟩ := hbody s s' hs hround
      obtain ⟨rounds, hrounds⟩ := ih (μ s') (hn ▸ hlt) hs' rfl
      exact ⟨rounds + 1, by rwa [loop_again hround]⟩

/-- A loop with more rounds than the measure is left, with what the invariant allows. -/
theorem loop_of_measure {I : σ → Prop} {Q : β → Prop} (μ : σ → ℕ)
    (hagain : ∀ s s', I s → body s = .again s' → I s' ∧ μ s' < μ s)
    (hleave : ∀ s b, I s → body s = .leave b → Q b) (hs : I s) (hn : μ s < n) :
    ∃ b, loop body n s = some b ∧ Q b := by
  induction n generalizing s with
  | zero => omega
  | succ n ih =>
    rw [loop]
    cases hround : body s with
    | again s' =>
      obtain ⟨hs', hlt⟩ := hagain s s' hs hround
      exact ih hs' (by omega)
    | leave b => exact ⟨b, rfl, hleave s b hs hround⟩

theorem loop_of_reaches (μ : σ → ℕ) (hagain : ∀ s s', body s = .again s' → μ s' < μ s)
    (h : Relation.ReflTransGen (fun s s' => body s = .again s') s s') (hleave : body s' = .leave b)
    (hn : μ s < n) : loop body n s = some b := by
  induction h using Relation.ReflTransGen.head_induction_on generalizing n with
  | refl =>
    obtain ⟨n, rfl⟩ := Nat.exists_eq_add_of_lt hn
    exact loop_leave hleave _
  | head hround _ ih =>
    have hlt := hagain _ _ hround
    obtain ⟨n, rfl⟩ : ∃ m, n = m + 1 := ⟨n - 1, by omega⟩
    rw [loop_again hround]
    exact ih (by omega)

/-- A loop that is always brought round again is never left. -/
theorem not_ends {I : σ → Prop} (hbody : ∀ s, I s → ∃ s', body s = .again s' ∧ I s') (hs : I s) :
    ¬ Ends body s := by
  rintro ⟨rounds, hrounds⟩
  induction rounds generalizing s with
  | zero => cases hrounds
  | succ rounds ih =>
    obtain ⟨s', hagain, hs'⟩ := hbody s hs
    rw [loop_again hagain] at hrounds
    exact ih hs' hrounds

end YlUtils
