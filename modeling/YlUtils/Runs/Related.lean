import Mathlib.Data.Option.Basic
import Mathlib.Data.List.Basic

/-! # Relations between fallible computations

Two computations are related if both fail, or both succeed with related
results. The rules follow sequential composition, and carry a relation between
states from one step to every run.
-/

namespace YlUtils

universe u

variable {α β γ δ : Type u} {m : Option α} {n : Option β} {f : α → Option γ}
  {g : β → Option δ} {R S : α → β → Prop} {Q : γ → δ → Prop}

theorem rel_bind (h : Option.Rel R m n) (hfg : ∀ a b, R a b → Option.Rel Q (f a) (g b)) :
    Option.Rel Q (m.bind f) (n.bind g) := by
  cases h with
  | some h => exact hfg _ _ h
  | none => exact .none

theorem rel_map {f : α → γ} {g : β → δ} (h : Option.Rel R m n)
    (hfg : ∀ a b, R a b → Q (f a) (g b)) : Option.Rel Q (f <$> m) (g <$> n) := by
  cases h with
  | some h => exact .some (hfg _ _ h)
  | none => exact .none

theorem rel_ite {p : Prop} [Decidable p] {m' : Option α} {n' : Option β}
    (h : p → Option.Rel R m n) (h' : ¬p → Option.Rel R m' n') :
    Option.Rel R (if p then m else m') (if p then n else n') := by
  split
  · next hp => exact h hp
  · next hp => exact h' hp

theorem rel_bind_same {f : α → Option γ} {g : α → Option δ} (m : Option α)
    (hfg : ∀ a, Option.Rel Q (f a) (g a)) : Option.Rel Q (m.bind f) (m.bind g) := by
  cases m with
  | some a => exact hfg a
  | none => exact .none

theorem eq_of_rel {m n : Option α} (h : Option.Rel (fun a b => b = a) m n) : n = m := by
  cases h with
  | some h => rw [h]
  | none => rfl

theorem rel_foldlM {ε : Type} {σ τ : Type u} {step : σ → ε → Option σ} {next : τ → ε → Option τ}
    {R : σ → τ → Prop} {s : σ} {t : τ}
    (hstep : ∀ s t e, R s t → Option.Rel R (step s e) (next t e)) (h : R s t) (es : List ε) :
    Option.Rel R (es.foldlM step s) (es.foldlM next t) := by
  induction es generalizing s t with
  | nil => exact .some h
  | cons e es ih =>
    rw [List.foldlM_cons, List.foldlM_cons]
    exact rel_bind (hstep s t e h) fun _ _ h => ih h

end YlUtils
