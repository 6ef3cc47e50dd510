import Mathlib.Data.Option.Basic
import Mathlib.Data.List.Basic

/-! # Total correctness of fallible steps

A step is a function into `Option`; it fails where the program it models has no
defined behaviour. The rules compose postconditions along a computation, and
carry an invariant or a simulation from one step to every run.
-/

namespace YlUtils

universe u v

/-- The computation succeeds and its result satisfies `P`. -/
def Succeeds {α : Type u} (m : Option α) (P : α → Prop) : Prop := ∃ a, m = some a ∧ P a

section Rules

variable {α β : Type u} {m : Option α} {f : α → Option β} {P Q : α → Prop} {R : β → Prop} {a : α}

@[simp] theorem succeeds_some : Succeeds (some a) P ↔ P a := by
  simp [Succeeds]

@[simp] theorem not_succeeds_none : ¬ Succeeds none P := by
  simp [Succeeds]

theorem Succeeds.mono (h : Succeeds m P) (hPQ : ∀ a, P a → Q a) : Succeeds m Q := by
  obtain ⟨a, rfl, ha⟩ := h
  exact ⟨a, rfl, hPQ a ha⟩

theorem Succeeds.bind (h : Succeeds m P) (hf : ∀ a, P a → Succeeds (f a) R) :
    Succeeds (m.bind f) R := by
  obtain ⟨a, rfl, ha⟩ := h
  exact hf a ha

theorem Succeeds.map {g : α → β} (h : Succeeds m fun a => R (g a)) : Succeeds (g <$> m) R := by
  obtain ⟨a, rfl, ha⟩ := h
  exact ⟨g a, rfl, ha⟩

theorem Succeeds.ite {c : Prop} [Decidable c] {m' : Option α} (h : c → Succeeds m P)
    (h' : ¬ c → Succeeds m' P) : Succeeds (if c then m else m') P := by
  by_cases hc : c
  · rw [if_pos hc]
    exact h hc
  · rw [if_neg hc]
    exact h' hc

theorem Succeeds.of_eq (h : Succeeds m P) (he : m = some a) : P a := by
  obtain ⟨b, hb, hP⟩ := h
  rw [he] at hb
  exact Option.some.inj hb ▸ hP

theorem mapM_congr {g : α → Option β} {l : List α} (h : ∀ a ∈ l, f a = g a) :
    l.mapM f = l.mapM g := by
  induction l with
  | nil => rfl
  | cons a l ih =>
    rw [List.mapM_cons, List.mapM_cons, h a List.mem_cons_self,
      ih fun b hb => h b (List.mem_cons_of_mem a hb)]

theorem mapM_eq_some {g : α → β} {l : List α} (h : ∀ a ∈ l, f a = some (g a)) :
    l.mapM f = some (l.map g) := by
  induction l with
  | nil => rfl
  | cons a l ih =>
    rw [List.mapM_cons, h a List.mem_cons_self, ih fun b hb => h b (List.mem_cons_of_mem a hb)]
    rfl

end Rules

section Runs

variable {σ τ ε : Type} {step : σ → ε → Option σ} {s : σ}

theorem foldlM_succeeds {I : σ → Prop} (hstep : ∀ s e, I s → Succeeds (step s e) I) (hs : I s)
    (es : List ε) : Succeeds (es.foldlM step s) I := by
  induction es generalizing s with
  | nil => simpa using hs
  | cons e es ih => exact (hstep s e hs).bind fun s' hs' => ih hs'

theorem isSome_foldlM {es : List ε} (h : ∀ e ∈ es, ∀ s, (step s e).isSome) (s : σ) :
    (es.foldlM step s).isSome := by
  induction es generalizing s with
  | nil => rfl
  | cons e es ih =>
    obtain ⟨s', hs'⟩ := Option.isSome_iff_exists.mp (h e List.mem_cons_self s)
    rw [List.foldlM_cons, hs']
    exact ih (fun e he => h e (List.mem_cons_of_mem _ he)) s'

/-- A step simulated by a total step is simulated over every run. -/
theorem foldlM_simulates {R : σ → τ → Prop} {next : τ → ε → τ}
    (hstep : ∀ s t e, R s t → Succeeds (step s e) fun s' => R s' (next t e))
    {t : τ} (hs : R s t) (es : List ε) :
    Succeeds (es.foldlM step s) fun s' => R s' (es.foldl next t) := by
  induction es generalizing s t with
  | nil => simpa using hs
  | cons e es ih => exact (hstep s t e hs).bind fun s' hs' => ih hs'

end Runs

end YlUtils
